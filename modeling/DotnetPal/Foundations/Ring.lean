import Mathlib.Data.Nat.ModEq
import Mathlib.Data.Fin.Basic
import Mathlib.Logic.Function.Basic

/-!
# Rings

A buffer of fixed capacity whose content starts anywhere and goes on at the beginning of the memory
where it reaches the end. Storing appends to the content and taking drops from its front.
-/

open List

namespace DotnetPal

structure Ring (α : Type) (capacity : ℕ) where
  data : Fin capacity → α
  head : ℕ
  count : ℕ

namespace Ring

variable {α : Type} {capacity : ℕ} [NeZero capacity] (ring : Ring α capacity)

/-- Where the value at a position of the content is. -/
def slot (position : ℕ) : Fin capacity := Fin.ofNat capacity (ring.head + position)

def push (value : α) : Ring α capacity :=
  { ring with data := Function.update ring.data (ring.slot ring.count) value, count := ring.count + 1 }

def store (values : List α) : Ring α capacity := values.foldl (fun ring value ↦ ring.push value) ring

/-- The first values. -/
def peek (amount : ℕ) : List α := (range amount).map fun position ↦ ring.data (ring.slot position)

def contents : List α := ring.peek ring.count

def drop (amount : ℕ) : Ring α capacity :=
  { ring with head := (ring.head + amount) % capacity, count := ring.count - amount }

variable {ring}

theorem slot_injective {a b : ℕ} (ha : a < capacity) (hb : b < capacity)
    (h : ring.slot a = ring.slot b) : a = b := by
  have hmod : ring.head + a ≡ ring.head + b [MOD capacity] := congrArg Fin.val h
  have hsame := Nat.ModEq.add_left_cancel' ring.head hmod
  rwa [Nat.ModEq, Nat.mod_eq_of_lt ha, Nat.mod_eq_of_lt hb] at hsame

theorem slot_drop (amount position : ℕ) :
    (ring.drop amount).slot position = ring.slot (amount + position) := by
  apply Fin.ext
  simp [slot, drop, Fin.ofNat, Nat.add_assoc]

theorem contents_push {v : α} (hroom : ring.count < capacity) :
    (ring.push v).contents = ring.contents ++ [v] := by
  unfold contents peek
  rw [show (ring.push v).count = ring.count + 1 from rfl, range_succ, map_append, map_singleton]
  congr 1
  · refine map_congr_left fun position hposition ↦ ?_
    have hlt := mem_range.mp hposition
    have hne : ring.slot position ≠ ring.slot ring.count := fun heq ↦
      hlt.ne (slot_injective (hlt.trans hroom) hroom heq)
    exact Function.update_of_ne hne _ _
  · rw [cons.injEq]
    exact ⟨Function.update_self .., rfl⟩

@[simp]
theorem head_store (values : List α) : (ring.store values).head = ring.head := by
  induction values generalizing ring with
  | nil => rfl
  | cons v values ih => exact ih

@[simp]
theorem count_store (values : List α) : (ring.store values).count = ring.count + values.length := by
  induction values generalizing ring with
  | nil => rfl
  | cons v values ih =>
    have hrest : (ring.store (v :: values)).count = (ring.push v).count + values.length := ih
    rw [hrest, length_cons]
    simp only [push]
    omega

theorem contents_store {values : List α} (hroom : ring.count + values.length ≤ capacity) :
    (ring.store values).contents = ring.contents ++ values := by
  induction values generalizing ring with
  | nil => simp [store]
  | cons v values ih =>
    rw [length_cons] at hroom
    have hrest : (ring.push v).count + values.length ≤ capacity := by
      simp only [push]
      omega
    calc (ring.store (v :: values)).contents
        = ((ring.push v).store values).contents := rfl
      _ = (ring.push v).contents ++ values := ih hrest
      _ = ring.contents ++ v :: values := by rw [contents_push (by omega), append_assoc, singleton_append]

theorem peek_append_contents_drop {amount : ℕ} (hamount : amount ≤ ring.count) :
    ring.peek amount ++ (ring.drop amount).contents = ring.contents := by
  have hn : (ring.drop amount).count = ring.count - amount := rfl
  have hmap : (ring.drop amount).contents =
      (range (ring.count - amount)).map fun position ↦ ring.data (ring.slot (amount + position)) := by
    simp only [contents, peek, hn, slot_drop]
    rfl
  rw [hmap, contents, show ring.count = amount + (ring.count - amount) by omega]
  simp [peek, range_add]

theorem head_drop_lt (amount : ℕ) : (ring.drop amount).head < capacity :=
  Nat.mod_lt _ (Nat.pos_of_neZero capacity)

theorem contents_eq_nil_iff : ring.contents = [] ↔ ring.count = 0 := by
  simp [contents, peek]

end Ring

end DotnetPal
