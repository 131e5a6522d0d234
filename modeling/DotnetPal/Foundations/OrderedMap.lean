import Mathlib.Algebra.BigOperators.Group.List.Basic
import Mathlib.Algebra.Order.Ring.Nat
import Mathlib.Data.List.Perm.Basic
import Mathlib.Data.List.Nodup
import Std.Data.ExtTreeMap

/-!
# Totals over ordered maps

`Std.ExtTreeMap` is the ordered map of this development: extensional, iterated in key order. What
is added here is `total`, the sum of a weight over all entries, together with the equations that
say how one insertion or one removal moves it. Reference counts, link counts and byte budgets are
all totals, so every accounting invariant reduces to these equations and linear arithmetic.
-/

open Std

namespace DotnetPal.OrderedMap

variable {κ ν μ : Type} {cmp : κ → κ → Ordering} [TransCmp cmp] [LawfulEqCmp cmp]

/-- Two maps agree if they agree at one key and at every other. -/
theorem ext_at {a b : ExtTreeMap κ ν cmp} (key : κ) (hkey : a[key]? = b[key]?)
    (hj : ∀ j, key ≠ j → a[j]? = b[j]?) : a = b := by
  refine ExtTreeMap.ext_getElem? fun j ↦ ?_
  by_cases heq : key = j
  · exact heq ▸ hkey
  · exact hj j heq

variable (weight : κ → ν → ℕ) (map : ExtTreeMap κ ν cmp)

theorem nodup_toList : map.toList.Nodup := by
  refine (ExtTreeMap.distinct_keys_toList (t := map)).imp ?_
  intro a b hdistinct hequal
  exact hdistinct (by rw [hequal]; exact ReflCmp.compare_self)

variable {key : κ}

variable {j : κ}

@[simp]
theorem getElem?_insert_of_ne (v : ν) (h : key ≠ j) : (map.insert key v)[j]? = map[j]? := by
  simp [ExtTreeMap.getElem?_insert, h]

@[simp]
theorem getElem?_erase_of_ne (h : key ≠ j) : (map.erase key)[j]? = map[j]? := by
  simp [ExtTreeMap.getElem?_erase, h]

variable {v : ν}

/-- Writing back the value a key already has changes nothing. -/
theorem insert_eq_self (h : map[key]? = some v) : map.insert key v = map := by
  refine ext_at key (by simp [h]) fun j hkey ↦ ?_
  simp [hkey]

theorem map_insert (f : κ → ν → μ) (key : κ) (v : ν) :
    (map.insert key v).map f = (map.map f).insert key (f key v) := by
  refine ext_at key (by simp) fun j hkey ↦ ?_
  simp [hkey]

theorem map_erase (f : κ → ν → μ) (key : κ) : (map.erase key).map f = (map.map f).erase key := by
  refine ext_at key (by simp) fun j hkey ↦ ?_
  simp [hkey]

/-! ## Pointwise equations by equality of keys -/

variable {change : ν → ν}

section Pointwise

variable [DecidableEq κ]

theorem get_insert (key j : κ) (v : ν) :
    (map.insert key v)[j]? = if key = j then some v else map[j]? := by
  simp [ExtTreeMap.getElem?_insert]

theorem insert_cases {map : ExtTreeMap κ ν cmp} {x : ν} (h : (map.insert key v)[j]? = some x) :
    key = j ∧ v = x ∨ key ≠ j ∧ map[j]? = some x := by
  rw [get_insert] at h
  split at h
  · next heq => exact .inl ⟨heq, Option.some.inj h⟩
  · next hne => exact .inr ⟨hne, h⟩

theorem get_erase (key j : κ) : (map.erase key)[j]? = if key = j then none else map[j]? := by
  simp [ExtTreeMap.getElem?_erase]

theorem get_of_erase {map : ExtTreeMap κ ν cmp} {x : ν} (h : (map.erase key)[j]? = some x) :
    key ≠ j ∧ map[j]? = some x := by
  rw [get_erase] at h
  split at h
  · cases h
  · next hne => exact ⟨hne, h⟩

theorem get_modify (key j : κ) (change : ν → ν) :
    (map.modify key change)[j]? = if key = j then map[j]?.map change else map[j]? := by
  rw [ExtTreeMap.getElem?_modify]
  by_cases h : key = j
  · subst h
    simp
  · simp [h]

theorem modify_cases {map : ExtTreeMap κ ν cmp} {x : ν} (h : (map.modify key change)[j]? = some x) :
    (key = j ∧ ∃ old, map[j]? = some old ∧ change old = x) ∨ key ≠ j ∧ map[j]? = some x := by
  rw [get_modify] at h
  split at h
  · next heq => exact .inl ⟨heq, Option.map_eq_some_iff.mp h⟩
  · next hne => exact .inr ⟨hne, h⟩

end Pointwise

/-- Changing a value that is there is writing the changed value. -/
theorem modify_eq_insert (change : ν → ν)
    (h : map[key]? = some v) : map.modify key change = map.insert key (change v) := by
  refine ext_at key (by simp [h]) fun j hkey ↦ ?_
  simp [ExtTreeMap.getElem?_modify, hkey]

theorem modify_eq_self (h : ∀ v, map[key]? = some v → change v = v) : map.modify key change = map := by
  refine ext_at key ?_ fun j hkey ↦ by simp [ExtTreeMap.getElem?_modify, hkey]
  cases hv : map[key]? with
  | none => simp [hv]
  | some v => simp [hv, h v hv]

theorem modify_modify (key : κ) (a b : ν → ν) :
    (map.modify key a).modify key b = map.modify key (b ∘ a) := by
  refine ext_at key ?_ fun j hkey ↦ by simp [ExtTreeMap.getElem?_modify, hkey]
  cases hv : map[key]? <;> simp [hv]

/-- A projection that follows a change turns it into a change of what it projects to. -/
theorem map_modify (f : ν → μ) (key : κ) (change : ν → ν) (follow : μ → μ)
    (h : ∀ v, f (change v) = follow (f v)) :
    (map.modify key change).map (fun _ v ↦ f v) = (map.map fun _ v ↦ f v).modify key follow := by
  refine ext_at key ?_ fun j hkey ↦ by simp [ExtTreeMap.getElem?_modify, hkey]
  cases hv : map[key]? <;> simp [hv, h]

/-- A projection that does not see a change. -/
theorem map_modify_same (f : ν → μ) (key : κ) (change : ν → ν)
    (h : ∀ v, map[key]? = some v → f (change v) = f v) :
    (map.modify key change).map (fun _ v ↦ f v) = map.map fun _ v ↦ f v := by
  refine ext_at key ?_ fun j hkey ↦ by simp [ExtTreeMap.getElem?_modify, hkey]
  cases hv : map[key]? <;> simp [hv, h]

theorem toList_perm_cons_erase (h : map[key]? = some v) :
    map.toList.Perm ((key, v) :: (map.erase key).toList) := by
  have hnot : (key, v) ∉ (map.erase key).toList := by
    rw [ExtTreeMap.mem_toList_iff_getElem?_eq_some]
    simp
  apply (List.perm_ext_iff_of_nodup (nodup_toList map) (List.nodup_cons.mpr ⟨hnot, nodup_toList _⟩)).mpr
  rintro ⟨j, x⟩
  rw [List.mem_cons, ExtTreeMap.mem_toList_iff_getElem?_eq_some, ExtTreeMap.mem_toList_iff_getElem?_eq_some]
  by_cases hkey : key = j
  · subst hkey
    simp [h, eq_comm]
  · simp [hkey, Ne.symm hkey]

/-! ## The total of a weight -/

/-- The sum of `weight` over every entry of the map. -/
def total (weight : κ → ν → ℕ) (map : ExtTreeMap κ ν cmp) : ℕ :=
  (map.toList.map fun entry ↦ weight entry.1 entry.2).sum

omit [LawfulEqCmp cmp] in
@[simp]
theorem total_empty : total weight (∅ : ExtTreeMap κ ν cmp) = 0 := by
  have hnil : (∅ : ExtTreeMap κ ν cmp).toList = [] := ExtTreeMap.toList_eq_nil_iff.mpr rfl
  simp [total, hnil]

/-- Removing an entry lowers the total by its weight. -/
theorem total_erase_add (h : map[key]? = some v) :
    total weight (map.erase key) + weight key v = total weight map := by
  have hperm := (toList_perm_cons_erase map h).map fun e ↦ weight e.1 e.2
  have hsum := hperm.sum_eq
  simp only [total, List.map_cons, List.sum_cons] at hsum ⊢
  omega

theorem erase_eq_self (h : map[key]? = none) : map.erase key = map := by
  refine ext_at key (by simp [h]) fun j hkey ↦ ?_
  simp [hkey]

theorem erase_insert (key : κ) (v : ν) : (map.insert key v).erase key = map.erase key := by
  refine ext_at key (by simp) fun j hkey ↦ ?_
  simp [hkey]

/-- An insertion adds the new weight to the total of everything else. -/
theorem total_insert (key : κ) (v : ν) :
    total weight (map.insert key v) = total weight (map.erase key) + weight key v := by
  have h := total_erase_add weight (map.insert key v) (ExtTreeMap.getElem?_insert_self)
  rw [erase_insert] at h
  exact h.symm

theorem total_insert_new (v : ν) (h : map[key]? = none) :
    total weight (map.insert key v) = total weight map + weight key v := by
  rw [total_insert, erase_eq_self map h]

variable {before : ν}

/-- Replacing a value moves the total by the difference of the two weights. -/
theorem total_insert_add (new : ν) (h : map[key]? = some before) :
    total weight (map.insert key new) + weight key before = total weight map + weight key new := by
  have herase := total_erase_add weight map h
  rw [total_insert]
  omega

/-- Replacing a value by one of the same weight keeps the total. -/
theorem total_insert_same {new : ν} (h : map[key]? = some before)
    (hsame : weight key new = weight key before) :
    total weight (map.insert key new) = total weight map := by
  have hmove := total_insert_add weight map new h
  omega

/-- Changing a value moves the total by the difference of the two weights. -/
theorem total_modify_add (change : ν → ν) (h : map[key]? = some before) :
    total weight (map.modify key change) + weight key before = total weight map +
      weight key (change before) := by
  rw [modify_eq_insert map change h]
  exact total_insert_add weight map (change before) h

/-- A change that keeps the weight of what is there keeps the total. -/
theorem total_modify_same (h : ∀ v, map[key]? = some v → weight key (change v) = weight key v) :
    total weight (map.modify key change) = total weight map := by
  cases hv : map[key]? with
  | none => rw [modify_eq_self map (by simp [hv])]
  | some v =>
    have hmove := total_modify_add weight map change hv
    have hsame := h v hv
    omega

theorem weight_le_total (h : map[key]? = some v) : weight key v ≤ total weight map := by
  have herase := total_erase_add weight map h
  omega

/-- A total vanishes exactly when every entry weighs nothing. -/
theorem total_eq_zero_iff : total weight map = 0 ↔ ∀ key v, map[key]? = some v → weight key v = 0 := by
  constructor
  · intro h key v he
    have hle := weight_le_total weight map he
    omega
  · intro h
    apply List.sum_eq_zero
    simp only [List.mem_map, Prod.exists, ExtTreeMap.mem_toList_iff_getElem?_eq_some,
      forall_exists_index, and_imp]
    intro amount key v he hamount
    rw [← hamount]
    exact h key v he

/-- A positive total has an entry that contributes to it. -/
theorem exists_of_total_pos (h : 0 < total weight map) :
    ∃ key v, map[key]? = some v ∧ 0 < weight key v := by
  by_contra hnone
  have hzero : total weight map = 0 := by
    rw [total_eq_zero_iff]
    intro key v he
    by_contra hweight
    exact hnone ⟨key, v, he, Nat.pos_of_ne_zero hweight⟩
  omega

omit [LawfulEqCmp cmp] in
theorem total_map (weight : κ → μ → ℕ) (f : κ → ν → μ) :
    total weight (map.map f) = total (fun key v ↦ weight key (f key v)) map := by
  simp [total, ExtTreeMap.toList_map, Function.comp_def]

/-! ## Tallies -/

section Tally

variable [DecidableEq ν]

/-- How many keys have a value. -/
def tally (value : ν) (map : ExtTreeMap κ ν cmp) : ℕ :=
  total (fun _ other ↦ if other = value then 1 else 0) map

theorem tally_insert_new (added v : ν) (h : map[key]? = none) :
    tally v (map.insert key added) = tally v map + if added = v then 1 else 0 :=
  total_insert_new _ map added h

theorem tally_erase_add {removed : ν} (v : ν) (h : map[key]? = some removed) :
    tally v (map.erase key) + (if removed = v then 1 else 0) = tally v map :=
  total_erase_add _ map h

theorem tally_insert_add (new v : ν) (h : map[key]? = some before) :
    tally v (map.insert key new) + (if before = v then 1 else 0) =
      tally v map + if new = v then 1 else 0 :=
  total_insert_add _ map new h

theorem tally_pos (h : map[key]? = some v) : 0 < tally v map := by
  have hle := weight_le_total (fun _ j ↦ if j = v then 1 else 0) map h
  rw [if_pos rfl] at hle
  exact hle

theorem exists_of_tally_pos (h : 0 < tally v map) : ∃ key : κ, map[key]? = some v := by
  obtain ⟨key, x, hx, hweight⟩ := exists_of_total_pos _ map h
  refine ⟨key, ?_⟩
  split at hweight
  · rename_i hv
    rwa [hv] at hx
  · cases hweight

theorem tally_eq_zero_iff (v : ν) : tally v map = 0 ↔ ∀ key : κ, map[key]? ≠ some v := by
  constructor
  · intro hzero key hkey
    exact absurd (tally_pos map hkey) (by omega)
  · intro hnone
    by_contra hpos
    obtain ⟨key, hkey⟩ := exists_of_tally_pos map (Nat.pos_of_ne_zero hpos)
    exact hnone key hkey

end Tally

end DotnetPal.OrderedMap
