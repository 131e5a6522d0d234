import DotnetPal.Foundations.Machines
import Mathlib.Algebra.Order.Ring.Nat
import Mathlib.Logic.Function.Basic

/-!
# Thread-local keys of the standard-library providers

A key is a boxed index into `KEYS`, a process-wide table of destructors; every thread keeps its
own vector of values and calls destructors when it exits. A destroyed key frees its index, and
the next create takes it again, while the values of the threads stay where they are. A step is
what a call does under the lock of `KEYS` or to the slots of its own thread. A null pointer is
zero; what an exiting thread does inside a destructor is creating and destroying keys, since its
slots are gone by then.
-/

open List Option Function

namespace DotnetPal.StdCommon

open Programs

/-- A used place of `KEYS`, with the key it was created for. -/
structure KeyEntry where
  key : ℕ
  destructor : Option ℕ
  deriving DecidableEq

/-- A value a thread set under a key. -/
structure SetValue where
  thread : ℕ
  key : ℕ
  value : ℕ
  deriving DecidableEq

/-- A call of a destructor at the exit of a thread, with the key the destructor was created for. -/
structure DestructorCall where
  thread : ℕ
  key : ℕ
  destructor : ℕ
  value : ℕ
  deriving DecidableEq

/-- Where a thread is. -/
inductive LocalPhase
  | running
  /-- A set, before it looks whether the key exists and before it writes the slot. -/
  | setting (key i value : ℕ)
  | storing (key i value : ℕ)
  /-- The exit in one of its rounds over the slots, and with a value taken out of a slot. -/
  | scanning (round i : ℕ) (pending : Bool)
  | holding (round i value : ℕ) (pending : Bool)
  | exited
  deriving DecidableEq

namespace LocalPhase

def alive : LocalPhase → Bool
  | .running | .setting .. | .storing .. => true
  | _ => false

/-- The key and the index of a set. -/
def target : LocalPhase → Option (ℕ × ℕ)
  | .setting key i _ | .storing key i _ => some (key, i)
  | _ => none

/-- The index and the value of a slot that the exit has emptied. -/
def hand : LocalPhase → Option (ℕ × ℕ)
  | .holding _ i value _ => some (i, value)
  | _ => none

/-- The index a thread is at work on. -/
def index : LocalPhase → Option ℕ
  | .setting _ i _ | .storing _ i _ | .holding _ i _ _ => some i
  | _ => none

theorem index_of_target {phase : LocalPhase} {key x : ℕ} (h : phase.target = some (key, x)) :
    phase.index = some x := by
  cases phase <;> simp_all [target, index]

theorem index_of_hand {phase : LocalPhase} {x v : ℕ} (h : phase.hand = some (x, v)) :
    phase.index = some x := by
  cases phase <;> simp_all [hand, index]

end LocalPhase

structure ThreadLocal where
  /-- `KEYS`. -/
  keys : List (Option KeyEntry)
  /-- The index in the box of every key that is alive. -/
  handles : ℕ → Option ℕ
  created : ℕ
  /-- `SLOTS` of every thread. -/
  slots : ℕ → List ℕ
  phases : ℕ → LocalPhase
  /-- What was set and which destructors were called, the last first. -/
  stored : List SetValue
  calls : List DestructorCall

/-- Writes a slot, with the vector grown to hold it. -/
def storeAt (slots : List ℕ) (i value : ℕ) : List ℕ :=
  (if slots.length ≤ i then slots ++ replicate (i + 1 - slots.length) 0 else slots).set i value

theorem getD_storeAt (slots : List ℕ) (i v x : ℕ) :
    (storeAt slots i v).getD x 0 = if x = i then v else slots.getD x 0 := by
  by_cases heq : x = i
  · subst heq
    rw [if_pos rfl, storeAt]
    split_ifs with hshort
    · rw [getD_eq_getElem?_getD, getElem?_set_self (by simp; omega), getD_some]
    · rw [getD_eq_getElem?_getD, getElem?_set_self (by omega), getD_some]
  · rw [if_neg heq, storeAt, getD_eq_getElem?_getD, getElem?_set_ne (Ne.symm heq)]
    split_ifs with hshort
    · by_cases hbound : x < slots.length
      · rw [getElem?_append_left hbound, getD_eq_getElem?_getD]
      · have hnone : slots[x]? = none := getElem?_eq_none (by omega)
        rw [getElem?_append_right (by omega), getElem?_replicate, getD_eq_getElem?_getD, hnone]
        split_ifs <;> rfl
    · rw [getD_eq_getElem?_getD]

namespace ThreadLocal

inductive Action
  | create (destructor : Option ℕ)
  | destroy (key : ℕ)
  | set (thread key value : ℕ)
  | check (thread : ℕ)
  | store (thread : ℕ)
  | exit (thread : ℕ)
  | scan (thread : ℕ)
  | look (thread : ℕ)

def initial : ThreadLocal where
  keys := []
  handles _ := none
  created := 0
  slots _ := []
  phases _ := .running
  stored := []
  calls := []

def withPhase (t : ℕ) (phase : LocalPhase) (w : ThreadLocal) : ThreadLocal :=
  { w with phases := update w.phases t phase }

/-- The value in a slot of a thread. -/
def slot (w : ThreadLocal) (t i : ℕ) : ℕ := (w.slots t).getD i 0

/-- What get answers for a key that is alive. -/
def get (w : ThreadLocal) (t key : ℕ) : Option ℕ := (w.handles key).map (w.slot t)

/-- The place a create takes again. -/
def recycled (w : ThreadLocal) : Option ℕ := w.keys.findIdx? (·.isNone)

def next : Action → ThreadLocal → Option ThreadLocal
  | .create destructor, w =>
    match w.recycled with
    | some i =>
      some { w with
        keys := w.keys.set i (some ⟨w.created, destructor⟩)
        handles := update w.handles w.created (some i)
        created := w.created + 1 }
    | none =>
      some { w with
        keys := w.keys ++ [some ⟨w.created, destructor⟩]
        handles := update w.handles w.created (some w.keys.length)
        created := w.created + 1 }
  | .destroy key, w =>
    match w.handles key with
    | some i =>
      match w.keys[i]? with
      | some (some _) =>
        some { w with keys := w.keys.set i none, handles := update w.handles key none }
      | _ => some { w with handles := update w.handles key none }
    | none => none
  | .set t key value, w =>
    match w.phases t, w.handles key with
    | .running, some i => some (w.withPhase t (.setting key i value))
    | _, _ => none
  | .check t, w =>
    match w.phases t with
    | .setting key i value =>
      match w.keys[i]? with
      | some (some _) => some (w.withPhase t (.storing key i value))
      | _ => some (w.withPhase t .running)
    | _ => none
  | .store t, w =>
    match w.phases t with
    | .storing key i value =>
      some { w.withPhase t .running with
        slots := update w.slots t (storeAt (w.slots t) i value)
        stored := ⟨t, key, value⟩ :: w.stored }
    | _ => none
  | .exit t, w =>
    if w.phases t = .running then some (w.withPhase t (.scanning 0 0 false)) else none
  | .scan t, w =>
    match w.phases t with
    | .scanning round i pending =>
      if i < (w.slots t).length then
        some { w.withPhase t (if w.slot t i = 0 then .scanning round (i + 1) pending
            else .holding round i (w.slot t i) pending) with
          slots := update w.slots t ((w.slots t).set i 0) }
      else if pending = true ∧ round + 1 < 4 then some (w.withPhase t (.scanning (round + 1) 0 false))
      else some (w.withPhase t .exited)
    | _ => none
  | .look t, w =>
    match w.phases t with
    | .holding round i value pending =>
      match w.keys[i]? with
      | some (some ⟨key, some destructor⟩) =>
        some { w.withPhase t (.scanning round (i + 1) true) with
          calls := ⟨t, key, destructor, value⟩ :: w.calls }
      | _ => some (w.withPhase t (.scanning round (i + 1) pending))
    | _ => none

def machine : Machine ThreadLocal Action where
  start := initial
  next := next

/-! ## Keys do not see each other's values -/

/-- The value a thread last set under a key. -/
def lastSet (w : ThreadLocal) (t key : ℕ) : ℕ :=
  ((w.stored.find? fun entry ↦ entry.thread = t ∧ entry.key = key).map (·.value)).getD 0

/-- An index is taken again only when no thread has a value there, holds one from there, or
sets one there. -/
def Action.Clean : Action → ThreadLocal → Prop
  | .create _, w => ∀ i, w.recycled = some i →
    ∀ t, w.slot t i = 0 ∧ (w.phases t).index ≠ some i
  | _, _ => True

structure Isolated (w : ThreadLocal) : Prop where
  owned : ∀ key i, w.handles key = some i ↔
    ∃ destructor, w.keys[i]? = some (some ⟨key, destructor⟩)
  fresh : ∀ key i, w.handles key = some i → key < w.created
  past : ∀ entry ∈ w.stored, entry.key < w.created
  bound : ∀ t i, w.slot t i ≠ 0 → i < w.keys.length
  /-- A set is at work for the one key that may have its index. -/
  target : ∀ t key i, (w.phases t).target = some (key, i) → key < w.created ∧
    i < w.keys.length ∧ (∀ found, w.handles key = some found → found = i) ∧
    ∀ other, w.handles other = some i → other = key
  last : ∀ t key i, (w.phases t).alive = true → w.handles key = some i →
    w.slot t i = w.lastSet t key
  slots : ∀ t key i, w.handles key = some i → w.slot t i ≠ 0 →
    ⟨t, key, w.slot t i⟩ ∈ w.stored
  hand : ∀ t i value, (w.phases t).hand = some (i, value) → value ≠ 0 ∧
    i < w.keys.length ∧ ∀ key, w.handles key = some i → ⟨t, key, value⟩ ∈ w.stored
  calls : ∀ call ∈ w.calls, call.value ≠ 0 ∧ ⟨call.thread, call.key, call.value⟩ ∈ w.stored

variable {w w' : ThreadLocal} {t key i v : ℕ} {phase : LocalPhase}

theorem isolated_initial : Isolated initial where
  owned _ _ := by simp [initial]
  fresh _ _ h := by cases h
  past _ h := by cases h
  bound _ _ h := by simp [initial, slot] at h
  target _ _ _ h := by cases h
  last _ _ _ _ h := by cases h
  slots _ _ _ h := by cases h
  hand _ _ _ h := by cases h
  calls _ h := by cases h

section Phases

@[simp]
theorem phases_withPhase_self : (w.withPhase t phase).phases t = phase := update_self ..

theorem phases_withPhase_cases (w : ThreadLocal) (t : ℕ) (phase : LocalPhase) (j : ℕ) :
    (j = t ∧ (w.withPhase t phase).phases j = phase) ∨
      (w.withPhase t phase).phases j = w.phases j := by
  by_cases hne : j = t
  · exact .inl ⟨hne, by rw [hne, phases_withPhase_self]⟩
  · exact .inr (update_of_ne hne ..)

end Phases

variable (h : Isolated w)
include h

/-- A thread goes on, and neither slots nor keys change. -/
theorem Isolated.move
    (htarget : ∀ key i, phase.target = some (key, i) → key < w.created ∧ i < w.keys.length ∧
      (∀ x, w.handles key = some x → x = i) ∧ ∀ j, w.handles j = some i → j = key)
    (halive : phase.alive = true → (w.phases t).alive = true)
    (hhand : ∀ i v, phase.hand = some (i, v) → v ≠ 0 ∧ i < w.keys.length ∧
      ∀ key, w.handles key = some i → ⟨t, key, v⟩ ∈ w.stored) :
    Isolated (w.withPhase t phase) where
  owned := h.owned
  fresh := h.fresh
  past := h.past
  bound := h.bound
  target j key i hj := by
    rcases phases_withPhase_cases w t phase j with ⟨_, hnew⟩ | hsame
    · exact htarget key i (hnew ▸ hj)
    · exact h.target j key i (hsame ▸ hj)
  last j key i hj := by
    rcases phases_withPhase_cases w t phase j with ⟨rfl, hnew⟩ | hsame
    · exact h.last j key i (halive (hnew ▸ hj))
    · exact h.last j key i (hsame ▸ hj)
  slots := h.slots
  hand j i v hj := by
    rcases phases_withPhase_cases w t phase j with ⟨rfl, hnew⟩ | hsame
    · exact hhand i v (hnew ▸ hj)
    · exact h.hand j i v (hsame ▸ hj)
  calls := h.calls

/-- A thread goes on with nothing in hand and nothing to set. -/
theorem Isolated.rest (htarget : phase.target = none)
    (halive : phase.alive = true → (w.phases t).alive = true) (hhand : phase.hand = none) :
    Isolated (w.withPhase t phase) :=
  h.move (by simp [htarget]) halive (by simp [hhand])

theorem Isolated.key_unique {j : ℕ} (hkey : w.handles key = some i)
    (hj : w.handles j = some i) : j = key := by
  obtain ⟨_, ha⟩ := (h.owned key i).mp hkey
  obtain ⟨_, hb⟩ := (h.owned j i).mp hj
  have he := hb.symm.trans ha
  simp only [some.injEq, KeyEntry.mk.injEq] at he
  exact he.1

/-- A new key takes a place that no key has and where no thread has left anything. -/
theorem Isolated.create (destructor : Option ℕ) {keys : List (Option KeyEntry)}
    (hkeys : ∀ x, keys[x]? = if x = i then some (some ⟨w.created, destructor⟩) else w.keys[x]?)
    (hfree : ∀ e, w.keys[i]? ≠ some (some e)) (hlen : w.keys.length ≤ keys.length)
    (hclean : ∀ t, w.slot t i = 0 ∧ (w.phases t).index ≠ some i) :
    Isolated { w with
      keys := keys
      handles := update w.handles w.created (some i)
      created := w.created + 1 } := by
  have hnone : w.handles w.created = none := by
    cases hhandle : w.handles w.created with
    | none => rfl
    | some x => exact absurd (h.fresh _ _ hhandle) (lt_irrefl _)
  have hcases : ∀ key x, update w.handles w.created (some i) key = some x →
      (key = w.created ∧ x = i) ∨ (w.handles key = some x ∧ x ≠ i) := by
    intro key x hkey
    by_cases heq : key = w.created
    · rw [heq, update_self] at hkey
      exact .inl ⟨heq, (some.inj hkey).symm⟩
    · rw [update_of_ne heq] at hkey
      refine .inr ⟨hkey, ?_⟩
      rintro rfl
      obtain ⟨destructor, hp⟩ := (h.owned key x).mp hkey
      exact hfree _ hp
  have hunused : ∀ t, w.lastSet t w.created = 0 := by
    intro t
    have hfind : (w.stored.find? fun e ↦ e.thread = t ∧ e.key = w.created) = none := by
      refine find?_eq_none.mpr fun e he ↦ ?_
      have hpast := h.past e he
      simp only [decide_eq_true_eq, not_and]
      omega
    rw [lastSet, hfind]
    rfl
  refine ⟨fun key x ↦ ⟨fun hkey ↦ ?_, fun hp ↦ ?_⟩, fun key x hkey ↦ ?_,
    fun e he ↦ (h.past e he).trans (Nat.lt_succ_self _),
    fun t x hne ↦ (h.bound t x hne).trans_le hlen, fun t key x htarget ↦ ?_,
    fun t key x halive hkey ↦ ?_, fun t key x hkey hne ↦ ?_, fun t x v hhand ↦ ?_, h.calls⟩
  · rw [hkeys]
    rcases hcases key x hkey with ⟨rfl, rfl⟩ | ⟨hold, hne⟩
    · exact ⟨destructor, if_pos rfl⟩
    · rw [if_neg hne]
      exact (h.owned key x).mp hold
  · obtain ⟨j, hp⟩ := hp
    rw [hkeys] at hp
    split_ifs at hp with heq
    · simp only [some.injEq, KeyEntry.mk.injEq] at hp
      rw [← hp.1, heq]
      exact update_self ..
    · have hold := (h.owned key x).mpr ⟨j, hp⟩
      refine (update_of_ne ?_ _ _).trans hold
      rintro rfl
      cases hnone.symm.trans hold
  · rcases hcases key x hkey with ⟨rfl, _⟩ | ⟨hold, _⟩
    · exact Nat.lt_succ_self _
    · exact (h.fresh key x hold).trans (Nat.lt_succ_self _)
  · obtain ⟨hkey, hbound, hown, honly⟩ := h.target t key x htarget
    have hindex : x ≠ i := by
      rintro rfl
      exact (hclean t).2 (LocalPhase.index_of_target htarget)
    refine ⟨hkey.trans (Nat.lt_succ_self _), hbound.trans_le hlen, fun j hj ↦ ?_, fun j hj ↦ ?_⟩
    · rcases hcases key j hj with ⟨rfl, _⟩ | ⟨hold, _⟩
      · exact absurd hkey (lt_irrefl _)
      · exact hown j hold
    · rcases hcases j x hj with ⟨_, heq⟩ | ⟨hold, _⟩
      · exact absurd heq hindex
      · exact honly j hold
  · rcases hcases key x hkey with ⟨rfl, rfl⟩ | ⟨hold, _⟩
    · exact (hclean t).1.trans (hunused t).symm
    · exact h.last t key x halive hold
  · rcases hcases key x hkey with ⟨_, rfl⟩ | ⟨hold, _⟩
    · exact absurd (hclean t).1 hne
    · exact h.slots t key x hold hne
  · obtain ⟨hv, hbound, hset⟩ := h.hand t x v hhand
    refine ⟨hv, hbound.trans_le hlen, fun key hkey ↦ ?_⟩
    rcases hcases key x hkey with ⟨_, rfl⟩ | ⟨hold, _⟩
    · exact absurd (LocalPhase.index_of_hand hhand) (hclean t).2
    · exact hset key hold

/-- A key goes; nothing is promised about its index until it is taken again. -/
theorem Isolated.destroy (hkey : w.handles key = some i) :
    Isolated { w with keys := w.keys.set i none, handles := update w.handles key none } := by
  have hcases : ∀ j x, update w.handles key none j = some x → w.handles j = some x ∧ x ≠ i := by
    intro j x hj
    have hne : j ≠ key := by
      rintro rfl
      rw [update_self] at hj
      cases hj
    rw [update_of_ne hne] at hj
    refine ⟨hj, ?_⟩
    rintro rfl
    exact hne (h.key_unique hkey hj)
  refine ⟨fun j x ↦ ⟨fun hj ↦ ?_, fun hp ↦ ?_⟩, fun j x hj ↦ h.fresh j x (hcases _ _ hj).1,
    h.past, fun t x hne ↦ ?_, fun t j x htarget ↦ ?_,
    fun t j x halive hj ↦ h.last t j x halive (hcases _ _ hj).1,
    fun t j x hj ↦ h.slots t j x (hcases _ _ hj).1, fun t x v hhand ↦ ?_, h.calls⟩
  · obtain ⟨hold, hne⟩ := hcases j x hj
    obtain ⟨destructor, hp⟩ := (h.owned j x).mp hold
    exact ⟨destructor, (getElem?_set_ne (Ne.symm hne)).trans hp⟩
  · obtain ⟨destructor, hp⟩ := hp
    have hne : i ≠ x := by
      rintro rfl
      have hbound := (List.getElem?_eq_some_iff.mp hp).1
      cases (getElem?_set_self (by simpa using hbound)).symm.trans hp
    have hold := (h.owned j x).mpr ⟨destructor, (getElem?_set_ne hne).symm.trans hp⟩
    refine (update_of_ne ?_ _ _).trans hold
    rintro rfl
    exact hne (some.inj (hkey.symm.trans hold))
  · rw [length_set]
    exact h.bound t x hne
  · obtain ⟨hbefore, hbound, hown, honly⟩ := h.target t j x htarget
    rw [length_set]
    exact ⟨hbefore, hbound, fun p hp ↦ hown p (hcases _ _ hp).1,
      fun another hanother ↦ honly another (hcases _ _ hanother).1⟩
  · obtain ⟨hv, hbound, hset⟩ := h.hand t x v hhand
    rw [length_set]
    exact ⟨hv, hbound, fun j hj ↦ hset j (hcases _ _ hj).1⟩

omit h in
/-- The slots of all threads after one of them wrote one. -/
theorem slot_update {slots : List ℕ}
    (hslots : ∀ x, slots.getD x 0 = if x = i then v else w.slot t x) (j x : ℕ) :
    (update w.slots t slots j).getD x 0 =
      if j = t ∧ x = i then v else w.slot j x := by
  by_cases hj : j = t
  · subst hj
    simp only [update_self, hslots, true_and]
  · simp [slot, hj]

theorem Isolated.store (hphase : w.phases t = .storing key i v) : Isolated { w.withPhase t .running with
      slots := update w.slots t (storeAt (w.slots t) i v)
      stored := ⟨t, key, v⟩ :: w.stored } := by
  obtain ⟨hbefore, hbound, hown, honly⟩ := h.target t key i (by rw [hphase]; rfl)
  have hmove : Isolated (w.withPhase t .running) :=
    h.rest rfl (fun _ ↦ by simp [hphase, LocalPhase.alive]) rfl
  have hslot := slot_update (getD_storeAt (w.slots t) i v)
  refine ⟨h.owned, h.fresh, fun e he ↦ ?_, fun j x hne ↦ ?_, hmove.target,
    fun j x p halive hp ↦ ?_, fun j x p hp hne ↦ ?_, fun j x held hhand ↦ ?_,
    fun call hcall ↦ ⟨(h.calls call hcall).1, mem_cons_of_mem _ (h.calls call hcall).2⟩⟩
  · rcases mem_cons.mp he with rfl | hold
    · exact hbefore
    · exact h.past e hold
  · rw [slot, hslot] at hne
    split_ifs at hne with hsame
    · exact hsame.2 ▸ hbound
    · exact h.bound j x hne
  · have hlast : w.slot j p = w.lastSet j x := hmove.last j x p halive hp
    -- The slot of the key is the slot written, since the key has one index and the index one key.
    have hiff : (j = t ∧ p = i) ↔ (t = j ∧ key = x) := by
      refine and_congr eq_comm ⟨?_, ?_⟩
      · rintro rfl
        exact (honly x hp).symm
      · rintro rfl
        exact hown p hp
    rw [slot, hslot]
    simp only [hiff, lastSet, find?_cons]
    split_ifs with hsame
    · simp [hsame]
    · simpa [hsame, lastSet] using hlast
  · rw [slot, hslot] at hne ⊢
    split_ifs at hne ⊢ with hsame
    · obtain ⟨rfl, rfl⟩ := hsame
      rw [honly x hp]
      exact mem_cons_self
    · exact mem_cons_of_mem _ (h.slots j x p hp hne)
  · obtain ⟨hv, hp, hset⟩ := hmove.hand j x held hhand
    exact ⟨hv, hp, fun another hanother ↦ mem_cons_of_mem _ (hset another hanother)⟩

/-- The exit takes a value out of a slot. -/
theorem Isolated.scan (halive : phase.alive = false) (htarget : phase.target = none)
    (hhand : ∀ x v, phase.hand = some (x, v) → x = i ∧ v = w.slot t i ∧ v ≠ 0) :
    Isolated { w.withPhase t phase with
      slots := update w.slots t ((w.slots t).set i 0) } := by
  have hmove : Isolated (w.withPhase t phase) := by
    refine h.move (by simp [htarget]) (by simp [halive]) fun x v hx ↦ ?_
    obtain ⟨rfl, rfl, hne⟩ := hhand x v hx
    exact ⟨hne, h.bound t x hne, fun key hkey ↦ h.slots t key x hkey hne⟩
  have hcleared : ∀ x, ((w.slots t).set i 0).getD x 0 =
      if x = i then 0 else w.slot t x := by
    intro x
    rw [getD_eq_getElem?_getD, getElem?_set, slot, getD_eq_getElem?_getD]
    by_cases hx : x = i
    · subst hx
      split_ifs <;> simp_all
    · simp [hx, Ne.symm hx]
  have hslot := slot_update hcleared
  refine ⟨h.owned, h.fresh, h.past, fun j x hne ↦ ?_, hmove.target, fun j key x hj hkey ↦ ?_,
    fun j key x hkey hne ↦ ?_, hmove.hand, h.calls⟩
  · rw [slot, hslot] at hne
    split_ifs at hne
    · exact absurd rfl hne
    · exact h.bound j x hne
  · have hne : j ≠ t := by
      rintro rfl
      rw [phases_withPhase_self, halive] at hj
      cases hj
    rw [slot, hslot, if_neg fun hsame ↦ hne hsame.1]
    exact hmove.last j key x hj hkey
  · rw [slot, hslot] at hne ⊢
    split_ifs at hne ⊢
    · exact absurd rfl hne
    · exact h.slots j key x hkey hne

/-- The exit calls the destructor of the key that has the index of the value in hand. -/
theorem Isolated.look {round : ℕ} {pending : Bool} {destructor : ℕ}
    (hphase : w.phases t = .holding round i v pending)
    (hp : w.keys[i]? = some (some ⟨key, some destructor⟩)) :
    Isolated { w.withPhase t (.scanning round (i + 1) true) with
      calls := ⟨t, key, destructor, v⟩ :: w.calls } := by
  have hmove : Isolated (w.withPhase t (.scanning round (i + 1) true)) :=
    h.rest rfl (by simp [LocalPhase.alive]) rfl
  obtain ⟨hv, _, hset⟩ := h.hand t i v (by rw [hphase]; rfl)
  refine ⟨hmove.owned, hmove.fresh, hmove.past, hmove.bound, hmove.target, hmove.last, hmove.slots,
    hmove.hand, fun call hcall ↦ ?_⟩
  rcases mem_cons.mp hcall with rfl | hold
  · exact ⟨hv, hset key ((h.owned key i).mpr ⟨_, hp⟩)⟩
  · exact h.calls call hold

theorem Isolated.next {action : Action} (hclean : action.Clean w)
    (hnext : next action w = some w') : Isolated w' := by
  cases action with
  | create destructor =>
    simp only [ThreadLocal.next] at hnext
    split at hnext
    · next i hindex =>
      cases hnext
      obtain ⟨hbound, hnone, _⟩ := findIdx?_eq_some_iff_getElem.mp hindex
      have hp : w.keys[i]? = some none := by
        rw [getElem?_eq_getElem hbound, isNone_iff_eq_none.mp hnone]
      refine h.create destructor (fun x ↦ ?_) (fun e he ↦ ?_) (by simp) (hclean i hindex)
      · by_cases heq : x = i
        · rw [heq, if_pos rfl, getElem?_set_self hbound]
        · rw [if_neg heq, getElem?_set_ne (Ne.symm heq)]
      · cases hp.symm.trans he
    · cases hnext
      have hbeyond : ∀ t, ¬w.slot t w.keys.length ≠ 0 :=
        fun t hne ↦ lt_irrefl _ (h.bound t _ hne)
      refine h.create destructor (fun x ↦ ?_) (fun e he ↦ ?_) (by simp)
        fun t ↦ ⟨not_not.mp (hbeyond t), ?_⟩
      · by_cases heq : x = w.keys.length
        · rw [heq, if_pos rfl, getElem?_concat_length]
        · rw [if_neg heq]
          by_cases hshort : x < w.keys.length
          · rw [getElem?_append_left hshort]
          · rw [getElem?_eq_none (by simp; omega), getElem?_eq_none (by omega)]
      · cases (getElem?_eq_none le_rfl).symm.trans he
      · intro hindex
        cases hphase : w.phases t with
        | setting key i v | storing key i v =>
          have hbound := (h.target t key i (by rw [hphase]; rfl)).2.1
          rw [hphase] at hindex
          exact hbound.ne (some.inj hindex)
        | holding round i v pending =>
          have hbound := (h.hand t i v (by rw [hphase]; rfl)).2.1
          rw [hphase] at hindex
          exact hbound.ne (some.inj hindex)
        | running | scanning round i pending | exited =>
          rw [hphase] at hindex
          cases hindex
  | destroy key =>
    simp only [ThreadLocal.next] at hnext
    split at hnext
    · next i hkey =>
      split at hnext
      · cases hnext
        exact h.destroy hkey
      · next hj =>
        obtain ⟨destructor, hp⟩ := (h.owned key i).mp hkey
        exact absurd hp (hj _)
    · cases hnext
  | set t key v =>
    simp only [ThreadLocal.next] at hnext
    split at hnext
    · next i hphase hkey =>
      cases hnext
      refine h.move (fun x p hx ↦ ?_) (fun _ ↦ by simp [hphase, LocalPhase.alive])
        (by simp [LocalPhase.hand])
      simp only [LocalPhase.target, some.injEq, Prod.mk.injEq] at hx
      obtain ⟨rfl, rfl⟩ := hx
      obtain ⟨destructor, hp⟩ := (h.owned key i).mp hkey
      exact ⟨h.fresh key i hkey, (List.getElem?_eq_some_iff.mp hp).1,
        fun x hx ↦ some.inj (hx.symm.trans hkey), fun j hj ↦ h.key_unique hkey hj⟩
    · cases hnext
  | check t =>
    simp only [ThreadLocal.next] at hnext
    split at hnext
    · next key i v hphase =>
      split at hnext <;> cases hnext
      · refine h.move (fun x p hx ↦ h.target t x p ?_) (fun _ ↦ by simp [hphase, LocalPhase.alive])
          (by simp [LocalPhase.hand])
        rw [hphase]
        exact hx
      · exact h.rest rfl (fun _ ↦ by simp [hphase, LocalPhase.alive]) rfl
    · cases hnext
  | store t =>
    simp only [ThreadLocal.next] at hnext
    split at hnext <;> cases hnext
    exact h.store ‹_›
  | exit t =>
    obtain ⟨_, hnext⟩ := ite_none_right_eq_some.mp hnext
    cases hnext
    exact h.rest rfl (by simp [LocalPhase.alive]) rfl
  | scan t =>
    simp only [ThreadLocal.next] at hnext
    split at hnext
    · next round i pending hphase =>
      split_ifs at hnext with hbound hempty hround <;> cases hnext
      · exact h.scan rfl rfl (by simp [LocalPhase.hand])
      · refine h.scan rfl rfl fun x v hx ↦ ?_
        simp only [LocalPhase.hand, some.injEq, Prod.mk.injEq] at hx
        obtain ⟨rfl, rfl⟩ := hx
        exact ⟨rfl, rfl, hempty⟩
      · exact h.rest rfl (by simp [LocalPhase.alive]) rfl
      · exact h.rest rfl (by simp [LocalPhase.alive]) rfl
    · cases hnext
  | look t =>
    simp only [ThreadLocal.next] at hnext
    split at hnext
    · split at hnext <;> cases hnext
      · exact h.look ‹_› ‹_›
      · exact h.rest rfl (by simp [LocalPhase.alive]) rfl
    · cases hnext

omit h

theorem isolated_of_reachable (hreach : (machine.system Action.Clean).Reachable w) : Isolated w :=
  Machine.invariant isolated_initial (fun _ _ _ hclean h hnext ↦ h.next hclean hnext) hreach

/-- Where an index is taken again only when every thread is done with it: get of a key that is alive
answers what the thread last set under it, and destructors get values the exiting thread set under
their own key. -/
theorem values_of_clean (hreach : (machine.system Action.Clean).Reachable w) :
    (∀ t key, (w.phases t).alive = true → (w.handles key).isSome = true →
      w.get t key = some (w.lastSet t key)) ∧
    ∀ call ∈ w.calls, call.value ≠ 0 ∧ ⟨call.thread, call.key, call.value⟩ ∈ w.stored := by
  have h := isolated_of_reachable hreach
  refine ⟨fun t key halive hkey ↦ ?_, h.calls⟩
  obtain ⟨i, hindex⟩ := isSome_iff_exists.mp hkey
  rw [get, hindex, map_some, h.last t key i halive hindex]

/-- A thread sets a value under a key and exits. -/
def oneValue : List Action := [.set 0 0 7, .check 0, .store 0, .exit 0, .scan 0, .look 0]

theorem values_of_clean_oneValue :
    ∃ w, (machine.system Action.Clean).Reachable w ∧ w.calls = [⟨0, 0, 1, 7⟩] ∧
      ∀ call ∈ w.calls, call.value ≠ 0 ∧ ⟨call.thread, call.key, call.value⟩ ∈ w.stored := by
  have hclean : Action.Clean (.create (some 1)) initial := by
    intro i hindex
    cases hindex
  have hcreated := (System.Reachable.of_start rfl :
    (machine.system Action.Clean).Reachable initial).of_step ⟨_, hclean, rfl⟩
  have hfree : ∀ action ∈ oneValue, ∀ state, action.Clean state := by
    simp [oneValue, Action.Clean]
  have hended := Machine.Reachable.of_free hcreated hfree (show machine.run oneValue _ = some _ from rfl)
  exact ⟨_, hended, rfl, (values_of_clean hended).2⟩

/-- A key is destroyed with a value set, and the next key gets its index: get answers the old value,
and at exit the new destructor gets it. -/
theorem recycled_value :
    (∃ w, machine.run
      [.create (some 1), .set 0 0 7, .check 0, .store 0, .destroy 0, .create (some 2)] initial = some w ∧
      w.phases 0 = .running ∧ w.get 0 1 = some 7 ∧ w.lastSet 0 1 = 0) ∧
    ∃ w, machine.run
      [.create (some 1), .set 0 0 7, .check 0, .store 0, .destroy 0, .create (some 2), .exit 0,
      .scan 0, .look 0] initial = some w ∧ w.calls = [⟨0, 1, 2, 7⟩] ∧ ⟨0, 1, 7⟩ ∉ w.stored :=
  ⟨⟨_, rfl, rfl, rfl, rfl⟩, _, rfl, rfl, by decide⟩

end ThreadLocal

end DotnetPal.StdCommon
