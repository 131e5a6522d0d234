import Mathlib.Data.List.Basic
import Mathlib.Data.List.Nodup

/-!
# Lists of items with distinct keys

A table kept as a list: items are found, changed and removed by a key, and a change or a removal
takes the first item with the key. Where the keys are distinct that item is the only one.
-/

namespace DotnetPal.KeyedList

variable {α κ : Type} (key : α → κ)

/-- No two items have one key. -/
def Distinct (list : List α) : Prop := (list.map key).Nodup

variable {key} in
theorem Distinct.eq {list : List α} (h : Distinct key list) {x second : α} (hfirst : x ∈ list)
    (hsecond : second ∈ list) (hkey : key x = key second) : x = second :=
  List.inj_on_of_nodup_map h hfirst hsecond hkey

variable [DecidableEq κ]

def find (wanted : κ) (list : List α) : Option α := list.find? fun item ↦ key item = wanted

/-- Changes the first item with a key. -/
def replace (wanted : κ) (change : α → α) : List α → List α
  | [] => []
  | item :: rest => if key item = wanted then change item :: rest else item :: replace wanted change rest

/-- Removes the first item with a key. -/
def remove (wanted : κ) (list : List α) : List α := list.eraseP fun item ↦ key item = wanted

variable {key} {k : κ} {list : List α} {item : α}

theorem find_eq_some_iff (h : Distinct key list) :
    find key k list = some item ↔ item ∈ list ∧ key item = k := by
  refine ⟨fun hfind ↦ ⟨List.mem_of_find?_eq_some hfind, by simpa using List.find?_some hfind⟩,
    fun ⟨hmem, hkey⟩ ↦ ?_⟩
  cases hfind : find key k list with
  | none =>
    have hnone := List.find?_eq_none.mp hfind item hmem
    simp [hkey] at hnone
  | some x =>
    have hx : key x = k := by simpa using List.find?_some hfind
    exact congrArg some (h.eq (List.mem_of_find?_eq_some hfind) hmem (hx.trans hkey.symm))

theorem find_eq_none_iff : find key k list = none ↔ ∀ item ∈ list, key item ≠ k := by
  simp [find]

variable {change : α → α}

/-- A change that keeps the key keeps the keys of the list. -/
theorem keys_replace (hkey : ∀ item, key item = k → key (change item) = k) :
    (replace key k change list).map key = list.map key := by
  induction list with
  | nil => rfl
  | cons x rest ih =>
    rw [replace]
    split_ifs with heq
    · rw [List.map_cons, List.map_cons, hkey x heq, heq]
    · rw [List.map_cons, List.map_cons, ih]

variable (h : Distinct key list)
include h

theorem Distinct.replace (hkey : ∀ item, key item = k → key (change item) = k) :
    Distinct key (replace key k change list) := by
  rw [Distinct, keys_replace hkey]
  exact h

theorem mem_replace : item ∈ replace key k change list ↔
      (item ∈ list ∧ key item ≠ k) ∨ ∃ old ∈ list, key old = k ∧ item = change old := by
  induction list with
  | nil => simp [replace]
  | cons x rest ih =>
    obtain ⟨hfresh, hrest⟩ := List.nodup_cons.mp h
    rw [replace]
    split_ifs with heq
    · have hothers : ∀ j ∈ rest, key j ≠ k := fun j hj hkey ↦
        hfresh (List.mem_map.mpr ⟨j, hj, hkey.trans heq.symm⟩)
      simp only [List.mem_cons]
      constructor
      · rintro (rfl | hitem)
        · exact .inr ⟨x, .inl rfl, heq, rfl⟩
        · exact .inl ⟨.inr hitem, hothers item hitem⟩
      · rintro (⟨rfl | hitem, hne⟩ | ⟨old, rfl | hold, hkey, rfl⟩)
        · exact absurd heq hne
        · exact .inr hitem
        · exact .inl rfl
        · exact absurd hkey (hothers old hold)
    · simp only [List.mem_cons, ih hrest]
      constructor
      · rintro (rfl | ⟨hitem, hne⟩ | ⟨old, hold, hkey, rfl⟩)
        · exact .inl ⟨.inl rfl, heq⟩
        · exact .inl ⟨.inr hitem, hne⟩
        · exact .inr ⟨old, .inr hold, hkey, rfl⟩
      · rintro (⟨rfl | hitem, hne⟩ | ⟨old, rfl | hold, hkey, rfl⟩)
        · exact .inl rfl
        · exact .inr (.inl ⟨hitem, hne⟩)
        · exact absurd hkey heq
        · exact .inr (.inr ⟨old, hold, hkey, rfl⟩)

theorem Distinct.remove (k : κ) : Distinct key (remove key k list) :=
  h.sublist (List.eraseP_sublist.map key)

theorem mem_remove : item ∈ remove key k list ↔ item ∈ list ∧ key item ≠ k := by
  induction list with
  | nil => simp [remove]
  | cons x rest ih =>
    obtain ⟨hfresh, hrest⟩ := List.nodup_cons.mp h
    by_cases heq : key x = k
    · have hothers : ∀ j ∈ rest, key j ≠ k := fun j hj hkey ↦
        hfresh (List.mem_map.mpr ⟨j, hj, hkey.trans heq.symm⟩)
      rw [remove, List.eraseP_cons_of_pos (by simpa using heq), List.mem_cons]
      refine ⟨fun hitem ↦ ⟨.inr hitem, hothers item hitem⟩, ?_⟩
      rintro ⟨rfl | hitem, hne⟩
      · exact absurd heq hne
      · exact hitem
    · rw [remove, List.eraseP_cons_of_neg (by simpa using heq), List.mem_cons, List.mem_cons]
      have hrec := ih hrest
      rw [remove] at hrec
      rw [hrec]
      constructor
      · rintro (rfl | ⟨hitem, hne⟩)
        · exact ⟨.inl rfl, heq⟩
        · exact ⟨.inr hitem, hne⟩
      · rintro ⟨rfl | hitem, hne⟩
        · exact .inl rfl
        · exact .inr ⟨hitem, hne⟩

omit h

/-! ## The items with one key -/

theorem filter_remove_of_ne {j : κ} (hne : j ≠ k) :
    (remove key k list).filter (key · = j) = list.filter (key · = j) := by
  induction list with
  | nil => rfl
  | cons x rest ih =>
    by_cases heq : key x = k
    · have hj : key x ≠ j := fun hkey ↦ hne (hkey.symm.trans heq)
      rw [remove, List.eraseP_cons_of_pos (by simpa using heq), List.filter_cons_of_neg (by simpa using hj)]
    · rw [remove] at ih ⊢
      rw [List.eraseP_cons_of_neg (by simpa using heq), List.filter_cons, List.filter_cons, ih]

theorem filter_of_find (hfind : find key k list = some item) :
    list.filter (key · = k) = item :: (remove key k list).filter (key · = k) := by
  induction list with
  | nil => cases hfind
  | cons x rest ih =>
    by_cases heq : key x = k
    · obtain rfl : x = item := by simpa [find, heq] using hfind
      rw [remove, List.eraseP_cons_of_pos (by simpa using heq),
        List.filter_cons_of_pos (by simpa using heq)]
    · rw [remove, List.eraseP_cons_of_neg (by simpa using heq),
        List.filter_cons_of_neg (by simpa using heq),
        List.filter_cons_of_neg (by simpa using heq)]
      exact ih (by simpa [find, heq] using hfind)

theorem perm_of_find (hfind : find key k list = some item) : list.Perm (item :: remove key k list) := by
  induction list with
  | nil => cases hfind
  | cons x rest ih =>
    by_cases heq : key x = k
    · obtain rfl : x = item := by simpa [find, heq] using hfind
      rw [remove, List.eraseP_cons_of_pos (by simpa using heq)]
    · rw [remove, List.eraseP_cons_of_neg (by simpa using heq)]
      exact ((ih (by simpa [find, heq] using hfind)).cons x).trans (List.Perm.swap ..)

end DotnetPal.KeyedList
