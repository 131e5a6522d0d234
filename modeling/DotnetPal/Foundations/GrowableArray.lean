import Mathlib.Data.List.Basic

/-!
# Growable arrays with a capacity

The vectors of the source reserve memory before they grow, and the code relies on what a reservation
promises: a push that fits the capacity does not ask the allocator. A `Vec` carries its capacity and
the proof that its elements fit. A reservation that already fits is granted without asking; any other
one takes the allocator's answer as an argument, so that statements quantify over all of them.
-/

namespace DotnetPal

/-- The elements of a growable array with the number of elements its memory holds. -/
@[ext]
structure Vec (α : Type) where
  data : List α
  capacity : ℕ
  fits : data.length ≤ capacity

namespace Vec

variable {α : Type}

/-- A new array, which owns no memory yet. -/
def empty : Vec α := ⟨[], 0, by simp⟩

def length (vec : Vec α) : ℕ := vec.data.length

/-- Appends elements. Where the capacity does not hold them the memory grows first. -/
def extend (vec : Vec α) (more : List α) : Vec α :=
  ⟨vec.data ++ more, max vec.capacity (vec.data.length + more.length), by
    rw [List.length_append]
    exact Nat.le_max_right _ _⟩

/-- Keeps the first `count` elements, in the memory there is. -/
def truncate (vec : Vec α) (count : ℕ) : Vec α :=
  ⟨vec.data.take count, vec.capacity, Nat.le_trans (List.length_take_le' _ _) vec.fits⟩

/-- Replaces the elements by a list that fits the memory there is, or one that makes it grow. -/
def withData (vec : Vec α) (data : List α) : Vec α :=
  ⟨data, max vec.capacity data.length, Nat.le_max_right _ _⟩

/-- Room for `additional` more elements. `grant` is the allocator's answer if it has to be asked: a
refusal, or what it adds beyond the elements asked for. -/
def tryReserve (vec : Vec α) (additional : ℕ) (grant : Option ℕ) : Option (Vec α) :=
  if vec.data.length + additional ≤ vec.capacity then some vec
  else grant.map fun slack ↦
    ⟨vec.data, max vec.capacity (vec.data.length + additional + slack), by omega⟩

/-- Room for exactly `additional` more elements, if the allocator has to be asked. -/
def tryReserveExact (vec : Vec α) (additional : ℕ) (granted : Bool) : Option (Vec α) :=
  vec.tryReserve additional (if granted then some 0 else none)

@[simp]
theorem data_empty : (empty : Vec α).data = [] := rfl

@[simp]
theorem data_extend (vec : Vec α) (more : List α) : (vec.extend more).data = vec.data ++ more := rfl

@[simp]
theorem data_withData (vec : Vec α) (data : List α) : (vec.withData data).data = data := rfl

@[simp]
theorem length_eq (vec : Vec α) : vec.length = vec.data.length := rfl

variable {additional : ℕ}

/-- A reservation moves no element. -/
theorem tryReserve_data {vec reserved : Vec α} {grant : Option ℕ}
    (h : vec.tryReserve additional grant = some reserved) : reserved.data = vec.data := by
  unfold tryReserve at h
  split at h
  · rw [Option.some.inj h]
  · obtain ⟨slack, _, hslack⟩ := Option.map_eq_some_iff.mp h
    rw [← hslack]

/-- After a reservation the elements asked for fit. -/
theorem tryReserve_room {vec reserved : Vec α} {grant : Option ℕ}
    (h : vec.tryReserve additional grant = some reserved) :
    vec.data.length + additional ≤ reserved.capacity := by
  unfold tryReserve at h
  split at h
  · rename_i hroom
    rwa [← Option.some.inj h]
  · obtain ⟨slack, _, hslack⟩ := Option.map_eq_some_iff.mp h
    simp only [← hslack]
    omega

/-- A reservation that fits is granted whatever the allocator would say. -/
theorem tryReserve_of_room {vec : Vec α} (grant : Option ℕ)
    (h : vec.data.length + additional ≤ vec.capacity) :
    vec.tryReserve additional grant = some vec := by
  simp [tryReserve, h]

/-- Elements that fit are appended in the memory there is. -/
theorem capacity_extend_of_room {vec : Vec α} {more : List α}
    (h : vec.data.length + more.length ≤ vec.capacity) : (vec.extend more).capacity = vec.capacity := by
  simp [extend, h]

end Vec

end DotnetPal
