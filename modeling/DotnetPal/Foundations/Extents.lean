import Mathlib.Data.List.TakeDrop

/-!
# Arrays that grow by a fill value

The reference behaviour of a byte array with a settable length: a resize keeps a prefix and fills
what is new, an overwrite that starts past the end fills the gap. Both are determined by what they
leave at every index, which is how an implementation is compared with them.
-/

open List

namespace DotnetPal.Extents

variable {α : Type}

/-- The array cut or filled to exactly `size` elements. -/
def resize (fill : α) (array : List α) (size : ℕ) : List α :=
  array.take size ++ replicate (size - array.length) fill

/-- The array with `data` at `start`, filled up to there if it ends before. -/
def overwrite (fill : α) (array : List α) (start : ℕ) (data : List α) : List α :=
  resize fill array start ++ data ++ array.drop (start + data.length)

@[simp]
theorem length_resize (fill : α) (array : List α) (size : ℕ) : (resize fill array size).length = size := by
  simp only [resize, length_append, length_take, length_replicate]
  omega

theorem getElem?_resize (fill : α) (array : List α) (size i : ℕ) : (resize fill array size)[i]? =
      if i < size then some (array[i]?.getD fill) else none := by
  unfold resize
  grind

theorem length_overwrite (fill : α) (array : List α) (start : ℕ) (data : List α) :
    (overwrite fill array start data).length = max array.length (start + data.length) := by
  simp only [overwrite, length_append, length_resize, length_drop]
  omega

theorem getElem?_overwrite (fill : α) (array : List α) (start : ℕ) (data : List α) (i : ℕ) :
    (overwrite fill array start data)[i]? =
      if i < start then some (array[i]?.getD fill)
      else if i < start + data.length then data[i - start]?
      else array[i]? := by
  rw [overwrite, append_assoc, getElem?_append, length_resize, getElem?_resize]
  split
  · rfl
  · rename_i hstart
    rw [getElem?_append, getElem?_drop]
    by_cases hdata : i < start + data.length
    · rw [if_pos (by omega), if_pos hdata]
    · rw [if_neg (by omega), if_neg hdata]
      congr 1
      omega

/-- An overwrite that goes on where another one ended. -/
theorem overwrite_append (fill : α) (array : List α) (start : ℕ) (a b : List α) :
    overwrite fill (overwrite fill array start a) (start + a.length) b =
      overwrite fill array start (a ++ b) := by
  apply ext_getElem?
  intro i
  simp only [getElem?_overwrite, getElem?_append, length_append]
  grind

theorem resize_self (fill : α) (array : List α) : resize fill array array.length = array := by
  simp [resize]

end DotnetPal.Extents
