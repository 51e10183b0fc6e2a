import Mathlib.Data.List.GetD

/-!
# Sparse arrays

An array with a length that grows when it is written behind its end.  What lies between the old
end and the place of the write is filled with a given element `zero`, and so is everything behind
the end.  A read returns the elements of its range that exist.

A list represents the array of its elements.  Lists are written by cutting them apart and putting
them together again, and the two lemmas at the end say that this is the write of the array.
-/

namespace DistributedLab

/-- The elements behind the end are `zero`, so two arrays with the same elements are equal. -/
@[ext] structure SparseArray {α : Type*} (zero : α) where
  length : Nat
  get : Nat → α
  beyond : ∀ i, length ≤ i → get i = zero

namespace SparseArray

variable {α : Type*} {zero : α}

/-- `buf` at the places from `off` on. -/
def write (a : SparseArray zero) (off : Nat) (buf : List α) : SparseArray zero where
  length := max a.length (off + buf.length)
  get i := if off ≤ i ∧ i < off + buf.length then buf.getD (i - off) zero else a.get i
  beyond i hi := by
    have hout : ¬ (off ≤ i ∧ i < off + buf.length) := by omega
    rw [if_neg hout]
    exact a.beyond i (by omega)

/-- The elements of `[off, off + size)` that exist. -/
def read (a : SparseArray zero) (size off : Nat) : List α :=
  (List.range (min a.length (off + size) - off)).map fun i => a.get (off + i)

/-- The array cut off, or filled up. -/
def setLength (a : SparseArray zero) (n : Nat) : SparseArray zero where
  length := n
  get i := if i < n then a.get i else zero
  beyond _ hi := if_neg (Nat.not_lt.mpr hi)

/-! ### Lists -/

def ofList (zero : α) (l : List α) : SparseArray zero where
  length := l.length
  get i := l.getD i zero
  beyond _ hi := List.getD_eq_default l zero hi

/-- The list cut off at `off`, or filled up to `off`. -/
def fit (zero : α) (l : List α) (off : Nat) : List α :=
  l.take off ++ List.replicate (off - l.length) zero

theorem length_fit (l : List α) (off : Nat) : (fit zero l off).length = off := by
  rw [fit, List.length_append, List.length_take, List.length_replicate]
  omega

theorem getD_fit {l : List α} {off i : Nat} (h : i < off) :
    (fit zero l off).getD i zero = l.getD i zero := by
  have hi : i < (l.take off).length ∨ l.length ≤ i := by
    rw [List.length_take]
    omega
  rcases hi with hi | hi
  · rw [fit, List.getD_append _ _ _ _ hi]
    simp [List.getD_eq_getElem?_getD, h]
  · have hlen : (l.take off).length ≤ i := by
      rw [List.length_take]
      omega
    rw [fit, List.getD_append_right _ _ _ _ hlen, List.getD_eq_default l zero hi]
    refine List.getD_replicate zero ?_
    rw [List.length_take]
    omega

/-- A write to the list: what stands before `off`, the buffer, and what stands behind it. -/
theorem ofList_write (l buf : List α) (off : Nat) :
    ofList zero (fit zero l off ++ (buf ++ l.drop (off + buf.length))) =
      (ofList zero l).write off buf := by
  apply SparseArray.ext
  · simp only [ofList, write, List.length_append, length_fit, List.length_drop]
    omega
  · funext i
    simp only [ofList, write]
    by_cases hlow : i < off
    · rw [List.getD_append _ _ _ _ (by rwa [length_fit]), getD_fit hlow, if_neg (by omega)]
    · rw [List.getD_append_right _ _ _ _ (by rw [length_fit]; omega), length_fit]
      by_cases hin : i < off + buf.length
      · rw [List.getD_append _ _ _ _ (by omega), if_pos ⟨by omega, hin⟩]
      · have hplace : off + buf.length + (i - off - buf.length) = i := by omega
        rw [List.getD_append_right _ _ _ _ (by omega), if_neg (by omega)]
        simp [List.getD_eq_getElem?_getD, List.getElem?_drop, hplace]

theorem read_ofList (l : List α) (size off : Nat) :
    (ofList zero l).read size off = (l.drop off).take size := by
  apply List.ext_getElem?
  intro i
  simp only [read, ofList, List.getElem?_map, List.getElem?_take, List.getElem?_drop]
  by_cases hi : i < min l.length (off + size) - off
  · have hget : off + i < l.length := by omega
    rw [List.getElem?_range hi, if_pos (by omega), List.getElem?_eq_getElem hget, Option.map_some,
      List.getD_eq_getElem l zero hget]
  · rw [List.getElem?_eq_none (by simpa using hi)]
    by_cases hsize : i < size
    · rw [if_pos hsize, List.getElem?_eq_none (by omega)]
      rfl
    · rw [if_neg hsize]
      rfl

theorem ofList_take {l : List α} {n : Nat} (h : n ≤ l.length) :
    ofList zero (l.take n) = (ofList zero l).setLength n := by
  apply SparseArray.ext
  · exact List.length_take_of_le h
  · funext i
    simp only [ofList, setLength]
    by_cases hi : i < n
    · rw [if_pos hi]
      simp [List.getD_eq_getElem?_getD, hi]
    · rw [if_neg hi]
      exact List.getD_eq_default _ _ (by rw [List.length_take]; omega)

end SparseArray

end DistributedLab
