import Mathlib.Data.List.Range

/-!
# Blocks of Equal Length

Where a list is written block by block, and all blocks are of one length, the number of an entry is the number
of its block times that length and its place in the block.
-/

namespace RadioAccess

variable {α : Type} {f : Nat → List α} {size : Nat}

theorem length_flatMap_range (hsize : ∀ i, (f i).length = size) (n : Nat) :
    ((List.range n).flatMap f).length = n * size := by
  induction n with
  | zero => rw [Nat.zero_mul, List.range_zero, List.flatMap_nil, List.length_nil]
  | succ n ih =>
    rw [List.range_succ, List.flatMap_append, List.length_append, ih, List.flatMap_singleton, hsize,
      Nat.succ_mul]

/-- An entry of a block follows all blocks before it. -/
theorem getElem?_flatMap_range (hsize : ∀ i, (f i).length = size) {n i j : Nat} (hi : i < n) (hj : j < size) :
    ((List.range n).flatMap f)[i * size + j]? = (f i)[j]? := by
  induction n with
  | zero => omega
  | succ n ih =>
    have hlength := length_flatMap_range hsize n
    rw [List.range_succ, List.flatMap_append, List.flatMap_singleton]
    rcases Nat.lt_succ_iff_lt_or_eq.1 hi with hless | rfl
    · have hinside : i * size + j < n * size := by
        calc
          i * size + j < (i + 1) * size := by rw [Nat.succ_mul]; omega
          _ ≤ n * size := Nat.mul_le_mul_right size hless
      rw [List.getElem?_append_left (by omega), ih hless]
    · rw [List.getElem?_append_right (by omega), hlength, Nat.add_sub_cancel_left]

/-- A block is found where the blocks before it end. -/
theorem take_drop_flatMap_range (hsize : ∀ i, (f i).length = size) {n i : Nat} (hi : i < n) :
    (((List.range n).flatMap f).drop (i * size)).take size = f i := by
  refine List.ext_getElem? fun j ↦ ?_
  rw [List.getElem?_take]
  split
  · rw [List.getElem?_drop, getElem?_flatMap_range hsize hi ‹_›]
  · rw [List.getElem?_eq_none]
    rw [hsize]
    omega

end RadioAccess
