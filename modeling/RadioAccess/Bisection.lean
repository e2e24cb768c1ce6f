/-!
# Bisection

The position from which on a sequence ceases to satisfy a condition, found by halving.  If an initial
part satisfies the condition and the rest does not, it is the length of that part (`changePoint_eq`).
On any other sequence it still is a definite position, which depends on the positions that are looked
at; so the order in which they are looked at is part of the definition.
-/

namespace RadioAccess

namespace Bisection

/-- Narrows the window of `size` positions from `base` on to a single one.  The later half is kept if
its first position satisfies `holds`, and the earlier half otherwise. -/
def narrow (holds : Nat → Bool) (base size : Nat) : Nat :=
  if size ≤ 1 then base
  else
    narrow holds (if holds (base + size / 2) then base + size / 2 else base) (size - size / 2)
termination_by size

/-- Where the positions below `size` cease to satisfy `holds`. -/
def changePoint (holds : Nat → Bool) (size : Nat) : Nat :=
  if size = 0 then 0
  else if holds (narrow holds 0 size) then narrow holds 0 size + 1
  else narrow holds 0 size

/-! ## Where the condition changes once -/

/-- The window shrinks to the last position that satisfies the condition, or to its own end next to it. -/
theorem narrow_eq {holds : Nat → Bool} {point base size : Nat} (hsize : 0 < size)
    (h : ∀ i, i < base + size → (holds i = true ↔ i < point)) :
    narrow holds base size = max base (min (point - 1) (base + size - 1)) := by
  fun_induction narrow holds base size with
  | case1 base size hone => omega
  | case2 base size hmore ih =>
    have hmiddle := h (base + size / 2) (by omega)
    split at ih
    · rename_i hholds
      have := hmiddle.mp hholds
      rw [if_pos hholds, ih (by omega) fun i hi ↦ h i (by omega)]
      omega
    · rename_i hfails
      have : ¬ base + size / 2 < point := fun hlt ↦ hfails (hmiddle.mpr hlt)
      rw [if_neg hfails, ih (by omega) fun i hi ↦ h i (by omega)]
      omega

/-- What holds up to some position and not from there on changes at that position. -/
theorem changePoint_eq {holds : Nat → Bool} {point size : Nat} (hpoint : point ≤ size)
    (h : ∀ i, i < size → (holds i = true ↔ i < point)) : changePoint holds size = point := by
  unfold changePoint
  split
  · omega
  · rename_i hsize
    have hlast : narrow holds 0 size = max 0 (min (point - 1) (0 + size - 1)) :=
      narrow_eq (Nat.pos_of_ne_zero hsize) (by simpa using h)
    have hholds := h (narrow holds 0 size) (by omega)
    split
    · rename_i ht
      have := hholds.mp ht
      omega
    · rename_i hf
      have : ¬ narrow holds 0 size < point := fun hlt ↦ hf (hholds.mpr hlt)
      omega

end Bisection

end RadioAccess
