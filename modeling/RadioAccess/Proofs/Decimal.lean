import Mathlib
import RadioAccess.Decimal.Shortest

/-!
# The Decimals of Doubles

Exactly the finite doubles have a shape with digits, and the shortest decimal of a double has a digit other
than zero unless it is zero itself.  That it reads back is not shown here.
-/

namespace RadioAccess.Decimal

/-! ## Digits -/

theorem digits_onGrid? {tie : Tie} {exponent place : Int} {basin : Basin} {value : Scaled}
    (h : onGrid? tie exponent basin place = some value) : value.digits ≠ 0 := by
  have hround (down : Bool) {below : Nat} (hne : below ≠ 0) :
      (if down then below else below + 1) ≠ 0 := by
    cases down with
    | true => exact hne
    | false => exact Nat.succ_ne_zero below
  unfold onGrid? at h
  dsimp only at h
  split at h
  · rename_i hhits
    simp only [Bool.and_eq_true, decide_eq_true_eq] at hhits
    cases h
    exact hround _ hhits.1.1
  split at h
  · rename_i hbelow
    simp only [Bool.and_eq_true, decide_eq_true_eq] at hbelow
    cases h
    exact hbelow.1
  split at h
  · cases h
    exact Nat.succ_ne_zero _
  · cases h

theorem digits_firstOnGrids {tie : Tie} {exponent : Int} {basin : Basin} {grids : Nat} {place : Int}
    {value : Scaled} (h : firstOnGrids tie exponent basin grids place = some value) :
    value.digits ≠ 0 := by
  induction grids generalizing place with
  | zero => cases h
  | succ grids ih =>
    rw [firstOnGrids] at h
    split at h
    · rename_i found hfound
      cases h
      exact digits_onGrid? hfound
    · exact ih h

theorem digits_trim {value : Scaled} (h : value.digits ≠ 0) : value.trim.digits ≠ 0 := by
  fun_induction Scaled.trim value with
  | case1 value hzero => exact absurd hzero h
  | case2 value hne hdivides ih =>
    refine ih ?_
    show value.digits / 10 ≠ 0
    omega
  | case3 value hne hdivides => exact h

/-- The shortest decimal of a double does not start with a zero, or it is zero. -/
theorem digits_shortest (tie : Tie) (significand : Nat) (exponent : Int) :
    (shortest tie significand exponent).digits ≠ 0 ∨ (shortest tie significand exponent).exponent = 0 := by
  unfold shortest
  split
  · rename_i value hvalue
    exact .inl (digits_trim (digits_firstOnGrids hvalue))
  · exact .inr rfl

/-! ## Finite doubles -/

open Float.Model Float.Model.UnpackedFloat in
/-- A double is finite unless all bits of its exponent field are set. -/
theorem isFinite_eq_false_iff (x : Float) :
    x.isFinite = false ↔ x.toBits.toNat / hiddenBit % (specialField + 1) = specialField := by
  let word : BitVec Format.binary64.numBits := x.toBits.toBitVec
  have hfield : (unpackExponent word).toNat =
      x.toBits.toNat / hiddenBit % (specialField + 1) := by
    simp [word, unpackExponent, hiddenBit, specialField, Nat.shiftRight_eq_div_pow]
  have hones : unpackExponent word = -1#11 ↔
      x.toBits.toNat / hiddenBit % (specialField + 1) = specialField := by
    rw [← BitVec.toNat_inj, hfield]
    rfl
  show (UnpackedFloat.unpack .binary64 word).isFinite = false ↔ _
  rw [← hones, UnpackedFloat.unpack]
  dsimp only
  by_cases hspecial : unpackExponent word = -1#11
  · refine iff_of_true ?_ hspecial
    rw [if_pos hspecial]
    split <;> rfl
  · refine iff_of_false (fun hfinite ↦ ?_) hspecial
    rw [if_neg hspecial] at hfinite
    split at hfinite
    · split at hfinite <;> cases hfinite
    · cases hfinite

/-- A double that is not finite has no digits. -/
theorem Shape.ofFloat_eq_finite_iff (x : Float) :
    (∃ negative significand exponent, Shape.ofFloat x = .finite negative significand exponent) ↔
      x.isFinite = true := by
  rw [← Bool.not_eq_false, isFinite_eq_false_iff, Shape.ofFloat]
  by_cases hspecial : x.toBits.toNat / hiddenBit % (specialField + 1) = specialField
  · refine iff_of_false (fun ⟨negative, significand, exponent, hshape⟩ ↦ ?_) (absurd hspecial)
    rw [if_pos hspecial] at hshape
    split at hshape <;> cases hshape
  · refine iff_of_true ?_ hspecial
    rw [if_neg hspecial]
    split <;> exact ⟨_, _, _, rfl⟩

end RadioAccess.Decimal
