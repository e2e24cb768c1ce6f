import Mathlib
import RadioAccess.Real64

/-!
# The Order of Double Precision Numbers

What a number is compared as is its unpacked form, and packing loses nothing of a number that was
unpacked.  From this follow the facts about comparison and about adding zero that the arithmetic of
times and probabilities rests on.  What is not a number compares with nothing, so it needs no care here.
-/

namespace RadioAccess.Real64

open Float.Model Float.Model.UnpackedFloat

/-! ## Packing -/

/-- A finite number is packed by the size of its exponent and its mantissa. -/
theorem pack_finite (sign : Sign) (mantissa : Nat) (exponent : Int) (hpos : 0 < mantissa) :
    UnpackedFloat.pack .binary64 (.finite sign mantissa exponent hpos) =
      if 2 ^ 11 ≤ (exponent + 1023 + 52).toNat + 1 then packedInfinity .binary64 sign
      else if mantissa.log2 + 1 = 53 then
        packComponents .binary64 sign (BitVec.ofNat 11 (exponent + 1023 + 52).toNat)
          (BitVec.ofNat 52 mantissa)
      else packComponents .binary64 sign 0#11 (BitVec.ofNat 52 mantissa) := rfl

theorem pack_unpack (x : Float.Model) : Float.Model.pack x.unpack = x := by
  obtain ⟨bits, hvalid⟩ := x
  simp only [Float.Model.pack, Float.Model.unpack, pack_unpack_of_valid hvalid, UInt64.ofBitVec_toBitVec]

/-! ## Comparison -/

theorem compare_swap (a b : UnpackedFloat) : b.compare a = (a.compare b).map Ordering.swap := by
  have hfinite (e₁ e₂ : Int) (m₁ m₂ : Nat) : (compare e₂ e₁).then (compare m₂ m₁) =
      ((compare e₁ e₂).then (compare m₁ m₂)).swap := by
    rw [Ordering.swap_then, ← Std.OrientedCmp.eq_swap, ← Std.OrientedCmp.eq_swap]
  rcases a with (_ | _) | _ | (_ | _) | ⟨_ | _, m₁, e₁, h₁⟩ <;>
    rcases b with (_ | _) | _ | (_ | _) | ⟨_ | _, m₂, e₂, h₂⟩ <;>
    try rfl
  · exact congrArg (some ∘ Ordering.swap) (hfinite e₁ e₂ m₁ m₂)
  · exact congrArg some (hfinite e₁ e₂ m₁ m₂)

theorem compare_self_ne_lt (a : UnpackedFloat) : a.compare a ≠ some .lt := by
  intro h
  have hswap := compare_swap a a
  rw [h] at hswap
  cases hswap

theorem le_iff (a b : Float) :
    a ≤ b ↔ (a.toModel.unpack.compare b.toModel.unpack).any (·.isLE) = true := decide_eq_true_iff

theorem lt_iff (a b : Float) : a < b ↔ a.toModel.unpack.compare b.toModel.unpack = some .lt := by
  apply Iff.trans decide_eq_true_iff
  exact beq_iff_eq

/-- Where an unpacked number stands among all of them: by kind and sign, then by the exponent, then by
the mantissa. -/
def rank : UnpackedFloat → ℤ ×ₗ ℤ ×ₗ ℤ
  | .infinity .negative => toLex (-2, toLex (0, 0))
  | .finite .negative mantissa exponent _ => toLex (-1, toLex (-exponent, -mantissa))
  | .zero _ => toLex (0, toLex (0, 0))
  | .finite .positive mantissa exponent _ => toLex (1, toLex (exponent, mantissa))
  | .infinity .positive => toLex (2, toLex (0, 0))
  | .notANumber => toLex (0, toLex (0, 0))

/-- Numbers are compared by their ranks. -/
theorem compare_eq_lt_iff (a b : UnpackedFloat) :
    a.compare b = some .lt ↔ a ≠ .notANumber ∧ b ≠ .notANumber ∧ rank a < rank b := by
  have hlt (e₁ e₂ : Int) (m₁ m₂ : Nat) : (compare e₁ e₂).then (compare m₁ m₂) = .lt ↔
      e₁ < e₂ ∨ e₁ = e₂ ∧ m₁ < m₂ := by
    rw [Ordering.then_eq_lt, compare_lt_iff_lt, compare_eq_iff_eq, compare_lt_iff_lt]
  have hgt (e₁ e₂ : Int) (m₁ m₂ : Nat) : (compare e₁ e₂).then (compare m₁ m₂) = .gt ↔
      e₂ < e₁ ∨ e₁ = e₂ ∧ m₂ < m₁ := by
    rw [Ordering.then_eq_gt, compare_gt_iff_gt, compare_eq_iff_eq, compare_gt_iff_gt]
  have hsign : compare Sign.negative Sign.positive = .lt := rfl
  rcases a with (_ | _) | _ | (_ | _) | ⟨_ | _, m₁, e₁, h₁⟩ <;>
    rcases b with (_ | _) | _ | (_ | _) | ⟨_ | _, m₂, e₂, h₂⟩ <;>
    simp [UnpackedFloat.compare, rank, Prod.Lex.toLex_lt_toLex, hlt, hgt, hsign]

theorem unpack_ne_notANumber_iff (x : Float) : x.toModel.unpack ≠ .notANumber ↔ x.isNaN = false := by
  show _ ↔ x.toModel.unpack.isNaN = false
  cases x.toModel.unpack <;> simp [UnpackedFloat.isNaN]

theorem lt_iff_rank_lt (a b : Float) : a < b ↔ a.isNaN = false ∧ b.isNaN = false ∧
    rank a.toModel.unpack < rank b.toModel.unpack := by
  rw [lt_iff, compare_eq_lt_iff, unpack_ne_notANumber_iff, unpack_ne_notANumber_iff]

theorem compare_eq_none_iff (a b : UnpackedFloat) :
    a.compare b = none ↔ a = .notANumber ∨ b = .notANumber := by
  rcases a with (_ | _) | _ | (_ | _) | ⟨_ | _, m₁, e₁, h₁⟩ <;>
    rcases b with (_ | _) | _ | (_ | _) | ⟨_ | _, m₂, e₂, h₂⟩ <;>
    simp [UnpackedFloat.compare]

theorem le_iff_rank_le (a b : Float) : a ≤ b ↔ a.isNaN = false ∧ b.isNaN = false ∧
    rank a.toModel.unpack ≤ rank b.toModel.unpack := by
  have hlt := compare_eq_lt_iff b.toModel.unpack a.toModel.unpack
  have hnone := compare_eq_none_iff a.toModel.unpack b.toModel.unpack
  rw [compare_swap a.toModel.unpack] at hlt
  rw [le_iff, ← not_lt, ← unpack_ne_notANumber_iff, ← unpack_ne_notANumber_iff]
  cases horder : a.toModel.unpack.compare b.toModel.unpack with
  | none =>
    rw [horder] at hnone
    rcases hnone.1 rfl with h | h <;> simp [h]
  | some order => cases order <;> simp_all

theorem lt_irrefl (a : Float) : ¬a < a := fun h ↦ ((lt_iff_rank_lt a a).1 h).2.2.false

theorem lt_trans {a b c : Float} (hab : a < b) (hbc : b < c) : a < c := by
  rw [lt_iff_rank_lt] at hab hbc ⊢
  exact ⟨hab.1, hbc.2.1, hab.2.2.trans hbc.2.2⟩

theorem not_lt_of_le {a b : Float} (h : a ≤ b) : ¬b < a := by
  rw [le_iff_rank_le] at h
  rw [lt_iff_rank_lt]
  exact fun hlt ↦ not_lt.2 h.2.2 hlt.2.2

theorem le_refl {a : Float} (ha : a.isNaN = false) : a ≤ a := (le_iff_rank_le a a).2 ⟨ha, ha, le_rfl⟩

theorem le_trans {a b c : Float} (hab : a ≤ b) (hbc : b ≤ c) : a ≤ c := by
  rw [le_iff_rank_le] at hab hbc ⊢
  exact ⟨hab.1, hbc.2.1, hab.2.2.trans hbc.2.2⟩

theorem le_of_lt {a b : Float} (h : a < b) : a ≤ b := by
  rw [lt_iff_rank_lt] at h
  exact (le_iff_rank_le a b).2 ⟨h.1, h.2.1, h.2.2.le⟩

theorem le_of_not_lt {a b : Float} (h : ¬b < a) (ha : a.isNaN = false) (hb : b.isNaN = false) : a ≤ b := by
  rw [lt_iff_rank_lt] at h
  exact (le_iff_rank_le a b).2 ⟨ha, hb, not_lt.1 fun hlt ↦ h ⟨hb, ha, hlt⟩⟩

/-- What lies between finite numbers is finite. -/
theorem isFinite_of_le_of_le {a b x : Float} (hax : a ≤ x) (hxb : x ≤ b) (ha : a.isFinite = true)
    (hb : b.isFinite = true) : x.isFinite = true := by
  rw [le_iff] at hax hxb
  change a.toModel.unpack.isFinite = true at ha
  change b.toModel.unpack.isFinite = true at hb
  show x.toModel.unpack.isFinite = true
  generalize a.toModel.unpack = low at *
  generalize b.toModel.unpack = high at *
  cases hx : x.toModel.unpack with
  | notANumber =>
    rw [hx] at hax
    cases low <;> simp [UnpackedFloat.compare] at hax
  | infinity sign =>
    rw [hx] at hax hxb
    cases sign with
    | positive => cases high <;> simp [UnpackedFloat.compare, UnpackedFloat.isFinite] at hxb hb
    | negative => cases low <;> simp [UnpackedFloat.compare, UnpackedFloat.isFinite] at hax ha
  | zero sign => rfl
  | finite sign mantissa exponent hpos => rfl

theorem lt_of_le_of_lt {a b c : Float} (hab : a ≤ b) (hbc : b < c) : a < c := by
  rw [le_iff_rank_le] at hab
  rw [lt_iff_rank_lt] at hbc ⊢
  exact ⟨hab.1, hbc.2.1, hab.2.2.trans_lt hbc.2.2⟩

theorem lt_of_lt_of_le {a b c : Float} (hab : a < b) (hbc : b ≤ c) : a < c := by
  rw [le_iff_rank_le] at hbc
  rw [lt_iff_rank_lt] at hab ⊢
  exact ⟨hab.1, hbc.2.1, hab.2.2.trans_le hbc.2.2⟩

/-- A number below one that is not above a third is below the third. -/
theorem lt_of_lt_of_not_lt {a b c : Float} (hab : a < b) (hcb : ¬c < b) (hc : c.isNaN = false) :
    a < c := by
  rw [lt_iff_rank_lt] at hab hcb ⊢
  obtain ⟨ha, hb, hrank⟩ := hab
  have hle : rank b.toModel.unpack ≤ rank c.toModel.unpack := not_lt.1 fun hlt ↦ hcb ⟨hc, hb, hlt⟩
  exact ⟨ha, hc, hrank.trans_le hle⟩

/-! ## Zero -/

theorem unpack_zero : (0.0 : Float).toModel.unpack = .zero .positive := by
  have hzero : (0.0 : Float) = Float.ofBits 0 := by decide +kernel
  rw [hzero]
  rfl

theorem unpack_pack_zero (sign : Sign) : (Float.Model.pack (.zero sign)).unpack = .zero sign := by
  cases sign <;> rfl

/-- Two unpacked numbers are equal, or both are zero. -/
def SameRank (a b : UnpackedFloat) : Prop := a = b ∨ ∃ s t, a = .zero s ∧ b = .zero t

theorem SameRank.compare_eq {a b : UnpackedFloat} (h : SameRank a b) (c : UnpackedFloat) :
    a.compare c = b.compare c := by
  obtain rfl | ⟨s, t, rfl, rfl⟩ := h
  · rfl
  · rcases c with (_ | _) | _ | _ | ⟨_ | _, m, e, hm⟩ <;> rfl

/-- Adding zero does not change the rank of a number. -/
theorem sameRank_add_zero (x : Float) {z : Float} {sign : Sign} (hz : z.toModel.unpack = .zero sign) :
    SameRank (x + z).toModel.unpack x.toModel.unpack := by
  have hsum : (x + z).toModel =
      Float.Model.pack (UnpackedFloat.add .binary64 x.toModel.unpack (.zero sign)) := by
    rw [← hz]
    rfl
  have hback : (Float.Model.pack x.toModel.unpack).unpack = x.toModel.unpack := by rw [pack_unpack]
  rw [hsum]
  cases hx : x.toModel.unpack with
  | zero s =>
    right
    by_cases hsame : (s == sign) = true
    · exact ⟨s, s, by rw [UnpackedFloat.add, if_pos hsame, unpack_pack_zero], rfl⟩
    · exact ⟨.positive, s, by rw [UnpackedFloat.add, if_neg hsame, unpack_pack_zero], rfl⟩
  | notANumber =>
    rw [hx] at hback
    exact .inl hback
  | infinity s =>
    rw [hx] at hback
    exact .inl hback
  | finite s m e hm =>
    rw [hx] at hback
    exact .inl hback

theorem unpack_pack_notANumber : (Float.Model.pack .notANumber).unpack = .notANumber := rfl

/-- A zero, or what is not a number. -/
inductive Nought : UnpackedFloat → Prop where
  | notANumber : Nought .notANumber
  | zero (sign : Sign) : Nought (.zero sign)

theorem nought_zero : Nought (0.0 : Float).toModel.unpack := by
  rw [unpack_zero]
  exact .zero .positive

theorem Nought.pack {a : UnpackedFloat} (h : Nought a) : Nought (Float.Model.pack a).unpack := by
  cases h with
  | notANumber => exact .notANumber
  | zero sign =>
    rw [unpack_pack_zero]
    exact .zero sign

/-- What is multiplied by zero is zero or not a number. -/
theorem Nought.mul_right (x : Float) {y : Float} (hy : Nought y.toModel.unpack) :
    Nought (x * y).toModel.unpack := by
  apply Nought.pack
  show Nought (UnpackedFloat.mul .binary64 x.toModel.unpack y.toModel.unpack)
  generalize x.toModel.unpack = a
  generalize y.toModel.unpack = b at hy
  cases hy with
  | notANumber => cases a <;> exact .notANumber
  | zero sign =>
    cases a with
    | notANumber => exact .notANumber
    | infinity s => exact .notANumber
    | zero s => exact .zero _
    | finite s m e hm => exact .zero _

theorem unpack_add_notANumber (x : Float) {y : Float} (hy : y.toModel.unpack = .notANumber) :
    (x + y).toModel.unpack = .notANumber := by
  have hsum : (x + y).toModel =
      Float.Model.pack (UnpackedFloat.add .binary64 x.toModel.unpack .notANumber) := by
    rw [← hy]
    rfl
  rw [hsum]
  cases x.toModel.unpack <;> exact unpack_pack_notANumber

/-- A time is not passed by adding no delay and a jitter without width. -/
theorem not_lt_add_zero {time now : Float} (h : time ≤ now ∨ time = now) (jitter : Float) :
    ¬now < time + 0.0 + jitter * 0.0 := by
  rw [lt_iff, compare_swap]
  have hproduct := Nought.mul_right jitter nought_zero
  generalize hunpack : (jitter * 0.0).toModel.unpack = product at hproduct
  cases hproduct with
  | notANumber =>
    rw [unpack_add_notANumber _ hunpack]
    simp [UnpackedFloat.compare]
  | zero sign =>
    rw [(sameRank_add_zero _ hunpack).compare_eq, (sameRank_add_zero _ unpack_zero).compare_eq]
    rcases h with hle | rfl
    · rw [le_iff] at hle
      intro hgt
      cases horder : time.toModel.unpack.compare now.toModel.unpack with
      | none => simp [horder] at hle
      | some order => cases order <;> simp [horder] at hle hgt
    · rw [← compare_swap]
      exact compare_self_ne_lt _

/-! ## Signs -/

/-- What is not a number, or has a positive sign. -/
inductive Unsigned : UnpackedFloat → Prop where
  | notANumber : Unsigned .notANumber
  | infinity : Unsigned (.infinity .positive)
  | zero : Unsigned (.zero .positive)
  | finite {m : Nat} {e : Int} (hm : 0 < m) : Unsigned (.finite .positive m e hm)

theorem unsigned_unpack {word : BitVec Format.binary64.numBits} (h : unpackSign word = 0#1) :
    Unsigned (UnpackedFloat.unpack .binary64 word) := by
  have hsign : Sign.ofBitVec (unpackSign word) = .positive := by
    rw [h]
    rfl
  rw [UnpackedFloat.unpack]
  simp only [hsign]
  split
  · split
    · exact .infinity
    · exact .notANumber
  · split
    · split
      · exact .zero
      · exact .finite _
    · exact .finite _

/-- Packing adds no sign. -/
theorem Unsigned.pack {a : UnpackedFloat} (h : Unsigned a) : Unsigned (Float.Model.pack a).unpack := by
  have hsign : unpackSign (UnpackedFloat.pack .binary64 a) = 0#1 := by
    cases h with
    | notANumber => exact unpackSign_packComponents .positive _ _
    | infinity => exact unpackSign_packComponents .positive _ _
    | zero => exact unpackSign_packComponents .positive _ _
    | finite hm =>
      rw [pack_finite]
      split
      · exact unpackSign_packComponents .positive _ _
      · split <;> exact unpackSign_packComponents .positive _ _
  exact unsigned_unpack hsign

theorem unsigned_round (spec : Format) (m : Nat) (e : Int) (accuracy : Accuracy) :
    Unsigned (UnpackedFloat.roundWithAccuracy spec .positive m e accuracy) := by
  simp only [UnpackedFloat.roundWithAccuracy]
  split
  · exact .zero
  · exact .finite _

theorem unsigned_toFloat (n : UInt64) : Unsigned n.toFloat.toModel.unpack := by
  apply Unsigned.pack
  show Unsigned (UnpackedFloat.normalize .binary64 (n.toNat : Int) 0 .positive)
  rw [UnpackedFloat.normalize]
  split
  · rename_i hlt
    rw [Int.compare_eq_lt] at hlt
    omega
  · exact .zero
  · exact unsigned_round _ _ _ _

theorem Unsigned.mul {x y : Float} (hx : Unsigned x.toModel.unpack) (hy : Unsigned y.toModel.unpack) :
    Unsigned (x * y).toModel.unpack := by
  apply Unsigned.pack
  show Unsigned (UnpackedFloat.mul .binary64 x.toModel.unpack y.toModel.unpack)
  generalize x.toModel.unpack = a at hx
  generalize y.toModel.unpack = b at hy
  cases hx <;> cases hy <;>
    first
    | exact .notANumber
    | exact .infinity
    | exact .zero
    | exact unsigned_round _ _ _ _

/-- What has no negative sign is not below zero. -/
theorem Unsigned.not_lt_nought {x y : Float} (hx : Unsigned x.toModel.unpack)
    (hy : Nought y.toModel.unpack) : ¬x < y := by
  rw [lt_iff]
  generalize x.toModel.unpack = a at hx
  generalize y.toModel.unpack = b at hy
  cases hx <;> cases hy <;> simp [UnpackedFloat.compare]

end RadioAccess.Real64
