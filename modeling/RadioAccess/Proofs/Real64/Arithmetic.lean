import RadioAccess.Proofs.Real64.Nearest

/-!
# Exact Results and Their Rounding

A product, a quotient or a difference of two numbers without a sign is the rational product, quotient or
difference, rounded once.  Since rounding keeps the order and changes no number that can be stored, an
inequality between exact results carries over to the computed ones.  Truncation to a count is a whole part.
-/

namespace RadioAccess.Real64

open Float.Model Float.Model.UnpackedFloat

/-! ## Exact results -/

theorem roundWithAccuracy_exact (sign : Sign) {m : Nat} (hm : 0 < m) {e : Int} (hle : e ≤ storedExponent m e) :
    roundWithAccuracy .binary64 sign m e .exact = rounded sign (m * 2 ^ e) := by
  have hunit : (0 : ℚ) < 2 ^ e := by positivity
  refine roundWithAccuracy_eq sign (by positivity) ?_ (by rwa [lastPlace_eq hm])
  rw [mul_div_cancel_right₀ _ hunit.ne', extended_natCast]
  rfl

theorem round_eq_rounded (sign : Sign) {m : Nat} (hm : 0 < m) (e : Int) :
    UnpackedFloat.round .binary64 sign m e = rounded sign (m * 2 ^ e) := by
  generalize hdigits : (e - storedExponent m e).toNat = digits
  have hsame : ((m * 2 ^ digits : Nat) * 2 ^ (e - digits) : ℚ) = m * 2 ^ e := by
    rw [Nat.cast_mul, mul_assoc, Nat.cast_pow, Nat.cast_ofNat, ← zpow_natCast, ← zpow_add₀ (by norm_num),
      add_sub_cancel]
  have hpos : 0 < m * 2 ^ digits := Nat.mul_pos hm (Nat.two_pow_pos _)
  have hplace : storedExponent (m * 2 ^ digits) (e - digits) = storedExponent m e := by
    rw [← lastPlace_eq hpos, hsame, lastPlace_eq hm]
  rw [UnpackedFloat.round, targetExponent_eq]
  simp only [decreaseExponent, hdigits, Nat.shiftLeft_eq]
  rw [roundWithAccuracy_exact sign hpos (by omega), hsame]

variable {a b : UnpackedFloat} {v w : ℚ}

theorem le_log2_mul {m₁ m₂ : Nat} (hm : 0 < m₁) (h : 2 ^ 52 ≤ m₂) : 52 ≤ (m₁ * m₂).log2 := by
  rw [Nat.le_log2 (by positivity)]
  exact h.trans (Nat.le_mul_of_pos_left _ hm)

/-- The digits of a product go at least as far as what is stored of it: two least exponents add up to far less
than the least one, and otherwise one of the mantissas has all its digits. -/
theorem le_storedExponent_mul {m₁ m₂ : Nat} {e₁ e₂ : Int} (hm₁ : 0 < m₁) (hm₂ : 0 < m₂) (h₁ : Stored m₁ e₁)
    (h₂ : Stored m₂ e₂) : e₁ + e₂ ≤ storedExponent (m₁ * m₂) (e₁ + e₂) := by
  rw [storedExponent]
  rcases h₁.full with heq₁ | hfull₁
  · rcases h₂.full with heq₂ | hfull₂
    · omega
    · have := le_log2_mul hm₁ hfull₂
      omega
  · have := le_log2_mul hm₂ hfull₁
    rw [Nat.mul_comm] at this
    omega

theorem Worth.mul (ha : Worth a v) (hb : Worth b w) :
    UnpackedFloat.mul .binary64 a b = rounded .positive (v * w) := by
  cases ha with
  | zero =>
    rw [zero_mul, rounded_zero]
    cases hb <;> rfl
  | @finite m₁ e₁ hm₁ h₁ hsmall₁ =>
    cases hb with
    | zero =>
      rw [mul_zero, rounded_zero]
      rfl
    | @finite m₂ e₂ hm₂ h₂ hsmall₂ =>
      have hvalue : (m₁ * 2 ^ e₁ * (m₂ * 2 ^ e₂) : ℚ) = (m₁ * m₂ : Nat) * 2 ^ (e₁ + e₂) := by
        rw [zpow_add₀ (by norm_num), Nat.cast_mul]
        ring
      have hplace := le_storedExponent_mul hm₁ hm₂ h₁ h₂
      rw [hvalue, ← roundWithAccuracy_exact _ (Nat.mul_pos hm₁ hm₂) hplace]
      rfl

theorem log_div_ge (hv : 0 < v) (hw : 0 < w) : Int.log 2 v - Int.log 2 w - 1 ≤ Int.log 2 (v / w) := by
  have hlow : ((2 : Nat) : ℚ) ^ Int.log 2 v ≤ v := Int.zpow_log_le_self (by decide) hv
  have hhigh : w < ((2 : Nat) : ℚ) ^ (Int.log 2 w + 1) := Int.lt_zpow_succ_log_self (by decide) w
  refine (Int.zpow_le_iff_le_log (by decide) (div_pos hv hw)).1 ?_
  rw [le_div_iff₀ hw]
  calc
    ((2 : Nat) : ℚ) ^ (Int.log 2 v - Int.log 2 w - 1) * w ≤
        ((2 : Nat) : ℚ) ^ (Int.log 2 v - Int.log 2 w - 1) * ((2 : Nat) : ℚ) ^ (Int.log 2 w + 1) :=
      mul_le_mul_of_nonneg_left hhigh.le (by positivity)
    _ = ((2 : Nat) : ℚ) ^ Int.log 2 v := by
      rw [← zpow_add₀ (by norm_num)]
      congr 1
      ring
    _ ≤ v := hlow

/-- A quotient has more digits than are stored before it is rounded, whatever the signs. -/
theorem div_finite (s₁ s₂ : Sign) {m₁ m₂ : Nat} {e₁ e₂ : Int} (hm₁ : 0 < m₁) (hm₂ : 0 < m₂) :
    UnpackedFloat.div .binary64 (.finite s₁ m₁ e₁ hm₁) (.finite s₂ m₂ e₂ hm₂) =
      rounded (s₁ / s₂) (m₁ * 2 ^ e₁ / (m₂ * 2 ^ e₂)) := by
  have hplace : Format.binary64.targetExponent (totalExponent m₁ e₁ - totalExponent m₂ e₂) ≤
      lastPlace (m₁ * 2 ^ e₁ / (m₂ * 2 ^ e₂) : ℚ) := by
    have hquotient := log_div_ge (v := m₁ * 2 ^ e₁) (w := m₂ * 2 ^ e₂) (by positivity) (by positivity)
    rw [log_mul_zpow hm₁, log_mul_zpow hm₂] at hquotient
    have hbits : Format.binary64.mantissaBits = 53 := rfl
    have hleast : Format.binary64.minExponent = -1074 := rfl
    rw [Format.targetExponent, totalExponent, totalExponent, lastPlace, hbits, hleast]
    omega
  simp only [UnpackedFloat.div, divCore]
  generalize htarget : min (e₁ - e₂)
    (Format.binary64.targetExponent (totalExponent m₁ e₁ - totalExponent m₂ e₂)) = target
  refine roundWithAccuracy_eq (s₁ / s₂) (by positivity) ?_ (by omega)
  rw [extended_div _ hm₂, Nat.shiftLeft_eq, Nat.cast_mul, Nat.cast_pow, Nat.cast_ofNat, ← zpow_natCast]
  have hshift : ((e₁ - e₂ - target).toNat : Int) = e₁ - e₂ - target := by omega
  rw [hshift, zpow_sub₀ (by norm_num), zpow_sub₀ (by norm_num)]
  congr 1
  field_simp

theorem Worth.div (ha : Worth a v) (hb : Worth b w) (hw : 0 < w) :
    UnpackedFloat.div .binary64 a b = rounded .positive (v / w) := by
  cases hb with
  | zero => exact absurd hw (lt_irrefl 0)
  | finite hm₂ =>
    cases ha with
    | zero =>
      rw [zero_div, rounded_zero]
      rfl
    | finite hm₁ => exact div_finite .positive .positive hm₁ hm₂

theorem compare_natCast {m : Nat} (hm : 0 < m) : compare (m : Int) 0 = .gt := Int.compare_eq_gt.2 (by omega)

/-- Both mantissas are taken to the smaller of two exponents. -/
theorem mul_zpow_align (m : Nat) {e least : Int} (hle : least ≤ e) :
    (m * 2 ^ e : ℚ) = (m * 2 ^ (e - least).toNat : Nat) * 2 ^ least := by
  have hexponent : ((e - least).toNat : Int) + least = e := by omega
  rw [Nat.cast_mul, Nat.cast_pow, Nat.cast_ofNat, mul_assoc, ← zpow_natCast, ← zpow_add₀ (by norm_num), hexponent]

theorem sub_finite {m₁ m₂ : Nat} {e₁ e₂ : Int} (h₁ : 0 < m₁) (h₂ : 0 < m₂) :
    UnpackedFloat.sub .binary64 (.finite .positive m₁ e₁ h₁) (.finite .positive m₂ e₂ h₂) =
      UnpackedFloat.normalize .binary64
        ((m₁ * 2 ^ (e₁ - min e₁ e₂).toNat : Nat) - (m₂ * 2 ^ (e₂ - min e₁ e₂).toNat : Nat)) (min e₁ e₂)
        .positive := by
  simp only [UnpackedFloat.sub, decreaseExponent, Sign.apply, Nat.shiftLeft_eq]

theorem normalize_natCast (m : Nat) (e : Int) :
    UnpackedFloat.normalize .binary64 m e .positive = rounded .positive (m * 2 ^ e) := by
  rcases Nat.eq_zero_or_pos m with rfl | hm
  · rw [Nat.cast_zero, Nat.cast_zero, zero_mul, rounded_zero]
    rfl
  · rw [UnpackedFloat.normalize, compare_natCast hm]
    exact round_eq_rounded _ hm e

theorem normalize_neg_natCast {m : Nat} (hm : 0 < m) (e : Int) :
    UnpackedFloat.normalize .binary64 (-m) e .positive = rounded .negative (m * 2 ^ e) := by
  have hcompare : compare (-(m : Int)) 0 = .lt := Int.compare_eq_lt.2 (by omega)
  rw [UnpackedFloat.normalize, hcompare]
  show UnpackedFloat.round .binary64 .negative (- -(m : Int)).toNat e = _
  rw [Int.neg_neg, Int.toNat_natCast]
  exact round_eq_rounded _ hm e

theorem Worth.sub (ha : Worth a v) (hb : Worth b w) (h : w ≤ v) :
    UnpackedFloat.sub .binary64 a b = rounded .positive (v - w) := by
  cases hb with
  | zero =>
    rw [sub_zero, ha.rounded_eq]
    cases ha <;> rfl
  | @finite m₂ e₂ hm₂ h₂ hsmall₂ =>
    cases ha with
    | zero => exact absurd h (not_le.2 (by positivity))
    | @finite m₁ e₁ hm₁ h₁ hsmall₁ =>
      rw [mul_zpow_align m₁ (min_le_left e₁ e₂), mul_zpow_align m₂ (min_le_right e₁ e₂)] at h ⊢
      have hle : m₂ * 2 ^ (e₂ - min e₁ e₂).toNat ≤ m₁ * 2 ^ (e₁ - min e₁ e₂).toNat := by
        exact_mod_cast le_of_mul_le_mul_right h (by positivity)
      rw [sub_finite, ← Nat.cast_sub hle, normalize_natCast, Nat.cast_sub hle, sub_mul]

/-- What is not too small is not rounded to zero. -/
theorem exists_rounded_finite (h : 2 ^ (-1074 : Int) ≤ v) :
    ∃ m e hm, Stored m e ∧ ∀ sign, rounded sign v = .finite sign m e hm := by
  have hleastPositive : (0 : ℚ) < 2 ^ (-1074 : Int) := by positivity
  have hv : 0 < v := hleastPositive.trans_le h
  have hmost := nearest_scaled_le hv.le
  have hleast : -1074 ≤ lastPlace v := le_max_right _ _
  have hfull := full_nearest_scaled hv
  have hpos : 0 < nearest (scaled v) := by
    rcases hfull with heq | hlarge
    · have hone : ((1 : Nat) : ℚ) ≤ scaled v := by
        rw [scaled, heq, Nat.cast_one, le_div_iff₀ (by positivity), one_mul]
        exact h
      have hmono := nearest_mono (by positivity) hone
      rwa [nearest_natCast] at hmono
    · omega
  simp only [rounded, carried, dif_neg hpos.ne']
  split
  · exact ⟨_, _, hpos, ⟨‹_›, hleast, hfull⟩, fun _ ↦ rfl⟩
  · exact ⟨2 ^ 52, _, Nat.two_pow_pos 52, ⟨by decide, by omega, .inr le_rfl⟩, fun _ ↦ rfl⟩

/-- A difference below zero is a negative number, and it is not too small to be stored. -/
theorem Worth.sub_of_lt (ha : Worth a v) (hb : Worth b w) (h : v < w) :
    UnpackedFloat.sub .binary64 a b = rounded .negative (w - v) ∧ 2 ^ (-1074 : Int) ≤ w - v := by
  have hleast {n : ℚ} {e : Int} (hn : 1 ≤ n) (he : -1074 ≤ e) : (2 : ℚ) ^ (-1074 : Int) ≤ n * 2 ^ e :=
    calc
      (2 : ℚ) ^ (-1074 : Int) ≤ 2 ^ e := zpow_le_zpow_right₀ (by norm_num) he
      _ ≤ n * 2 ^ e := le_mul_of_one_le_left (by positivity) hn
  cases hb with
  | zero => exact absurd ha.nonneg (not_le.2 h)
  | @finite m₂ e₂ hm₂ h₂ hsmall₂ =>
    cases ha with
    | zero =>
      rw [sub_zero, rounded_stored .negative hm₂ h₂]
      exact ⟨rfl, hleast (by exact_mod_cast hm₂) h₂.least⟩
    | @finite m₁ e₁ hm₁ h₁ hsmall₁ =>
      rw [mul_zpow_align m₁ (min_le_left e₁ e₂), mul_zpow_align m₂ (min_le_right e₁ e₂)] at h ⊢
      rw [sub_finite]
      generalize m₁ * 2 ^ (e₁ - min e₁ e₂).toNat = n₁ at *
      generalize m₂ * 2 ^ (e₂ - min e₁ e₂).toNat = n₂ at *
      have hlt : n₁ < n₂ := by exact_mod_cast lt_of_mul_lt_mul_right h (by positivity)
      have hdifference : (n₁ - n₂ : Int) = -(n₂ - n₁ : Nat) := by omega
      have hone : (1 : ℚ) ≤ (n₂ - n₁ : Nat) := by exact_mod_cast Nat.sub_pos_of_lt hlt
      rw [hdifference, normalize_neg_natCast (by omega), ← sub_mul, ← Nat.cast_sub hlt.le]
      exact ⟨rfl, hleast hone (le_min h₁.least h₂.least)⟩

theorem Worth.sub_neg (ha : Worth a v) (hb : Worth b w) (h : v < w) :
    ∃ m e hm, Stored m e ∧ UnpackedFloat.sub .binary64 a b = .finite .negative m e hm := by
  obtain ⟨hsub, hleast⟩ := ha.sub_of_lt hb h
  obtain ⟨m, e, hm, hstored, hrounded⟩ := exists_rounded_finite hleast
  exact ⟨m, e, hm, hstored, hsub.trans (hrounded _)⟩

/-! ## Numbers and what they stand for -/

/-- The rational number that a finite number without a sign stands for. -/
def StandsFor (x : Float) (v : ℚ) : Prop := Worth x.toModel.unpack v

theorem standsFor_zero : StandsFor 0.0 0 := by
  rw [StandsFor, unpack_zero]
  exact .zero

theorem unpack_one : (1.0 : Float).toModel.unpack = .finite .positive (2 ^ 52) (-52) (by decide) := by
  have hbits : (1.0 : Float) = Float.ofBits 0x3FF0000000000000 := by decide +kernel
  rw [hbits]
  rfl

theorem standsFor_one : StandsFor 1.0 1 := by
  have hvalue : (((2 ^ 52 : Nat) : ℚ) * 2 ^ (-52 : Int)) = 1 := by norm_num
  rw [StandsFor, unpack_one, ← hvalue]
  exact .finite _ ⟨by decide, by decide, .inr le_rfl⟩ (by decide)

namespace StandsFor

variable {x y z : Float} {u : ℚ}

theorem nonneg (hx : StandsFor x v) : 0 ≤ v := Worth.nonneg hx

theorem isNaN_eq (hx : StandsFor x v) : x.isNaN = false := by
  rw [← unpack_ne_notANumber_iff]
  intro hnone
  rw [StandsFor, hnone] at hx
  cases hx

theorem le_iff (hx : StandsFor x v) (hy : StandsFor y w) : x ≤ y ↔ v ≤ w := by
  rw [le_iff_rank_le, and_iff_right hx.isNaN_eq, and_iff_right hy.isNaN_eq]
  exact Worth.rank_le_iff hx hy

theorem lt_iff (hx : StandsFor x v) (hy : StandsFor y w) : x < y ↔ v < w := by
  rw [lt_iff_rank_lt, and_iff_right hx.isNaN_eq, and_iff_right hy.isNaN_eq, ← not_le, ← not_le]
  exact not_congr (Worth.rank_le_iff hy hx)

theorem unpack_mul (hx : StandsFor x v) (hy : StandsFor y w) : (x * y).toModel.unpack = packed (v * w) := by
  rw [packed, ← Worth.mul hx hy]
  rfl

theorem unpack_div (hx : StandsFor x v) (hy : StandsFor y w) (hw : 0 < w) :
    (x / y).toModel.unpack = packed (v / w) := by
  rw [packed, ← Worth.div hx hy hw]
  rfl

theorem unpack_sub (hx : StandsFor x v) (hy : StandsFor y w) (h : w ≤ v) :
    (x - y).toModel.unpack = packed (v - w) := by
  rw [packed, ← Worth.sub hx hy h]
  rfl

/-- A product below a number is rounded to no more than that number. -/
theorem exists_mul (hx : StandsFor x v) (hy : StandsFor y w) (hz : StandsFor z u) (h : v * w ≤ u) :
    ∃ t ≤ u, StandsFor (x * y) t := by
  have hstored : Worth (packed u) u := by rwa [Worth.packed_eq hz]
  simp only [StandsFor, hx.unpack_mul hy]
  exact hstored.exists_packed (mul_nonneg hx.nonneg hy.nonneg) h

/-- The product of fractions is no larger than either of them. -/
theorem exists_mul_le (hx : StandsFor x v) (hy : StandsFor y w) (hv : v ≤ 1) (hw : w ≤ 1) :
    ∃ t, t ≤ v ∧ t ≤ w ∧ StandsFor (x * y) t := by
  obtain ⟨t, hleft, hproduct⟩ := hx.exists_mul hy hx (mul_le_of_le_one_right hx.nonneg hw)
  obtain ⟨t', hright, hproduct'⟩ := hx.exists_mul hy hy (mul_le_of_le_one_left hy.nonneg hv)
  obtain rfl := Worth.unique hproduct hproduct'
  exact ⟨t, hleft, hright, hproduct⟩

/-- Squaring keeps the order. -/
theorem exists_square (hx : StandsFor x v) (hy : StandsFor y w) (hz : StandsFor (y * y) u) (h : v ≤ w) :
    ∃ t ≤ u, StandsFor (x * x) t := by
  rw [StandsFor, hy.unpack_mul hy] at hz
  simp only [StandsFor, hx.unpack_mul hx]
  exact hz.exists_packed (mul_nonneg hx.nonneg hx.nonneg) (mul_le_mul h h hx.nonneg hy.nonneg)

/-- What is subtracted from one leaves the less, the larger it is. -/
theorem exists_one_sub (hx : StandsFor x v) (hy : StandsFor y w) (hz : StandsFor (1.0 - y) u) (h : w ≤ v)
    (hv : v ≤ 1) : ∃ t ≤ u, StandsFor (1.0 - x) t := by
  rw [StandsFor, standsFor_one.unpack_sub hy (h.trans hv)] at hz
  simp only [StandsFor, standsFor_one.unpack_sub hx hv]
  exact hz.exists_packed (sub_nonneg.2 hv) (sub_le_sub_left h 1)

end StandsFor

theorem packed_ne_notANumber (hv : 0 ≤ v) : packed v ≠ .notANumber := by
  apply unpack_pack_ne_notANumber
  intro hnone
  have hform := inForm_rounded hv
  rw [hnone] at hform
  cases hform

/-- A finite number above zero stands for itself. -/
theorem exists_standsFor {x : Float} (hpos : 0.0 < x) (hfinite : x.isFinite = true) :
    ∃ v, 0 < v ∧ StandsFor x v := by
  have hrank := ((lt_iff_rank_lt _ _).1 hpos).2.2
  change x.toModel.unpack.isFinite = true at hfinite
  have hback : (Float.Model.pack x.toModel.unpack).unpack = x.toModel.unpack := by rw [pack_unpack]
  rw [unpack_zero] at hrank
  cases hunpack : x.toModel.unpack with
  | notANumber => simp [hunpack, UnpackedFloat.isFinite] at hfinite
  | infinity sign => simp [hunpack, UnpackedFloat.isFinite] at hfinite
  | zero sign => simp [hunpack, rank] at hrank
  | finite sign m e hm =>
    have hstored := stored_unpack hunpack
    cases sign with
    | negative => simp [hunpack, rank, Prod.Lex.toLex_lt_toLex] at hrank
    | positive =>
      have hsmall : e ≤ 971 := by
        by_contra hlarge
        rw [hunpack, unpack_pack_finite hm hstored, if_neg hlarge] at hback
        cases hback
      refine ⟨m * 2 ^ e, by positivity, ?_⟩
      rw [StandsFor, hunpack]
      exact .finite hm hstored hsmall

theorem StandsFor.isFinite_eq {x : Float} (hx : StandsFor x v) : x.isFinite = true := by
  show x.toModel.unpack.isFinite = true
  rw [StandsFor] at hx
  generalize x.toModel.unpack = a at hx
  cases hx <;> rfl

/-- What lies between two numbers, the smaller of them above zero. -/
theorem StandsFor.exists_between {low x high : Float} (hlow : StandsFor low v) (hpos : 0 < v)
    (hhigh : StandsFor high w) (hle : low ≤ x) (hge : x ≤ high) : ∃ u, v ≤ u ∧ u ≤ w ∧ StandsFor x u := by
  have habove : (0.0 : Float) < x := lt_of_lt_of_le ((standsFor_zero.lt_iff hlow).2 hpos) hle
  obtain ⟨u, -, hx⟩ := exists_standsFor habove
    (isFinite_of_le_of_le hle hge hlow.isFinite_eq hhigh.isFinite_eq)
  exact ⟨u, (hlow.le_iff hx).1 hle, (hx.le_iff hhigh).1 hge, hx⟩

/-- What lies between zero and one. -/
theorem exists_fraction {x : Float} (hpos : 0.0 < x) (hless : x < 1.0) : ∃ v, 0 < v ∧ v < 1 ∧ StandsFor x v := by
  have hfinite := isFinite_of_le_of_le (le_of_lt hpos) (le_of_lt hless) standsFor_zero.isFinite_eq
    standsFor_one.isFinite_eq
  obtain ⟨v, hv, hx⟩ := exists_standsFor hpos hfinite
  exact ⟨v, hv, (hx.lt_iff standsFor_one).1 hless, hx⟩

/-! ## Whole numbers and their fractions -/

/-- A whole number of 53 digits, divided by a power of two that is not too large, can be stored. -/
theorem worth_packed_mul_zpow {n : Nat} (hfits : n < 2 ^ 53) {e : Int} (hleast : -1022 ≤ e) (hmost : e ≤ 0) :
    Worth (packed (n * 2 ^ e)) (n * 2 ^ e) := by
  rcases Nat.eq_zero_or_pos n with rfl | hpos
  · rw [Nat.cast_zero, zero_mul, Worth.zero.packed_eq]
    exact .zero
  · have hvalue : (n * 2 ^ e : ℚ) = (n * 2 ^ sparePlaces n : Nat) * 2 ^ (e - sparePlaces n) := by
      rw [Nat.cast_mul, Nat.cast_pow, Nat.cast_ofNat, mul_assoc, ← zpow_natCast, ← zpow_add₀ (by norm_num)]
      congr 2
      omega
    have hwhole := stored_whole hpos hfits
    have hspare : sparePlaces n ≤ 52 := Nat.sub_le _ _
    have hstored : Stored (n * 2 ^ sparePlaces n) (e - sparePlaces n) :=
      ⟨hwhole.bounded, by omega, .inr (hwhole.full.resolve_left (by omega))⟩
    have hworth := Worth.finite (Nat.mul_pos hpos (Nat.two_pow_pos _)) hstored (by omega)
    rw [hvalue, hworth.packed_eq]
    exact hworth

theorem standsFor_toFloat {n : UInt64} (hfits : n.toNat < 2 ^ 53) : StandsFor n.toFloat n.toNat := by
  rw [StandsFor]
  rcases Nat.eq_zero_or_pos n.toNat with hzero | hpos
  · obtain rfl : n = 0 := UInt64.toNat_inj.1 hzero
    rw [unpack_toFloat_zero, hzero, Nat.cast_zero]
    exact .zero
  · have hvalue : (n.toNat : ℚ) =
        (n.toNat * 2 ^ sparePlaces n.toNat : Nat) * 2 ^ (-sparePlaces n.toNat : Int) := by
      rw [Nat.cast_mul, Nat.cast_pow, Nat.cast_ofNat, mul_assoc, ← zpow_natCast, ← zpow_add₀ (by norm_num),
        add_neg_cancel, zpow_zero, mul_one]
    rw [unpack_toFloat hpos hfits, hvalue]
    exact .finite _ (stored_whole hpos hfits) (by omega)

namespace StandsFor

variable {x y : Float}

/-- A product that can be stored is not rounded. -/
theorem mul_exact (hx : StandsFor x v) (hy : StandsFor y w) (h : Worth (packed (v * w)) (v * w)) :
    StandsFor (x * y) (v * w) := by
  rw [StandsFor, hx.unpack_mul hy]
  exact h

/-- A difference that can be stored is not rounded. -/
theorem sub_exact (hx : StandsFor x v) (hy : StandsFor y w) (hle : w ≤ v)
    (h : Worth (packed (v - w)) (v - w)) : StandsFor (x - y) (v - w) := by
  rw [StandsFor, hx.unpack_sub hy hle]
  exact h

end StandsFor

/-! ## What is neither zero nor what is not a number -/

theorem Worth.eq_zero (h : Worth a 0) : a = .zero .positive := by
  generalize hvalue : (0 : ℚ) = v at h
  cases h with
  | zero => rfl
  | finite hm => exact absurd hvalue (by positivity)

theorem rank_le_infinity (a : UnpackedFloat) : rank a ≤ rank (.infinity .positive) := by
  rcases a with (_ | _) | _ | _ | ⟨_ | _, _, _, _⟩ <;> simp [rank, Prod.Lex.toLex_le_toLex]

theorem unpack_one_div_zero {x : Float} (hx : x.toModel.unpack = .zero .positive) :
    (1.0 / x).toModel.unpack = .infinity .positive := by
  show (Float.Model.pack (UnpackedFloat.div .binary64 _ x.toModel.unpack)).unpack = _
  rw [hx, unpack_one]
  rfl

/-- The reciprocal of a smaller number is no smaller, also if that number is zero. -/
theorem StandsFor.one_div_anti {x y : Float} (hx : StandsFor x v) (hy : StandsFor y w) (hw : 0 < w)
    (h : v ≤ w) : 1.0 / y ≤ 1.0 / x := by
  have hquotient := standsFor_one.unpack_div hy hw
  have hnumber : packed (1 / w) ≠ .notANumber := packed_ne_notANumber (by positivity)
  rw [le_iff_rank_le, ← unpack_ne_notANumber_iff, ← unpack_ne_notANumber_iff, hquotient]
  rcases hx.nonneg.eq_or_lt with rfl | hv
  · rw [unpack_one_div_zero (Worth.eq_zero hx)]
    exact ⟨hnumber, by simp, rank_le_infinity _⟩
  · rw [standsFor_one.unpack_div hx hv]
    exact ⟨hnumber, packed_ne_notANumber (by positivity),
      packed_mono (by positivity) (one_div_le_one_div_of_le hv h)⟩

/-- What is above a number without a sign. -/
theorem StandsFor.exists_or_of_lt {x y : Float} (hx : StandsFor x v) (h : x < y) :
    y.toModel.unpack = .infinity .positive ∨ ∃ w, v < w ∧ StandsFor y w := by
  have habove : (0.0 : Float) < y := lt_of_le_of_lt ((standsFor_zero.le_iff hx).2 hx.nonneg) h
  by_cases hfinite : y.isFinite = true
  · obtain ⟨w, -, hy⟩ := exists_standsFor habove hfinite
    exact .inr ⟨w, (hx.lt_iff hy).1 h, hy⟩
  · left
    have hrank := ((lt_iff_rank_lt _ _).1 habove).2.2
    have hnumber := (unpack_ne_notANumber_iff y).2 ((lt_iff_rank_lt _ _).1 habove).2.1
    change ¬y.toModel.unpack.isFinite = true at hfinite
    rw [unpack_zero] at hrank
    generalize y.toModel.unpack = b at *
    rcases b with (_ | _) | _ | _ | _ <;>
      simp_all [UnpackedFloat.isFinite, rank, Prod.Lex.toLex_lt_toLex]

theorem StandsFor.not_nought {x : Float} (hx : StandsFor x v) (hv : 0 < v) : ¬Nought x.toModel.unpack := by
  rw [StandsFor] at hx
  generalize x.toModel.unpack = a at hx
  intro hnought
  cases hnought with
  | notANumber => cases hx
  | zero sign =>
    cases hx
    exact hv.false

theorem StandsFor.unpack_eq_zero {x : Float} (hx : StandsFor x v) (h : Nought x.toModel.unpack) :
    x.toModel.unpack = .zero .positive := by
  rw [StandsFor] at hx
  generalize x.toModel.unpack = a at *
  cases h <;> cases hx
  rfl

theorem StandsFor.not_nought_of_lt {x y : Float} (hx : StandsFor x v) (h : x < y) :
    ¬Nought y.toModel.unpack := by
  rcases hx.exists_or_of_lt h with hinfinite | ⟨w, hlt, hy⟩
  · rw [hinfinite]
    exact fun hnought ↦ nomatch hnought
  · exact hy.not_nought (hx.nonneg.trans_lt hlt)

/-- The difference of different numbers is not rounded to zero. -/
theorem StandsFor.not_nought_sub {x y : Float} (hx : StandsFor x v) (h : x < y) :
    ¬Nought (x - y).toModel.unpack := by
  have hsub : (x - y).toModel.unpack =
      (Float.Model.pack (UnpackedFloat.sub .binary64 x.toModel.unpack y.toModel.unpack)).unpack := rfl
  rw [StandsFor] at hx
  rw [hsub]
  rcases StandsFor.exists_or_of_lt hx h with hinfinite | ⟨w, hlt, hy⟩
  · have hdifference : UnpackedFloat.sub .binary64 x.toModel.unpack (.infinity .positive) =
        .infinity .negative := by
      generalize x.toModel.unpack = a at hx
      cases hx <;> rfl
    rw [hinfinite, hdifference]
    exact fun hnought ↦ nomatch hnought
  · obtain ⟨m, e, hm, hstored, hdifference⟩ := Worth.sub_neg hx hy hlt
    rw [hdifference, unpack_pack_finite hm hstored]
    split <;> exact fun hnought ↦ nomatch hnought

/-! ## Results that are numbers -/

theorem roundWithAccuracy_ne_notANumber (sign : Sign) (m : Nat) (e : Int) (accuracy : Accuracy) :
    roundWithAccuracy .binary64 sign m e accuracy ≠ .notANumber := by
  simp only [roundWithAccuracy]
  split <;> simp

/-- Only zero times infinity is no number. -/
theorem mul_ne_notANumber (ha : a ≠ .notANumber) (hb : b ≠ .notANumber)
    (hleft : ∀ s t, a = .zero s → b ≠ .infinity t) (hright : ∀ s t, b = .zero s → a ≠ .infinity t) :
    UnpackedFloat.mul .binary64 a b ≠ .notANumber := by
  cases a <;> cases b <;> simp_all [UnpackedFloat.mul, roundWithAccuracy_ne_notANumber]

theorem isNaN_mul {x y : Float} (hx : ¬Nought x.toModel.unpack) (hy : ¬Nought y.toModel.unpack) :
    (x * y).isNaN = false := by
  rw [← unpack_ne_notANumber_iff]
  apply unpack_pack_ne_notANumber
  refine mul_ne_notANumber (fun h ↦ hx ?_) (fun h ↦ hy ?_) (fun s t h ↦ (hx ?_).elim) fun s t h ↦ (hy ?_).elim
  all_goals rw [h]
  exacts [.notANumber, .notANumber, .zero s, .zero s]

/-- A number above zero and a number are multiplied. -/
theorem StandsFor.isNaN_mul {x y : Float} (hx : StandsFor x v) (hv : 0 < v) (hy : y.isNaN = false) :
    (x * y).isNaN = false ∧ (y * x).isNaN = false := by
  have hsome := (unpack_ne_notANumber_iff x).2 hx.isNaN_eq
  have hzero (s : Sign) : x.toModel.unpack ≠ .zero s := fun h ↦ hx.not_nought hv (h ▸ .zero s)
  have hfinite (s : Sign) : x.toModel.unpack ≠ .infinity s := by
    intro h
    have hx := hx.isFinite_eq
    change x.toModel.unpack.isFinite = true at hx
    rw [h] at hx
    cases hx
  rw [← unpack_ne_notANumber_iff] at hy
  rw [← unpack_ne_notANumber_iff, ← unpack_ne_notANumber_iff]
  constructor <;> apply unpack_pack_ne_notANumber
  · exact mul_ne_notANumber hsome hy (fun s t h ↦ absurd h (hzero s)) fun s t _ ↦ hfinite t
  · exact mul_ne_notANumber hy hsome (fun s t _ ↦ hfinite t) fun s t h ↦ absurd h (hzero s)

/-- A number above zero is divided by a number. -/
theorem StandsFor.isNaN_div {x y : Float} (hx : StandsFor x v) (hv : 0 < v) (hy : y.isNaN = false) :
    (x / y).isNaN = false := by
  have hnought := hx.not_nought hv
  have hfinite := hx.isFinite_eq
  change x.toModel.unpack.isFinite = true at hfinite
  rw [← unpack_ne_notANumber_iff] at hy ⊢
  apply unpack_pack_ne_notANumber
  show UnpackedFloat.div .binary64 x.toModel.unpack y.toModel.unpack ≠ _
  generalize x.toModel.unpack = a at hnought hfinite
  generalize y.toModel.unpack = b at hy
  cases a with
  | notANumber => exact absurd .notANumber hnought
  | zero sign => exact absurd (.zero sign) hnought
  | infinity sign => cases hfinite
  | finite sign m e hm =>
    cases b <;> simp_all [UnpackedFloat.div, roundWithAccuracy_ne_notANumber]

/-- A finite number is subtracted from a number. -/
theorem isNaN_sub_of_isFinite {x y : Float} (hx : x.isNaN = false) (hy : y.isFinite = true) :
    (x - y).isNaN = false := by
  rw [← unpack_ne_notANumber_iff] at hx ⊢
  change y.toModel.unpack.isFinite = true at hy
  apply unpack_pack_ne_notANumber
  show UnpackedFloat.sub .binary64 x.toModel.unpack y.toModel.unpack ≠ _
  generalize x.toModel.unpack = a at hx
  generalize y.toModel.unpack = b at hy
  cases a <;> cases b <;> simp_all [UnpackedFloat.sub, UnpackedFloat.isFinite, normalize_ne_notANumber]
  split <;> simp

theorem isNaN_toFloat (n : UInt64) : n.toFloat.isNaN = false := by
  rw [← unpack_ne_notANumber_iff]
  exact unpack_pack_ne_notANumber (normalize_ne_notANumber _ _ _ _)

theorem isNaN_ofNat {n : Nat} (h : n < 2 ^ 53) : (Float.ofNat n).isNaN = false := by
  have hproduct : Float.ofNat n = n.toUInt64.toFloat * Float.ofBits 0x3FF0000000000000 := by
    show Float.ofScientific n false 0 = _
    rw [Float.ofScientific, dif_pos ⟨h, by decide⟩]
    rfl
  have hone : (1.0 : Float) = Float.ofBits 0x3FF0000000000000 := by decide +kernel
  rw [hproduct, ← hone]
  exact (standsFor_one.isNaN_mul one_pos (isNaN_toFloat _)).2

/-- A number is clamped between two bounds. -/
theorem clamp_bounds {low high x : Float} (hx : x.isNaN = false) (h : low ≤ high) :
    low ≤ clamp low high x ∧ clamp low high x ≤ high := by
  obtain ⟨hlow, hhigh, -⟩ := (le_iff_rank_le low high).1 h
  rw [clamp]
  split
  · exact ⟨le_refl hlow, h⟩
  rename_i hnotless
  split
  · exact ⟨h, le_refl hhigh⟩
  · exact ⟨le_of_not_lt hnotless hlow hx, le_of_not_lt ‹_› hx hhigh⟩

theorem clamp_of_isNaN (low high : Float) {x : Float} (hx : x.isNaN = true) : clamp low high x = x := by
  have hnone (y : Float) : ¬x < y ∧ ¬y < x := by
    rw [lt_iff_rank_lt, lt_iff_rank_lt, hx]
    simp only [Bool.true_eq_false, false_and, and_false, not_false_eq_true, and_self]
  rw [clamp, if_neg (hnone low).1, if_neg (hnone high).2]

/-! ## Below zero -/

theorem unpack_neg_one : (-1.0 : Float).toModel.unpack = .finite .negative (2 ^ 52) (-52) (by decide) := by
  have hbits : (-1.0 : Float) = Float.ofBits 0xBFF0000000000000 := by decide +kernel
  rw [hbits]
  rfl

/-- Negative numbers are ordered against their amounts. -/
theorem rank_negative_le {m₁ m₂ : Nat} {e₁ e₂ : Int} {h₁ : 0 < m₁} {h₂ : 0 < m₂}
    (h : rank (.finite .positive m₁ e₁ h₁) ≤ rank (.finite .positive m₂ e₂ h₂)) :
    rank (.finite .negative m₂ e₂ h₂) ≤ rank (.finite .negative m₁ e₁ h₁) := by
  simp only [rank, Prod.Lex.toLex_le_toLex, true_and] at h ⊢
  omega

/-- Taking one away from a fraction leaves a negative number that is no less than minus one. -/
theorem StandsFor.sub_one_bounds {x : Float} (hx : StandsFor x v) (hless : v < 1) :
    -1.0 ≤ x - 1.0 ∧ x - 1.0 < 0.0 := by
  have hone : Worth (.finite .positive (2 ^ 52) (-52) (by decide)) 1 := unpack_one ▸ standsFor_one
  obtain ⟨hsub, hleast⟩ := Worth.sub_of_lt hx standsFor_one hless
  obtain ⟨m, e, hm, hstored, hrounded⟩ := exists_rounded_finite hleast
  -- the amount of the difference is rounded like a number above zero, and so to no more than one
  obtain ⟨t, ht, hamount⟩ := (show Worth (packed 1) 1 by rwa [hone.packed_eq]).exists_packed
    (sub_nonneg.2 hless.le) (sub_le_self 1 hx.nonneg)
  rw [packed, hrounded, unpack_pack_finite hm hstored] at hamount
  have hsmall : e ≤ 971 := by
    by_contra hlarge
    rw [if_neg hlarge] at hamount
    cases hamount
  rw [if_pos hsmall] at hamount
  have hdifference : (x - 1.0).toModel.unpack = .finite .negative m e hm := by
    show (Float.Model.pack (UnpackedFloat.sub .binary64 x.toModel.unpack (1.0 : Float).toModel.unpack)).unpack = _
    rw [hsub, hrounded, unpack_pack_finite hm hstored, if_pos hsmall]
  have hnumber : (x - 1.0).isNaN = false := isNaN_sub_of_isFinite hx.isNaN_eq standsFor_one.isFinite_eq
  rw [le_iff_rank_le, lt_iff_rank_lt, hdifference, unpack_neg_one, unpack_zero]
  refine ⟨⟨?_, hnumber, rank_negative_le ((hamount.rank_le_iff hone).2 ht)⟩, hnumber, standsFor_zero.isNaN_eq, ?_⟩
  · rw [← unpack_ne_notANumber_iff, unpack_neg_one]
    simp
  · simp [rank, Prod.Lex.toLex_lt_toLex]

/-! ## Quotients and bounds -/

/-- Packing keeps a negative sign. -/
theorem rank_pack_negative_le {m : Nat} {e : Int} (hm : 0 < m) :
    rank (Float.Model.pack (.finite .negative m e hm)).unpack ≤ rank (.zero .positive) := by
  have hword (exponent : BitVec 11) (fraction : BitVec 52) :
      rank (UnpackedFloat.unpack .binary64 (packComponents .binary64 .negative exponent fraction)) ≤
        rank (.zero .positive) := by
    rw [unpack_packComponents]
    split_ifs <;> simp [rank, Prod.Lex.toLex_le_toLex]
  show rank (UnpackedFloat.unpack .binary64 (UnpackedFloat.pack .binary64 (.finite .negative m e hm))) ≤ _
  rw [pack_finite]
  split
  · exact hword _ _
  · split <;> exact hword _ _

theorem rank_pack_rounded_negative_le (v : ℚ) :
    rank (Float.Model.pack (rounded .negative v)).unpack ≤ rank (.zero .positive) := by
  rw [rounded, carried]
  split
  · rw [unpack_pack_zero]
    exact le_rfl
  · split <;> exact rank_pack_negative_le _

theorem infinity_div (sign : Sign) {m : Nat} {e : Int} (hm : 0 < m) :
    UnpackedFloat.div .binary64 (.infinity sign) (.finite .positive m e hm) = .infinity sign := by
  cases sign <;> rfl

/-- Dividing by a number above zero makes nothing positive. -/
theorem Worth.rank_div_le (hb : Worth b w) (hw : 0 < w) (ha : rank a ≤ rank (.zero .positive)) :
    rank (Float.Model.pack (UnpackedFloat.div .binary64 a b)).unpack ≤ rank (.zero .positive) := by
  cases hb with
  | zero => exact absurd rfl hw.ne
  | finite hm hstored hsmall =>
    cases a with
    | notANumber =>
      show rank (Float.Model.pack .notANumber).unpack ≤ _
      rwa [unpack_pack_notANumber]
    | infinity sign => cases sign with
      | positive => simp [rank, Prod.Lex.toLex_le_toLex] at ha
      | negative =>
        rw [infinity_div]
        exact ha
    | zero sign =>
      show rank (Float.Model.pack (.zero (sign / .positive))).unpack ≤ _
      rw [unpack_pack_zero]
      exact le_rfl
    | finite sign m' e' hm' => cases sign with
      | positive => simp [rank, Prod.Lex.toLex_le_toLex] at ha
      | negative =>
        rw [div_finite]
        exact rank_pack_rounded_negative_le _

/-- What is not above zero is not so when it is divided by a number that is. -/
theorem StandsFor.not_pos_div {x y : Float} (hy : StandsFor y w) (hw : 0 < w) (hx : ¬(0.0 : Float) < x) :
    ¬(0.0 : Float) < x / y := by
  have hquotient : (x / y).toModel.unpack =
      (Float.Model.pack (UnpackedFloat.div .binary64 x.toModel.unpack y.toModel.unpack)).unpack := rfl
  have hnumber : (0.0 : Float).isNaN = false := standsFor_zero.isNaN_eq
  rw [lt_iff_rank_lt, unpack_zero, and_iff_right hnumber, ← unpack_ne_notANumber_iff] at hx
  rw [lt_iff_rank_lt, unpack_zero, hquotient]
  refine fun h ↦ absurd h.2.2 (not_lt.2 (Worth.rank_div_le hy hw ?_))
  by_cases hnone : x.toModel.unpack = .notANumber
  · rw [hnone]
    exact le_rfl
  · exact not_lt.1 fun hlt ↦ hx ⟨hnone, hlt⟩

/-- Dividing by a number above zero keeps the order. -/
theorem StandsFor.div_le_div {x y z : Float} {u : ℚ} (hx : StandsFor x v) (hy : StandsFor y w)
    (hz : StandsFor z u) (hu : 0 < u) (h : v ≤ w) : x / z ≤ y / z := by
  rw [le_iff_rank_le, ← unpack_ne_notANumber_iff, ← unpack_ne_notANumber_iff, hx.unpack_div hz hu,
    hy.unpack_div hz hu]
  have hv := div_nonneg hx.nonneg hu.le
  exact ⟨packed_ne_notANumber hv, packed_ne_notANumber (div_nonneg hy.nonneg hu.le),
    packed_mono hv (div_le_div_of_nonneg_right h hu.le)⟩

/-- Whether two numbers are above zero, and the second one is the next larger one with the same exponent. -/
def adjacent (below next : Float) : Bool :=
  match below.toModel.unpack, next.toModel.unpack with
  | .finite .positive m e _, .finite .positive m' e' _ => m' = m + 1 && e' = e
  | _, _ => false

/-- Between adjacent numbers there is no other. -/
theorem le_of_adjacent {below next x : Float} (h : adjacent below next = true) (hx : x < next) : x ≤ below := by
  rw [adjacent] at h
  split at h
  next m e hm m' e' hm' hbelow hnext =>
    simp only [Bool.and_eq_true, decide_eq_true_iff] at h
    obtain ⟨rfl, rfl⟩ := h
    have hnumber : below.isNaN = false := by
      rw [← unpack_ne_notANumber_iff, hbelow]
      simp
    rw [lt_iff_rank_lt, hnext] at hx
    rw [le_iff_rank_le, hbelow]
    refine ⟨hx.1, hnumber, ?_⟩
    have hlt := hx.2.2
    generalize x.toModel.unpack = a at hlt
    rcases a with (_ | _) | _ | (_ | _) | ⟨_ | _, _, _, _⟩ <;>
      simp only [rank, Prod.Lex.toLex_lt_toLex, Prod.Lex.toLex_le_toLex, true_and] at hlt ⊢ <;> omega
  next => cases h

theorem unpack_infinity_div {x y : Float} (hx : x.toModel.unpack = .infinity .positive) (hy : StandsFor y w)
    (hw : 0 < w) : (x / y).toModel.unpack = .infinity .positive := by
  rw [StandsFor] at hy
  show (Float.Model.pack (UnpackedFloat.div .binary64 x.toModel.unpack y.toModel.unpack)).unpack = _
  rw [hx]
  generalize y.toModel.unpack = b at hy
  cases hy with
  | zero => exact absurd rfl hw.ne
  | finite hm =>
    rw [infinity_div]
    rfl

/-- Where a quotient reaches a number is known from two adjacent dividends, whatever its rounding. -/
theorem le_div_iff_of_adjacent {count width below least : Float} {n u : ℚ} (hcount : StandsFor count n) (hn : 0 < n)
    (hwidth : StandsFor width w) (hw : 0 < w) (hbelow : StandsFor below u) (hleast : StandsFor least v)
    (hadjacent : adjacent below least = true) (hmisses : below / width < count) (hreaches : count ≤ least / width)
    (x : Float) : count ≤ x / width ↔ least ≤ x := by
  have hpos : (0.0 : Float) < count := (standsFor_zero.lt_iff hcount).2 hn
  have hpositive {y : Float} (h : count ≤ y / width) : (0.0 : Float) < y :=
    by_contra fun hnot ↦ hwidth.not_pos_div hw hnot (lt_of_lt_of_le hpos h)
  by_cases habove : (0.0 : Float) < x
  · rcases standsFor_zero.exists_or_of_lt habove with hinfinite | ⟨t, -, hx⟩
    · have hquotient := unpack_infinity_div hinfinite hwidth hw
      rw [le_iff_rank_le, le_iff_rank_le, ← unpack_ne_notANumber_iff x, ← unpack_ne_notANumber_iff (x / width),
        hinfinite, hquotient]
      exact iff_of_true ⟨hcount.isNaN_eq, by simp, rank_le_infinity _⟩
        ⟨hleast.isNaN_eq, by simp, rank_le_infinity _⟩
    · refine ⟨fun hle ↦ le_of_not_lt (fun hlt ↦ ?_) hleast.isNaN_eq hx.isNaN_eq, fun hle ↦ ?_⟩
      · have hquotient : x / width ≤ below / width :=
          hx.div_le_div hbelow hwidth hw ((hx.le_iff hbelow).1 (le_of_adjacent hadjacent hlt))
        exact not_lt_of_le hle (lt_of_le_of_lt hquotient hmisses)
      · exact le_trans hreaches (hleast.div_le_div hx hwidth hw ((hleast.le_iff hx).1 hle))
  · exact iff_of_false (fun hle ↦ habove (hpositive hle))
      fun hle ↦ habove (lt_of_lt_of_le (hpositive hreaches) hle)

/-! ## Counts -/

theorem toNat_ofNatClamp (n : Nat) : (UInt32.ofNatClamp n).toNat = min n (2 ^ 32 - 1) := by
  have hsize : UInt32.size = 2 ^ 32 := rfl
  rw [UInt32.ofNatClamp]
  split <;> rw [UInt32.toNat_ofNatLT] <;> omega

/-- What follows the whole part of a number is cut off. -/
theorem roundToInt_positive (m : Nat) (e : Int) : roundToInt .positive m e = (⌊(m * 2 ^ e : ℚ)⌋₊ : Int) := by
  have hshifted : ((m <<< (e - 0).toNat : Nat) : ℚ) / 2 ^ (0 - (e - (e - 0).toNat)).toNat = m * 2 ^ e := by
    rw [Nat.shiftLeft_eq, Nat.cast_mul, Nat.cast_pow, Nat.cast_ofNat, ← zpow_natCast, ← zpow_natCast, mul_div_assoc,
      ← zpow_sub₀ (by norm_num)]
    congr 2
    omega
  simp only [roundToInt, decreaseExponent, shiftToExponent, ExtendedMantissa.ofMantissaAndAccuracy]
  rw [← extended_natCast, shiftRight_extended, hshifted]
  rfl

theorem toNat_toUInt32_of_standsFor {x : Float} (hx : StandsFor x v) :
    x.toUInt32.toNat = min ⌊v⌋₊ (2 ^ 32 - 1) := by
  show (UnpackedFloat.toUInt32 x.toModel.unpack).toNat = _
  rw [StandsFor] at hx
  rw [UnpackedFloat.toUInt32, toNat_ofNatClamp]
  generalize x.toModel.unpack = a at hx
  cases hx with
  | zero =>
    rw [Nat.floor_zero]
    rfl
  | finite hm hstored hsmall =>
    rw [UnpackedFloat.toInt, roundToInt_positive, Int.toNat_natCast]

/-- What is not above zero counts as nothing. -/
theorem toNat_toUInt32_of_not_pos {x : Float} (h : ¬(0.0 : Float) < x) : x.toUInt32.toNat = 0 := by
  have hnegative (m : Nat) (e : Int) : (roundToInt .negative m e).toNat = 0 := by
    simp only [roundToInt, Sign.apply]
    omega
  rw [lt_iff_rank_lt, ← unpack_ne_notANumber_iff x, unpack_zero] at h
  have hzero := standsFor_zero.isNaN_eq
  show (UnpackedFloat.toUInt32 x.toModel.unpack).toNat = 0
  generalize x.toModel.unpack = a at h
  rcases a with (_ | _) | _ | _ | ⟨_ | _, m, e, hm⟩ <;>
    simp_all [UnpackedFloat.toUInt32, UnpackedFloat.toInt, toNat_ofNatClamp, rank, Prod.Lex.toLex_lt_toLex]

/-- A number reaches a count if the number does so without its fraction. -/
theorem StandsFor.le_toUInt32_iff {y : Float} {n : Nat} (hy : StandsFor y n) (hpos : 0 < n)
    (hfits : n < 2 ^ 32) (x : Float) : n ≤ x.toUInt32.toNat ↔ y ≤ x := by
  by_cases habove : (0.0 : Float) < x
  · rcases standsFor_zero.exists_or_of_lt habove with hinfinite | ⟨v, -, hx⟩
    · have hmost : x.toUInt32.toNat = 2 ^ 32 - 1 := by
        show (UnpackedFloat.toUInt32 x.toModel.unpack).toNat = _
        rw [hinfinite]
        rfl
      rw [hmost, le_iff_rank_le, ← unpack_ne_notANumber_iff x, hinfinite]
      exact iff_of_true (by omega) ⟨hy.isNaN_eq, by simp, rank_le_infinity _⟩
    · rw [toNat_toUInt32_of_standsFor hx, hy.le_iff hx, ← Nat.le_floor_iff hx.nonneg]
      omega
  · have hnone := toNat_toUInt32_of_not_pos habove
    refine iff_of_false (by omega) fun hle ↦ habove ?_
    exact lt_of_lt_of_le ((standsFor_zero.lt_iff hy).2 (by exact_mod_cast hpos)) hle

end RadioAccess.Real64
