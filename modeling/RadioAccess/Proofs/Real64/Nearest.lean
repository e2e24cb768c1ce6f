import RadioAccess.Proofs.Real64.Rounding

/-!
# Correct Rounding

What is rounded is a rational number: the result of an operation before any digit is dropped.  A mantissa
with its two residual bits says of that number all that rounding to the nearest asks for, and shifting it
halves the number (`shiftRight_extended`).  So the outcome is a function of the rational number alone
(`roundWithAccuracy_eq`).  It keeps the order (`packed_mono`), and a number that can be stored is its own
rounding (`Worth.packed_eq`).
-/

namespace RadioAccess.Real64

open Float.Model Float.Model.UnpackedFloat

/-! ## Nearest whole numbers -/

/-- What rounding sees of a mantissa: its whole part, the next binary digit, and whether more follow. -/
def extended (v : ℚ) : ExtendedMantissa := ⟨⌊v⌋₊, ⌊2 * v⌋₊ % 2 != 0, (⌊2 * v⌋₊ : ℚ) != 2 * v⟩

theorem floor_eq_half (v : ℚ) : ⌊v⌋₊ = ⌊2 * v⌋₊ / 2 := by
  rw [← Nat.floor_div_natCast, Nat.cast_ofNat, mul_div_cancel_left₀ v (by norm_num)]

/-- A number is whole if its double is even. -/
theorem floor_eq_self_iff (v : ℚ) :
    (⌊v⌋₊ : ℚ) = v ↔ ⌊2 * v⌋₊ % 2 = 0 ∧ (⌊2 * v⌋₊ : ℚ) = 2 * v := by
  constructor
  · intro h
    have hdouble : 2 * v = ((2 * ⌊v⌋₊ : Nat) : ℚ) := by
      rw [Nat.cast_mul, h, Nat.cast_ofNat]
    rw [hdouble, Nat.floor_natCast]
    exact ⟨Nat.mul_mod_right 2 _, rfl⟩
  · rintro ⟨heven, hwhole⟩
    have hhalf : ((2 * ⌊v⌋₊ : Nat) : ℚ) = ⌊2 * v⌋₊ := by
      rw [floor_eq_half v]
      congr 1
      omega
    rw [hwhole, Nat.cast_mul, Nat.cast_ofNat] at hhalf
    linarith

theorem extended_natCast (n : Nat) : extended n = ⟨n, false, false⟩ := by
  have hdouble : (2 * n : ℚ) = ((2 * n : Nat) : ℚ) := by push_cast; rfl
  rw [extended, hdouble, Nat.floor_natCast, Nat.floor_natCast, Nat.mul_mod_right]
  simp

theorem shiftRightOne_extended (v : ℚ) : (extended v).shiftRightOne = extended (v / 2) := by
  have hdouble : 2 * (v / 2) = v := by ring
  have hwhole : (⌊2 * v⌋₊ % 2 != 0 || (⌊2 * v⌋₊ : ℚ) != 2 * v) = ((⌊v⌋₊ : ℚ) != v) := by
    rw [Bool.eq_iff_iff]
    simp only [Bool.or_eq_true, bne_iff_ne, ne_eq, floor_eq_self_iff v]
    tauto
  rw [extended, extended, ExtendedMantissa.shiftRightOne, floor_eq_half (v / 2), hdouble, hwhole]

theorem shiftRight_extended (v : ℚ) (digits : Nat) : extended v >>> digits = extended (v / 2 ^ digits) := by
  induction digits with
  | zero =>
    rw [pow_zero, div_one]
    rfl
  | succ digits ih =>
    show (extended v >>> digits).shiftRightOne = _
    rw [ih, shiftRightOne_extended, pow_succ, div_div]

theorem floor_div_eq_self_iff (m : Nat) {n : Nat} (hn : 0 < n) :
    ((m / n : Nat) : ℚ) = (m : ℚ) / n ↔ m % n = 0 := by
  rw [eq_div_iff (by exact_mod_cast hn.ne'), ← Nat.cast_mul, Nat.cast_inj, ← Nat.dvd_iff_mod_eq_zero]
  exact ⟨fun h ↦ ⟨m / n, by rw [Nat.mul_comm, h]⟩, Nat.div_mul_cancel⟩

/-- A quotient with what is known of its rest. -/
theorem extended_div (m : Nat) {n : Nat} (hn : 0 < n) :
    ExtendedMantissa.ofMantissaAndAccuracy (m / n) (accuracyOfFraction (m % n) n) = extended (m / n) := by
  have hdouble : (2 * (m / n) : ℚ) = ((2 * m : Nat) : ℚ) / n := by push_cast; ring
  have hrest := Nat.mod_lt m hn
  have hdivision := Nat.mod_add_div m n
  have hsticky : (((2 * m / n : Nat) : ℚ) != ((2 * m : Nat) : ℚ) / n) = (2 * m % n != 0) := by
    rw [Bool.eq_iff_iff, bne_iff_ne, bne_iff_ne, ne_eq, floor_div_eq_self_iff _ hn]
  rw [extended, hdouble, Nat.floor_div_eq_div, Nat.floor_div_eq_div, hsticky]
  generalize m / n = q at *
  generalize m % n = r at *
  rcases Nat.lt_or_ge (2 * r) n with hless | hmore
  · obtain ⟨hquotient, hremainder⟩ := (Nat.div_mod_unique hn).2
      ⟨show 2 * r + n * (2 * q) = 2 * m by rw [← hdivision]; ring, hless⟩
    have hcompare : compare (2 * r) n = .lt := compare_lt_iff_lt.2 hless
    rw [hquotient, hremainder, accuracyOfFraction, hcompare]
    by_cases hr : r = 0 <;> simp [hr, ExtendedMantissa.ofMantissaAndAccuracy]
  · obtain ⟨hquotient, hremainder⟩ := (Nat.div_mod_unique (b := n) (c := 2 * r - n) (d := 2 * q + 1) hn).2
      ⟨show 2 * r - n + n * (2 * q + 1) = 2 * m by rw [← hdivision, Nat.mul_add]; grind, by omega⟩
    have hodd : (2 * q + 1) % 2 = 1 := by omega
    rw [hquotient, hremainder, hodd, accuracyOfFraction, if_neg (by omega)]
    rcases hmore.eq_or_lt with heq | hlt
    · rw [← heq]
      simp [ExtendedMantissa.ofMantissaAndAccuracy]
    · have hcompare : compare (2 * r) n = .gt := compare_gt_iff_gt.2 hlt
      have hsome : 2 * r - n ≠ 0 := by omega
      simp [ExtendedMantissa.ofMantissaAndAccuracy, hcompare, hsome]

/-- The nearest whole number, the even one of two. -/
def nearest (v : ℚ) : Nat := (extended v).roundedMantissa

theorem nearest_natCast (n : Nat) : nearest n = n := by
  rw [nearest, extended_natCast]
  rfl

/-- Below the half, numbers are rounded down. -/
theorem nearest_of_floor_eq_even {v : ℚ} {k : Nat} (h : ⌊2 * v⌋₊ = 2 * k) : nearest v = k := by
  have hmantissa : 2 * k / 2 = k := by omega
  rw [nearest, extended, floor_eq_half, h, hmantissa, Nat.mul_mod_right]
  cases ((2 * k : Nat) : ℚ) != 2 * v <;> rfl

/-- At the half, they are rounded to the even number. -/
theorem nearest_of_eq_odd {v : ℚ} {k : Nat} (h : 2 * v = (2 * k + 1 : Nat)) : nearest v = k + k % 2 := by
  have hmantissa : (2 * k + 1) / 2 = k := by omega
  have hodd : (2 * k + 1) % 2 = 1 := by omega
  have hwhole : (((2 * k + 1 : Nat) : ℚ) != (2 * k + 1 : Nat)) = false := bne_self_eq_false _
  rw [nearest, extended, floor_eq_half, h, Nat.floor_natCast, hmantissa, hodd, hwhole]
  rcases Nat.mod_two_eq_zero_or_one k with hk | hk <;>
    simp [ExtendedMantissa.roundedMantissa, ExtendedMantissa.accuracy, Accuracy.roundToNearestEven, hk]

/-- Above the half, they are rounded up. -/
theorem nearest_of_floor_eq_odd {v : ℚ} {k : Nat} (h : ⌊2 * v⌋₊ = 2 * k + 1)
    (hmore : 2 * v ≠ (2 * k + 1 : Nat)) : nearest v = k + 1 := by
  have hmantissa : (2 * k + 1) / 2 = k := by omega
  have hodd : (2 * k + 1) % 2 = 1 := by omega
  have hrest : (((2 * k + 1 : Nat) : ℚ) != 2 * v) = true := bne_iff_ne.2 hmore.symm
  rw [nearest, extended, floor_eq_half, h, hmantissa, hodd, hrest]
  rfl

theorem abs_nearest_sub_le {v : ℚ} (hv : 0 ≤ v) : |(nearest v : ℚ) - v| ≤ 1 / 2 := by
  have hfloor := Nat.floor_le (a := 2 * v) (by linarith)
  have hnext := Nat.lt_floor_add_one (2 * v)
  rw [abs_le]
  obtain ⟨k, heven | hodd⟩ := Nat.even_or_odd' ⌊2 * v⌋₊
  · rw [nearest_of_floor_eq_even heven]
    rw [heven, Nat.cast_mul, Nat.cast_ofNat] at hfloor hnext
    constructor <;> linarith
  by_cases htie : 2 * v = (2 * k + 1 : Nat)
  · rw [nearest_of_eq_odd htie]
    have hrest : ((k % 2 : Nat) : ℚ) ≤ 1 := by exact_mod_cast Nat.le_of_lt_succ (Nat.mod_lt k two_pos)
    push_cast at htie hrest ⊢
    constructor <;> linarith [Nat.cast_nonneg (α := ℚ) (k % 2)]
  · rw [nearest_of_floor_eq_odd hodd htie]
    rw [hodd] at hfloor hnext
    push_cast at hfloor hnext ⊢
    constructor <;> linarith

theorem nearest_mono {v w : ℚ} (hv : 0 ≤ v) (h : v ≤ w) : nearest v ≤ nearest w := by
  rcases h.eq_or_lt with rfl | hlt
  · exact le_rfl
  by_contra hmore
  have hstep : (nearest w : ℚ) + 1 ≤ nearest v := by exact_mod_cast Nat.lt_of_not_le hmore
  have hlow := abs_le.1 (abs_nearest_sub_le hv)
  have hhigh := abs_le.1 (abs_nearest_sub_le (hv.trans h))
  linarith

/-! ## Numbers in stored form -/

/-- The exponent of the last digit that is stored of a number. -/
def lastPlace (v : ℚ) : Int := max (Int.log 2 v - 52) (-1074)

theorem lastPlace_mono {v w : ℚ} (hv : 0 < v) (h : v ≤ w) : lastPlace v ≤ lastPlace w := by
  have := Int.log_mono_right (b := 2) hv h
  rw [lastPlace, lastPlace]
  omega

/-- A number in units of its last place. -/
def scaled (v : ℚ) : ℚ := v / 2 ^ lastPlace v

theorem scaled_nonneg {v : ℚ} (hv : 0 ≤ v) : 0 ≤ scaled v := div_nonneg hv (by positivity)

theorem scaled_lt (v : ℚ) : scaled v < 2 ^ 53 := by
  have hlog : v < 2 ^ (Int.log 2 v + 1) := by
    simpa using Int.lt_zpow_succ_log_self (b := 2) (by decide) v
  have hexponent : Int.log 2 v + 1 ≤ 53 + lastPlace v := by
    rw [lastPlace]
    omega
  rw [scaled, div_lt_iff₀ (by positivity)]
  calc
    v < 2 ^ (Int.log 2 v + 1) := hlog
    _ ≤ 2 ^ (53 + lastPlace v) := zpow_le_zpow_right₀ (by norm_num) hexponent
    _ = 2 ^ 53 * 2 ^ lastPlace v := by
      rw [zpow_add₀ (by norm_num)]
      norm_num

/-- A number has all of its digits, or the least exponent. -/
theorem full_scaled {v : ℚ} (hv : 0 < v) : lastPlace v = -1074 ∨ 2 ^ 52 ≤ scaled v := by
  by_cases hleast : lastPlace v = -1074
  · exact .inl hleast
  · right
    have hlog : (2 : ℚ) ^ Int.log 2 v ≤ v := by simpa using Int.zpow_log_le_self (b := 2) (by decide) hv
    have hexponent : Int.log 2 v = 52 + lastPlace v := by
      rw [lastPlace] at hleast ⊢
      omega
    rw [scaled, le_div_iff₀ (by positivity)]
    rw [hexponent, zpow_add₀ (by norm_num)] at hlog
    exact_mod_cast hlog

theorem nearest_scaled_le {v : ℚ} (hv : 0 ≤ v) : nearest (scaled v) ≤ 2 ^ 53 := by
  have hmono := nearest_mono (scaled_nonneg hv) (w := ((2 ^ 53 : Nat) : ℚ))
    (by exact_mod_cast (scaled_lt v).le)
  rwa [nearest_natCast] at hmono

theorem full_nearest_scaled {v : ℚ} (hv : 0 < v) : lastPlace v = -1074 ∨ 2 ^ 52 ≤ nearest (scaled v) := by
  refine (full_scaled hv).imp_right fun hfull ↦ ?_
  have hmono := nearest_mono (v := ((2 ^ 52 : Nat) : ℚ)) (by positivity) (by exact_mod_cast hfull)
  rwa [nearest_natCast] at hmono

/-- A rounded mantissa in stored form.  Rounding may have carried into one more digit. -/
def carried (sign : Sign) (mantissa : Nat) (exponent : Int) : UnpackedFloat :=
  if h : mantissa = 0 then .zero sign
  else if mantissa < 2 ^ 53 then .finite sign mantissa exponent (Nat.pos_of_ne_zero h)
  else .finite sign (2 ^ 52) (exponent + 1) (by decide)

/-- The unpacked number nearest to a rational one. -/
def rounded (sign : Sign) (v : ℚ) : UnpackedFloat := carried sign (nearest (scaled v)) (lastPlace v)

theorem ofMantissaAndAccuracy_mantissa (m : Nat) (accuracy : Accuracy) :
    (ExtendedMantissa.ofMantissaAndAccuracy m accuracy).mantissa = m := by
  obtain _ | (_ | _ | _) := accuracy <;> rfl

/-- The logarithm of a number is found in its whole part. -/
theorem log_eq_log2_add {v : ℚ} (hv : 0 < v) {e : Int} (hsome : ⌊v / 2 ^ e⌋₊ ≠ 0) :
    Int.log 2 v = ⌊v / 2 ^ e⌋₊.log2 + e := by
  have hunit : (0 : ℚ) < 2 ^ e := by positivity
  have hfloor : (⌊v / 2 ^ e⌋₊ : ℚ) * 2 ^ e ≤ v :=
    (le_div_iff₀ hunit).1 (Nat.floor_le (div_pos hv hunit).le)
  have hnext : v < (⌊v / 2 ^ e⌋₊ + 1) * 2 ^ e := (div_lt_iff₀ hunit).1 (Nat.lt_floor_add_one _)
  generalize ⌊v / 2 ^ e⌋₊ = n at *
  have hleast : (2 : ℚ) ^ n.log2 ≤ n := by exact_mod_cast Nat.log2_self_le hsome
  have hmost : (n + 1 : ℚ) ≤ 2 ^ (n.log2 + 1) := by exact_mod_cast Nat.lt_log2_self (n := n)
  refine le_antisymm (Int.lt_add_one_iff.1 ?_) ?_
  · refine (Int.lt_zpow_iff_log_lt (b := 2) (by decide) hv).1 ?_
    calc
      v < (n + 1) * 2 ^ e := hnext
      _ ≤ 2 ^ (n.log2 + 1) * 2 ^ e := mul_le_mul_of_nonneg_right hmost hunit.le
      _ = ((2 : Nat) : ℚ) ^ ((n.log2 : Int) + e + 1) := by
        rw [← zpow_natCast, ← zpow_add₀ (by norm_num)]
        push_cast
        congr 1
        ring
  · refine (Int.zpow_le_iff_le_log (b := 2) (by decide) hv).1 ?_
    calc
      ((2 : Nat) : ℚ) ^ ((n.log2 : Int) + e) = 2 ^ n.log2 * 2 ^ e := by
        rw [zpow_add₀ (by norm_num), zpow_natCast, Nat.cast_ofNat]
      _ ≤ n * 2 ^ e := mul_le_mul_of_nonneg_right hleast hunit.le
      _ ≤ v := hfloor

theorem log_mul_zpow {m : Nat} (hm : 0 < m) (e : Int) : Int.log 2 (m * 2 ^ e : ℚ) = m.log2 + e := by
  have hfloor : ⌊(m * 2 ^ e : ℚ) / 2 ^ e⌋₊ = m := by
    rw [mul_div_cancel_right₀ _ (by positivity), Nat.floor_natCast]
  rw [log_eq_log2_add (e := e) (by positivity) (by omega), hfloor]

theorem lastPlace_eq {m : Nat} (hm : 0 < m) (e : Int) : lastPlace (m * 2 ^ e : ℚ) = storedExponent m e := by
  rw [lastPlace, log_mul_zpow hm, storedExponent]

/-- Rounding aims at the last place, if it starts from no digit beyond. -/
theorem storedExponent_floor {v : ℚ} (hv : 0 < v) {e : Int} (hle : e ≤ lastPlace v) :
    storedExponent ⌊v / 2 ^ e⌋₊ e = lastPlace v := by
  by_cases hnone : ⌊v / 2 ^ e⌋₊ = 0
  · have hless : v < 2 ^ e := by
      have := Nat.lt_of_floor_lt (hnone.trans_lt one_pos)
      rwa [Nat.cast_one, div_lt_one (by positivity)] at this
    have hlog : Int.log 2 v < e := (Int.lt_zpow_iff_log_lt (b := 2) (by decide) hv).1 (by exact_mod_cast hless)
    rw [hnone, storedExponent, lastPlace, Nat.log2_zero]
    rw [lastPlace] at hle
    omega
  · rw [lastPlace, log_eq_log2_add hv hnone, storedExponent]

/-- After a carry the last digit, which is zero, is dropped. -/
theorem shiftToTargetExponent_carried (sign : Sign) {r : Nat} {e : Int} (hmost : r ≤ 2 ^ 53)
    (hleast : -1074 ≤ e) :
    (if h : (ExtendedMantissa.mk r false false >>> (storedExponent r e - e).toNat).mantissa = 0 then
        UnpackedFloat.zero sign
      else .finite sign (ExtendedMantissa.mk r false false >>> (storedExponent r e - e).toNat).mantissa
        (e + (storedExponent r e - e).toNat) (Nat.pos_of_ne_zero h)) = carried sign r e := by
  rw [carried]
  rcases Nat.eq_zero_or_pos r with rfl | hpos
  · have hnone : (storedExponent 0 e - e).toNat = 0 := by
      rw [storedExponent, Nat.log2_zero]
      omega
    rw [hnone]
    rfl
  rcases hmost.lt_or_eq with hfits | rfl
  · have hnone : (storedExponent r e - e).toNat = 0 := by
      have := storedExponent_le hpos hfits hleast
      omega
    simp only [hnone, if_pos hfits, Nat.cast_zero, add_zero]
    rfl
  · simp only [storedExponent_carry hleast, add_sub_cancel_left]
    rfl

theorem roundWithAccuracy_eq (sign : Sign) {v : ℚ} (hv : 0 < v) {m : Nat} {e : Int} {accuracy : Accuracy}
    (hextended : ExtendedMantissa.ofMantissaAndAccuracy m accuracy = extended (v / 2 ^ e))
    (hle : e ≤ lastPlace v) : roundWithAccuracy .binary64 sign m e accuracy = rounded sign v := by
  have hm : m = ⌊v / 2 ^ e⌋₊ := by
    rw [← ofMantissaAndAccuracy_mantissa m accuracy, hextended, extended]
  have hexponent : storedExponent m e = lastPlace v := hm ▸ storedExponent_floor hv hle
  have hleast : -1074 ≤ lastPlace v := le_max_right _ _
  have hshifted : e + ((lastPlace v - e).toNat : Int) = lastPlace v := by omega
  have hscaled : v / 2 ^ e / 2 ^ (lastPlace v - e).toNat = scaled v := by
    rw [scaled, div_div, ← zpow_natCast, ← zpow_add₀ (by norm_num), hshifted]
  have hfirst : shiftToTargetExponent .binary64 m e accuracy = (extended (scaled v), lastPlace v) := by
    rw [shiftToTargetExponent, targetExponent_eq, shiftToExponent, hextended, hexponent, hshifted]
    simp only [shiftRight_extended, hscaled]
  have hmost : nearest (scaled v) ≤ 2 ^ 53 := nearest_scaled_le hv.le
  rw [roundWithAccuracy, hfirst]
  simp only [shiftToTargetExponent_eq]
  exact shiftToTargetExponent_carried sign hmost hleast

/-! ## Order -/

/-- Zero, or a number in stored form, neither of them with a sign. -/
inductive InForm : UnpackedFloat → Prop where
  | zero : InForm (.zero .positive)
  | finite {m : Nat} {e : Int} (hm : 0 < m) (h : Stored m e) : InForm (.finite .positive m e hm)

theorem inForm_carried {r : Nat} {e : Int} (hleast : -1074 ≤ e) (hfull : e = -1074 ∨ 2 ^ 52 ≤ r) :
    InForm (carried .positive r e) := by
  rw [carried]
  split
  · exact .zero
  split
  · exact .finite _ ⟨‹_›, hleast, hfull⟩
  · exact .finite _ ⟨by decide, by omega, .inr le_rfl⟩

/-- A larger exponent outweighs every mantissa, also if the smaller number is carried over. -/
theorem rank_carried_mono {r r' : Nat} {e e' : Int} (hmost : r ≤ 2 ^ 53) (hleast : -1074 ≤ e)
    (hfull : e' = -1074 ∨ 2 ^ 52 ≤ r') (h : e < e' ∨ e = e' ∧ r ≤ r') :
    rank (carried .positive r e) ≤ rank (carried .positive r' e') := by
  rw [carried, carried]
  split_ifs <;> simp only [rank, Prod.Lex.toLex_le_toLex, true_and] <;> omega

theorem rounded_zero (sign : Sign) : rounded sign 0 = .zero sign := by
  have hnone : nearest (scaled 0) = 0 := by
    rw [scaled, zero_div]
    exact nearest_natCast 0
  rw [rounded, hnone, carried, dif_pos rfl]

theorem inForm_rounded {v : ℚ} (hv : 0 ≤ v) : InForm (rounded .positive v) := by
  rcases hv.eq_or_lt with rfl | hpos
  · rw [rounded_zero]
    exact .zero
  · exact inForm_carried (le_max_right _ _) (full_nearest_scaled hpos)

theorem zero_le_rank {a : UnpackedFloat} (h : InForm a) : rank (.zero .positive) ≤ rank a := by
  cases h <;> simp [rank, Prod.Lex.toLex_le_toLex]

/-- Rounding keeps the order. -/
theorem rank_rounded_mono {v w : ℚ} (hv : 0 ≤ v) (h : v ≤ w) :
    rank (rounded .positive v) ≤ rank (rounded .positive w) := by
  rcases hv.eq_or_lt with rfl | hpos
  · rw [rounded_zero]
    exact zero_le_rank (inForm_rounded h)
  · refine rank_carried_mono (nearest_scaled_le hv) (le_max_right _ _)
      (full_nearest_scaled (hpos.trans_le h)) ?_
    rcases (lastPlace_mono hpos h).lt_or_eq with hlt | heq
    · exact .inl hlt
    · refine .inr ⟨heq, nearest_mono (scaled_nonneg hv) ?_⟩
      rw [scaled, scaled, heq]
      exact div_le_div_of_nonneg_right h (by positivity)

/-- Packing keeps the order, for all numbers that are too large become infinite. -/
theorem rank_pack_mono {a b : UnpackedFloat} (ha : InForm a) (hb : InForm b) (h : rank a ≤ rank b) :
    rank (Float.Model.pack a).unpack ≤ rank (Float.Model.pack b).unpack := by
  cases ha with
  | zero =>
    cases hb with
    | zero => exact le_rfl
    | finite hm hstored =>
      rw [unpack_pack_zero, unpack_pack_finite hm hstored]
      split <;> simp [rank, Prod.Lex.toLex_le_toLex]
  | finite hm hstored =>
    cases hb with
    | zero => simp [rank, Prod.Lex.toLex_le_toLex] at h
    | finite hm' hstored' =>
      rw [unpack_pack_finite hm hstored, unpack_pack_finite hm' hstored']
      simp only [rank, Prod.Lex.toLex_le_toLex] at h
      split_ifs <;> simp only [rank, Prod.Lex.toLex_le_toLex, true_and] <;> omega

/-- What is stored of a rational number. -/
def packed (v : ℚ) : UnpackedFloat := (Float.Model.pack (rounded .positive v)).unpack

theorem packed_mono {v w : ℚ} (hv : 0 ≤ v) (h : v ≤ w) : rank (packed v) ≤ rank (packed w) :=
  rank_pack_mono (inForm_rounded hv) (inForm_rounded (hv.trans h)) (rank_rounded_mono hv h)

/-! ## Numbers that are stored exactly -/

/-- The rational number that an unpacked number without a sign is. -/
inductive Worth : UnpackedFloat → ℚ → Prop where
  | zero : Worth (.zero .positive) 0
  | finite {m : Nat} {e : Int} (hm : 0 < m) (h : Stored m e) (hsmall : e ≤ 971) :
      Worth (.finite .positive m e hm) (m * 2 ^ e)

variable {a b : UnpackedFloat} {v w : ℚ}

theorem Worth.nonneg (h : Worth a v) : 0 ≤ v := by
  cases h <;> positivity

theorem Worth.inForm (h : Worth a v) : InForm a := by
  cases h with
  | zero => exact .zero
  | finite hm hstored hsmall => exact .finite hm hstored

/-- What is in stored form is not rounded, whatever its sign. -/
theorem rounded_stored (sign : Sign) {m : Nat} {e : Int} (hm : 0 < m) (h : Stored m e) :
    rounded sign (m * 2 ^ e) = .finite sign m e hm := by
  have hplace := (lastPlace_eq hm e).trans (h.storedExponent_eq hm)
  have hscaled : scaled (m * 2 ^ e : ℚ) = m := by
    rw [scaled, hplace, mul_div_cancel_right₀ _ (by positivity)]
  rw [rounded, hscaled, nearest_natCast, hplace, carried, dif_neg hm.ne', if_pos h.bounded]

/-- A stored number is not rounded. -/
theorem Worth.rounded_eq (h : Worth a v) : rounded .positive v = a := by
  cases h with
  | zero => exact rounded_zero _
  | finite hm hstored hsmall => exact rounded_stored _ hm hstored

theorem Worth.packed_eq (h : Worth a v) : packed v = a := by
  rw [packed, h.rounded_eq]
  cases h with
  | zero => exact unpack_pack_zero _
  | finite hm hstored hsmall => rw [unpack_pack_finite hm hstored, if_pos hsmall]

theorem Worth.unique (h : Worth a v) (h' : Worth a w) : v = w := by
  cases h <;> cases h' <;> rfl

theorem rank_inj (ha : InForm a) (hb : InForm b) (h : rank a = rank b) : a = b := by
  cases ha <;> cases hb <;> simp_all [rank]

/-- Stored numbers are ordered as what they are. -/
theorem Worth.rank_le_iff (ha : Worth a v) (hb : Worth b w) : rank a ≤ rank b ↔ v ≤ w := by
  have hmono {a b : UnpackedFloat} {v w : ℚ} (ha : Worth a v) (hb : Worth b w) (h : v ≤ w) :
      rank a ≤ rank b := by
    rw [← ha.packed_eq, ← hb.packed_eq]
    exact packed_mono ha.nonneg h
  refine ⟨fun h ↦ ?_, hmono ha hb⟩
  rcases le_total v w with hle | hle
  · exact hle
  · obtain rfl := rank_inj ha.inForm hb.inForm (le_antisymm h (hmono hb ha hle))
    exact (ha.unique hb).le

/-- What is rounded from no more than a number that can be stored can be stored itself. -/
theorem Worth.exists_packed {u : ℚ} (hw : Worth (packed w) u) (hv : 0 ≤ v) (h : v ≤ w) :
    ∃ t ≤ u, Worth (packed v) t := by
  have hrank := packed_mono hv h
  have hworth : ∃ t, Worth (packed v) t := by
    have hform := inForm_rounded hv
    rw [packed] at hrank ⊢
    generalize rounded .positive v = a at *
    cases hform with
    | zero => exact ⟨0, by rw [unpack_pack_zero]; exact .zero⟩
    | @finite m e hm hstored =>
      rw [unpack_pack_finite hm hstored] at hrank ⊢
      split
      · exact ⟨_, .finite hm hstored ‹_›⟩
      · rename_i hlarge
        rw [if_neg hlarge] at hrank
        generalize packed w = b at *
        cases hw <;> simp [rank, Prod.Lex.toLex_le_toLex] at hrank
  obtain ⟨t, ht⟩ := hworth
  exact ⟨t, (ht.rank_le_iff hw).1 hrank, ht⟩

end RadioAccess.Real64
