import Mathlib.Tactic.Ring
import RadioAccess.Proofs.Real64.Order

/-!
# Rounding of Sums

The sum of two positive numbers is exact before it is rounded to 53 binary digits.  Whether a small number
shows in a sum is thus a matter of half a unit in the last digit of the larger one: `lt_add_of_half_lt`
and `add_eq_self_of_lt_half` say so for either side of it.
-/

namespace RadioAccess.Real64

open Float.Model Float.Model.UnpackedFloat

/-! ## Stored numbers -/

/-- A mantissa and an exponent as they are stored: of 53 digits, or of fewer with the least exponent. -/
structure Stored (mantissa : Nat) (exponent : Int) : Prop where
  bounded : mantissa < 2 ^ 53
  least : -1074 ≤ exponent
  full : exponent = -1074 ∨ 2 ^ 52 ≤ mantissa

/-- The leading digit of a full mantissa is not stored. -/
theorem toNat_one_append (fraction : BitVec 52) : (1#1 ++ fraction).toNat = 2 ^ 52 + fraction.toNat := by
  rw [BitVec.toNat_append, ← Nat.shiftLeft_add_eq_or_of_lt fraction.isLt]
  rfl

/-- How a word is unpacked. -/
theorem unpack_packComponents (sign : Sign) (exponent : BitVec 11) (fraction : BitVec 52) :
    UnpackedFloat.unpack .binary64 (packComponents .binary64 sign exponent fraction) =
      if exponent = -1#11 then if fraction = 0#52 then .infinity sign else .notANumber
      else if exponent = 0#11 then
        if h : fraction = 0#52 then .zero sign
        else .finite sign fraction.toNat (-1074)
          (by simpa [BitVec.toNat_pos, BitVec.pos_iff_ne_zero] using h)
      else .finite sign (2 ^ 52 + fraction.toNat) ((exponent.toNat : Int) - 1075) (by omega) := by
  rw [UnpackedFloat.unpack]
  simp only [unpackExponent_packComponents, unpackMantissa_packComponents, unpackSign_packComponents,
    Sign.ofBitVec_toBitVec]
  split
  · rfl
  · split
    · rename_i hzero
      subst hzero
      rfl
    · congr 1
      exact toNat_one_append fraction

theorem exists_packComponents (word : BitVec Format.binary64.numBits) :
    ∃ sign exponent fraction, word = packComponents .binary64 sign exponent fraction :=
  ⟨_, _, _, (packComponents_unpackSign_unpackExponent_unpackMantissa word).symm⟩

theorem stored_unpack {x : Float} {sign : Sign} {m : Nat} {e : Int} {hm : 0 < m}
    (h : x.toModel.unpack = .finite sign m e hm) : Stored m e := by
  obtain ⟨_, exponent, fraction, hword⟩ := exists_packComponents x.toModel.toBits.toBitVec
  have hfraction : fraction.toNat < 2 ^ 52 := fraction.isLt
  rw [Float.Model.unpack, hword, unpack_packComponents] at h
  split at h
  · split at h <;> cases h
  · split at h
    · split at h
      · cases h
      · obtain ⟨-, rfl, rfl⟩ := UnpackedFloat.finite.inj h
        exact ⟨by omega, by omega, .inl rfl⟩
    · rename_i hzero
      have hsome : exponent.toNat ≠ 0 := fun hnone ↦ hzero (BitVec.toNat_inj.1 hnone)
      obtain ⟨-, rfl, rfl⟩ := UnpackedFloat.finite.inj h
      exact ⟨by omega, by omega, .inr (by omega)⟩

/-- A number of 53 digits is packed without its leading digit. -/
theorem unpack_pack_of_full {sign : Sign} {m : Nat} {e : Int} (hm : 0 < m) (h : Stored m e)
    (hfull : 2 ^ 52 ≤ m) (hsmall : e ≤ 971) :
    (Float.Model.pack (.finite sign m e hm)).unpack = .finite sign m e hm := by
  have hleast := h.least
  have hbounded := h.bounded
  have hlog : m.log2 = 52 := (Nat.log2_eq_iff (by omega)).2 ⟨hfull, hbounded⟩
  have hexponent : (BitVec.ofNat 11 (e + 1023 + 52).toNat).toNat = (e + 1075).toNat := by
    rw [BitVec.toNat_ofNat, Nat.mod_eq_of_lt (by omega)]
    omega
  have hfraction : 2 ^ 52 + (BitVec.ofNat 52 m).toNat = m := by
    rw [BitVec.toNat_ofNat]
    omega
  show UnpackedFloat.unpack .binary64 (UnpackedFloat.pack .binary64 (.finite sign m e hm)) = _
  rw [pack_finite, if_neg (by omega), if_pos (by omega), unpack_packComponents, if_neg, if_neg]
  · simp only [hexponent, hfraction]
    congr 1
    omega
  · intro hzero
    rw [hzero] at hexponent
    have : (0#11).toNat = 0 := rfl
    omega
  · intro hones
    rw [hones] at hexponent
    have : (-1#11).toNat = 2047 := rfl
    omega

/-- A number of fewer digits is packed with the exponent zero, which stands for the least one. -/
theorem unpack_pack_of_short {sign : Sign} {m : Nat} {e : Int} (hm : 0 < m) (h : Stored m e)
    (hless : m < 2 ^ 52) : (Float.Model.pack (.finite sign m e hm)).unpack = .finite sign m e hm := by
  have heq : e = -1074 := h.full.resolve_right (by omega)
  have hlog : m.log2 < 52 := (Nat.log2_lt (by omega)).2 hless
  have hfraction : (BitVec.ofNat 52 m).toNat = m := by
    rw [BitVec.toNat_ofNat, Nat.mod_eq_of_lt hless]
  have hsome : BitVec.ofNat 52 m ≠ 0#52 := by
    intro hnone
    rw [hnone] at hfraction
    exact absurd hfraction.symm (by simpa using Nat.ne_of_gt hm)
  show UnpackedFloat.unpack .binary64 (UnpackedFloat.pack .binary64 (.finite sign m e hm)) = _
  rw [pack_finite, if_neg (by omega), if_neg (by omega), unpack_packComponents, if_neg (by decide),
    if_pos rfl, dif_neg hsome]
  simp only [hfraction]
  congr 1
  exact heq.symm

/-- A number in stored form is packed without a change, unless it is too large. -/
theorem unpack_pack_finite {sign : Sign} {m : Nat} {e : Int} (hm : 0 < m) (h : Stored m e) :
    (Float.Model.pack (.finite sign m e hm)).unpack =
      if e ≤ 971 then .finite sign m e hm else .infinity sign := by
  split
  · rename_i hsmall
    by_cases hfull : 2 ^ 52 ≤ m
    · exact unpack_pack_of_full hm h hfull hsmall
    · exact unpack_pack_of_short hm h (by omega)
  · show UnpackedFloat.unpack .binary64 (UnpackedFloat.pack .binary64 (.finite sign m e hm)) = _
    rw [pack_finite, if_pos (by omega)]
    exact unpack_packComponents sign _ _

/-! ## Rounding -/

/-- The nearest whole number to `mantissa / 2 ^ digits`, the even one of two. -/
def nearestEven (mantissa digits : Nat) : Nat :=
  (ExtendedMantissa.mk mantissa false false >>> digits).roundedMantissa

theorem shiftRight_succ (m digits : Nat) : ExtendedMantissa.mk m false false >>> (digits + 1) =
    ⟨m / 2 ^ (digits + 1), m / 2 ^ digits % 2 != 0, m % 2 ^ digits != 0⟩ := by
  induction digits with
  | zero =>
    show ExtendedMantissa.shiftRightOne ⟨m, false, false⟩ = _
    simp [ExtendedMantissa.shiftRightOne, Nat.mod_one]
  | succ digits ih =>
    have hsticky : (m / 2 ^ digits % 2 != 0 || m % 2 ^ digits != 0) = (m % 2 ^ (digits + 1) != 0) := by
      have hpos := Nat.two_pow_pos digits
      rw [Bool.eq_iff_iff, Nat.mod_pow_succ]
      simp only [Bool.or_eq_true, bne_iff_ne]
      rcases Nat.mod_two_eq_zero_or_one (m / 2 ^ digits) with h | h <;> rw [h] <;> omega
    show (ExtendedMantissa.mk m false false >>> (digits + 1)).shiftRightOne = _
    rw [ih, ExtendedMantissa.shiftRightOne, hsticky, Nat.div_div_eq_div_mul, ← pow_succ]

theorem roundedMantissa_bounds (em : ExtendedMantissa) :
    em.mantissa ≤ em.roundedMantissa ∧ em.roundedMantissa ≤ em.mantissa + 1 ∧
      (em.roundBit = false → em.roundedMantissa = em.mantissa) ∧
      (em.roundBit = true → em.stickyBit = true → em.roundedMantissa = em.mantissa + 1) := by
  obtain ⟨m, round, sticky⟩ := em
  cases round <;> cases sticky <;>
    simp [ExtendedMantissa.roundedMantissa, ExtendedMantissa.accuracy, Accuracy.roundToNearestEven]
  omega

theorem nearestEven_zero (m : Nat) : nearestEven m 0 = m := rfl

/-- What is above the middle of two whole numbers is rounded up. -/
theorem lt_nearestEven {n m digits : Nat} (h : (2 * n + 1) * 2 ^ digits < 2 * m) :
    n < nearestEven m digits := by
  cases digits with
  | zero =>
    rw [nearestEven_zero]
    omega
  | succ digits =>
    have habove : (2 * n + 1) * 2 ^ digits < m := by
      rw [pow_succ, ← Nat.mul_assoc] at h
      omega
    have hpos := Nat.two_pow_pos digits
    have hquotient : 2 * n + 1 ≤ m / 2 ^ digits := (Nat.le_div_iff_mul_le hpos).2 habove.le
    have hrest : m / 2 ^ digits = 2 * n + 1 → m % 2 ^ digits ≠ 0 := by
      intro heq hnone
      have hdivision := Nat.div_add_mod m (2 ^ digits)
      rw [heq, hnone, Nat.mul_comm] at hdivision
      omega
    obtain ⟨hle, -, -, hup⟩ := roundedMantissa_bounds
      ⟨m / 2 ^ (digits + 1), m / 2 ^ digits % 2 != 0, m % 2 ^ digits != 0⟩
    rw [nearestEven, shiftRight_succ]
    have hhalf : m / 2 ^ (digits + 1) = m / 2 ^ digits / 2 := by
      rw [pow_succ, Nat.div_div_eq_div_mul]
    simp only [bne_iff_ne] at hle hup
    by_cases hmiddle : m / 2 ^ digits = 2 * n + 1
    · rw [hup (by omega) (hrest hmiddle)]
      omega
    · omega

theorem le_nearestEven {n m digits : Nat} (h : n * 2 ^ digits ≤ m) : n ≤ nearestEven m digits := by
  cases n with
  | zero => exact Nat.zero_le _
  | succ n =>
    refine lt_nearestEven ?_
    have hpos := Nat.two_pow_pos digits
    calc
      (2 * n + 1) * 2 ^ digits < (2 * n + 2) * 2 ^ digits := by
        exact Nat.mul_lt_mul_of_pos_right (by omega) hpos
      _ = 2 * ((n + 1) * 2 ^ digits) := by ring
      _ ≤ 2 * m := by omega

/-- What is below the middle of two whole numbers is rounded down. -/
theorem nearestEven_le {n m digits : Nat} (h : 2 * m < (2 * n + 1) * 2 ^ digits) :
    nearestEven m digits ≤ n := by
  cases digits with
  | zero =>
    rw [nearestEven_zero]
    omega
  | succ digits =>
    have hbelow : m < (2 * n + 1) * 2 ^ digits := by
      rw [pow_succ, ← Nat.mul_assoc] at h
      omega
    have hquotient : m / 2 ^ digits < 2 * n + 1 := Nat.div_lt_of_lt_mul (by rwa [Nat.mul_comm])
    obtain ⟨-, hle, hdown, -⟩ := roundedMantissa_bounds
      ⟨m / 2 ^ (digits + 1), m / 2 ^ digits % 2 != 0, m % 2 ^ digits != 0⟩
    rw [nearestEven, shiftRight_succ]
    have hhalf : m / 2 ^ (digits + 1) = m / 2 ^ digits / 2 := by
      rw [pow_succ, Nat.div_div_eq_div_mul]
    simp only [bne_eq_false_iff_eq] at hle hdown
    by_cases heven : m / 2 ^ digits = 2 * n
    · rw [hdown (by omega)]
      omega
    · omega

/-- The exponent with which a number is stored. -/
def storedExponent (m : Nat) (e : Int) : Int := max (m.log2 + e - 52) (-1074)

theorem targetExponent_eq (m : Nat) (e : Int) :
    Format.binary64.targetExponent (totalExponent m e) = storedExponent m e := by
  have hbits : Format.binary64.mantissaBits = 53 := rfl
  have hleast : Format.binary64.minExponent = -1074 := rfl
  rw [Format.targetExponent, totalExponent, storedExponent, hbits, hleast]
  congr 1
  omega

theorem shiftToTargetExponent_eq (m : Nat) (e : Int) :
    shiftToTargetExponent .binary64 m e .exact =
      (ExtendedMantissa.mk m false false >>> (storedExponent m e - e).toNat,
        e + (storedExponent m e - e).toNat) := by
  rw [← targetExponent_eq]
  rfl

theorem lt_of_storedExponent (m : Nat) (e : Int) :
    m < 2 ^ 53 * 2 ^ (storedExponent m e - e).toNat := by
  have hdigits : m.log2 + 1 ≤ 53 + (storedExponent m e - e).toNat := by
    rw [storedExponent]
    omega
  rw [← pow_add]
  exact Nat.lt_log2_self.trans_le (Nat.pow_le_pow_right (by decide) hdigits)

theorem nearestEven_le_of_storedExponent (m : Nat) (e : Int) :
    nearestEven m (storedExponent m e - e).toNat ≤ 2 ^ 53 := by
  have hlt := lt_of_storedExponent m e
  refine nearestEven_le ?_
  calc
    2 * m < 2 * (2 ^ 53 * 2 ^ (storedExponent m e - e).toNat) := by omega
    _ ≤ (2 * 2 ^ 53 + 1) * 2 ^ (storedExponent m e - e).toNat := by
      rw [Nat.add_mul, Nat.mul_assoc]
      exact Nat.le_add_right _ _

/-- A number of 53 digits need not be shifted. -/
theorem storedExponent_le {m : Nat} {e : Int} (hm : 0 < m) (hfits : m < 2 ^ 53) (hleast : -1074 ≤ e) :
    storedExponent m e ≤ e := by
  have hlog : m.log2 < 53 := (Nat.log2_lt (by omega)).2 hfits
  rw [storedExponent]
  omega

theorem Stored.storedExponent_eq {m : Nat} {e : Int} (h : Stored m e) (hm : 0 < m) :
    storedExponent m e = e := by
  refine le_antisymm (storedExponent_le hm h.bounded h.least) ?_
  rcases h.full with rfl | hfull
  · exact le_max_right _ _
  · have hlog : 52 ≤ m.log2 := (Nat.le_log2 (by omega)).2 hfull
    rw [storedExponent]
    omega

/-- What is no less than a stored number is stored with no smaller exponent. -/
theorem Stored.le_storedExponent {m₁ m : Nat} {e₁ e : Int} (h₁ : Stored m₁ e₁) (hm : 0 < m)
    (hfrom : m₁ * 2 ^ (e₁ - e).toNat ≤ m) : e₁ ≤ storedExponent m e := by
  rw [storedExponent]
  rcases h₁.full with rfl | hfull
  · exact le_max_right _ _
  · have hlog : 52 + (e₁ - e).toNat ≤ m.log2 := by
      rw [Nat.le_log2 (by omega), pow_add]
      exact (Nat.mul_le_mul_right _ hfull).trans hfrom
    omega

theorem storedExponent_carry {e : Int} (hleast : -1074 ≤ e) : storedExponent (2 ^ 53) e = e + 1 := by
  rw [storedExponent, Nat.log2_two_pow]
  omega

/-- A number that has digits to spare is rounded to a stored one.  Rounding may carry into one more
digit. -/
theorem round_eq {sign : Sign} {m : Nat} {e : Int} (hle : e ≤ storedExponent m e) {r : Nat}
    (hr : nearestEven m (storedExponent m e - e).toNat = r) (hpos : 0 < r) :
    UnpackedFloat.round .binary64 sign m e =
      if r < 2 ^ 53 then .finite sign r (storedExponent m e) hpos
      else .finite sign (2 ^ 52) (storedExponent m e + 1) (by decide) := by
  have hnone : (e - storedExponent m e).toNat = 0 := by omega
  have hshifted : e + ((storedExponent m e - e).toNat : Int) = storedExponent m e := by omega
  have hmost : r ≤ 2 ^ 53 := hr ▸ nearestEven_le_of_storedExponent m e
  have hleast : -1074 ≤ storedExponent m e := le_max_right _ _
  rw [UnpackedFloat.round, targetExponent_eq]
  simp only [decreaseExponent, hnone, Nat.shiftLeft_zero, Nat.cast_zero, sub_zero]
  rw [roundWithAccuracy, shiftToTargetExponent_eq]
  rw [nearestEven] at hr
  simp only [hshifted, hr, shiftToTargetExponent_eq]
  rcases hmost.lt_or_eq with hfits | rfl
  · have hsame : (storedExponent r (storedExponent m e) - storedExponent m e).toNat = 0 := by
      have hagain := storedExponent_le hpos hfits hleast
      omega
    simp only [hsame, if_pos hfits, Nat.cast_zero, add_zero]
    exact dif_neg hpos.ne'
  · simp only [storedExponent_carry hleast, add_sub_cancel_left]
    rfl

/-- What is rounded has all of its digits, or the least exponent. -/
theorem full_nearestEven {m : Nat} {e : Int} (hm : 0 < m) (hle : e ≤ storedExponent m e) :
    storedExponent m e = -1074 ∨ 2 ^ 52 ≤ nearestEven m (storedExponent m e - e).toNat := by
  by_cases hleast : storedExponent m e = -1074
  · exact .inl hleast
  · right
    have hlog : m.log2 = 52 + (storedExponent m e - e).toNat := by
      rw [storedExponent] at hleast hle ⊢
      omega
    refine le_nearestEven ?_
    rw [← pow_add, ← hlog]
    exact Nat.log2_self_le (by omega)

/-- A number above the middle of a stored number and the next one is rounded to more than the former. -/
theorem rank_lt_round {m₁ m : Nat} {e₁ e : Int} (hm₁ : 0 < m₁) (h₁ : Stored m₁ e₁) (hle : e ≤ e₁)
    (habove : (2 * m₁ + 1) * 2 ^ (e₁ - e).toNat < 2 * m) :
    rank (.finite .positive m₁ e₁ hm₁) <
        rank (Float.Model.pack (UnpackedFloat.round .binary64 .positive m e)).unpack ∧
      (Float.Model.pack (UnpackedFloat.round .binary64 .positive m e)).unpack ≠ .notANumber := by
  have hfrom : m₁ * 2 ^ (e₁ - e).toNat ≤ m := by
    have hunit := Nat.two_pow_pos (e₁ - e).toNat
    have hsum : (2 * m₁ + 1) * 2 ^ (e₁ - e).toNat =
        2 * (m₁ * 2 ^ (e₁ - e).toNat) + 2 ^ (e₁ - e).toNat := by ring
    omega
  have hm : 0 < m := by omega
  have hexponent : e₁ ≤ storedExponent m e := h₁.le_storedExponent hm hfrom
  have hstart : e ≤ storedExponent m e := hle.trans hexponent
  have hleast : -1074 ≤ storedExponent m e := le_max_right _ _
  have hmost := nearestEven_le_of_storedExponent m e
  have hfull := full_nearestEven hm hstart
  have hmore : e₁ < storedExponent m e ∨
      e₁ = storedExponent m e ∧ m₁ < nearestEven m (storedExponent m e - e).toNat := by
    rcases hexponent.lt_or_eq with hlt | heq
    · exact .inl hlt
    · refine .inr ⟨heq, ?_⟩
      rw [← heq]
      exact lt_nearestEven habove
  have hpos : 0 < nearestEven m (storedExponent m e - e).toNat := by
    rcases hmore with hlt | ⟨-, hlt⟩
    · have := h₁.least
      omega
    · omega
  rw [round_eq hstart rfl hpos]
  split
  · rename_i hfits
    rw [unpack_pack_finite hpos ⟨hfits, hleast, hfull⟩]
    split
    · refine ⟨?_, by simp⟩
      simp only [rank, Prod.Lex.toLex_lt_toLex, Nat.cast_lt]
      exact .inr ⟨trivial, hmore⟩
    · exact ⟨by simp [rank, Prod.Lex.toLex_lt_toLex], by simp⟩
  · rw [unpack_pack_finite (by decide) ⟨by decide, by omega, .inr (by decide)⟩]
    split
    · refine ⟨?_, by simp⟩
      simp only [rank, Prod.Lex.toLex_lt_toLex]
      exact .inr ⟨trivial, .inl (by omega)⟩
    · exact ⟨by simp [rank, Prod.Lex.toLex_lt_toLex], by simp⟩

/-- A number from a stored one on, but below the middle to the next one, is rounded to the stored one. -/
theorem round_eq_of_near {m₁ m : Nat} {e₁ e : Int} (hm₁ : 0 < m₁) (h₁ : Stored m₁ e₁) (hle : e ≤ e₁)
    (hfrom : m₁ * 2 ^ (e₁ - e).toNat ≤ m) (hbelow : 2 * m < (2 * m₁ + 1) * 2 ^ (e₁ - e).toNat) :
    UnpackedFloat.round .binary64 .positive m e = .finite .positive m₁ e₁ hm₁ := by
  have hpos := Nat.two_pow_pos (e₁ - e).toNat
  have hlog : m.log2 = m₁.log2 + (e₁ - e).toNat := by
    rw [Nat.log2_eq_iff (by have := Nat.mul_pos hm₁ hpos; omega)]
    constructor
    · rw [pow_add]
      exact (Nat.mul_le_mul_right _ (Nat.log2_self_le (by omega))).trans hfrom
    · have hnext : m₁ + 1 ≤ 2 ^ (m₁.log2 + 1) := Nat.lt_log2_self
      calc
        m < (m₁ + 1) * 2 ^ (e₁ - e).toNat := by
          have hsum : 2 * ((m₁ + 1) * 2 ^ (e₁ - e).toNat) =
              (2 * m₁ + 1) * 2 ^ (e₁ - e).toNat + 2 ^ (e₁ - e).toNat := by ring
          omega
        _ ≤ 2 ^ (m₁.log2 + 1) * 2 ^ (e₁ - e).toNat := Nat.mul_le_mul_right _ hnext
        _ = 2 ^ (m₁.log2 + (e₁ - e).toNat + 1) := by rw [← pow_add]; congr 1; omega
  have hexponent : storedExponent m e = e₁ := by
    have hsame := h₁.storedExponent_eq hm₁
    rw [storedExponent] at hsame ⊢
    rw [hlog]
    omega
  have hnearest : nearestEven m (storedExponent m e - e).toNat = m₁ := by
    rw [hexponent]
    exact le_antisymm (nearestEven_le hbelow) (le_nearestEven hfrom)
  rw [round_eq (by omega) hnearest hm₁, if_pos h₁.bounded]
  simp only [hexponent]

/-! ## Sums -/

/-- The sum of two positive numbers is rounded. -/
theorem add_finite {m₁ m₂ : Nat} {e₁ e₂ : Int} (h₁ : 0 < m₁) (h₂ : 0 < m₂) :
    UnpackedFloat.add .binary64 (.finite .positive m₁ e₁ h₁) (.finite .positive m₂ e₂ h₂) =
      UnpackedFloat.round .binary64 .positive
        (m₁ * 2 ^ (e₁ - min e₁ e₂).toNat + m₂ * 2 ^ (e₂ - min e₁ e₂).toNat) (min e₁ e₂) := by
  have hpos : 0 < m₁ * 2 ^ (e₁ - min e₁ e₂).toNat := Nat.mul_pos h₁ (Nat.two_pow_pos _)
  have hcompare (n : Nat) (hn : 0 < n) : compare (n : Int) 0 = .gt :=
    Int.compare_eq_gt.2 (by omega)
  simp only [UnpackedFloat.add, decreaseExponent, Sign.apply, Nat.shiftLeft_eq]
  rw [← Nat.cast_add, UnpackedFloat.normalize, hcompare _ (by omega)]
  rfl

theorem toModel_add (x y : Float) : (x + y).toModel =
    Float.Model.pack (UnpackedFloat.add .binary64 x.toModel.unpack y.toModel.unpack) := rfl

theorem eq_of_toModel_eq {x y : Float} (h : x.toModel = y.toModel) : x = y :=
  Float.toBits_inj.1 (congrArg Float.Model.toBits h)

/-- A sum that need not be rounded. -/
theorem add_eq_of_unpack {x y z : Float}
    (h : UnpackedFloat.add .binary64 x.toModel.unpack y.toModel.unpack = z.toModel.unpack) : x + y = z :=
  eq_of_toModel_eq (by rw [toModel_add, h, pack_unpack])

section

variable {x y : Float} {m₁ m₂ : Nat} {e₁ e₂ : Int} {h₁ : 0 < m₁} {h₂ : 0 < m₂}

/-- Adding more than half a unit in the last digit of a number shows. -/
theorem lt_add_of_half_lt (hx : x.toModel.unpack = .finite .positive m₁ e₁ h₁)
    (hy : y.toModel.unpack = .finite .positive m₂ e₂ h₂) (hhalf : 2 ^ (e₁ - e₂).toNat < 2 * m₂) :
    x < x + y := by
  have habove : (2 * m₁ + 1) * 2 ^ (e₁ - min e₁ e₂).toNat <
      2 * (m₁ * 2 ^ (e₁ - min e₁ e₂).toNat + m₂ * 2 ^ (e₂ - min e₁ e₂).toNat) := by
    have hunit : 2 ^ (e₁ - min e₁ e₂).toNat < 2 * (m₂ * 2 ^ (e₂ - min e₁ e₂).toNat) := by
      rcases le_total e₁ e₂ with hle | hle
      · have hpos := Nat.mul_pos h₂ (Nat.two_pow_pos (e₂ - e₁).toNat)
        rw [min_eq_left hle, sub_self]
        show 1 < _
        omega
      · rw [min_eq_right hle, sub_self]
        show _ < 2 * (m₂ * 1)
        omega
    rw [Nat.add_mul, Nat.one_mul, Nat.mul_add, Nat.mul_assoc]
    exact Nat.add_lt_add_left hunit _
  obtain ⟨hrank, hnumber⟩ := rank_lt_round h₁ (stored_unpack hx) (min_le_left e₁ e₂) habove
  have hsum : (x + y).toModel.unpack = (Float.Model.pack (UnpackedFloat.round .binary64 .positive
      (m₁ * 2 ^ (e₁ - min e₁ e₂).toNat + m₂ * 2 ^ (e₂ - min e₁ e₂).toNat) (min e₁ e₂))).unpack := by
    rw [toModel_add, hx, hy, add_finite]
  rw [lt_iff_rank_lt, ← unpack_ne_notANumber_iff, ← unpack_ne_notANumber_iff, hsum, hx]
  exact ⟨by simp, hnumber, hrank⟩

/-- Adding less than half a unit in the last digit of a number is lost. -/
theorem add_eq_self_of_lt_half (hx : x.toModel.unpack = .finite .positive m₁ e₁ h₁)
    (hy : y.toModel.unpack = .finite .positive m₂ e₂ h₂) (hle : e₂ ≤ e₁)
    (hhalf : 2 * m₂ < 2 ^ (e₁ - e₂).toNat) : x + y = x := by
  apply add_eq_of_unpack
  rw [hx, hy, add_finite, min_eq_right hle, sub_self]
  refine round_eq_of_near h₁ (stored_unpack hx) hle ?_ ?_
  · exact Nat.le_add_right _ _
  · rw [Nat.add_mul, Nat.one_mul, Nat.mul_add, Nat.mul_assoc]
    refine Nat.add_lt_add_left ?_ _
    show 2 * (m₂ * 1) < _
    omega

end

/-! ## Whole numbers -/

/-- How far a number is shifted to have 53 digits. -/
def sparePlaces (n : Nat) : Nat := 52 - n.log2

theorem sparePlaces_anti {m n : Nat} (h : m ≤ n) : sparePlaces n ≤ sparePlaces m := by
  have hlog : m.log2 ≤ n.log2 := by
    rw [Nat.log2_eq_log_two, Nat.log2_eq_log_two]
    exact Nat.log_mono_right h
  rw [sparePlaces, sparePlaces]
  omega

theorem shift_whole (n : Nat) {places : Nat} (h : sparePlaces n ≤ places) :
    n * 2 ^ sparePlaces n * 2 ^ (-(sparePlaces n : Int) - -places).toNat = n * 2 ^ places := by
  rw [Nat.mul_assoc, ← pow_add]
  congr 2
  omega

theorem stored_whole {n : Nat} (hpos : 0 < n) (hfits : n < 2 ^ 53) :
    Stored (n * 2 ^ sparePlaces n) (-sparePlaces n) := by
  have hlog : n.log2 < 53 := (Nat.log2_lt hpos.ne').2 hfits
  have hplaces : n.log2 + sparePlaces n = 52 := by
    rw [sparePlaces]
    omega
  refine ⟨?_, by rw [sparePlaces]; omega, .inr ?_⟩
  · calc
      n * 2 ^ sparePlaces n < 2 ^ (n.log2 + 1) * 2 ^ sparePlaces n :=
        Nat.mul_lt_mul_of_pos_right Nat.lt_log2_self (Nat.two_pow_pos _)
      _ = 2 ^ 53 := by
        rw [← pow_add]
        congr 1
        omega
  · calc
      2 ^ 52 = 2 ^ n.log2 * 2 ^ sparePlaces n := by rw [← pow_add, hplaces]
      _ ≤ n * 2 ^ sparePlaces n := Nat.mul_le_mul_right _ (Nat.log2_self_le hpos.ne')

theorem storedExponent_whole {n : Nat} (hpos : 0 < n) (hfits : n < 2 ^ 53) :
    storedExponent n 0 = -sparePlaces n := by
  have hlog : n.log2 < 53 := (Nat.log2_lt hpos.ne').2 hfits
  rw [storedExponent, sparePlaces]
  omega

/-- A whole number of 53 digits is not rounded. -/
theorem round_whole {n : Nat} (hpos : 0 < n) (hfits : n < 2 ^ 53) :
    UnpackedFloat.round .binary64 .positive n 0 =
      .finite .positive (n * 2 ^ sparePlaces n) (-sparePlaces n) (Nat.mul_pos hpos (Nat.two_pow_pos _)) := by
  have hm := Nat.mul_pos hpos (Nat.two_pow_pos (sparePlaces n))
  have hstored := stored_whole hpos hfits
  have hself := hstored.storedExponent_eq hm
  have hshift : UnpackedFloat.round .binary64 .positive n 0 =
      UnpackedFloat.round .binary64 .positive (n * 2 ^ sparePlaces n) (-sparePlaces n) := by
    rw [UnpackedFloat.round, UnpackedFloat.round, targetExponent_eq, targetExponent_eq, hself,
      storedExponent_whole hpos hfits]
    simp [decreaseExponent, Nat.shiftLeft_eq]
  have hnone : nearestEven (n * 2 ^ sparePlaces n)
      (storedExponent (n * 2 ^ sparePlaces n) (-sparePlaces n) - -sparePlaces n).toNat =
        n * 2 ^ sparePlaces n := by
    rw [hself, sub_self]
    rfl
  rw [hshift, round_eq hself.ge hnone hm, if_pos hstored.bounded]
  simp only [hself]

theorem unpack_toFloat {n : UInt64} (hpos : 0 < n.toNat) (hfits : n.toNat < 2 ^ 53) :
    n.toFloat.toModel.unpack = .finite .positive (n.toNat * 2 ^ sparePlaces n.toNat) (-sparePlaces n.toNat)
      (Nat.mul_pos hpos (Nat.two_pow_pos _)) := by
  have hpack : n.toFloat.toModel =
      Float.Model.pack (UnpackedFloat.normalize .binary64 (n.toNat : Int) 0 .positive) := rfl
  have hcompare : compare (n.toNat : Int) 0 = .gt := Int.compare_eq_gt.2 (by omega)
  have hround : UnpackedFloat.normalize .binary64 (n.toNat : Int) 0 .positive =
      UnpackedFloat.round .binary64 .positive n.toNat 0 := by
    rw [UnpackedFloat.normalize, hcompare]
    rfl
  rw [hpack, hround, round_whole hpos hfits, unpack_pack_finite _ (stored_whole hpos hfits),
    if_pos (by omega)]

theorem unpack_toFloat_zero : (0 : UInt64).toFloat.toModel.unpack = .zero .positive := by
  have hpack : (0 : UInt64).toFloat.toModel = Float.Model.pack (.zero .positive) := rfl
  rw [hpack, unpack_pack_zero]

/-- Whole numbers are added exactly while their sum has no more than 53 digits. -/
theorem toFloat_add_toFloat {a b : UInt64} (h : a.toNat + b.toNat < 2 ^ 53) :
    a.toFloat + b.toFloat = (a + b).toFloat := by
  have hsum : (a + b).toNat = a.toNat + b.toNat := by
    rw [UInt64.toNat_add, Nat.mod_eq_of_lt (by omega)]
  apply add_eq_of_unpack
  rcases Nat.eq_zero_or_pos a.toNat with ha | ha
  · obtain rfl : a = 0 := UInt64.toNat_inj.1 ha
    rw [UInt64.zero_add, unpack_toFloat_zero]
    have hunsigned := unsigned_toFloat b
    generalize b.toFloat.toModel.unpack = y at hunsigned
    cases hunsigned <;> rfl
  rcases Nat.eq_zero_or_pos b.toNat with hb | hb
  · obtain rfl : b = 0 := UInt64.toNat_inj.1 hb
    rw [UInt64.add_zero, unpack_toFloat_zero, unpack_toFloat ha (by omega)]
    rfl
  have hpos : 0 < (a + b).toNat := by omega
  rw [unpack_toFloat ha (by omega), unpack_toFloat hb (by omega), unpack_toFloat hpos (by omega), add_finite]
  -- Both are shifted by the larger of two shifts, which is at least that of the sum.
  obtain ⟨places, hleast, haplaces, hbplaces⟩ : ∃ places : Nat,
      min (-(sparePlaces a.toNat : Int)) (-(sparePlaces b.toNat : Int)) = -places ∧
        sparePlaces a.toNat ≤ places ∧ sparePlaces b.toNat ≤ places :=
    ⟨max (sparePlaces a.toNat) (sparePlaces b.toNat), by omega, le_max_left _ _, le_max_right _ _⟩
  have hplaces : sparePlaces (a + b).toNat ≤ places := (sparePlaces_anti (by omega)).trans haplaces
  rw [hleast, shift_whole a.toNat haplaces, shift_whole b.toNat hbplaces, ← Nat.add_mul, ← hsum]
  refine round_eq_of_near _ (stored_whole hpos (by omega)) (by omega) (shift_whole _ hplaces).le ?_
  rw [Nat.add_mul, Nat.one_mul, Nat.mul_assoc, shift_whole _ hplaces]
  exact Nat.lt_add_of_pos_right (Nat.two_pow_pos _)

/-! ## Sums that are numbers -/

/-- Packing makes no number one that is not. -/
theorem unpack_pack_ne_notANumber {a : UnpackedFloat} (ha : a ≠ .notANumber) :
    (Float.Model.pack a).unpack ≠ .notANumber := by
  cases a with
  | notANumber => exact absurd rfl ha
  | infinity sign => exact fun h ↦ by cases sign <;> cases h
  | zero sign =>
    rw [unpack_pack_zero]
    simp
  | finite sign m e hm =>
    show UnpackedFloat.unpack .binary64 (UnpackedFloat.pack .binary64 (.finite sign m e hm)) ≠ _
    rw [pack_finite]
    split
    · exact fun h ↦ by cases sign <;> cases h
    rename_i hsmall
    have hexponent : BitVec.ofNat 11 (e + 1023 + 52).toNat ≠ -1#11 := by
      intro h
      have hnat := congrArg BitVec.toNat h
      have hall : (-1#11).toNat = 2047 := rfl
      rw [BitVec.toNat_ofNat] at hnat
      omega
    split
    · rw [unpack_packComponents, if_neg hexponent]
      split
      · split <;> simp
      · simp
    · rw [unpack_packComponents, if_neg (by decide), if_pos rfl]
      split <;> simp

theorem normalize_ne_notANumber (spec : Format) (m e : Int) (sign : Sign) :
    UnpackedFloat.normalize spec m e sign ≠ .notANumber := by
  have hround (sign : Sign) (m : Nat) : UnpackedFloat.round spec sign m e ≠ .notANumber := by
    simp only [UnpackedFloat.round, UnpackedFloat.roundWithAccuracy]
    split <;> simp
  rw [UnpackedFloat.normalize]
  split
  · exact hround _ _
  · simp
  · exact hround _ _

/-- The sum of a finite number and a number is a number. -/
theorem isNaN_add_of_isFinite {x y : Float} (hx : x.isFinite = true) (hy : y.isNaN = false) :
    (x + y).isNaN = false := by
  rw [← unpack_ne_notANumber_iff] at hy ⊢
  change x.toModel.unpack.isFinite = true at hx
  apply unpack_pack_ne_notANumber
  show UnpackedFloat.add .binary64 x.toModel.unpack y.toModel.unpack ≠ _
  generalize x.toModel.unpack = a at hx
  generalize y.toModel.unpack = b at hy
  cases b with
  | notANumber => exact absurd rfl hy
  | infinity other => cases a <;> simp_all [UnpackedFloat.add, UnpackedFloat.isFinite]
  | zero other =>
    cases a with
    | zero sign =>
      rw [UnpackedFloat.add]
      split <;> simp
    | _ => simp_all [UnpackedFloat.add, UnpackedFloat.isFinite]
  | finite other m e hm =>
    cases a with
    | finite sign m' e' hm' => exact normalize_ne_notANumber _ _ _ _
    | _ => simp_all [UnpackedFloat.add, UnpackedFloat.isFinite]

end RadioAccess.Real64
