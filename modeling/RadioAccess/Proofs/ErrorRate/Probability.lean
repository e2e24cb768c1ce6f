import RadioAccess.Proofs.ErrorRate.Layout
import RadioAccess.Proofs.Harq.Draw
import RadioAccess.Proofs.Real64.Arithmetic

/-!
# Failure Probabilities

Under the table the failure probability of an attempt is a product of powers with exponents that are counted
in signed words.  While the exponents are positive, all factors stay between zero and one.  From the middle of
the words on the exponents are negative: the powers are reciprocals and may be infinite, but neither factor is
zero, so the product is still a number, and clamping makes it a probability.  Two attempts in between are
different: at one the exponent cannot be counted, at the other an infinite factor meets one that has vanished
(`ErrorModel.failureProbability_is_probability`).
-/

namespace RadioAccess

open Float.Model (UnpackedFloat)
open Real64 (StandsFor Nought power powerOnto clamp squared)
open Real64 (standsFor_zero standsFor_one exists_standsFor exists_fraction)

/-! ## Powers of fractions -/

namespace Real64

variable {acc base bound : Float} {v w u : ℚ}

/-- Powers of fractions are fractions, no larger than what is multiplied and than the base. -/
theorem exists_powerOnto (hacc : StandsFor acc v) (hv : v ≤ 1) (hbase : StandsFor base w) (hw : w ≤ 1)
    (k : Nat) : ∃ t ≤ v, (0 < k → t ≤ w) ∧ StandsFor (powerOnto acc base k) t := by
  fun_induction powerOnto acc base k generalizing v w with
  | case1 acc base k factor =>
    by_cases hodd : k % 2 = 1
    · obtain ⟨t, hleft, hright, hproduct⟩ := hacc.exists_mul_le hbase hv hw
      exact ⟨t, hleft, fun _ ↦ hright, by simpa only [factor, dif_pos hodd] using hproduct⟩
    · exact ⟨v, le_rfl, fun hpos ↦ by omega, by simpa only [factor, dif_neg hodd] using hacc⟩
  | case2 acc base k factor hmore =>
    rename_i ih
    obtain ⟨s, hs, -, hsquare⟩ := hbase.exists_mul_le hbase hw hw
    have hfactor : ∃ a ≤ v, StandsFor factor a := by
      by_cases hodd : k % 2 = 1
      · obtain ⟨t, hleft, -, hproduct⟩ := hacc.exists_mul_le hbase hv hw
        exact ⟨t, hleft, by simpa only [factor, dif_pos hodd] using hproduct⟩
      · exact ⟨v, le_rfl, by simpa only [factor, dif_neg hodd] using hacc⟩
    obtain ⟨a, ha, hfactor⟩ := hfactor
    obtain ⟨t, hta, hts, hpower⟩ := ih hfactor (ha.trans hv) hsquare (hs.trans hw)
    exact ⟨t, hta.trans ha, fun _ ↦ (hts (by omega)).trans hs, hpower⟩

/-- Repeated squaring keeps the order of fractions. -/
theorem exists_squared (hbase : StandsFor base v) (hbound : StandsFor bound w) (h : v ≤ w) (hw : w ≤ 1)
    (n : Nat) : ∃ s t, s ≤ t ∧ StandsFor (squared base n) s ∧ StandsFor (squared bound n) t := by
  induction n generalizing base bound v w with
  | zero => exact ⟨v, w, h, hbase, hbound⟩
  | succ n ih =>
    obtain ⟨u, hu, -, hsquare⟩ := hbound.exists_mul_le hbound hw hw
    obtain ⟨t, ht, hsmaller⟩ := hbase.exists_square hbound hsquare h
    exact ih hsmaller hsquare ht (hu.trans hw)

theorem power_natCast (base : Float) (k : Nat) : power base k = powerOnto 1.0 base k := by
  rw [power, if_neg (by omega), Int.natAbs_natCast]

theorem power_zero (base : Float) : power base 0 = 1.0 := by
  rw [power, powerOnto]
  rfl

theorem power_neg_natCast (base : Float) {k : Nat} (hk : 0 < k) :
    power base (-k) = 1.0 / powerOnto 1.0 base k := by
  rw [power, if_pos (by omega), Int.natAbs_neg, Int.natAbs_natCast]

/-- A positive power of a fraction. -/
theorem exists_power (hbase : StandsFor base w) (hw : w ≤ 1) (k : Nat) :
    ∃ t ≤ 1, (0 < k → t ≤ w) ∧ StandsFor (power base k) t := by
  rw [power_natCast]
  exact exists_powerOnto standsFor_one le_rfl hbase hw k

/-- A negative power of a fraction is infinite, or at least the reciprocal of the fraction. -/
theorem one_div_le_power_neg (hbase : StandsFor base v) (hbound : StandsFor bound w) (h : v ≤ w) (hw : w ≤ 1)
    (hpos : 0 < w) {k : Nat} (hk : 0 < k) : 1.0 / bound ≤ power base (-k) := by
  obtain ⟨t, -, ht, hpower⟩ := exists_powerOnto standsFor_one le_rfl hbase (h.trans hw) k
  rw [power_neg_natCast base hk]
  exact hpower.one_div_anti hbound hpos ((ht hk).trans h)

/-- A power vanishes if squaring a larger base comes to nothing and the base is squared that often. -/
theorem powerOnto_eq_zero (hbase : StandsFor base v) (hbound : StandsFor bound w) (h : v ≤ w) (hw : w ≤ 1)
    {n k : Nat} (hsquared : squared bound n = 0.0) (hk : 2 ^ n ≤ k) :
    (powerOnto 1.0 base k).toModel.unpack = .zero .positive := by
  obtain ⟨s, t, hst, hs, ht⟩ := exists_squared hbase hbound h hw n
  obtain ⟨p, -, -, hpower⟩ := exists_powerOnto standsFor_one le_rfl hbase (h.trans hw) k
  rw [hsquared] at ht
  obtain rfl := Worth.unique ht standsFor_zero
  obtain rfl := le_antisymm hst hs.nonneg
  have hnought : Nought (squared base n).toModel.unpack := by
    rw [Worth.eq_zero hs]
    exact .zero .positive
  exact hpower.unpack_eq_zero (nought_powerOnto_of_squared 1.0 hnought hk)

end Real64

/-! ## Constants -/

namespace ErrorTable

/-- The least error rate. -/
def leastRate : Float := 1e-6

/-- What the least rate leaves for success. -/
def bestChance : Float := 1.0 - leastRate

end ErrorTable

namespace ErrorModel

open ErrorTable

/-- What has to be computed of the constants of the table and of combining. -/
structure Constants : Prop where
  signal : leastSignal.isFinite = true
  width : 0.0 < bucketWidth ∧ bucketWidth.isFinite = true
  slope : ∀ group < groupClasses, 0.0 < slope group ∧ (slope group).isFinite = true
  threshold : ∀ modulation < modulations, ∀ scheme < schemes, ∀ layer < layerLimit,
    (threshold modulation layer scheme).isFinite = true
  rate : 0.0 < leastRate ∧ leastRate < 1.0
  chance : 0.0 < bestChance ∧ bestChance < 1.0
  /-- A reciprocal is rounded, but not down to one. -/
  reciprocal : 1.0 < 1.0 / bestChance
  /-- So many squarings leave nothing of the chance. -/
  squared : squared bestChance 30 = 0.0
  remainder : 0.0 < 1.0 - combiningGain ∧ 1.0 - combiningGain < 1.0
  /-- The product at the largest word, where success counts as certain. -/
  largest : ((1.0 - 1.0) * power (1.0 - combiningGain) (-2)).isNaN = false

theorem constants : Constants where
  signal := by decide +kernel
  width := by decide +kernel
  slope := by decide +kernel
  threshold := by decide +kernel
  rate := by decide +kernel
  chance := by decide +kernel
  reciprocal := by decide +kernel
  squared := by decide +kernel
  remainder := by decide +kernel
  largest := by decide +kernel

end ErrorModel

/-! ## Rates of the table -/

namespace ErrorTable

open ErrorModel (constants)

theorem isNaN_signal {bucket : Nat} (h : bucket < buckets) : (signal bucket).isNaN = false := by
  obtain ⟨width, hwidth, hstands⟩ := exists_standsFor constants.width.1 constants.width.2
  have hbucket : bucket < 2 ^ 53 := h.trans (by decide)
  exact Real64.isNaN_add_of_isFinite constants.signal (hstands.isNaN_mul hwidth (Real64.isNaN_ofNat hbucket)).2

/-- The rates lie between the least one and one, whatever numbers the exponential function gives. -/
theorem rate_bounds {exponential : Float → Float}
    (hexponential : ∀ x, x.isNaN = false → (exponential x).isNaN = false) {place : Place}
    (h : place.IsWithin) : leastRate ≤ place.rate exponential ∧ place.rate exponential ≤ 1.0 := by
  obtain ⟨hpos, hfinite⟩ := constants.slope place.group h.group
  obtain ⟨slope, hslope, hstands⟩ := exists_standsFor hpos hfinite
  have hdifference := Real64.isNaN_sub_of_isFinite (isNaN_signal h.bucket)
    (constants.threshold place.modulation h.modulation place.scheme h.scheme place.layer h.layer)
  have hargument := (hstands.isNaN_mul hslope hdifference).1
  have hsum := Real64.isNaN_add_of_isFinite standsFor_one.isFinite_eq (hexponential _ hargument)
  exact Real64.clamp_bounds (standsFor_one.isNaN_div one_pos hsum) (Real64.le_of_lt constants.rate.2)

/-- The chance of success is a fraction below one. -/
theorem exists_chance {rate : Float} (h : leastRate ≤ rate ∧ rate ≤ 1.0) :
    ∃ v u, v ≤ u ∧ 0 < u ∧ u < 1 ∧ StandsFor (1.0 - rate) v ∧ StandsFor bestChance u := by
  obtain ⟨u, hpos, hless, hbest⟩ := exists_fraction constants.chance.1 constants.chance.2
  obtain ⟨least, hsome, -, hleast⟩ := exists_fraction constants.rate.1 constants.rate.2
  obtain ⟨r, hlow, hhigh, hrate⟩ := hleast.exists_between hsome standsFor_one h.1 h.2
  obtain ⟨v, hv, hchance⟩ := hrate.exists_one_sub hleast hbest hlow hhigh
  exact ⟨v, u, hv, hpos, hless, hchance, hbest⟩

end ErrorTable

/-! ## Attempts -/

namespace ErrorModel

/-- What combining leaves of the failure probability. -/
theorem exists_remainder : ∃ w, 0 < w ∧ w < 1 ∧ StandsFor (1.0 - combiningGain) w :=
  exists_fraction constants.remainder.1 constants.remainder.2

theorem signedReading_of_le {word : UInt32} (h : 2 ^ 31 ≤ word.toNat) :
    signedReading word = -((2 ^ 32 - word.toNat : Nat) : Int) := by
  have hbound := word.toNat_lt
  show word.toBitVec.toInt = _
  rw [BitVec.toInt_eq_toNat_cond, if_neg (by simpa using (by omega : ¬2 * word.toNat < 2 ^ 32))]
  show (word.toNat : Int) - _ = _
  omega

/-- The exponent of the gain. -/
def repetitionsOf (attempt : UInt32) : Int := if attempt = 0 then 0 else signedReading (attempt - 1)

theorem compounded_eq (rate : Float) {attempt : UInt32} {made : Int} (hmade : attemptsMade attempt = .ok made) :
    compounded rate attempt = .ok (clamp 0.0 1.0
      ((1.0 - power (1.0 - rate) made) * power (1.0 - combiningGain) (repetitionsOf attempt))) := by
  rw [compounded, hmade]
  rfl

/-- The exponent of the gain in the lower half of the words. -/
theorem repetitionsOf_of_le {attempt : UInt32} (h : attempt.toNat ≤ 2 ^ 31) :
    repetitionsOf attempt = (attempt.toNat - 1 : Nat) := by
  rcases Nat.eq_zero_or_pos attempt.toNat with hzero | hsome
  · obtain rfl : attempt = 0 := UInt32.toNat_inj.1 hzero
    rfl
  · have hone : (1 : UInt32) ≤ attempt := UInt32.le_iff_toNat_le.2 hsome
    have hbefore : (attempt - 1).toNat = attempt.toNat - 1 := UInt32.toNat_sub_of_le _ _ hone
    have hsecond : attempt ≠ 0 := by
      rintro rfl
      exact absurd hsome (by decide)
    rw [repetitionsOf, if_neg hsecond, signedReading_of_lt (by omega), hbefore]

/-- The exponents of an attempt in the upper half of the words. -/
theorem exponents_of_le {attempt : UInt32} (h : 2 ^ 31 ≤ attempt.toNat) :
    attemptsMade attempt = .ok (-(2 ^ 32 - 1 - attempt.toNat : Nat)) ∧
      (2 ^ 31 < attempt.toNat → repetitionsOf attempt = -(2 ^ 32 + 1 - attempt.toNat : Nat)) := by
  have hbound := attempt.toNat_lt
  have hreading := signedReading_of_le h
  constructor
  · rw [attemptsMade, hreading, if_pos (by rw [largestSigned]; omega)]
    congr 1
    omega
  · intro hmore
    have hone : (1 : UInt32) ≤ attempt := UInt32.le_iff_toNat_le.2 (by simpa using by omega)
    have hbefore : (attempt - 1).toNat = attempt.toNat - 1 := UInt32.toNat_sub_of_le _ _ hone
    have hsecond : attempt ≠ 0 := by
      rintro rfl
      exact absurd hmore (by decide)
    rw [repetitionsOf, if_neg hsecond, signedReading_of_le (by omega), hbefore]
    omega

section

variable {rate : Float} (hrate : ErrorTable.leastRate ≤ rate ∧ rate ≤ 1.0)

include hrate

/-- While the exponents are positive, every factor is a fraction. -/
theorem isNaN_early (made repetitions : Nat) :
    ((1.0 - power (1.0 - rate) made) * power (1.0 - combiningGain) repetitions).isNaN = false := by
  obtain ⟨v, u, hvu, -, hu, hchance, -⟩ := ErrorTable.exists_chance hrate
  obtain ⟨w, -, hw, hremainder⟩ := exists_remainder
  obtain ⟨s, hs, -, hsuccess⟩ := Real64.exists_power hchance (hvu.trans hu.le) made
  obtain ⟨g, hg, -, hgain⟩ := Real64.exists_power hremainder hw.le repetitions
  have hcertain : StandsFor (1.0 - 0.0) 1 := by
    rw [StandsFor, standsFor_one.unpack_sub standsFor_zero zero_le_one, sub_zero, standsFor_one.packed_eq]
    exact standsFor_one
  obtain ⟨f, hf, hfailure⟩ := hsuccess.exists_one_sub standsFor_zero hcertain hsuccess.nonneg hs
  obtain ⟨p, -, -, hproduct⟩ := hfailure.exists_mul_le hgain hf hg
  exact hproduct.isNaN_eq

/-- Where the exponents are negative, success counts as more than certain, and combining as a loss.  So neither
factor is zero, be they infinite or not. -/
theorem isNaN_late {made repetitions : Nat} (hmade : 0 < made) (hrepetitions : 0 < repetitions) :
    ((1.0 - power (1.0 - rate) (-made)) * power (1.0 - combiningGain) (-repetitions)).isNaN = false := by
  obtain ⟨v, u, hvu, hpos, hu, hchance, hbest⟩ := ErrorTable.exists_chance hrate
  obtain ⟨w, -, hw, hremainder⟩ := exists_remainder
  have hsuccess : 1.0 < power (1.0 - rate) (-made) :=
    Real64.lt_of_lt_of_le constants.reciprocal
      (Real64.one_div_le_power_neg hchance hbest hvu hu.le hpos hmade)
  have hwhole : StandsFor (1.0 / 1.0) 1 := by
    rw [StandsFor, standsFor_one.unpack_div standsFor_one one_pos, div_one, standsFor_one.packed_eq]
    exact standsFor_one
  have hgain : 0.0 < power (1.0 - combiningGain) (-repetitions) :=
    Real64.lt_of_lt_of_le ((standsFor_zero.lt_iff hwhole).2 one_pos)
      (Real64.one_div_le_power_neg hremainder standsFor_one hw.le le_rfl one_pos hrepetitions)
  exact Real64.isNaN_mul (standsFor_one.not_nought_sub hsuccess)
    (standsFor_zero.not_nought_of_lt hgain)

/-- In the middle of the words an infinite factor meets one that has vanished. -/
theorem isNaN_middle {k : Nat} (hk : 2 ^ 30 ≤ k) :
    ((1.0 - power (1.0 - rate) (-k)) * power (1.0 - combiningGain) k).isNaN = true := by
  obtain ⟨v, u, hvu, -, hu, hchance, hbest⟩ := ErrorTable.exists_chance hrate
  obtain ⟨w, -, hw, hremainder⟩ := exists_remainder
  have hpower := Real64.powerOnto_eq_zero hchance hbest hvu hu.le constants.squared hk
  have hgain := Real64.powerOnto_eq_zero hremainder hremainder le_rfl hw.le squared_combiningGain
    ((by decide : 2 ^ 12 ≤ 2 ^ 30).trans hk)
  have hsuccess : (power (1.0 - rate) (-k)).toModel.unpack = .infinity .positive := by
    rw [Real64.power_neg_natCast _ (by omega)]
    exact Real64.unpack_one_div_zero hpower
  have hfailure : (1.0 - power (1.0 - rate) (-k)).toModel.unpack = .infinity .negative := by
    show (Float.Model.pack (UnpackedFloat.sub .binary64 _ (power (1.0 - rate) (-k)).toModel.unpack)).unpack = _
    rw [hsuccess, Real64.unpack_one]
    rfl
  show (Float.Model.pack (UnpackedFloat.mul .binary64 (1.0 - power (1.0 - rate) (-k)).toModel.unpack
    (power (1.0 - combiningGain) k).toModel.unpack)).unpack.isNaN = true
  rw [hfailure, Real64.power_natCast, hgain]
  rfl

/-- The failure probability of all attempts but two is a probability. -/
theorem exists_compounded {attempt : UInt32} (hlargest : attempt.toNat ≠ 2 ^ 31 - 1)
    (hmiddle : attempt.toNat ≠ 2 ^ 31) :
    ∃ probability, compounded rate attempt = .ok probability ∧ 0.0 ≤ probability ∧ probability ≤ 1.0 := by
  have hbound := attempt.toNat_lt
  suffices hnumber : ∃ made, attemptsMade attempt = .ok made ∧
      ((1.0 - power (1.0 - rate) made) * power (1.0 - combiningGain) (repetitionsOf attempt)).isNaN = false by
    obtain ⟨made, hmade, hnumber⟩ := hnumber
    have hunit : (0.0 : Float) ≤ 1.0 := (standsFor_zero.le_iff standsFor_one).2 zero_le_one
    exact ⟨_, compounded_eq rate hmade, Real64.clamp_bounds hnumber hunit⟩
  rcases Nat.lt_or_ge attempt.toNat (2 ^ 31) with hlow | hhigh
  · refine ⟨_, attemptsMade_eq (by omega), ?_⟩
    rw [repetitionsOf_of_le hlow.le]
    exact isNaN_early hrate _ _
  obtain ⟨hmade, hrepetitions⟩ := exponents_of_le hhigh
  refine ⟨_, hmade, ?_⟩
  rw [hrepetitions (by omega)]
  rcases Nat.lt_or_ge attempt.toNat (2 ^ 32 - 1) with hless | hlast
  · exact isNaN_late hrate (by omega) (by omega)
  · have heq : attempt.toNat = 2 ^ 32 - 1 := by omega
    have hcertain : power (1.0 - rate) (-(2 ^ 32 - 1 - (2 ^ 32 - 1) : Nat)) = 1.0 := Real64.power_zero _
    rw [heq, hcertain]
    exact constants.largest

end

/-- **Failure probabilities are probabilities, but for two attempts.**  Take a table that is generated from an
exponential function which maps numbers to numbers.  For every link, scheme and signal strength, numbers or not,
and for every attempt but two there is a failure probability, and it lies between zero and one.  At attempt
2^31 - 1 the exponent of success cannot be counted in signed words, and at the next one the product of an
infinite and a vanished factor is not a number, which clamping does not change.  The failure probability of a
link is that of the table for `Float.exp`. -/
theorem failureProbability_is_probability (exponential : Float → Float)
    (hexponential : ∀ x, x.isNaN = false → (exponential x).isNaN = false)
    (profile : LinkProfile) (mcs : UInt8) (sinr : Float) :
    (∀ attempt : UInt32, attempt ≠ 0x7FFFFFFF → attempt ≠ 0x80000000 → ∃ probability,
      table.failureProbabilityIn (ErrorTable.generate exponential) profile mcs sinr attempt = .ok probability ∧
        0.0 ≤ probability ∧ probability ≤ 1.0) ∧
    table.failureProbabilityIn (ErrorTable.generate exponential) profile mcs sinr 0x7FFFFFFF =
      .error .addOverflow ∧
    ∃ probability,
      table.failureProbabilityIn (ErrorTable.generate exponential) profile mcs sinr 0x80000000 =
        .ok probability ∧ probability.isNaN = true := by
  have hrate := ErrorTable.rate_bounds hexponential (ErrorTable.isWithin_placeOf profile mcs sinr)
  simp only [failureProbabilityIn, ErrorTable.lookupIn_generate]
  refine ⟨fun attempt hlargest hmiddle ↦ exists_compounded hrate ?_ ?_, rfl, ?_⟩
  · exact fun h ↦ hlargest (UInt32.toNat_inj.1 h)
  · exact fun h ↦ hmiddle (UInt32.toNat_inj.1 h)
  · have hproduct := isNaN_middle hrate (k := 2 ^ 31 - 1) (by decide)
    have hhigh : 2 ^ 31 ≤ (0x80000000 : UInt32).toNat := by decide
    refine ⟨_, compounded_eq _ (exponents_of_le hhigh).1, ?_⟩
    rw [repetitionsOf_of_le (by decide)]
    exact (congrArg Float.isNaN (Real64.clamp_of_isNaN 0.0 1.0 hproduct)).trans hproduct

/-- The tangent to the exponential function at zero, cut off below zero. -/
def tangent (x : Float) : Float := Real64.larger (1.0 + x) 0.0

theorem isNaN_tangent {x : Float} (hx : x.isNaN = false) : (tangent x).isNaN = false := by
  have hsum := Real64.isNaN_add_of_isFinite standsFor_one.isFinite_eq hx
  rw [tangent, Real64.larger, hsum]
  simp only [Bool.false_eq_true, if_false]
  split
  · exact standsFor_zero.isNaN_eq
  · exact hsum

/-- Where a curve is in its middle, half of all first attempts fail.  There the tangent is as good as the
exponential function, and an attempt of which success would count as more than certain has a probability. -/
theorem failureProbability_in_the_middle :
    (∀ x : Float, x.isNaN = false → (tangent x).isNaN = false) ∧
      ErrorTable.lookupIn (ErrorTable.generate tangent) { LinkProfile.standard with modulation := .qam64 } 0
        (-6.0) = 0.5 ∧
      ∃ probability, table.failureProbabilityIn (ErrorTable.generate tangent)
        { LinkProfile.standard with modulation := .qam64 } 0 (-6.0) 0xFFFFFFFE = .ok probability ∧
          0.0 ≤ probability ∧ probability ≤ 1.0 := by
  refine ⟨fun x ↦ isNaN_tangent, ?_, ?_⟩
  · rw [ErrorTable.lookupIn_generate]
    decide +kernel
  · exact (failureProbability_is_probability tangent (fun x ↦ isNaN_tangent) _ _ _).1 0xFFFFFFFE (by decide)
      (by decide)

/-- At the largest signed word an attempt has no failure probability. -/
theorem no_failureProbability_at_largest :
    ¬∃ probability, table.failureProbability LinkProfile.standard 15 (-40.0) 0x7FFFFFFF = .ok probability := by
  rintro ⟨probability, h⟩
  cases h

end ErrorModel

end RadioAccess
