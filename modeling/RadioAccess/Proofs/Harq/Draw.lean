import RadioAccess.Proofs.Harq
import RadioAccess.Proofs.Real64.Order

/-!
# What a Draw Comes To

An attempt fails if a uniform draw is below its failure probability.  A draw is never negative, so an attempt
whose failure probability is zero is always understood.  Under the table this is so for every late repetition:
the gain of combining is a power of four fifths, and after some thousands of repetitions no positive number is
left of it.  Therefore the exponents of these powers stay small, and to count them never overflows.
-/

namespace RadioAccess

open Real64 (Nought Unsigned nought_zero power powerOnto unsigned_toFloat unsigned_unpack)

/-! ## Uniform draws -/

theorem Random.unsigned_resolution : Unsigned Random.resolution.toModel.unpack := by
  have hbits : Random.resolution = Float.ofBits 0x3CA0000000000000 := by decide +kernel
  rw [hbits]
  exact unsigned_unpack rfl

/-- A uniform draw is not below zero. -/
theorem Random.not_uniform_lt_nought (stream : Random) {limit : Float}
    (hlimit : Nought limit.toModel.unpack) : ¬stream.uniform.1 < limit :=
  Unsigned.not_lt_nought (Unsigned.mul (unsigned_toFloat _) unsigned_resolution) hlimit

/-! ## Powers that vanish -/

namespace Real64

theorem nought_clamp {x : Float} (hx : Nought x.toModel.unpack) :
    Nought (clamp 0.0 1.0 x).toModel.unpack := by
  have hone : Unsigned (1.0 : Float).toModel.unpack := by
    have hbits : (1.0 : Float) = Float.ofBits 0x3FF0000000000000 := by decide +kernel
    rw [hbits]
    exact unsigned_unpack rfl
  rw [clamp, if_neg (hone.not_lt_nought hx)]
  split
  · exact nought_zero
  · exact hx

theorem nought_powerOnto (acc : Float) {base : Float} (hbase : Nought base.toModel.unpack) {k : Nat}
    (hk : 0 < k) : Nought (powerOnto acc base k).toModel.unpack := by
  fun_induction powerOnto acc base k with
  | case1 acc base k factor hlast =>
    have hodd : k % 2 = 1 := by omega
    simp only [factor, dif_pos hodd]
    exact hbase.mul_right acc
  | case2 acc base k factor hmore ih => exact ih (hbase.mul_right base) (by omega)

/-- The base after `n` squarings. -/
def squared (base : Float) : Nat → Float
  | 0 => base
  | n + 1 => squared (base * base) n

/-- A power vanishes if squaring its base comes to nothing and it is squared that often. -/
theorem nought_powerOnto_of_squared {n : Nat} (acc : Float) {base : Float} {k : Nat}
    (hsquared : Nought (squared base n).toModel.unpack) (hk : 2 ^ n ≤ k) :
    Nought (powerOnto acc base k).toModel.unpack := by
  induction n generalizing acc base k with
  | zero => exact nought_powerOnto acc hsquared hk
  | succ n ih =>
    have hpow : 2 ^ (n + 1) = 2 * 2 ^ n := Nat.pow_succ'
    have hpos : 0 < 2 ^ n := Nat.two_pow_pos n
    rw [powerOnto, if_neg (by omega)]
    exact ih _ hsquared (by omega)

end Real64

/-! ## The gain of combining -/

namespace ErrorModel

/-- The last repetition at which an attempt may fail under the table. -/
def lastFailing : Nat := 4096

theorem squared_combiningGain : Real64.squared (1.0 - combiningGain) 12 = 0.0 := by decide +kernel

theorem signedReading_of_lt {word : UInt32} (h : word.toNat < 2 ^ 31) : signedReading word = word.toNat := by
  show word.toBitVec.toInt = _
  rw [BitVec.toInt_eq_toNat_of_lt (by simpa using (by omega : 2 * word.toNat < 2 ^ 32))]
  rfl

/-- The exponent of an early attempt can be counted. -/
theorem attemptsMade_eq {attempt : UInt32} (h : attempt.toNat < 2 ^ 31 - 1) :
    attemptsMade attempt = .ok ((attempt.toNat + 1 : Nat) : Int) := by
  rw [attemptsMade, signedReading_of_lt (by omega), if_pos (by rw [largestSigned]; omega)]
  rfl

theorem exists_failureProbability (model : ErrorModel) (profile : LinkProfile) (mcs : UInt8) (sinr : Float)
    {attempt : UInt32} (h : model = .table → attempt.toNat < 2 ^ 31 - 1) :
    ∃ probability, model.failureProbability profile mcs sinr attempt = .ok probability := by
  cases model with
  | flat probability => exact ⟨probability, rfl⟩
  | table =>
    apply Exists.intro
    rw [failureProbability, failureProbabilityIn, compounded, attemptsMade_eq (h rfl)]
    rfl

/-- The exponent of the gain of an early repetition. -/
theorem signedReading_pred {attempt : UInt32} (hsome : 0 < attempt.toNat) (hbound : attempt.toNat < 2 ^ 31) :
    attempt ≠ 0 ∧ signedReading (attempt - 1) = ((attempt.toNat - 1 : Nat) : Int) := by
  have hone : (1 : UInt32) ≤ attempt := UInt32.le_iff_toNat_le.2 hsome
  have hbefore : (attempt - 1).toNat = attempt.toNat - 1 := UInt32.toNat_sub_of_le _ _ hone
  refine ⟨?_, by rw [signedReading_of_lt (by omega), hbefore]⟩
  rintro rfl
  exact absurd hone (by decide)

/-- The gain vanishes in high powers. -/
theorem nought_power_combiningGain {k : Nat} (h : lastFailing ≤ k) :
    Nought (power (1.0 - combiningGain) (k : Int)).toModel.unpack := by
  rw [power, if_neg (by omega), Int.natAbs_natCast]
  refine Real64.nought_powerOnto_of_squared (n := 12) _ ?_ h
  rw [squared_combiningGain]
  exact nought_zero

/-- Under the table a late repetition has no chance to fail. -/
theorem nought_failureProbability {profile : LinkProfile} {mcs : UInt8} {sinr probability : Float}
    {attempt : UInt32} (hlate : lastFailing < attempt.toNat) (hbound : attempt.toNat < 2 ^ 31)
    (h : ErrorModel.table.failureProbability profile mcs sinr attempt = .ok probability) :
    Nought probability.toModel.unpack := by
  obtain ⟨hne, hreading⟩ := signedReading_pred (by omega) hbound
  simp only [failureProbability, failureProbabilityIn, compounded, bind_eq_ok_iff, pure_eq_ok_iff] at h
  obtain ⟨made, -, rfl⟩ := h
  rw [if_neg hne, hreading]
  exact Real64.nought_clamp ((nought_power_combiningGain (by omega)).mul_right _)

end ErrorModel

/-! ## Attempts -/

namespace Harq

variable {harq next : Harq} {mcs : UInt8} {sinr : Float} {attempt : UInt32} {failed : Bool}

/-- A draw is refused only if the table is asked for an exponent that cannot be counted. -/
theorem exists_attemptFails (harq : Harq) (mcs : UInt8) (sinr : Float) (attempt : UInt32)
    (h : harq.model = .table → attempt.toNat < 2 ^ 31 - 1) :
    ∃ result, harq.attemptFails mcs sinr attempt = .ok result := by
  obtain ⟨probability, hprobability⟩ := harq.model.exists_failureProbability harq.profile mcs sinr h
  apply Exists.intro
  rw [attemptFails, hprobability]
  rfl

/-- With failure probability zero no attempt fails. -/
theorem eq_of_attemptFails (hmodel : harq.model = .flat 0.0)
    (h : harq.attemptFails mcs sinr attempt = .ok (failed, next)) :
    failed = false ∧ next.model = .flat 0.0 := by
  simp only [attemptFails, hmodel, ErrorModel.failureProbability, ErrorModel.failureProbabilityIn, ok_bind,
    pure_eq_ok_iff] at h
  cases h
  exact ⟨decide_eq_false (Random.not_uniform_lt_nought _ nought_zero), rfl⟩

/-- Under the table only an early attempt fails. -/
theorem le_lastFailing_of_attemptFails (hmodel : harq.model = .table) (hbound : attempt.toNat < 2 ^ 31)
    (h : harq.attemptFails mcs sinr attempt = .ok (true, next)) :
    attempt.toNat ≤ ErrorModel.lastFailing := by
  by_contra hlate
  simp only [attemptFails, hmodel, bind_eq_ok_iff, pure_eq_ok_iff] at h
  obtain ⟨probability, hprobability, heq⟩ := h
  have hnought := ErrorModel.nought_failureProbability (Nat.lt_of_not_le hlate) hbound hprobability
  exact Random.not_uniform_lt_nought _ hnought (of_decide_eq_true (Prod.mk.inj heq).1)

end Harq

end RadioAccess
