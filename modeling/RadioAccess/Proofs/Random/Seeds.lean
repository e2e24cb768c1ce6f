import Mathlib.Algebra.Ring.Parity
import Mathlib.Data.Nat.ModEq
import Mathlib.Data.Nat.Prime.Basic
import RadioAccess.Random

/-!
# Seeds of Numbered Streams

A seed is mixed from a master seed and a number by steps each of which can be undone: an addition, a
multiplication by a unit, an exclusive or with a shifted copy.  So mixing loses nothing: under one master
seed different numbers have different seeds (`seedFor_injective`), and for one number different master seeds
have (`seedFor_master_injective`).
-/

namespace RadioAccess.Random

/-! ## Steps of mixing -/

/-- Under a map that keeps exclusive ors and has no other fixed point than zero, a word is determined by its
exclusive or with its image. -/
theorem xor_injective {shift : UInt64 → UInt64} (hshift : ∀ x y, shift (x ^^^ y) = shift x ^^^ shift y)
    (hfixed : ∀ d, d = shift d → d = 0) : Function.Injective fun x ↦ x ^^^ shift x := by
  intro x y h
  have hdifference : x ^^^ y = shift (x ^^^ y) := by
    calc
      x ^^^ y = (x ^^^ shift x) ^^^ (shift x ^^^ y) := by
        rw [UInt64.xor_assoc, ← UInt64.xor_assoc (shift x), UInt64.xor_self, UInt64.zero_xor]
      _ = (y ^^^ shift y) ^^^ (shift x ^^^ y) := by rw [show x ^^^ shift x = y ^^^ shift y from h]
      _ = shift (x ^^^ y) := by
        rw [hshift, UInt64.xor_comm (shift x) y, UInt64.xor_comm y (shift y), UInt64.xor_assoc,
          ← UInt64.xor_assoc y y, UInt64.xor_self, UInt64.zero_xor, UInt64.xor_comm]
  exact UInt64.xor_eq_zero_iff.1 (hfixed _ hdifference)

/-- What differs from its shifted copy nowhere has no digits at all. -/
theorem eq_zero_of_eq_shiftRight {d k : UInt64} (hk : 0 < k.toNat % 64) (h : d = d >>> k) : d = 0 := by
  have hnat := congrArg UInt64.toNat h
  rw [UInt64.toNat_shiftRight, Nat.shiftRight_eq_div_pow] at hnat
  rw [← UInt64.toNat_inj, UInt64.toNat_zero]
  by_contra hsome
  have hless := Nat.div_lt_self (Nat.pos_of_ne_zero hsome) (Nat.one_lt_two_pow (Nat.ne_of_gt hk))
  omega

/-- A word is determined by its exclusive or with a copy of itself that is shifted down. -/
theorem xor_shiftRight_injective {k : UInt64} (hk : 0 < k.toNat % 64) :
    Function.Injective fun x : UInt64 ↦ x ^^^ (x >>> k) :=
  xor_injective (fun _ _ ↦ UInt64.shiftRight_xor) fun _ ↦ eq_zero_of_eq_shiftRight hk

/-- What is its own copy shifted up has no digits at all, as it is divisible by more than a word holds. -/
theorem eq_zero_of_eq_shiftLeft {d k : UInt64} (hk : 0 < k.toNat % 64) (h : d = d <<< k) : d = 0 := by
  generalize hplaces : k.toNat % 64 = places at hk
  have hnat := congrArg UInt64.toNat h
  rw [UInt64.toNat_shiftLeft, hplaces, Nat.shiftLeft_eq] at hnat
  have hsmall := d.toNat_lt
  have hodd : Nat.Coprime (2 ^ 64) (2 ^ places - 1) := by
    refine Nat.Coprime.pow_left 64 (Nat.coprime_two_left.2 ?_)
    exact Nat.Even.sub_odd Nat.one_le_two_pow (Nat.even_pow.2 ⟨even_two, hk.ne'⟩) odd_one
  have hdivides : 2 ^ 64 ∣ d.toNat * (2 ^ places - 1) := by
    rw [Nat.mul_sub, Nat.mul_one]
    refine (Nat.modEq_iff_dvd' (Nat.le_mul_of_pos_right _ (Nat.two_pow_pos _))).1 ?_
    rw [Nat.ModEq, ← hnat, Nat.mod_eq_of_lt hsmall]
  rw [← UInt64.toNat_inj, UInt64.toNat_zero]
  exact Nat.eq_zero_of_dvd_of_lt (hodd.dvd_of_dvd_mul_right hdivides) hsmall

/-- A word is determined by its exclusive or with a copy of itself that is shifted up. -/
theorem xor_shiftLeft_injective {k : UInt64} (hk : 0 < k.toNat % 64) :
    Function.Injective fun x : UInt64 ↦ x ^^^ (x <<< k) :=
  xor_injective (fun _ _ ↦ UInt64.shiftLeft_xor) fun _ ↦ eq_zero_of_eq_shiftLeft hk

/-- A factor with an inverse can be divided by. -/
theorem mul_injective_of_mul_eq_one (factor inverse : UInt64) (h : factor * inverse = 1) :
    Function.Injective fun x : UInt64 ↦ x * factor :=
  Function.LeftInverse.injective (g := (· * inverse)) fun x ↦ by
    show x * factor * inverse = x
    rw [UInt64.mul_assoc, h, UInt64.mul_one]

/-! ## Seeds -/

/-- What is done to a stream's place on the additive sequence. -/
def mix (z : UInt64) : UInt64 :=
  let z := (z ^^^ (z >>> 30)) * 0xBF58476D1CE4E5B9
  let z := (z ^^^ (z >>> 27)) * 0x94D049BB133111EB
  z ^^^ (z >>> 31)

theorem seedFor_eq (master index : UInt64) :
    seedFor master index = mix (master + (index + 1) * 0x9E3779B97F4A7C15) := rfl

/-- Both factors are odd, so they have inverses. -/
theorem mix_injective : Function.Injective mix := by
  have hfirst := mul_injective_of_mul_eq_one 0xBF58476D1CE4E5B9 0x96DE1B173F119089 (by decide)
  have hsecond := mul_injective_of_mul_eq_one 0x94D049BB133111EB 0x319642B2D24D8EC3 (by decide)
  intro x y h
  have hlast := xor_shiftRight_injective (by decide) h
  have hmiddle := xor_shiftRight_injective (by decide) (hsecond hlast)
  exact xor_shiftRight_injective (by decide) (hfirst hmiddle)

/-- Under one master seed, streams of different numbers have different seeds. -/
theorem seedFor_injective (master : UInt64) : Function.Injective (seedFor master) := by
  have hstep := mul_injective_of_mul_eq_one 0x9E3779B97F4A7C15 0xF1DE83E19937733D (by decide)
  intro index other h
  rw [seedFor_eq, seedFor_eq] at h
  have hplace := (UInt64.add_right_inj master).1 (mix_injective h)
  exact (UInt64.add_left_inj 1).1 (hstep hplace)

/-- Streams of one number have different seeds under different master seeds. -/
theorem seedFor_master_injective (index : UInt64) :
    Function.Injective fun master ↦ seedFor master index := by
  intro master other h
  simp only [seedFor_eq] at h
  exact (UInt64.add_left_inj _).1 (mix_injective h)

end RadioAccess.Random
