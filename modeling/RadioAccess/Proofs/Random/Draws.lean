import RadioAccess.Proofs.Checked
import RadioAccess.Proofs.Random.Seeds
import RadioAccess.Proofs.Real64.Arithmetic

/-!
# Draws from a Stream

A stream moves from state to state by three exclusive ors with shifted copies, each of which can be undone.
So its states never run together, and only the state zero, in which no stream begins, leads to zero.  Every
draw moves the stream by a number of such steps (`state_of_takeAll`), so what holds after any number of steps
holds after any draws.

A uniform draw is a whole number of 53 digits over `2 ^ 53`.  None of the operations that make it and
its symmetric form out of the word is rounded, except where the result is below zero.
-/

namespace RadioAccess.Random

open Real64 (StandsFor Worth packed standsFor_one standsFor_zero)

/-! ## States -/

theorem following_injective : Function.Injective following := by
  intro x y h
  have hlast := xor_shiftRight_injective (by decide) h
  have hmiddle := xor_shiftLeft_injective (by decide) hlast
  exact xor_shiftRight_injective (by decide) hmiddle

theorem following_zero : following 0 = 0 := by decide

theorem following_eq_zero_iff (state : UInt64) : following state = 0 ↔ state = 0 :=
  following_injective.eq_iff' following_zero

/-- However often a stream moves on, it never comes to zero if it is not there. -/
theorem iterate_following_ne_zero {state : UInt64} (h : state ≠ 0) (steps : Nat) :
    following^[steps] state ≠ 0 := by
  induction steps with
  | zero => exact h
  | succ steps ih =>
    rw [Function.iterate_succ_apply']
    exact (following_eq_zero_iff _).not.2 ih

theorem ofSeed_ne_zero (seed : UInt64) : (ofSeed seed).state ≠ 0 := by
  rw [ofSeed]
  split
  · decide
  · assumption

/-! ## Draws -/

/-- A way to draw from a stream. -/
inductive Draw where
  | word
  | uniform
  | symmetric
  | poisson (mean : Float)

/-- Makes a draw.  Gives the number of words that it takes out of the stream. -/
def take (stream : Random) : Draw → Except Fault (Nat × Random)
  | .word => .ok (1, stream.word.2)
  | .uniform => .ok (1, stream.uniform.2)
  | .symmetric => .ok (1, stream.symmetric.2)
  | .poisson mean => do
    let (count, stream) ← poisson mean stream
    return (if mean <= 0.0 then 0 else count.toNat + 1, stream)

/-- Makes draws one after the other.  Gives the number of words that they take together. -/
def takeAll (stream : Random) : List Draw → Except Fault (Nat × Random)
  | [] => .ok (0, stream)
  | draw :: draws => do
    let (words, stream) ← stream.take draw
    let (more, stream) ← stream.takeAll draws
    return (words + more, stream)

/-- A count that is drawn from `count` on takes one word for each step up and one for the last
comparison. -/
theorem state_of_poissonFrom {limit product : Float} {count result : UInt64} {stream after : Random}
    (h : poissonFrom limit count product stream = .ok (result, after)) :
    count.toNat ≤ result.toNat ∧ after.state = following^[result.toNat + 1 - count.toNat] stream.state := by
  revert h
  fun_induction poissonFrom limit count product stream with
  | case1 count product stream u next hdraw hlast =>
    intro h
    cases hdraw
    rw [if_pos hlast] at h
    cases h
    rw [Nat.add_sub_cancel_left]
    exact ⟨Nat.le_refl _, rfl⟩
  | case2 count product stream u next hdraw hmore hfits ih =>
    intro h
    cases hdraw
    rw [if_neg hmore, if_pos hfits] at h
    obtain ⟨hle, hstate⟩ := ih h
    rw [UInt64.toNat_add, UInt64.toNat_one, Nat.mod_eq_of_lt hfits] at hle hstate
    have hwords : result.toNat + 1 - count.toNat = result.toNat + 1 - (count.toNat + 1) + 1 := by omega
    refine ⟨Nat.le_of_succ_le hle, ?_⟩
    rw [hwords, Function.iterate_succ_apply]
    exact hstate
  | case3 count product stream u next hdraw hmore hlarge =>
    intro h
    cases hdraw
    rw [if_neg hmore, if_neg hlarge] at h
    cases h

/-- A draw moves the state once for each word that it takes. -/
theorem state_of_take {stream after : Random} {draw : Draw} {words : Nat}
    (h : stream.take draw = .ok (words, after)) : after.state = following^[words] stream.state := by
  cases draw with
  | poisson mean =>
    simp only [take, bind_eq_ok_iff, pure_eq_ok_iff] at h
    obtain ⟨⟨count, _⟩, hpoisson, heq⟩ := h
    cases heq
    unfold poisson at hpoisson
    by_cases hmean : mean <= 0.0
    · rw [if_pos hmean] at hpoisson ⊢
      cases hpoisson
      rfl
    · rw [if_neg hmean] at hpoisson ⊢
      exact (state_of_poissonFrom hpoisson).2
  | _ =>
    cases h
    rfl

theorem state_of_takeAll {stream after : Random} {draws : List Draw} {words : Nat}
    (h : stream.takeAll draws = .ok (words, after)) : after.state = following^[words] stream.state := by
  induction draws generalizing stream words with
  | nil =>
    cases h
    rfl
  | cons draw draws ih =>
    simp only [takeAll, bind_eq_ok_iff, pure_eq_ok_iff] at h
    obtain ⟨⟨first, next⟩, hfirst, ⟨more, _⟩, hrest, heq⟩ := h
    cases heq
    rw [ih hrest, state_of_take hfirst, Nat.add_comm, Function.iterate_add_apply]

/-! ## The range of draws -/

theorem numerator_lt (word : UInt64) : (numerator word).toNat < 2 ^ 53 := by
  have hword := word.toNat_lt
  rw [numerator, UInt64.toNat_shiftRight, Nat.shiftRight_eq_div_pow]
  show word.toNat / 2 ^ 11 < 2 ^ 53
  omega

theorem standsFor_resolution : StandsFor resolution (2 ^ (-53 : Int)) := by
  have hbits : resolution = Float.ofBits 0x3CA0000000000000 := by decide +kernel
  have hvalue : (((2 ^ 52 : Nat) : ℚ) * 2 ^ (-105 : Int)) = 2 ^ (-53 : Int) := by norm_num
  rw [hbits, ← hvalue]
  exact .finite _ ⟨by decide, by decide, .inr (by decide)⟩ (by decide)

theorem standsFor_two : StandsFor 2.0 2 := by
  have hbits : (2.0 : Float) = Float.ofBits 0x4000000000000000 := by decide +kernel
  have hvalue : (((2 ^ 52 : Nat) : ℚ) * 2 ^ (-51 : Int)) = 2 := by norm_num
  rw [hbits, ← hvalue]
  exact .finite _ ⟨by decide, by decide, .inr (by decide)⟩ (by decide)

/-- A uniform draw is the numerator over `2 ^ 53`, without an error. -/
theorem standsFor_uniform (stream : Random) :
    StandsFor stream.uniform.1 ((numerator stream.word.1).toNat * 2 ^ (-53 : Int)) :=
  (Real64.standsFor_toFloat (numerator_lt _)).mul_exact standsFor_resolution
    (Real64.worth_packed_mul_zpow (numerator_lt _) (by decide) (by decide))

theorem uniform_bounds (stream : Random) : 0.0 ≤ stream.uniform.1 ∧ stream.uniform.1 < 1.0 := by
  have hdraw := standsFor_uniform stream
  have hless : ((numerator stream.word.1).toNat : ℚ) < 2 ^ 53 := by exact_mod_cast numerator_lt _
  refine ⟨(standsFor_zero.le_iff hdraw).2 hdraw.nonneg, (hdraw.lt_iff standsFor_one).2 ?_⟩
  rw [zpow_neg, ← div_eq_mul_inv]
  exact (div_lt_one (by positivity)).2 (by exact_mod_cast hless)

/-- The double of a uniform draw is not rounded either. -/
theorem standsFor_two_mul_uniform (stream : Random) :
    StandsFor (2.0 * stream.uniform.1) ((numerator stream.word.1).toNat * 2 ^ (-52 : Int)) := by
  have hvalue : (2 * ((numerator stream.word.1).toNat * 2 ^ (-53 : Int)) : ℚ) =
      (numerator stream.word.1).toNat * 2 ^ (-52 : Int) := by
    rw [show (-52 : Int) = -53 + 1 by decide, zpow_add_one₀ (by norm_num)]
    ring
  have hproduct := standsFor_two.unpack_mul (standsFor_uniform stream)
  rw [StandsFor, hproduct, hvalue]
  exact Real64.worth_packed_mul_zpow (numerator_lt _) (by decide) (by decide)

theorem symmetric_bounds (stream : Random) : -1.0 ≤ stream.symmetric.1 ∧ stream.symmetric.1 < 1.0 := by
  have hdouble := standsFor_two_mul_uniform stream
  show -1.0 ≤ 2.0 * stream.uniform.1 - 1.0 ∧ 2.0 * stream.uniform.1 - 1.0 < 1.0
  have hnumerator := numerator_lt stream.word.1
  generalize (numerator stream.word.1).toNat = n at *
  rcases Nat.lt_or_ge n (2 ^ 52) with hfew | hmany
  · -- the lower half of the draws
    have hless : (n * 2 ^ (-52 : Int) : ℚ) < 1 := by
      rw [zpow_neg, ← div_eq_mul_inv, div_lt_one (by positivity)]
      exact_mod_cast hfew
    obtain ⟨hleast, hnegative⟩ := hdouble.sub_one_bounds hless
    exact ⟨hleast, Real64.lt_trans hnegative (by decide +kernel)⟩
  · have hvalue : (n * 2 ^ (-52 : Int) - 1 : ℚ) = (n - 2 ^ 52 : Nat) * 2 ^ (-52 : Int) := by
      rw [Nat.cast_sub hmany, sub_mul]
      norm_num
    have hone : (1 : ℚ) ≤ n * 2 ^ (-52 : Int) := by
      rw [zpow_neg, ← div_eq_mul_inv, one_le_div (by positivity)]
      exact_mod_cast hmany
    have hstored : Worth (packed (n * 2 ^ (-52 : Int) - 1)) (n * 2 ^ (-52 : Int) - 1) := by
      rw [hvalue]
      exact Real64.worth_packed_mul_zpow (by omega) (by decide) (by decide)
    have hdifference := hdouble.sub_exact standsFor_one hone hstored
    have hless : (n * 2 ^ (-52 : Int) - 1 : ℚ) < 1 := by
      rw [sub_lt_iff_lt_add, zpow_neg, ← div_eq_mul_inv, div_lt_iff₀ (by positivity)]
      exact_mod_cast (by omega : n < 2 * 2 ^ 52)
    exact ⟨Real64.le_trans (b := 0.0) (by decide +kernel) ((standsFor_zero.le_iff hdifference).2 hdifference.nonneg),
      (hdifference.lt_iff standsFor_one).2 hless⟩

/-- **A stream never degenerates.**  No two states lead to the same state, and only zero leads to zero.  Every
draw moves a stream by as many such steps as it takes words.  Therefore no stream that begins with a seed ever
comes to zero, whatever is drawn from it and however much, and two streams in different states are in different
states after equally many steps, whichever draws these were spent on.  A uniform draw has a numerator of 53
digits and lies in `[0, 1)`, a symmetric one in `[-1, 1)`. -/
theorem never_degenerates :
    (Function.Injective fun state : UInt64 ↦ (Random.mk state).word.2.state) ∧
    (∀ state : UInt64, (Random.mk state).word.2.state = 0 ↔ state = 0) ∧
    (∀ (stream : Random) draws words after, stream.takeAll draws = .ok (words, after) →
      after.state = (fun state : UInt64 ↦ (Random.mk state).word.2.state)^[words] stream.state) ∧
    (∀ seed steps, (fun state : UInt64 ↦ (Random.mk state).word.2.state)^[steps] (ofSeed seed).state ≠ 0) ∧
    (∀ seed draws words after, (ofSeed seed).takeAll draws = .ok (words, after) → after.state ≠ 0) ∧
    (∀ (stream other : Random) draws others words after last, stream.state ≠ other.state →
      stream.takeAll draws = .ok (words, after) → other.takeAll others = .ok (words, last) →
      after.state ≠ last.state) ∧
    ∀ stream : Random, (numerator stream.word.1).toNat < 2 ^ 53 ∧
      (0.0 ≤ stream.uniform.1 ∧ stream.uniform.1 < 1.0) ∧
      (-1.0 ≤ stream.symmetric.1 ∧ stream.symmetric.1 < 1.0) := by
  have hsome (seed : UInt64) := iterate_following_ne_zero (ofSeed_ne_zero seed)
  refine ⟨following_injective, following_eq_zero_iff, fun stream draws words after h ↦ state_of_takeAll h,
    hsome, fun seed draws words after h ↦ ?_, fun stream other draws others words after last hne h hother ↦ ?_,
    fun stream ↦ ⟨numerator_lt _, uniform_bounds stream, symmetric_bounds stream⟩⟩
  · rw [state_of_takeAll h]
    exact hsome seed words
  · rw [state_of_takeAll h, state_of_takeAll hother]
    exact (following_injective.iterate words).ne hne

/-- Two streams from the seeds zero and two, from which three words are taken by different draws. -/
theorem never_degenerates_from_two_seeds :
    ∃ drawn, (ofSeed 0).takeAll [.word, .uniform, .poisson 0.0, .symmetric] = .ok drawn ∧
      ∃ others, (ofSeed 2).takeAll [.symmetric, .poisson (-1.0), .uniform, .uniform] = .ok others ∧
        drawn.1 = 3 ∧ others.1 = 3 ∧ drawn.2.state ≠ 0 ∧ drawn.2.state ≠ others.2.state := by
  obtain ⟨-, -, -, -, hsome, hdistinct, -⟩ := never_degenerates
  refine exists_ok_of_any (fun drawn ↦ decide (drawn.1 = 3)) (by decide +kernel) fun drawn hdrawn hthree ↦ ?_
  refine exists_ok_of_any (fun others ↦ decide (others.1 = 3)) (by decide +kernel) fun others hothers hsame ↦ ?_
  obtain ⟨words, after⟩ := drawn
  obtain ⟨more, last⟩ := others
  obtain rfl : words = 3 := of_decide_eq_true hthree
  obtain rfl : more = 3 := of_decide_eq_true hsame
  exact ⟨rfl, rfl, hsome 0 _ 3 after hdrawn,
    hdistinct (ofSeed 0) (ofSeed 2) _ _ 3 after last (by decide) hdrawn hothers⟩

end RadioAccess.Random
