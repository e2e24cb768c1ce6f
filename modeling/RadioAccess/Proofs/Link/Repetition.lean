import RadioAccess.Proofs.Link.Conservation
import RadioAccess.Proofs.Link.Grant

/-!
# The Bound on Repetitions

The attempts on a block are numbered from zero on.  A block waits as long as fewer repetitions failed than
are allowed; with the last one it is given up, and with the first success it goes to the far end.  After
that it is never transmitted again.  So the count of a waiting block is below the bound, and counting never
overflows.
-/

namespace RadioAccess.Link

/-- The attempts on the block of a number. -/
def attemptsOn (number : UInt64) (journal : List Event) : List Attempt :=
  (attempts journal).filter (·.block.number = number)

/-- What an attempt comes to if at most `most` repetitions are allowed, given whether it fails: its block
is understood exactly if it does not, and given up exactly if it fails as the last one. -/
structure FollowsDraw (most : UInt32) (failed : Bool) (attempt : Attempt) : Prop where
  understood : attempt.outcome = .understood attempt.block ↔ failed = false
  waits : attempt.outcome = .waits ↔ failed = true ∧ attempt.number < most
  givenUp : (∃ lost, attempt.outcome = .givenUp lost ∧ lost.SameLoad attempt.block ∧
    lost.retransmissions = most) ↔ failed = true ∧ attempt.number = most

/-! ## Readings -/

theorem attempts_concat_attempted (journal : List Event) (attempt : Attempt) :
    attempts (journal ++ [.attempted attempt]) = attempts journal ++ [attempt] :=
  attempts_append _ _

theorem attemptsOn_concat_self (journal : List Event) (attempt : Attempt) :
    attemptsOn attempt.block.number (journal ++ [.attempted attempt]) =
      attemptsOn attempt.block.number journal ++ [attempt] := by
  rw [attemptsOn, attempts_concat_attempted, List.filter_append, ← attemptsOn]
  simp

theorem attemptsOn_concat_of_ne (journal : List Event) {attempt : Attempt} {number : UInt64}
    (h : attempt.block.number ≠ number) :
    attemptsOn number (journal ++ [.attempted attempt]) = attemptsOn number journal := by
  rw [attemptsOn, attempts_concat_attempted, List.filter_append, ← attemptsOn]
  simp [h]

theorem mem_attemptsOn_iff {journal : List Event} {attempt : Attempt} {number : UInt64} :
    attempt ∈ attemptsOn number journal ↔ attempt ∈ attempts journal ∧ attempt.block.number = number := by
  simp [attemptsOn]

/-! ## One attempt -/

/-- If the block of an attempt had a number of its own, no two blocks wait under one number. -/
theorem Ends.nodup {harq next : Harq} {block : TransportBlock} {number : UInt32} {failed : Bool}
    {outcome : Outcome} (h : Ends harq block number failed outcome next)
    (hnodup : ((block :: harq.queue.items).map (·.number)).Nodup) :
    (next.queue.items.map (·.number)).Nodup := by
  cases h with
  | understood => exact (List.nodup_cons.1 hnodup).2
  | failed hcounted =>
    cases hcounted with
    | givenUp hload hcount hmost => exact (List.nodup_cons.1 hnodup).2
    | waits hload hcount hless hdue hqueue hconfig hnow =>
      rw [(hqueue.map (·.number)).nodup_iff, List.map_cons, hload.number]
      exact hnodup

/-- Taking a block from the queue leaves the draw as it is. -/
theorem Turn.exists_draw {link : Link} {bits nextBlock : UInt64} {block : TransportBlock}
    {number : UInt32} {held drawn : Harq} {mcs : UInt8} {sinr : Float} {attempt : UInt32} {failed : Bool}
    (h : link.Turn bits block number held nextBlock)
    (hdraw : held.attemptFails mcs sinr attempt = .ok (failed, drawn)) :
    ∃ other, link.harq.attemptFails mcs sinr attempt = .ok (failed, other) := by
  cases h with
  | fresh hidle hnumber hcount hbits hnext => exact ⟨drawn, hdraw⟩
  | again htake hnumber =>
    obtain ⟨⟨queue, rfl⟩, -, -⟩ := Harq.eq_of_takeReady? htake
    exact ⟨_, Harq.attemptFails_of_queue hdraw⟩

/-- The draw and the number of an attempt that is within the bound say what it comes to. -/
theorem Ends.followsDraw {harq next : Harq} {block : TransportBlock} {number : UInt32} {failed : Bool}
    {outcome : Outcome} (h : Ends harq block number failed outcome next)
    (hbound : number ≤ harq.config.maxRetransmissions) (worth : UInt64) :
    FollowsDraw harq.config.maxRetransmissions failed { block, number, worth, outcome } := by
  cases h with
  | understood => exact ⟨by simp, by simp, by simp⟩
  | failed hcounted =>
    cases hcounted with
    | waits hload hcount hless hdue hqueue hconfig hnow =>
      exact ⟨by simp [Outcome.ofRepetition], by simp [Outcome.ofRepetition, hless],
        by simp [Outcome.ofRepetition, UInt32.ne_of_lt hless]⟩
    | givenUp hload hcount hmost =>
      have hlast : number = harq.config.maxRetransmissions := UInt32.le_antisymm hbound hmost
      refine ⟨by simp [Outcome.ofRepetition], by simp [Outcome.ofRepetition, hlast], ?_⟩
      simp [Outcome.ofRepetition, hlast, hload, hcount]

/-! ## The invariant -/

/-- What holds of the attempts that were made and of the blocks that wait, if at most `most` repetitions
are allowed. -/
structure Repeating (most : UInt32) (journal : List Event) (nextBlock : UInt64) (harq : Harq) : Prop where
  config : harq.config.maxRetransmissions = most
  made : ∀ attempt ∈ attempts journal,
    attempt.block.number.toNat < nextBlock.toNat ∧ attempt.number ≤ most
  numbers : ∀ number, (attemptsOn number journal).map (·.number.toNat) =
    List.range (attemptsOn number journal).length
  queued : ∀ block ∈ harq.queue.items, block.number.toNat < nextBlock.toNat ∧
    block.retransmissions < most ∧
    (attemptsOn block.number journal).length = block.retransmissions.toNat + 1
  settled : ∀ attempt ∈ attempts journal, attempt.outcome ≠ .waits →
    ∀ block ∈ harq.queue.items, block.number ≠ attempt.block.number
  final : (attempts journal).Pairwise fun earlier later ↦
    earlier.outcome ≠ .waits → later.block.number ≠ earlier.block.number
  distinct : (harq.queue.items.map (·.number)).Nodup

/-- What holds of the block that a grant is spent on. -/
structure Turned (most : UInt32) (journal : List Event) (block : TransportBlock) (number : UInt32)
    (held : Harq) (nextBlock : UInt64) : Prop where
  config : held.config.maxRetransmissions = most
  made : ∀ attempt ∈ attempts journal, attempt.block.number.toNat < nextBlock.toNat
  below : block.number.toNat < nextBlock.toNat
  bounded : number ≤ most
  counted : (attemptsOn block.number journal).length = number.toNat
  queued : ∀ other ∈ held.queue.items, other.number.toNat < nextBlock.toNat ∧
    other.retransmissions < most ∧
    (attemptsOn other.number journal).length = other.retransmissions.toNat + 1
  settled : ∀ attempt ∈ attempts journal, attempt.outcome ≠ .waits →
    ∀ other ∈ block :: held.queue.items, other.number ≠ attempt.block.number
  distinct : ((block :: held.queue.items).map (·.number)).Nodup

theorem attemptsOn_eq_nil {journal : List Event} {number : UInt64}
    (h : ∀ attempt ∈ attempts journal, attempt.block.number.toNat < number.toNat) :
    attemptsOn number journal = [] := by
  refine List.filter_eq_nil_iff.2 fun attempt hattempt ↦ ?_
  have hlt := h attempt hattempt
  rw [decide_eq_true_eq]
  rintro rfl
  exact Nat.lt_irrefl _ hlt

theorem Repeating.turn {most : UInt32} {journal : List Event} {link : Link} {bits nextBlock : UInt64}
    {block : TransportBlock} {number : UInt32} {held : Harq}
    (h : Repeating most journal link.nextBlock link.harq)
    (hturn : link.Turn bits block number held nextBlock) :
    Turned most journal block number held nextBlock := by
  cases hturn with
  | fresh hidle hnumber hcount hbits hnext =>
    have hbelow (attempt : Attempt) (hattempt : attempt ∈ attempts journal) :
        attempt.block.number.toNat < block.number.toNat := by
      rw [hnumber]
      exact (h.made attempt hattempt).1
    have hqueue (other : TransportBlock) (hother : other ∈ link.harq.queue.items) :
        other.number.toNat < block.number.toNat := by
      rw [hnumber]
      exact (h.queued other hother).1
    rw [← hnumber] at hnext
    refine ⟨h.config, fun attempt hattempt ↦ ?_, by omega, UInt32.zero_le, ?_, fun other hother ↦ ?_, ?_, ?_⟩
    · have hlt := hbelow attempt hattempt
      omega
    · rw [attemptsOn_eq_nil hbelow]
      rfl
    · obtain ⟨-, hcounted⟩ := h.queued other hother
      have hlt := hqueue other hother
      exact ⟨by omega, hcounted⟩
    · intro attempt hattempt hsettled other hother
      rcases List.mem_cons.1 hother with rfl | hold
      · intro hsame
        have hlt := hbelow attempt hattempt
        rw [hsame] at hlt
        exact Nat.lt_irrefl _ hlt
      · exact h.settled attempt hattempt hsettled other hold
    · rw [List.map_cons, List.nodup_cons]
      refine ⟨fun hmem ↦ ?_, h.distinct⟩
      obtain ⟨other, hother, hsame⟩ := List.mem_map.1 hmem
      have hlt := hqueue other hother
      rw [hsame] at hlt
      exact Nat.lt_irrefl _ hlt
  | again htake hnumber =>
    obtain ⟨⟨queue, rfl⟩, hitems, -⟩ := Harq.eq_of_takeReady? htake
    have hqueued := h.queued
    have hsettled := h.settled
    have hdistinct := h.distinct
    rw [hitems] at hqueued hsettled hdistinct
    obtain ⟨⟨hbelow, hless, hcounted⟩, hothers⟩ := List.forall_mem_cons.1 hqueued
    refine ⟨h.config, fun attempt hattempt ↦ (h.made attempt hattempt).1, hbelow, ?_, ?_, hothers, hsettled,
      hdistinct⟩
    · rw [UInt32.lt_iff_toNat_lt] at hless
      rw [UInt32.le_iff_toNat_le]
      omega
    · rw [hcounted, hnumber]

/-- An attempt takes the next number of its block. -/
theorem Repeating.grant {most : UInt32} {journal : List Event} {link next : Link} {bits value : UInt64}
    {conditions : LinkConditions} {attempt : Attempt}
    (h : Repeating most journal link.nextBlock link.harq)
    (hspent : link.Spent bits conditions attempt value next) :
    Repeating most (journal ++ [.attempted attempt]) next.nextBlock next.harq := by
  obtain ⟨held, failed, drawn, hturn, hdraw, hends, -⟩ := hspent
  have hturned := h.turn hturn
  obtain ⟨stream, rfl⟩ := Harq.exists_stream_of_attemptFails hdraw
  have hother {other : TransportBlock} (hmem : other ∈ held.queue.items) :
      attempt.block.number ≠ other.number := by
    have hdistinct := hturned.distinct
    rw [List.map_cons, List.nodup_cons] at hdistinct
    intro hsame
    exact hdistinct.1 (hsame ▸ List.mem_map_of_mem hmem)
  refine ⟨hends.now_config.2 ▸ hturned.config, ?_, ?_, ?_, ?_, ?_, hends.nodup hturned.distinct⟩
  · intro other hmade
    rw [attempts_concat_attempted] at hmade
    rcases List.mem_append.1 hmade with hearlier | hlast
    · exact ⟨hturned.made other hearlier, (h.made other hearlier).2⟩
    · rw [List.mem_singleton.1 hlast]
      exact ⟨hturned.below, hturned.bounded⟩
  · intro number
    by_cases hsame : attempt.block.number = number
    · rw [← hsame, attemptsOn_concat_self, List.map_append, h.numbers, List.length_append,
        hturned.counted, List.length_singleton, List.range_succ]
      rfl
    · rw [attemptsOn_concat_of_ne journal hsame]
      exact h.numbers number
  · intro waiting hwaiting
    rcases hends.mem_queue hwaiting with hold | ⟨-, hload, hcount, hless, -⟩
    · rw [attemptsOn_concat_of_ne journal (hother hold)]
      exact hturned.queued waiting hold
    · rw [hload.number, attemptsOn_concat_self, List.length_append, hturned.counted, hcount]
      exact ⟨hturned.below, hturned.config ▸ hless, rfl⟩
  · intro other hmade hsettled waiting hwaiting
    rw [attempts_concat_attempted] at hmade
    rcases List.mem_append.1 hmade with hearlier | hlast
    · have hapart := hturned.settled other hearlier hsettled
      rcases hends.mem_queue hwaiting with hold | ⟨-, hload, -⟩
      · exact hapart waiting (List.mem_cons_of_mem _ hold)
      · rw [hload.number]
        exact hapart attempt.block List.mem_cons_self
    · rw [List.mem_singleton.1 hlast] at hsettled ⊢
      rcases hends.mem_queue hwaiting with hold | ⟨hwaits, -⟩
      · exact (hother hold).symm
      · exact absurd hwaits hsettled
  · rw [attempts_concat_attempted, List.pairwise_append]
    refine ⟨h.final, List.pairwise_singleton _ _, fun earlier hearlier last hlast hsettled ↦ ?_⟩
    rw [List.mem_singleton.1 hlast]
    exact hturned.settled earlier hearlier hsettled attempt.block List.mem_cons_self

/-- Where nothing is attempted, the queue and what was attempted stay. -/
theorem Repeating.keep {most : UInt32} {journal events : List Event} {nextBlock : UInt64}
    {harq next : Harq} (h : Repeating most journal nextBlock harq) (hnone : attempts events = [])
    (hconfig : next.config = harq.config) (hqueue : next.queue = harq.queue) :
    Repeating most (journal ++ events) nextBlock next := by
  have hsame : attempts (journal ++ events) = attempts journal := by
    rw [attempts_append, hnone, List.append_nil]
  have hsameOn (number : UInt64) : attemptsOn number (journal ++ events) = attemptsOn number journal := by
    rw [attemptsOn, hsame, ← attemptsOn]
  refine ⟨hconfig ▸ h.config, hsame ▸ h.made, fun number ↦ ?_, fun block hblock ↦ ?_, ?_, hsame ▸ h.final,
    hqueue ▸ h.distinct⟩
  · rw [hsameOn]
    exact h.numbers number
  · rw [hsameOn]
    rw [hqueue] at hblock
    exact h.queued block hblock
  · rw [hsame, hqueue]
    exact h.settled

theorem Repeating.act {most : UInt32} {journal events : List Event} {link next : Link} {call : Call}
    (h : Repeating most journal link.nextBlock link.harq) (hact : link.act call = .ok (events, next)) :
    Repeating most (journal ++ events) next.nextBlock next.harq := by
  rcases spent_or_kept_of_act hact with
    ⟨bits, conditions, attempt, value, -, rfl, -, hspent⟩ | ⟨hnone, hblocks, hharq⟩
  · exact h.grant hspent
  · rw [hblocks]
    rcases hharq with hharq | ⟨now, -, hharq⟩
    · rw [hharq]
      exact h.keep hnone rfl rfl
    · rw [hharq]
      exact h.keep hnone rfl rfl

theorem repeating_idle (direction : Direction) (config : LinkConfig) (profile : LinkProfile)
    (model : ErrorModel) (seed : UInt64) :
    Repeating config.harq.maxRetransmissions [] (idle direction config profile model seed).nextBlock
      (idle direction config profile model seed).harq := by
  have hempty : (idle direction config profile model seed).harq.queue.items = [] := rfl
  exact ⟨rfl, by simp [attempts], fun _ ↦ rfl, by simp [hempty], by simp [attempts], .nil, by simp [hempty]⟩

theorem repeating_of_run {direction : Direction} {config : LinkConfig} {profile : LinkProfile}
    {model : ErrorModel} {seed : UInt64} {calls : List Call} {journal : List Event} {after : Link}
    (h : (idle direction config profile model seed).run calls = .ok (journal, after)) :
    Repeating config.harq.maxRetransmissions journal after.nextBlock after.harq :=
  run_induction
    (fun _ journal link ↦ Repeating config.harq.maxRetransmissions journal link.nextBlock link.harq)
    (fun _ _ _ _ _ _ hdone hact ↦ hdone.act hact) h (repeating_idle direction config profile model seed)

/-! ## Whole runs -/

theorem Repeating.length_le {most : UInt32} {journal : List Event} {nextBlock : UInt64} {harq : Harq}
    (h : Repeating most journal nextBlock harq) (number : UInt64) :
    (attemptsOn number journal).length ≤ most.toNat + 1 := by
  rcases hlength : (attemptsOn number journal).length with _ | last
  · exact Nat.zero_le _
  · have hlast : last ∈ (attemptsOn number journal).map (·.number.toNat) := by
      rw [h.numbers, hlength]
      exact List.self_mem_range_succ
    obtain ⟨attempt, hattempt, hnumber⟩ := List.mem_map.1 hlast
    have hbound := (h.made attempt (mem_attemptsOn_iff.1 hattempt).1).2
    rw [UInt32.le_iff_toNat_le] at hbound
    omega

theorem exists_add32 {count most : UInt32} (h : count < most) :
    ∃ sum, Word.add32 count 1 = .ok sum := by
  obtain ⟨sum, hsum, -⟩ := Harq.exists_succ h
  exact ⟨sum, hsum⟩

theorem exists_repeated {block : TransportBlock} {most : UInt32} (h : block.retransmissions < most) :
    ∃ repeated, block.repeated = .ok repeated := by
  obtain ⟨repeated, hrepeated, -⟩ := Harq.exists_counted h
  exact ⟨repeated, hrepeated⟩

/-- The attempts on a block are numbered from zero on, and at most one more than the repetitions that are
allowed.  A block that waits was repeated less often than that, so that counting does not overflow.  A block
that was understood or given up is not transmitted again.  What a grant comes to follows the draw: a block
is given up exactly if the last attempt fails, understood exactly if an attempt does not fail, and the far
end is told so. -/
theorem repetitions_bounded {direction : Direction} {config : LinkConfig} {profile : LinkProfile}
    {model : ErrorModel} {seed : UInt64} {calls : List Call} {journal : List Event} {after : Link}
    (h : (idle direction config profile model seed).run calls = .ok (journal, after)) :
    (∀ number, (attemptsOn number journal).length ≤ config.harq.maxRetransmissions.toNat + 1 ∧
      (attemptsOn number journal).map (·.number.toNat) =
        List.range (attemptsOn number journal).length) ∧
    (∀ block ∈ after.harq.queue.items, block.retransmissions < config.harq.maxRetransmissions ∧
      (∃ number, Word.add32 block.retransmissions 1 = .ok number) ∧
      ∃ repeated, block.repeated = .ok repeated) ∧
    ((attempts journal).Pairwise fun earlier later ↦
      earlier.outcome ≠ .waits → later.block.number ≠ earlier.block.number) ∧
    ∀ bits conditions value next, after.spend bits conditions = .ok (value, next) →
      ∀ attempt, after.grantEvents bits conditions = [.attempted attempt] →
        attempt.number.toNat = (attemptsOn attempt.block.number journal).length ∧
        (∃ failed drawn, after.harq.attemptFails attempt.block.mcs conditions.sinr attempt.number =
            .ok (failed, drawn) ∧ FollowsDraw config.harq.maxRetransmissions failed attempt) ∧
        TellsFarEnd after.view (.attempted attempt) next.view := by
  have hrepeating := repeating_of_run h
  refine ⟨fun number ↦ ⟨hrepeating.length_le number, hrepeating.numbers number⟩, fun block hblock ↦ ?_,
    hrepeating.final, fun bits conditions value next hspend attempt hevents ↦ ?_⟩
  · have hless := (hrepeating.queued block hblock).2.1
    exact ⟨hless, exists_add32 hless, exists_repeated hless⟩
  · rcases spent_of_spend hspend with ⟨hnone, -⟩ | ⟨made, hmade, held, failed, drawn, hturn, hdraw, hends, -⟩
    · rw [hnone] at hevents
      cases hevents
    · rw [hevents] at hmade
      cases hmade
      have hturned := hrepeating.turn hturn
      refine ⟨hturned.counted.symm, ?_, (step_of_spend hspend hevents).tellsFarEnd⟩
      obtain ⟨other, hother⟩ := hturn.exists_draw hdraw
      obtain ⟨stream, rfl⟩ := Harq.exists_stream_of_attemptFails hdraw
      have hfollows := hends.followsDraw (hturned.config ▸ hturned.bounded) attempt.worth
      rw [hturned.config] at hfollows
      exact ⟨failed, other, hother, hfollows⟩

/-- A block is repeated once and given up; a second block, which waits meanwhile, is repeated after it. -/
theorem repetitions_bounded_two_blocks :
    ∃ state,
      (idle .downlink { LinkConfig.standard with harq := { HarqConfig.standard with maxRetransmissions := 1 } }
        .standard (.flat 1.0) 7).run
        [.step 0.0, .generate 100 40, .grant 60 { mcs := 10, sinr := 20.0, distance := 100.0 },
          .grant 40 { mcs := 10, sinr := 20.0, distance := 100.0 }, .step 1.0,
          .grant 60 { mcs := 10, sinr := 20.0, distance := 100.0 },
          .grant 60 { mcs := 10, sinr := 20.0, distance := 100.0 }] = .ok state ∧
      ((attemptsOn 1 state.1).length = 2 ∧ state.2.harq.queue.items.length = 0) ∧
      ∀ number, (attemptsOn number state.1).map (·.number.toNat) =
        List.range (attemptsOn number state.1).length :=
  exists_ok_of_any
    (fun state ↦ (attemptsOn 1 state.1).length = 2 && state.2.harq.queue.items.length = 0)
    (by decide +kernel) fun _ h hend ↦
      ⟨by simpa using hend, fun number ↦ ((repetitions_bounded h).1 number).2⟩

end RadioAccess.Link
