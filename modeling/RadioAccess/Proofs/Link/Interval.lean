import RadioAccess.Proofs.Harq.DueTime
import RadioAccess.Proofs.Link.Repetition

/-!
# One Attempt at a Time

Between two steps the time of a link stands still, and a block is transmitted only when it is due.  A block
that failed is due later than the time of its attempt, as long as times are precise enough to show the
shortest delay, so that it is not tried again before the next step, however many grants there are.
-/

namespace RadioAccess.Link

/-- Whether a call leaves the time as it is. -/
def Call.isTimeless : Call → Bool
  | step _ => false
  | _ => true

/-- The numbers of the blocks that were transmitted, one for each attempt. -/
def tried (journal : List Event) : List UInt64 := (attempts journal).map (·.block.number)

theorem tried_append (earlier later : List Event) :
    tried (earlier ++ later) = tried earlier ++ tried later := by
  rw [tried, attempts_append, List.map_append, ← tried, ← tried]

/-- What holds while the time stands still at `now`: no block was tried twice, and those that were tried and
wait are due later. -/
structure Still (now : Float) (made : List Event) (harq : Harq) : Prop where
  time : harq.now = now
  once : (tried made).Nodup
  later : ∀ block ∈ harq.queue.items, block.number ∈ tried made → now < block.dueAt

/-- A block that a grant is spent on was not tried at this time. -/
theorem Still.not_mem_tried {now : Float} {most : UInt32} {journal made : List Event} {link : Link}
    {bits nextBlock : UInt64} {block : TransportBlock} {number : UInt32} {held : Harq}
    (h : Still now made link.harq) (hrepeating : Repeating most (journal ++ made) link.nextBlock link.harq)
    (hturn : link.Turn bits block number held nextBlock) : block.number ∉ tried made := by
  intro htried
  rcases hturn.fresh_or_taken with ⟨-, -, hfirst, -⟩ | htake
  · have hnone := (hrepeating.turn hturn).counted
    rw [hfirst, UInt32.toNat_zero, List.length_eq_zero_iff] at hnone
    obtain ⟨attempt, hattempt, hnumber⟩ := List.mem_map.1 htried
    have hmem : attempt ∈ attemptsOn block.number (journal ++ made) := by
      rw [mem_attemptsOn_iff, attempts_append]
      exact ⟨List.mem_append_right _ hattempt, hnumber⟩
    rw [hnone] at hmem
    cases hmem
  · obtain ⟨-, hitems, hdue⟩ := Harq.eq_of_takeReady? htake
    have hlater := h.later block (by rw [hitems]; exact List.mem_cons_self) htried
    rw [h.time] at hdue
    exact Real64.not_lt_of_le hdue hlater

theorem Still.grant {now : Float} {most : UInt32} {journal made : List Event} {link next : Link}
    {bits value : UInt64} {conditions : LinkConditions} {attempt : Attempt} (hfrom : 0.0 ≤ now)
    (hbelow : now < 16777216.0) (h : Still now made link.harq)
    (hrepeating : Repeating most (journal ++ made) link.nextBlock link.harq)
    (hspent : link.Spent bits conditions attempt value next) :
    Still now (made ++ [.attempted attempt]) next.harq := by
  obtain ⟨held, failed, drawn, hturn, hdraw, hends, -⟩ := hspent
  obtain ⟨stream, rfl⟩ := Harq.exists_stream_of_attemptFails hdraw
  have hnow : held.now = now := hturn.now_eq.trans h.time
  have hlast : tried [.attempted attempt] = [attempt.block.number] := rfl
  have hdistinct := (hrepeating.turn hturn).distinct
  rw [List.map_cons, List.nodup_cons] at hdistinct
  refine ⟨hends.now_config.1.trans hnow, ?_, fun waiting hwaiting htried ↦ ?_⟩
  · rw [tried_append, hlast, List.nodup_append]
    refine ⟨h.once, List.nodup_singleton _, fun number hnumber other hother ↦ ?_⟩
    rw [List.mem_singleton.1 hother]
    rintro rfl
    exact h.not_mem_tried hrepeating hturn hnumber
  · rcases hends.mem_queue hwaiting with hold | ⟨-, -, -, -, distance, random, hdue⟩
    · have hother : waiting.number ≠ attempt.block.number := by
        intro hsame
        exact hdistinct.1 (hsame ▸ List.mem_map_of_mem hold)
      rw [tried_append, hlast, List.mem_append, List.mem_singleton] at htried
      exact h.later waiting (hturn.mem_queue waiting hold) (htried.resolve_right hother)
    · rw [hdue, ← hnow]
      rw [← hnow] at hfrom hbelow
      exact Harq.lt_add_ackDelay hfrom hbelow _ distance random

/-- Where nothing is attempted and the time stands still, so does everything else. -/
theorem Still.keep {now : Float} {made events : List Event} {harq : Harq} (h : Still now made harq)
    (hnone : attempts events = []) : Still now (made ++ events) harq := by
  have htried : tried (made ++ events) = tried made := by
    rw [tried_append, tried, tried, hnone, List.map_nil, List.append_nil]
  exact ⟨h.time, htried ▸ h.once, htried ▸ h.later⟩

theorem Still.act {now : Float} {most : UInt32} {journal made events : List Event} {link next : Link}
    {call : Call} (hfrom : 0.0 ≤ now) (hbelow : now < 16777216.0) (h : Still now made link.harq)
    (hrepeating : Repeating most (journal ++ made) link.nextBlock link.harq)
    (htimeless : call.isTimeless = true) (hact : link.act call = .ok (events, next)) :
    Still now (made ++ events) next.harq := by
  rcases spent_or_kept_of_act hact with
    ⟨bits, conditions, attempt, value, -, rfl, -, hspent⟩ | ⟨hnone, -, hharq | ⟨time, rfl, -⟩⟩
  · exact h.grant hfrom hbelow hrepeating hspent
  · rw [hharq]
    exact h.keep hnone
  · cases htimeless

/-- While the time stands still, no block is tried twice. -/
theorem nodup_tried {direction : Direction} {config : LinkConfig} {profile : LinkProfile}
    {model : ErrorModel} {seed : UInt64} {earlier calls : List Call} {journal made : List Event}
    {before after : Link}
    (h : (idle direction config profile model seed).run earlier = .ok (journal, before))
    (hfrom : 0.0 ≤ before.harq.now) (hbelow : before.harq.now < 16777216.0)
    (htimeless : ∀ call ∈ calls, call.isTimeless = true) (hrun : before.run calls = .ok (made, after)) :
    (tried made).Nodup := by
  have hstart : Still before.harq.now [] before.harq :=
    ⟨rfl, List.nodup_nil, fun block _ hnone ↦ by cases hnone⟩
  have hrepeating := repeating_of_run h
  refine (run_induction_of_forall (fun _ made link ↦ Still before.harq.now made link.harq ∧
    Repeating config.harq.maxRetransmissions (journal ++ made) link.nextBlock link.harq) ?_ hrun htimeless
    ⟨hstart, by rwa [List.append_nil]⟩).1.once
  rintro done made link call events next hcall ⟨hstill, hcounted⟩ hact
  refine ⟨hstill.act hfrom hbelow hcounted hcall hact, ?_⟩
  rw [← List.append_assoc]
  exact hcounted.act hact

/-- Below `2 ^ 24` seconds, a block that is scheduled is due later than now, whatever the delays and the
distance are, and no block is tried twice while the time stands still.  From then on a block whose delay
comes down to the shortest one is due at the time at which it failed. -/
theorem no_block_tried_twice_at_a_time (harq : Harq) :
    (0.0 ≤ harq.now → harq.now < 16777216.0 →
      (∀ block next, (harq.firstFailed block = .ok (.scheduled, next) ∨
          ∃ distance, harq.repetitionFailed block distance = .ok (.scheduled, next)) →
        ∃ waiting : TransportBlock, waiting.SameLoad block ∧
          next.queue.items.Perm (waiting :: harq.queue.items) ∧ harq.now < waiting.dueAt) ∧
      ∀ direction config profile model seed earlier journal before,
        (idle direction config profile model seed).run earlier = .ok (journal, before) →
        before.harq = harq → ∀ calls made after, (∀ call ∈ calls, call.isTimeless = true) →
        before.run calls = .ok (made, after) → (tried made).Nodup) ∧
    (16777216.0 ≤ harq.now → ∀ block distance next, harq.schedule block distance = .ok next →
      (Harq.ackDelay harq.config distance harq.stream).1 = leastAckDelay →
      ∃ waiting : TransportBlock, waiting.SameLoad block ∧
        next.queue.items.Perm (waiting :: harq.queue.items) ∧ waiting.dueAt = harq.now) := by
  refine ⟨fun hfrom hbelow ↦ ⟨fun block next hfailed ↦ ?_, ?_⟩, fun hlate block distance next ↦
    Harq.due_of_schedule hlate⟩
  · rcases hfailed with hfirst | ⟨distance, hagain⟩
    · exact Harq.later_of_firstFailed hfrom hbelow hfirst
    · exact Harq.later_of_repetitionFailed hfrom hbelow hagain
  · rintro direction config profile model seed earlier journal before hearlier rfl calls made after
      htimeless hrun
    exact nodup_tried hearlier hfrom hbelow htimeless hrun

/-- One block fails and waits, and a second one is transmitted at the same time. -/
theorem no_block_tried_twice_at_a_time_two_blocks :
    ∃ state,
      (idle .downlink LinkConfig.standard .standard (.flat 1.0) 1).run [.step 1.0, .generate 100 50] =
        .ok state ∧
      ∃ later, state.2.run [.grant 50 ⟨10, 20.0, 100.0⟩, .grant 50 ⟨10, 20.0, 100.0⟩,
          .grant 50 ⟨10, 20.0, 100.0⟩] = .ok later ∧
        (tried later.1).length = 2 ∧ (tried later.1).Nodup := by
  refine exists_ok_of_any (fun state ↦ decide (0.0 ≤ state.2.harq.now ∧ state.2.harq.now < 16777216.0) &&
    (state.2.run [.grant 50 ⟨10, 20.0, 100.0⟩, .grant 50 ⟨10, 20.0, 100.0⟩,
      .grant 50 ⟨10, 20.0, 100.0⟩]).toOption.any fun later ↦ (tried later.1).length = 2)
    (by decide +kernel) fun state hearlier hstate ↦ ?_
  rw [Bool.and_eq_true, decide_eq_true_eq] at hstate
  obtain ⟨⟨hfrom, hbelow⟩, hlater⟩ := hstate
  refine exists_ok_of_any _ hlater fun later hrun hcount ↦ ⟨of_decide_eq_true hcount, ?_⟩
  exact ((no_block_tried_twice_at_a_time state.2.harq).1 hfrom hbelow).2 _ _ _ _ _ _ _ _ hearlier rfl _ _ _
    (by decide) hrun

/-- At `2 ^ 24` seconds a block without an acknowledgement delay is due at once, and is tried again. -/
theorem block_tried_twice_at_the_limit :
    ∃ state,
      (idle .downlink
        { LinkConfig.standard with harq := { HarqConfig.standard with ackPeriod := 0.0, processing := 0.0 } }
        .standard (.flat 1.0) 1).run
        [.step 16777216.0, .generate 1000 1000, .grant 1000 ⟨10, 20.0, 0.0⟩, .grant 1000 ⟨10, 20.0, 0.0⟩] =
        .ok state ∧ tried state.1 = [0, 0] :=
  exists_ok_of_any (fun state ↦ tried state.1 = [0, 0]) (by decide +kernel) fun _ _ htried ↦
    of_decide_eq_true htried

end RadioAccess.Link
