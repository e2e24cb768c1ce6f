import RadioAccess.Proofs.Link.Grant
import RadioAccess.Proofs.Link.Totality

/-!
# What a Grant Is Worth

A grant bounds the fresh block that it makes.  A repetition is as large as the block was made, by an
earlier grant, and goes out whatever the grant is worth that it is spent on (`spentAgain_of_spend`), so that
a later and smaller grant may come to more bits than it grants.  Each bit that is understood is thus covered
by a grant, but not by the one that it is understood in.
-/

namespace RadioAccess.Link

open Packet (totalBits)

/-! ## Covered blocks -/

/-- A block was made by a grant among `calls` that it fits. -/
def Covered (start : Link) (calls : List Call) (block : TransportBlock) : Prop :=
  ∃ before later bits conditions journal link attempt,
    calls = before ++ .grant bits conditions :: later ∧ start.run before = .ok (journal, link) ∧
      link.grantEvents bits conditions = [.attempted attempt] ∧ attempt.number = 0 ∧
      block.SameLoad attempt.block ∧ block.bits ≤ bits

theorem Covered.append {start : Link} {calls : List Call} {block : TransportBlock}
    (h : start.Covered calls block) (more : List Call) : start.Covered (calls ++ more) block := by
  obtain ⟨before, later, bits, conditions, journal, link, attempt, rfl, hmade⟩ := h
  exact ⟨before, later ++ more, bits, conditions, journal, link, attempt, by simp, hmade⟩

/-- Waiting for a repetition does not change what a block carries. -/
theorem Covered.sameLoad {start : Link} {calls : List Call} {block waiting : TransportBlock}
    (h : start.Covered calls block) (hload : waiting.SameLoad block) : start.Covered calls waiting := by
  obtain ⟨before, later, bits, conditions, journal, link, attempt, hcalls, hrun, hevents, hfirst, hmade,
    hbits⟩ := h
  exact ⟨before, later, bits, conditions, journal, link, attempt, hcalls, hrun, hevents, hfirst,
    hload.trans hmade, hload.bits ▸ hbits⟩

/-- The block that a grant is spent on is covered by this grant if it is fresh, and by an earlier one if
it is repeated. -/
theorem Spent.covered {start link next : Link} {calls : List Call} {journal : List Event}
    {bits value : UInt64} {conditions : LinkConditions} {attempt : Attempt}
    (hrun : start.run calls = .ok (journal, link))
    (hqueue : ∀ block ∈ link.harq.queue.items, start.Covered calls block)
    (hevents : link.grantEvents bits conditions = [.attempted attempt])
    (h : link.Spent bits conditions attempt value next) :
    start.Covered (calls ++ [.grant bits conditions]) attempt.block ∧
      ∀ block ∈ next.harq.queue.items, start.Covered (calls ++ [.grant bits conditions]) block := by
  obtain ⟨held, failed, drawn, hturn, hdraw, hends, -⟩ := h
  have hown : start.Covered (calls ++ [.grant bits conditions]) attempt.block := by
    rcases hturn.fresh_or_taken with ⟨-, -, hfirst, hbits⟩ | htake
    · exact ⟨calls, [], bits, conditions, journal, link, attempt, rfl, hrun, hevents, hfirst,
        ⟨rfl, rfl, rfl⟩, hbits⟩
    · rw [(Harq.eq_of_takeReady? htake).2.1] at hqueue
      exact (hqueue attempt.block List.mem_cons_self).append _
  refine ⟨hown, fun waiting hwaiting ↦ ?_⟩
  rcases hends.mem_queue hwaiting with hold | ⟨-, hload, -⟩
  · rw [Harq.queue_of_attemptFails hdraw] at hold
    exact (hqueue waiting (hturn.mem_queue waiting hold)).append _
  · exact hown.sameLoad hload

/-- Each block that waits for its repetition was made by an earlier grant that it fits. -/
theorem covered_of_run {direction : Direction} {config : LinkConfig} {profile : LinkProfile}
    {model : ErrorModel} {seed : UInt64} {calls : List Call} {journal : List Event} {after : Link}
    (h : (idle direction config profile model seed).run calls = .ok (journal, after)) :
    ∀ block ∈ after.harq.queue.items,
      (idle direction config profile model seed).Covered calls block := by
  have hempty : (idle direction config profile model seed).harq.queue.items = [] := rfl
  refine (run_induction (fun done journal link ↦
    (idle direction config profile model seed).run done = .ok (journal, link) ∧
      ∀ block ∈ link.harq.queue.items,
        (idle direction config profile model seed).Covered done block) ?_ h ⟨rfl, by simp [hempty]⟩).2
  rintro done journal link call events next ⟨hrun, hqueue⟩ hact
  refine ⟨run_concat hrun hact, fun block hblock ↦ ?_⟩
  rcases spent_or_kept_of_act hact with
    ⟨bits, conditions, attempt, value, rfl, -, hevents, hspent⟩ | ⟨-, -, hharq⟩
  · exact (hspent.covered hrun hqueue hevents).2 block hblock
  · have hsame : next.harq.queue = link.harq.queue := by
      rcases hharq with hharq | ⟨now, -, hharq⟩
      · rw [hharq]
      · rw [hharq, Harq.step]
    rw [hsame] at hblock
    exact (hqueue block hblock).append _

/-! ## Grants that are spent on a repetition -/

/-- A grant was spent on the repetition of `block`, and `held` is the queue without it: the link attempts
the block once more and does nothing else.  The draw says how the attempt ends and what it is worth, and the
far end is told so. -/
structure SpentAgain (link : Link) (conditions : LinkConditions) (block : TransportBlock) (held : Harq)
    (attempt : Attempt) (value : UInt64) (next : Link) : Prop where
  events : ∀ bits, link.grantEvents bits conditions = [.attempted attempt]
  block_eq : attempt.block = block
  number : attempt.number.toNat = block.retransmissions.toNat + 1
  drawn : ∃ failed drawn,
    held.attemptFails block.mcs conditions.sinr attempt.number = .ok (failed, drawn) ∧
      Ends drawn block attempt.number failed attempt.outcome next.harq ∧
      value = if failed then 0 else block.bits
  told : TellsFarEnd link.view (.attempted attempt) next.view
  /-- The packets that wait, the numbers of blocks, the bridge and what was generated stay. -/
  kept : next = { link with
    harq := next.harq
    buffer := { link.buffer with lost := Event.count link.buffer.lost (.attempted attempt) }
    egress := next.egress }

/-- A block that is due is repeated whatever a grant is worth. -/
theorem spend_of_takeReady? {link : Link} {block : TransportBlock} {held : Harq}
    (htake : link.harq.takeReady? = (some block, held)) (bits : UInt64) (conditions : LinkConditions) :
    link.spend bits conditions = { link with harq := held }.retransmit block conditions := by
  rw [spend, htake]

theorem grantEvents_of_takeReady? {link : Link} {block : TransportBlock} {held : Harq}
    (htake : link.harq.takeReady? = (some block, held)) (bits other : UInt64)
    (conditions : LinkConditions) :
    link.grantEvents bits conditions = link.grantEvents other conditions := by
  simp only [grantEvents, attempt?, htake]

theorem Turn.eq_of_takeReady? {link : Link} {bits nextBlock : UInt64} {block due : TransportBlock}
    {number : UInt32} {held rest : Harq} (h : link.Turn bits block number held nextBlock)
    (htake : link.harq.takeReady? = (some due, rest)) :
    block = due ∧ held = rest ∧ number.toNat = due.retransmissions.toNat + 1 := by
  cases h with
  | fresh hidle hnumber hcount hbits hnext =>
    rw [(Harq.takeReady?_eq_none_iff _).2 hidle] at htake
    cases htake
  | again hsame hnumber =>
    rw [htake] at hsame
    cases hsame
    exact ⟨rfl, rfl, hnumber⟩

theorem eq_of_retransmit {link next : Link} {block : TransportBlock} {conditions : LinkConditions}
    {value : UInt64} (h : link.retransmit block conditions = .ok (value, next)) :
    ∃ harq lost egress, next = { link with harq, buffer := { link.buffer with lost }, egress } := by
  rw [retransmit_eq, bind_eq_ok_iff] at h
  obtain ⟨⟨attempt, middle⟩, hattempt, hconclude⟩ := h
  obtain ⟨harq, rfl⟩ := (againStep_of_attemptAgain hattempt).eq
  obtain ⟨lost, egress, rfl⟩ := eq_of_conclude_eq_ok hconclude
  exact ⟨harq, lost, egress, rfl⟩

/-- While a block is due, a grant is spent on its repetition. -/
theorem spentAgain_of_spend {link next : Link} {block : TransportBlock} {held : Harq}
    {bits value : UInt64} {conditions : LinkConditions}
    (htake : link.harq.takeReady? = (some block, held))
    (h : link.spend bits conditions = .ok (value, next)) :
    ∃ attempt, link.SpentAgain conditions block held attempt value next := by
  rcases spent_of_spend h with
    ⟨-, hidle, -⟩ | ⟨attempt, hevents, _, failed, drawn, hturn, hdraw, hends, hvalue⟩
  · rw [(Harq.takeReady?_eq_none_iff _).2 hidle] at htake
    cases htake
  obtain ⟨hblock, rfl, hnumber⟩ := hturn.eq_of_takeReady? htake
  rw [hblock] at hdraw hends hvalue
  have hstep := step_of_spend h hevents
  have hlost : next.buffer.lost = Event.count link.buffer.lost (.attempted attempt) := hstep.lost_eq
  rw [spend_of_takeReady? htake] at h
  obtain ⟨harq, lost, egress, rfl⟩ := eq_of_retransmit h
  refine ⟨attempt, fun other ↦ ?_, hblock, hnumber, ⟨failed, drawn, hdraw, hends, hvalue⟩,
    hstep.tellsFarEnd, ?_⟩
  · rw [grantEvents_of_takeReady? htake other bits, hevents]
  · rw [← hlost]

/-! ## What a grant comes to -/

/-- While no repetition is due, a grant of no bits does nothing. -/
theorem spend_zero_of_not_ready {link : Link} (h : link.harq.isReady = false)
    (conditions : LinkConditions) : link.spend 0 conditions = .ok (0, link) := by
  rw [spend, (Harq.takeReady?_eq_none_iff _).2 h]
  rfl

theorem le_of_spend {link next : Link} {bits value : UInt64} {conditions : LinkConditions}
    (hidle : link.harq.isReady = false) (h : link.spend bits conditions = .ok (value, next)) :
    value ≤ bits := by
  rcases spent_of_spend h with ⟨-, -, rfl, -⟩ | ⟨attempt, -, held, failed, drawn, hturn, -, -, rfl⟩
  · exact UInt64.zero_le
  · rcases hturn.fresh_or_taken with ⟨-, -, -, hbits⟩ | htake
    · cases failed with
      | true => exact UInt64.zero_le
      | false => exact hbits
    · rw [(Harq.takeReady?_eq_none_iff _).2 hidle] at htake
      cases htake

theorem SpentAgain.value_eq {link next : Link} {conditions : LinkConditions} {block : TransportBlock}
    {held : Harq} {attempt : Attempt} {value : UInt64}
    (h : link.SpentAgain conditions block held attempt value next) : value = 0 ∨ value = block.bits := by
  obtain ⟨failed, drawn, -, -, hvalue⟩ := h.drawn
  cases failed with
  | true => exact .inl hvalue
  | false => exact .inr hvalue

/-- While no repetition is due, a grant comes to at most its bits, and one of no bits does nothing.  While
one is due, a grant is spent on it, the same way whatever it is worth, and comes to nothing or to the whole
block, which fitted the earlier grant that made it.  Each grant has a result as long as the counters cannot
overflow: what came to the link fits a word, and so does what was admitted, counted once for each repetition
that is allowed, and there is a number for one more block. -/
theorem grant_worth {direction : Direction} {config : LinkConfig} {profile : LinkProfile}
    {model : ErrorModel} {seed : UInt64} {calls : List Call} {journal : List Event} {after : Link}
    (h : (idle direction config profile model seed).run calls = .ok (journal, after)) :
    (after.harq.isReady = false →
      (∀ conditions, after.spend 0 conditions = .ok (0, after)) ∧
      ∀ bits conditions value next, after.spend bits conditions = .ok (value, next) → value ≤ bits) ∧
    (∀ block held, after.harq.takeReady? = (some block, held) →
      (idle direction config profile model seed).Covered calls block ∧
      ∀ bits conditions, (∀ other, after.spend other conditions = after.spend bits conditions) ∧
        ∀ value next, after.spend bits conditions = .ok (value, next) →
          (value = 0 ∨ value = block.bits) ∧
          ∃ attempt, after.SpentAgain conditions block held attempt value next) ∧
    (totalBits (entered journal) < 2 ^ 64 →
      config.harq.maxRetransmissions.toNat * totalBits (admitted journal) < 2 ^ 64 →
      after.nextBlock.toNat + 1 < 2 ^ 64 →
      ∀ bits conditions, ∃ result, after.spend bits conditions = .ok result) := by
  refine ⟨fun hidle ↦ ⟨spend_zero_of_not_ready hidle, fun _ _ _ _ ↦ le_of_spend hidle⟩,
    fun block held htake ↦ ⟨?_, fun bits conditions ↦ ⟨fun other ↦ ?_, fun value next hspend ↦ ?_⟩⟩,
    fun htotal hmost hblocks ↦ exists_spend_of_run h htotal hmost fun _ ↦ hblocks⟩
  · have hqueue := (Harq.eq_of_takeReady? htake).2.1
    exact covered_of_run h block (hqueue ▸ List.mem_cons_self)
  · rw [spend_of_takeReady? htake, spend_of_takeReady? htake]
  · obtain ⟨attempt, hagain⟩ := spentAgain_of_spend htake hspend
    exact ⟨hagain.value_eq, attempt, hagain⟩

/-- While 1000 bits wait, a grant of no bits does nothing.  A grant of 1000 bits then makes a block that is
not understood.  Each grant after that has a result, and one of 600 bits and one of none bring the repetition
of the whole block alike. -/
theorem grant_worth_repetition :
    (∃ state,
      (idle .downlink { LinkConfig.standard with backhaul := .none } .standard (.flat 0.5) 1).run
        [.step 0.0, .generate 1000 1000] = .ok state ∧ state.2.harq.isReady = false ∧
      ∀ conditions, state.2.spend 0 conditions = .ok (0, state.2)) ∧
    ∃ state,
      (idle .downlink { LinkConfig.standard with backhaul := .none } .standard (.flat 0.5) 1).run
        [.step 0.0, .generate 1000 1000, .grant 1000 ⟨10, 20.0, 100.0⟩, .step 1.0] = .ok state ∧
      (∀ bits conditions, ∃ result, state.2.spend bits conditions = .ok result) ∧
      ∃ spent, state.2.spend 600 ⟨10, 20.0, 100.0⟩ = .ok spent ∧
        state.2.spend 0 ⟨10, 20.0, 100.0⟩ = .ok spent ∧
        ∃ block held attempt, state.2.harq.takeReady? = (some block, held) ∧
          state.2.SpentAgain ⟨10, 20.0, 100.0⟩ block held attempt spent.1 spent.2 ∧ spent.1 = block.bits ∧
          (idle .downlink { LinkConfig.standard with backhaul := .none } .standard (.flat 0.5) 1).Covered
            [.step 0.0, .generate 1000 1000, .grant 1000 ⟨10, 20.0, 100.0⟩, .step 1.0] block := by
  constructor
  · refine exists_ok_of_any (fun state ↦ !state.2.harq.isReady) (by decide +kernel) fun state hrun hidle ↦ ?_
    rw [Bool.not_eq_true'] at hidle
    exact ⟨hidle, ((grant_worth hrun).1 hidle).1⟩
  · refine exists_ok_of_any (fun state ↦ (state.2.spend 600 ⟨10, 20.0, 100.0⟩).toOption.any fun spent ↦
      spent.1 ≠ 0 && (state.2.harq.takeReady?.1.isSome && (totalBits (entered state.1) = 1000 &&
        (totalBits (admitted state.1) = 1000 && state.2.nextBlock.toNat = 1))))
      (by decide +kernel) fun state hrun hstate ↦ ?_
    obtain ⟨-, hready, hresult⟩ := grant_worth hrun
    obtain ⟨spent, hspend, hspent⟩ := exists_ok_of_any _ hstate fun spent hspend hspent ↦ hspent
    simp only [Bool.and_eq_true, decide_eq_true_eq, Option.isSome_iff_exists] at hspent
    obtain ⟨hsome, ⟨block, htake⟩, hentered, hadmitted, hblocks⟩ := hspent
    have htaken : state.2.harq.takeReady? = (some block, state.2.harq.takeReady?.2) := by rw [← htake]
    obtain ⟨hcovered, hspent⟩ := hready _ _ htaken
    obtain ⟨hany, hagain⟩ := hspent 600 ⟨10, 20.0, 100.0⟩
    obtain ⟨hvalue, attempt, hagain⟩ := hagain _ _ hspend
    refine ⟨hresult (by omega) ?_ (by omega), spent, hspend, (hany 0).trans hspend, block, _, attempt, htaken,
      hagain, hvalue.resolve_left hsome, hcovered⟩
    rw [hadmitted]
    decide

/-- A block of 1000 bits is not understood at first; a grant of no bits then brings all of it. -/
theorem grant_may_exceed_its_bits :
    ∃ state,
      (idle .downlink { LinkConfig.standard with backhaul := .none } .standard (.flat 0.5) 1).run
        [.step 0.0, .generate 1000 1000, .grant 1000 ⟨10, 20.0, 100.0⟩, .step 1.0] = .ok state ∧
      ∃ spent, state.2.spend 0 ⟨10, 20.0, 100.0⟩ = .ok spent ∧ spent.1 = 1000 ∧
        spent.2.harq.queue.items.length ≠ state.2.harq.queue.items.length := by
  refine exists_ok_of_any (fun state ↦ (state.2.spend 0 ⟨10, 20.0, 100.0⟩).toOption.any fun spent ↦
    spent.1 = 1000 && spent.2.harq.queue.items.length ≠ state.2.harq.queue.items.length)
    (by decide +kernel) fun state _ hstate ↦ exists_ok_of_any _ hstate fun spent _ hspent ↦ ?_
  rw [Bool.and_eq_true, decide_eq_true_eq, decide_eq_true_eq] at hspent
  exact hspent

end RadioAccess.Link
