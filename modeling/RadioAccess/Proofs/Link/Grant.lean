import RadioAccess.Proofs.Harq.Repetition
import RadioAccess.Proofs.Link.Conservation
import RadioAccess.Proofs.TransmitBuffer.Balance

/-!
# What a Grant Does

A grant is spent on one block: on the one in front of the queue if its repetition is due, and otherwise on
a fresh one, which it may fill.  The draw decides what becomes of the block.  `spent_of_spend` says all that
a grant does to the queue of repetitions, and `spent_or_kept_of_act` that nothing else touches it.  What
other calls admit waits in the buffer, behind what waited there (`Kept`).
-/

namespace RadioAccess.Link

open TransmitBuffer (enters_nil enters_of_accept enters_of_generate enters_of_refusal)

/-- The attempt that is made in an event. -/
def Event.attempt? : Event → Option Attempt
  | attempted attempt => some attempt
  | _ => none

/-- The attempts that were made, in their order. -/
def attempts (journal : List Event) : List Attempt := journal.filterMap Event.attempt?

theorem attempts_append (earlier later : List Event) :
    attempts (earlier ++ later) = attempts earlier ++ attempts later := List.filterMap_append

@[simp]
theorem attempts_map_admitted (packets : List Packet) : attempts (packets.map .admitted) = [] := by
  rw [attempts, List.filterMap_map]
  exact List.filterMap_eq_nil_iff.2 fun packet _ ↦ rfl

/-! ## Grants -/

/-- The block that a grant of `bits` bits is spent on, the number of the attempt, what the queue holds
without the block, and the number of the next fresh block. -/
inductive Turn (link : Link) (bits : UInt64) : TransportBlock → UInt32 → Harq → UInt64 → Prop where
  | fresh {block : TransportBlock} {nextBlock : UInt64} (hidle : link.harq.isReady = false)
      (hnumber : block.number = link.nextBlock) (hcount : block.retransmissions = 0)
      (hbits : block.bits ≤ bits) (hnext : nextBlock.toNat = link.nextBlock.toNat + 1) :
      Turn link bits block 0 link.harq nextBlock
  | again {block : TransportBlock} {number : UInt32} {held : Harq}
      (htake : link.harq.takeReady? = (some block, held))
      (hnumber : number.toNat = block.retransmissions.toNat + 1) :
      Turn link bits block number held link.nextBlock

/-- A block is fresh and fits the grant, or it was taken from the front of the queue. -/
theorem Turn.fresh_or_taken {link : Link} {bits nextBlock : UInt64} {block : TransportBlock}
    {number : UInt32} {held : Harq} (h : link.Turn bits block number held nextBlock) :
    (link.harq.isReady = false ∧ held = link.harq ∧ number = 0 ∧ block.bits ≤ bits) ∨
      link.harq.takeReady? = (some block, held) := by
  cases h with
  | fresh hidle hnumber hcount hbits hnext => exact .inl ⟨hidle, rfl, rfl, hbits⟩
  | again htake hnumber => exact .inr htake

theorem Turn.now_eq {link : Link} {bits nextBlock : UInt64} {block : TransportBlock} {number : UInt32}
    {held : Harq} (h : link.Turn bits block number held nextBlock) : held.now = link.harq.now := by
  rcases h.fresh_or_taken with ⟨-, rfl, -⟩ | htake
  · rfl
  · obtain ⟨⟨queue, rfl⟩, -⟩ := Harq.eq_of_takeReady? htake
    rfl

/-- What waits while a block is transmitted waited before. -/
theorem Turn.mem_queue {link : Link} {bits nextBlock : UInt64} {block : TransportBlock} {number : UInt32}
    {held : Harq} (h : link.Turn bits block number held nextBlock) :
    ∀ waiting ∈ held.queue.items, waiting ∈ link.harq.queue.items := by
  rcases h.fresh_or_taken with ⟨-, rfl, -⟩ | htake
  · exact fun waiting hwaiting ↦ hwaiting
  · rw [(Harq.eq_of_takeReady? htake).2.1]
    exact fun waiting hwaiting ↦ List.mem_cons_of_mem _ hwaiting

/-- How an attempt ends, given whether it fails. -/
inductive Ends (harq : Harq) (block : TransportBlock) (number : UInt32) : Bool → Outcome → Harq → Prop where
  | understood : Ends harq block number false (.understood block) harq
  | failed {repetition : Repetition} {next : Harq} (hcounted : harq.Counted block number repetition next) :
      Ends harq block number true (.ofRepetition repetition) next

/-- What a grant does that is spent on an attempt. -/
def Spent (link : Link) (bits : UInt64) (conditions : LinkConditions) (attempt : Attempt) (value : UInt64)
    (next : Link) : Prop :=
  ∃ held failed drawn, link.Turn bits attempt.block attempt.number held next.nextBlock ∧
    held.attemptFails attempt.block.mcs conditions.sinr attempt.number = .ok (failed, drawn) ∧
    Ends drawn attempt.block attempt.number failed attempt.outcome next.harq ∧
    value = if failed then 0 else attempt.block.bits

/-- A grant comes to what its attempt is worth exactly if the block is understood. -/
theorem value_of_conclude {link next : Link} {attempt : Attempt} {value : UInt64}
    (h : link.conclude (some attempt) = .ok (value, next)) :
    (∃ block, attempt.outcome = .understood block) ∧ value = attempt.worth ∨
      (∀ block, attempt.outcome ≠ .understood block) ∧ value = 0 := by
  rcases attempt with ⟨block, number, worth, outcome⟩
  cases outcome with
  | understood understood =>
    simp only [conclude, bind_eq_ok_iff, pure_eq_ok_iff] at h
    obtain ⟨_, -, heq⟩ := h
    cases heq
    exact .inl ⟨⟨understood, rfl⟩, rfl⟩
  | waits =>
    cases h
    exact .inr ⟨by simp, rfl⟩
  | givenUp exhausted =>
    simp only [conclude, bind_eq_ok_iff, pure_eq_ok_iff] at h
    obtain ⟨_, -, heq⟩ := h
    cases heq
    exact .inr ⟨by simp, rfl⟩

theorem value_of_conclude_ofRepetition {link next : Link} {block : TransportBlock} {number : UInt32}
    {worth value : UInt64} {repetition : Repetition}
    (h : link.conclude (some { block, number, worth, outcome := .ofRepetition repetition }) =
      .ok (value, next)) : value = 0 := by
  rcases value_of_conclude h with ⟨⟨block, houtcome⟩, -⟩ | ⟨-, hvalue⟩
  · cases repetition <;> cases houtcome
  · exact hvalue

theorem spent_of_againStep {link middle next : Link} {harq : Harq} {block : TransportBlock}
    {bits : UInt64} {conditions : LinkConditions} {attempt : Attempt} {value : UInt64}
    (htake : link.harq.takeReady? = (some block, harq))
    (hagain : { link with harq }.AgainStep block conditions attempt middle)
    (hconclude : middle.conclude (some attempt) = .ok (value, next)) :
    link.Spent bits conditions attempt value next := by
  obtain ⟨lost, egress, rfl⟩ := eq_of_conclude_eq_ok hconclude
  have hcount {number : UInt32} (hnumber : Word.add32 block.retransmissions 1 = .ok number) :
      number.toNat = block.retransmissions.toNat + 1 := Word.toNat_of_add32_eq_ok hnumber
  cases hagain with
  | understood hnumber hdraw =>
    refine ⟨harq, false, _, .again htake (hcount hnumber), hdraw, .understood, ?_⟩
    rcases value_of_conclude hconclude with ⟨-, hvalue⟩ | ⟨hnone, -⟩
    · exact hvalue
    · exact absurd rfl (hnone block)
  | failed hnumber hdraw hfailed =>
    exact ⟨harq, true, _, .again htake (hcount hnumber), hdraw,
      .failed (Harq.counted_of_repetitionFailed (hcount hnumber) hfailed),
      value_of_conclude_ofRepetition hconclude⟩

/-- The block of a fresh attempt is numbered and counted. -/
theorem turn_of_drain {link : Link} {bits nextBlock worth : UInt64} {conditions : LinkConditions}
    {buffer : TransmitBuffer} {block : TransportBlock} (hidle : link.harq.isReady = false)
    (hnext : Word.add64 link.nextBlock 1 = .ok nextBlock)
    (hdrain : link.buffer.drain bits
      (.empty link.nextBlock link.now conditions.mcs conditions.distance link.backhaul) =
        .ok (worth, buffer, block)) :
    link.Turn bits block 0 link.harq nextBlock ∧ block.retransmissions = 0 ∧ block.mcs = conditions.mcs ∧
      worth = block.bits := by
  obtain ⟨left, parts, hfilled, hworth, -, -⟩ := TransmitBuffer.filled_of_drain hdrain
  have htally : block.bits.toNat = Packet.totalBits parts := hfilled.tally.trans (Nat.zero_add _)
  have hcount : block.retransmissions = 0 := congrArg TransportBlock.retransmissions hfilled.shell
  refine ⟨.fresh hidle (congrArg TransportBlock.number hfilled.shell) hcount ?_
    (Word.toNat_of_add64_eq_ok hnext), hcount, congrArg TransportBlock.mcs hfilled.shell,
    UInt64.toNat_inj.1 (hworth.trans htally.symm)⟩
  have hmoved := hfilled.moved
  rw [UInt64.le_iff_toNat_le]
  omega

theorem spent_of_freshStep {link middle next : Link} {bits : UInt64} {conditions : LinkConditions}
    {attempt : Attempt} {value : UInt64} (hidle : link.harq.isReady = false)
    (hfresh : link.FreshStep bits conditions attempt middle)
    (hconclude : middle.conclude (some attempt) = .ok (value, next)) :
    link.Spent bits conditions attempt value next := by
  obtain ⟨lost, egress, rfl⟩ := eq_of_conclude_eq_ok hconclude
  cases hfresh with
  | @understood nextBlock worth buffer block drawn hnext hdrain hdraw =>
    obtain ⟨hturn, hcount, hmcs, hworth⟩ := turn_of_drain hidle hnext hdrain
    rw [← hmcs] at hdraw
    refine ⟨link.harq, false, drawn, hturn, hdraw, .understood, ?_⟩
    rcases value_of_conclude hconclude with ⟨-, hvalue⟩ | ⟨hnone, -⟩
    · exact hvalue.trans hworth
    · exact absurd rfl (hnone block)
  | @failed nextBlock worth buffer block drawn last repetition hnext hdrain hdraw hfailed =>
    obtain ⟨hturn, hcount, hmcs, -⟩ := turn_of_drain hidle hnext hdrain
    rw [← hmcs] at hdraw
    exact ⟨link.harq, true, drawn, hturn, hdraw, .failed (Harq.counted_of_firstFailed hcount hfailed),
      value_of_conclude_ofRepetition hconclude⟩

/-- A grant is spent on one attempt, or nothing is to be transmitted and the link stays as it is. -/
theorem spent_of_spend {link next : Link} {bits value : UInt64} {conditions : LinkConditions}
    (h : link.spend bits conditions = .ok (value, next)) :
    link.grantEvents bits conditions = [] ∧ link.harq.isReady = false ∧ value = 0 ∧ next = link ∨
      ∃ attempt, link.grantEvents bits conditions = [.attempted attempt] ∧
        link.Spent bits conditions attempt value next := by
  rw [spend_eq, bind_eq_ok_iff] at h
  obtain ⟨⟨attempt, middle⟩, hattempt, hconclude⟩ := h
  simp only [grantEvents, hattempt]
  cases attemptStep_of_attempt? hattempt with
  | idle hnone =>
    cases hconclude
    exact .inl ⟨rfl, (Harq.takeReady?_eq_none_iff _).1 hnone, rfl, rfl⟩
  | again htake hagain => exact .inr ⟨_, rfl, spent_of_againStep htake hagain hconclude⟩
  | fresh hnone hbits hdata hfresh =>
    exact .inr ⟨_, rfl, spent_of_freshStep ((Harq.takeReady?_eq_none_iff _).1 hnone) hfresh hconclude⟩

/-! ## How an attempt ends -/

theorem Ends.now_config {harq next : Harq} {block : TransportBlock} {number : UInt32} {failed : Bool}
    {outcome : Outcome} (h : Ends harq block number failed outcome next) :
    next.now = harq.now ∧ next.config = harq.config := by
  cases h with
  | understood => exact ⟨rfl, rfl⟩
  | failed hcounted =>
    cases hcounted with
    | waits hload hcount hless hdue hqueue hconfig hnow => exact ⟨hnow, hconfig⟩
    | givenUp hload hcount hmost => exact ⟨rfl, rfl⟩

/-- What waits after an attempt waited before it, or it is the block of the attempt. -/
theorem Ends.mem_queue {harq next : Harq} {block : TransportBlock} {number : UInt32} {failed : Bool}
    {outcome : Outcome} (h : Ends harq block number failed outcome next) {waiting : TransportBlock}
    (hwaiting : waiting ∈ next.queue.items) :
    waiting ∈ harq.queue.items ∨ outcome = .waits ∧ waiting.SameLoad block ∧
      waiting.retransmissions = number ∧ number < harq.config.maxRetransmissions ∧
      ∃ distance stream, waiting.dueAt = harq.now + (Harq.ackDelay harq.config distance stream).1 := by
  cases h with
  | understood => exact .inl hwaiting
  | failed hcounted =>
    cases hcounted with
    | givenUp hload hcount hmost => exact .inl hwaiting
    | waits hload hcount hless hdue hqueue hconfig hnow =>
      rcases List.mem_cons.1 (hqueue.mem_iff.1 hwaiting) with rfl | hold
      · exact .inr ⟨rfl, hload, hcount, hless, hdue⟩
      · exact .inl hold

/-! ## Calls -/

/-- A call attempts nothing and leaves the queue of repetitions as it is, and what it admits enters the
buffer. -/
structure Kept (link : Link) (events : List Event) (next : Link) : Prop where
  nothing : attempts events = []
  nextBlock : next.nextBlock = link.nextBlock
  harq : next.harq = link.harq
  enters : link.buffer.Enters (admitted events) next.buffer

theorem Kept.trans {link middle next : Link} {events more : List Event} (h : link.Kept events middle)
    (hmore : middle.Kept more next) : link.Kept (events ++ more) next := by
  refine ⟨?_, hmore.nextBlock.trans h.nextBlock, hmore.harq.trans h.harq, ?_⟩
  · rw [attempts_append, h.nothing, hmore.nothing, List.append_nil]
  · rw [admitted_append]
    exact h.enters.trans hmore.enters

theorem kept_of_attach {link next : Link} {events : List Event}
    (h : link.act .attach = .ok (events, next)) : link.Kept events next := by
  simp only [act] at h
  split at h <;> cases h
  · rename_i hattach
    unfold attach at hattach
    split at hattach <;> cases hattach
    exact ⟨rfl, rfl, rfl, enters_nil rfl rfl rfl⟩
  · exact ⟨rfl, rfl, rfl, enters_nil rfl rfl rfl⟩

theorem kept_of_submit {link next : Link} {captured : CapturedPacket} {events : List Event}
    (h : link.act (.submit captured) = .ok (events, next)) : link.Kept events next := by
  simp only [act] at h
  split at h <;> cases h
  · rename_i hsubmit
    unfold submit at hsubmit
    split at hsubmit
    · cases hsubmit
    · simp only [bind_eq_ok_iff, pure_eq_ok_iff] at hsubmit
      obtain ⟨bridge, -, rfl⟩ := hsubmit
      exact ⟨rfl, rfl, rfl, enters_nil rfl rfl rfl⟩
  · exact ⟨rfl, rfl, rfl, enters_nil rfl rfl rfl⟩

theorem kept_of_takeVerdicts {link next : Link} {events : List Event}
    (h : link.act .takeVerdicts = .ok (events, next)) : link.Kept events next := by
  simp only [act, takeVerdicts] at h
  cases h
  cases link.bridge <;> exact ⟨rfl, rfl, rfl, enters_nil rfl rfl rfl⟩

theorem kept_of_dropCollaborator {link next : Link} {events : List Event}
    (h : link.act .dropCollaborator = .ok (events, next)) : link.Kept events next := by
  cases h
  exact ⟨rfl, rfl, rfl, enters_nil rfl rfl rfl⟩

theorem kept_of_ingestPacket {link next : Link} {captured : CapturedPacket} {fits : Bool}
    (h : link.ingestPacket captured = .ok (fits, next)) :
    link.Kept [captureEvent (packetOf captured link.backhaul) fits] next := by
  simp only [ingestPacket, bind_eq_ok_iff] at h
  obtain ⟨⟨result, buffer⟩, haccept, h⟩ := h
  have henters := enters_of_accept haccept
  cases result with
  | error reason =>
    simp only [bind_eq_ok_iff, pure_eq_ok_iff] at h
    obtain ⟨egress, -, heq⟩ := h
    cases heq
    exact ⟨rfl, rfl, rfl, henters⟩
  | ok _ =>
    cases h
    exact ⟨rfl, rfl, rfl, henters⟩

theorem kept_of_ingestAll {link next : Link} {waiting : List CapturedPacket} {admitted : Nat}
    (h : link.ingestAll waiting = .ok (admitted, next)) : link.Kept (link.captureEvents waiting) next := by
  induction waiting generalizing link admitted with
  | nil =>
    cases h
    exact ⟨rfl, rfl, rfl, enters_nil rfl rfl rfl⟩
  | cons captured waiting ih =>
    simp only [ingestAll, bind_eq_ok_iff, pure_eq_ok_iff] at h
    obtain ⟨⟨fits, middle⟩, hfirst, ⟨later, last⟩, hrest, heq⟩ := h
    cases heq
    simp only [captureEvents, hfirst]
    exact (kept_of_ingestPacket hfirst).trans (ih hrest)

theorem kept_of_ingest {link next : Link} {events : List Event}
    (h : link.act .ingest = .ok (events, next)) : link.Kept events next := by
  simp only [act, bind_eq_ok_iff, pure_eq_ok_iff] at h
  obtain ⟨⟨admitted, _⟩, hingest, heq⟩ := h
  cases heq
  unfold ingest at hingest
  unfold ingestEvents
  cases hbridge : link.bridge with
  | none =>
    simp only [hbridge] at hingest
    cases hingest
    exact ⟨rfl, rfl, rfl, enters_nil rfl rfl rfl⟩
  | some bridge =>
    simp only [hbridge] at hingest
    obtain ⟨hnone, hblocks, hharq, henters⟩ := kept_of_ingestAll hingest
    exact ⟨hnone, hblocks, hharq, henters⟩

theorem kept_of_generate {link next : Link} {bits size : UInt64} {events : List Event}
    (h : link.act (.generate bits size) = .ok (events, next)) : link.Kept events next := by
  simp only [act, generate, bind_eq_ok_iff, pure_eq_ok_iff] at h
  obtain ⟨⟨_, _⟩, ⟨⟨result, buffer⟩, hbuffer, heq⟩, hevents⟩ := h
  cases heq
  cases hevents
  cases result with
  | ok count =>
    refine ⟨attempts_map_admitted _, rfl, rfl, ?_⟩
    rw [generateEvents, admitted_map_admitted]
    exact enters_of_generate hbuffer
  | error reason =>
    cases reason <;> exact ⟨rfl, rfl, rfl, enters_of_refusal hbuffer⟩

theorem kept_of_release {link next : Link} {events : List Event}
    (h : link.act .release = .ok (events, next)) : link.Kept events next := by
  simp only [act, release, bind_eq_ok_iff, pure_eq_ok_iff] at h
  obtain ⟨⟨departure, _⟩, ⟨⟨_, egress⟩, -, heq⟩, hevents⟩ := h
  cases heq
  cases hevents
  exact ⟨rfl, rfl, rfl, enters_nil rfl rfl rfl⟩

/-- A call is a grant that is spent on an attempt, or it attempts nothing and leaves the queue as it is,
the time apart. -/
theorem spent_or_kept_of_act {link next : Link} {call : Call} {events : List Event}
    (h : link.act call = .ok (events, next)) :
    (∃ bits conditions attempt value, call = .grant bits conditions ∧ events = [.attempted attempt] ∧
      link.grantEvents bits conditions = [.attempted attempt] ∧
      link.Spent bits conditions attempt value next) ∨
    attempts events = [] ∧ next.nextBlock = link.nextBlock ∧
      (next.harq = link.harq ∨ ∃ now, call = .step now ∧ next.harq = link.harq.step now) := by
  have hkeeps (hkept : link.Kept events next) : attempts events = [] ∧ next.nextBlock = link.nextBlock ∧
      (next.harq = link.harq ∨ ∃ now, call = .step now ∧ next.harq = link.harq.step now) :=
    ⟨hkept.nothing, hkept.nextBlock, .inl hkept.harq⟩
  cases call with
  | step now =>
    cases h
    exact .inr ⟨rfl, rfl, .inr ⟨now, rfl, rfl⟩⟩
  | attach => exact .inr (hkeeps (kept_of_attach h))
  | submit captured => exact .inr (hkeeps (kept_of_submit h))
  | takeVerdicts => exact .inr (hkeeps (kept_of_takeVerdicts h))
  | dropCollaborator => exact .inr (hkeeps (kept_of_dropCollaborator h))
  | ingest => exact .inr (hkeeps (kept_of_ingest h))
  | generate bits size => exact .inr (hkeeps (kept_of_generate h))
  | grant bits conditions =>
    simp only [act, bind_eq_ok_iff, pure_eq_ok_iff] at h
    obtain ⟨⟨value, _⟩, hspend, heq⟩ := h
    cases heq
    rcases spent_of_spend hspend with ⟨hnone, -, -, rfl⟩ | ⟨attempt, hevents, hspent⟩
    · exact .inr ⟨congrArg attempts hnone, rfl, .inl rfl⟩
    · exact .inl ⟨bits, conditions, attempt, value, rfl, hevents, hevents, hspent⟩
  | release => exact .inr (hkeeps (kept_of_release h))

end RadioAccess.Link
