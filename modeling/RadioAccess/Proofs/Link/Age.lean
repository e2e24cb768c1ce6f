import RadioAccess.Proofs.Harq.Repetition
import RadioAccess.Proofs.Link.Traffic
import RadioAccess.Proofs.TransmitBuffer.Age

/-!
# The Age of Waiting Data

The scheduler ranks users by what their links report as the time of the oldest waiting data.  While no
repetition is due, this is the creation time of the packet in front of the buffer, and nothing that waits is
older.  While one is due, it is the time at which the block was filled; its packets may have waited long
before that, as may those that it left in the buffer.  So the reading bounds the age of all waiting data
exactly if the block was filled no later than its recorded ingress (`oldestTimestamp_bounds_age_iff`).  That
ingress is a bound in any case.

The invariant compares with the traffic that is yet to come: what is held was created no later than any of
it, so that new packets are always the youngest.
-/

namespace RadioAccess

open Packet (Split IsDated Chronological)

/-- What holds of all waiting blocks, and of one that failed whatever its due time, still holds if that one
waits too. -/
theorem Harq.forall_queue_of_decided {P : TransportBlock → Prop} {harq next : Harq} {block : TransportBlock}
    {distance : Float} {enough : Prop} {repetition : Repetition}
    (h : Decided harq block distance enough repetition next)
    (hqueue : ∀ waiting ∈ harq.queue.items, P waiting) (hblock : ∀ dueAt, P { block with distance, dueAt }) :
    ∀ waiting ∈ next.queue.items, P waiting := by
  cases h with
  | givenUp => exact hqueue
  | waits _ hschedule =>
    obtain ⟨retransmittedBits, -, rfl⟩ := eq_of_schedule hschedule
    intro waiting hwaiting
    rcases List.mem_cons.1 ((perm_insertByDue _ _).mem_iff.1 hwaiting) with rfl | hold
    · exact hblock _
    · exact hqueue waiting hold

namespace Link

/-- The times at which traffic is asked for, from `now` on. -/
def generateTimes (now : Float) : List Call → List Float
  | [] => []
  | .step time :: calls => generateTimes time calls
  | .generate _ _ :: calls => now :: generateTimes now calls
  | _ :: calls => generateTimes now calls

/-- The data that waits for a grant: the packets of the block whose repetition is due, and those of the
buffer. -/
def awaiting (link : Link) : List Packet :=
  link.harq.takeReady?.1.toList.flatMap (·.packets.toList) ++ link.buffer.packets.toList

/-! ## What ages keep -/

/-- A block whose recorded ingress is no later than its packets, the waiting ones and what is yet to come. -/
structure Leads (future : List Float) (waiting : List Packet) (block : TransportBlock) : Prop where
  heads : block.Heads waiting
  past : ∀ time ∈ future, block.oldestIngress ≤ time

/-- Packets wait in the order of their creation, no later than the traffic that is yet to come, and behind
every block of the queue. -/
structure Aged (future : List Float) (waiting : List Packet) (queue : List TransportBlock) : Prop where
  dated : ∀ packet ∈ waiting, packet.IsDated
  ordered : Chronological waiting
  early : ∀ packet ∈ waiting, ∀ time ∈ future, packet.createdAt ≤ time
  queued : ∀ block ∈ queue, Leads future waiting block

theorem Leads.later {now : Float} {future : List Float} {waiting : List Packet} {block : TransportBlock}
    (h : Leads (now :: future) waiting block) : Leads future waiting block :=
  ⟨h.heads, fun time htime ↦ h.past time (List.mem_cons_of_mem _ htime)⟩

namespace Aged

variable {future : List Float} {now : Float} {waiting parts rest packets : List Packet}
  {queue : List TransportBlock} {block : TransportBlock}

theorem nil (future : List Float) : Aged future [] [] where
  dated := by simp
  ordered := List.Pairwise.nil
  early := by simp
  queued := by simp

/-- A request that is refused leaves less to come. -/
theorem refuse (h : Aged (now :: future) waiting queue) : Aged future waiting queue where
  dated := h.dated
  ordered := h.ordered
  early packet hpacket time htime := h.early packet hpacket time (List.mem_cons_of_mem _ htime)
  queued other hother := (h.queued other hother).later

/-- Packets that are created now are the youngest. -/
theorem enter (h : Aged (now :: future) waiting queue) (hnow : now.isNaN = false)
    (hfuture : ∀ time ∈ future, now ≤ time)
    (hpackets : ∀ packet ∈ packets, packet.ingressAt = now ∧ packet.createdAt = now) :
    Aged future (waiting ++ packets) queue where
  dated := by
    refine List.forall_mem_append.2 ⟨h.dated, fun packet hpacket ↦ ?_⟩
    obtain ⟨hingress, hcreated⟩ := hpackets packet hpacket
    exact ⟨hingress.trans hcreated.symm, hcreated ▸ hnow⟩
  ordered := by
    refine List.pairwise_append.2 ⟨h.ordered, List.pairwise_of_forall_mem_list fun a ha b hb ↦ ?_,
      fun old hold packet hpacket ↦ ?_⟩
    · rw [(hpackets a ha).2, (hpackets b hb).2]
      exact Real64.le_refl hnow
    · rw [(hpackets packet hpacket).2]
      exact h.early old hold now List.mem_cons_self
  early := by
    refine List.forall_mem_append.2 ⟨h.refuse.early, fun packet hpacket time htime ↦ ?_⟩
    rw [(hpackets packet hpacket).2]
    exact hfuture time htime
  queued := by
    intro other hother
    obtain ⟨⟨hattained, hleast⟩, hpast⟩ := h.queued other hother
    refine ⟨⟨hattained, ?_⟩, (h.queued other hother).later.past⟩
    rw [← List.append_assoc]
    refine List.forall_mem_append.2 ⟨hleast, fun packet hpacket ↦ ?_⟩
    rw [(hpackets packet hpacket).2]
    exact hpast now List.mem_cons_self

/-- A block that is filled from the front leads what it leaves. -/
theorem fill (h : Aged future waiting queue) (hsplit : Split waiting block.packets.toList rest)
    (hheads : block.Heads rest) : Aged future rest queue ∧ Leads future rest block := by
  have hpiece : ∀ part ∈ block.packets.toList ++ rest,
      ∃ packet ∈ waiting, part.createdAt = packet.createdAt := by
    intro part hpart
    obtain ⟨packet, hpacket, horigin⟩ := hsplit.exists_origin hpart
    exact ⟨packet, hpacket, Packet.createdAt_of_origin horigin.symm⟩
  have hearly : ∀ part ∈ block.packets.toList ++ rest, ∀ time ∈ future, part.createdAt ≤ time := by
    intro part hpart time htime
    obtain ⟨packet, hpacket, hsame⟩ := hpiece part hpart
    exact hsame ▸ h.early packet hpacket time htime
  have hdated := List.forall_mem_append.1 (hsplit.isDated h.dated)
  have hordered := List.pairwise_append.1 (hsplit.chronological h.dated h.ordered)
  refine ⟨⟨hdated.2, hordered.2.1, (List.forall_mem_append.1 hearly).2, fun other hother ↦ ?_⟩,
    hheads, ?_⟩
  · obtain ⟨⟨hattained, hleast⟩, hpast⟩ := h.queued other hother
    obtain ⟨hown, hbehind⟩ := List.forall_mem_append.1 hleast
    refine ⟨⟨hattained, List.forall_mem_append.2 ⟨hown, fun part hpart ↦ ?_⟩⟩, hpast⟩
    obtain ⟨packet, hpacket, hsame⟩ := hpiece part (List.mem_append_right _ hpart)
    exact hsame ▸ hbehind packet hpacket
  · intro time htime
    obtain ⟨oldest, hold, hoccurs⟩ := hheads.attained
    exact hoccurs ▸ hearly oldest (List.mem_append_left _ hold) time htime

/-- A block that failed may wait among the others. -/
theorem decide {harq next : Harq} {distance : Float} {enough : Prop} {repetition : Repetition}
    (h : Aged future waiting harq.queue.items) (hblock : Leads future waiting block)
    (hdecided : harq.Decided block distance enough repetition next) :
    Aged future waiting next.queue.items where
  dated := h.dated
  ordered := h.ordered
  early := h.early
  queued := Harq.forall_queue_of_decided hdecided h.queued fun _ ↦
    ⟨⟨hblock.heads.attained, hblock.heads.least⟩, hblock.past⟩

end Aged

/-! ## Calls and runs -/

section Calls

variable {link next : Link} {future : List Float} {bits worth : UInt64} {conditions : LinkConditions}
  {attempt : Attempt} {block : TransportBlock}

/-- What the buffer and the queue of a link hold is aged. -/
def IsAged (future : List Float) (link : Link) : Prop :=
  Aged future link.buffer.packets.toList link.harq.queue.items

theorem IsAged.again (h : link.IsAged future) (hblock : Leads future link.buffer.packets.toList block)
    (hagain : link.AgainStep block conditions attempt next) : next.IsAged future := by
  cases hagain with
  | understood _ hdraw =>
    rw [IsAged, Harq.queue_of_attemptFails hdraw]
    exact h
  | failed _ hdraw hfailed =>
    obtain ⟨repeated, hrepeated, hdecided⟩ := Harq.decided_of_repetitionFailed hfailed
    simp only [TransportBlock.repeated, bind_eq_ok_iff, pure_eq_ok_iff] at hrepeated
    obtain ⟨retransmissions, -, rfl⟩ := hrepeated
    rw [IsAged, ← Harq.queue_of_attemptFails hdraw] at h
    have hleads : Leads future link.buffer.packets.toList { block with retransmissions } :=
      ⟨⟨hblock.heads.attained, hblock.heads.least⟩, hblock.past⟩
    exact h.decide hleads hdecided

theorem IsAged.fresh (h : link.IsAged future) (hbits : bits ≠ 0) (hdata : link.buffer.hasData = true)
    (hfresh : link.FreshStep bits conditions attempt next) : next.IsAged future := by
  cases hfresh with
  | understood _ hdrain hdraw =>
    obtain ⟨hsplit, hheads⟩ := TransmitBuffer.heads_of_drain rfl h.dated h.ordered hbits hdata hdrain
    rw [IsAged, Harq.queue_of_attemptFails hdraw]
    exact (h.fill hsplit hheads).1
  | failed _ hdrain hdraw hfailed =>
    obtain ⟨hsplit, hheads⟩ := TransmitBuffer.heads_of_drain rfl h.dated h.ordered hbits hdata hdrain
    obtain ⟨hrest, hleads⟩ := h.fill hsplit hheads
    rw [← Harq.queue_of_attemptFails hdraw] at hrest
    exact hrest.decide hleads (Harq.decided_of_firstFailed hfailed)

theorem IsAged.attempted {made : Option Attempt} (h : link.IsAged future)
    (hattempt : link.AttemptStep bits conditions made next) : next.IsAged future := by
  cases hattempt with
  | idle => exact h
  | @again block held attempt next htake hagain =>
    obtain ⟨-, hqueue, -⟩ := Harq.eq_of_takeReady? htake
    obtain ⟨hblock, hqueued⟩ := List.forall_mem_cons.1 (hqueue ▸ h.queued)
    have hheld : IsAged future { link with harq := held } := ⟨h.dated, h.ordered, h.early, hqueued⟩
    exact hheld.again hblock hagain
  | fresh _ hbits hdata hfresh => exact h.fresh hbits hdata hfresh

theorem IsAged.spend (h : link.IsAged future) (hspend : link.spend bits conditions = .ok (worth, next)) :
    next.IsAged future := by
  rw [spend_eq, bind_eq_ok_iff] at hspend
  obtain ⟨⟨made, middle⟩, hattempt, hconclude⟩ := hspend
  have hmiddle : middle.IsAged future := h.attempted (attemptStep_of_attempt? hattempt)
  obtain ⟨lost, egress, rfl⟩ := eq_of_conclude_eq_ok hconclude
  exact hmiddle

theorem IsAged.generate {size : UInt64} {result : Except AdmissionError Nat}
    (h : link.IsAged (link.now :: future)) (hnow : link.now.isNaN = false)
    (hfuture : ∀ time ∈ future, link.now ≤ time) (hgenerate : link.generate bits size = .ok (result, next)) :
    next.IsAged future := by
  simp only [Link.generate, bind_eq_ok_iff, pure_eq_ok_iff] at hgenerate
  obtain ⟨⟨_, buffer⟩, hbuffer, heq⟩ := hgenerate
  cases heq
  rcases TransmitBuffer.eq_of_generate hbuffer with ⟨-, -, -, hadmitted⟩ | ⟨-, rfl⟩ | ⟨-, rfl⟩
  · rw [IsAged, hadmitted.packets]
    exact h.enter hnow hfuture fun packet hpacket ↦ TransmitBuffer.times_of_mem_segments hpacket
  · exact h.refuse
  · exact h.refuse

/-- A run of a link that generates its own traffic at times that do not go back keeps ages in order. -/
theorem IsAged.run {after : Link} {calls : List Call} {journal : List Event}
    (h : link.IsAged (generateTimes link.now calls)) (hcalls : ∀ call ∈ calls, call.isTraffic = true)
    (hnumbers : ∀ time ∈ generateTimes link.now calls, time.isNaN = false)
    (hordered : (generateTimes link.now calls).Pairwise (· ≤ ·))
    (hrun : link.run calls = .ok (journal, after)) : after.IsAged [] := by
  induction calls generalizing link journal with
  | nil =>
    cases hrun
    exact h
  | cons call calls ih =>
    obtain ⟨hcall, hrest⟩ := List.forall_mem_cons.1 hcalls
    obtain ⟨events, next, later, hact, hlater, rfl⟩ := run_cons_eq_ok_iff.1 hrun
    -- Only a step moves the time, so after any other call traffic is asked for as it was to be.
    have hkept (hnow : next.now = link.now) (hnext : next.IsAged (generateTimes link.now calls))
        (hnumbers : ∀ time ∈ generateTimes link.now calls, time.isNaN = false)
        (hordered : (generateTimes link.now calls).Pairwise (· ≤ ·)) : after.IsAged [] := by
      rw [← hnow] at hnext hnumbers hordered
      exact ih hnext hrest hnumbers hordered hlater
    cases trafficStep_of_act hcall hact with
    | step now => exact ih h hrest hnumbers hordered hlater
    | generate hgenerate =>
      obtain ⟨hnumber, hnumbers⟩ := List.forall_mem_cons.1 hnumbers
      obtain ⟨hfirst, hordered⟩ := List.pairwise_cons.1 hordered
      refine hkept ?_ (h.generate hnumber hfirst hgenerate) hnumbers hordered
      simp only [Link.generate, bind_eq_ok_iff, pure_eq_ok_iff] at hgenerate
      obtain ⟨_, -, heq⟩ := hgenerate
      cases heq
      rfl
    | grant hspend =>
      refine hkept ?_ (h.spend hspend) hnumbers hordered
      obtain ⟨harq, buffer, egress, nextBlock, rfl, -⟩ := eq_of_spend hspend
      rfl
    | release hrelease => exact hkept rfl h hnumbers hordered

end Calls

/-! ## The reading -/

section Reading

variable {link : Link} {block : TransportBlock}

theorem isReady_of_takeReady? {held : Harq} (htake : link.harq.takeReady? = (some block, held)) :
    link.harq.isReady = true := by
  rw [← Bool.not_eq_false, ← Harq.takeReady?_eq_none_iff, htake]
  exact fun heq ↦ nomatch congrArg Prod.fst heq

/-- While a repetition is due, its block is what the reading is about. -/
theorem oldestTimestamp_of_takeReady? {held : Harq} (htake : link.harq.takeReady? = (some block, held)) :
    link.oldestTimestamp = block.createdAt := by
  have hqueue := (Harq.eq_of_takeReady? htake).2.1
  rw [oldestTimestamp, if_pos (isReady_of_takeReady? htake), Harq.oldestTimestamp, ← Ring.head?_items, hqueue]
  rfl

/-- While no repetition is due, the packet in front of the buffer is the oldest. -/
theorem IsAged.oldestTimestamp_le {future : List Float} (h : link.IsAged future)
    (hidle : link.harq.isReady = false) :
    ∀ packet ∈ link.buffer.packets.toList, link.oldestTimestamp ≤ packet.createdAt := by
  intro packet hpacket
  have hdata := (TransmitBuffer.hasData_iff _).2 (List.ne_nil_of_mem hpacket)
  rw [oldestTimestamp, if_neg (by simp [hidle]), if_pos hdata, TransmitBuffer.oldestTimestamp,
    Fifo.head?_eq_head?_toList]
  obtain ⟨hdated, hordered, -, -⟩ := h
  cases hwaiting : link.buffer.packets.toList with
  | nil =>
    rw [hwaiting] at hpacket
    cases hpacket
  | cons first rest =>
    rw [hwaiting] at hpacket hdated hordered
    rcases List.mem_cons.1 hpacket with rfl | hbehind
    · exact Real64.le_refl (hdated packet List.mem_cons_self).number
    · exact (List.pairwise_cons.1 hordered).1 packet hbehind

end Reading

/-- After any run of a link on which traffic is generated at times that do not go back, whatever the grants and
their outcomes, the reading of the oldest time bounds the age of all data waiting for a grant if and only if
no repetition is due of a block that was filled later than its oldest packet was created.  So it does whenever
no repetition is due.  If one is due, the reading is the time at which the block was filled; the ingress that
the block records is the creation time of one of its packets, and no waiting data was created before it. -/
theorem oldestTimestamp_bounds_age_iff {direction : Direction} {config : LinkConfig} {profile : LinkProfile}
    {model : ErrorModel} {seed : UInt64} {calls : List Call} {journal : List Event} {after : Link}
    (hcalls : ∀ call ∈ calls, call.isTraffic = true)
    (hnumbers : ∀ time ∈ generateTimes 0.0 calls, time.isNaN = false)
    (hordered : (generateTimes 0.0 calls).Pairwise (· ≤ ·))
    (h : (idle direction config profile model seed).run calls = .ok (journal, after)) :
    ((∀ packet ∈ after.awaiting, after.oldestTimestamp ≤ packet.createdAt) ↔
      ∀ block ∈ after.harq.takeReady?.1, block.createdAt ≤ block.oldestIngress) ∧
    ∀ block ∈ after.harq.takeReady?.1, after.oldestTimestamp = block.createdAt ∧
      (∃ packet ∈ block.packets.toList, packet.createdAt = block.oldestIngress) ∧
      ∀ packet ∈ after.awaiting, block.oldestIngress ≤ packet.createdAt := by
  have hstart : (idle direction config profile model seed).IsAged (generateTimes 0.0 calls) := Aged.nil _
  have haged := hstart.run hcalls hnumbers hordered h
  rcases htake : after.harq.takeReady? with ⟨_ | block, held⟩
  · have hnone := htake
    rw [Harq.eq_of_takeReady?_none htake, Harq.takeReady?_eq_none_iff] at hnone
    refine ⟨iff_of_true (fun packet hpacket ↦ ?_) (by simp), by simp⟩
    rw [awaiting, htake] at hpacket
    exact haged.oldestTimestamp_le hnone packet hpacket
  · have hreading := oldestTimestamp_of_takeReady? htake
    have hfirst : block ∈ after.harq.queue.items := by simp [(Harq.eq_of_takeReady? htake).2.1]
    obtain ⟨⟨hattained, hleast⟩, -⟩ := haged.queued block hfirst
    have hawaiting : after.awaiting = block.packets.toList ++ after.buffer.packets.toList := by
      simp [awaiting, htake]
    simp only [Option.mem_some_iff, forall_eq', hawaiting, hreading, true_and]
    refine ⟨⟨fun hbound ↦ ?_, fun hbound packet hpacket ↦ ?_⟩, hattained, hleast⟩
    · obtain ⟨oldest, hold, hoccurs⟩ := hattained
      exact hoccurs ▸ hbound oldest (List.mem_append_left _ hold)
    · exact Real64.le_trans hbound (hleast packet hpacket)

/-- The channel of the runs below. -/
def nearby : LinkConditions := { mcs := 10, sinr := 20.0, distance := 100.0 }

/-- A repetition is due of a block that was filled as its packet was created, and younger data waits. -/
theorem oldestTimestamp_bounds_age_iff_of_prompt_block :
    ∃ state,
      (idle .downlink .standard .standard (.flat 1.0) 1).run
        [.step 0.25, .generate 1000 1000, .grant 500 nearby, .step 0.5, .generate 300 100] = .ok state ∧
      state.2.harq.isReady = true ∧
      ∀ packet ∈ state.2.awaiting, state.2.oldestTimestamp ≤ packet.createdAt := by
  refine exists_ok_of_any
    (fun state ↦ state.2.harq.isReady &&
      state.2.harq.takeReady?.1.all fun block ↦ block.createdAt ≤ block.oldestIngress)
    (by decide +kernel) fun state hrun hend ↦ ?_
  rw [Bool.and_eq_true] at hend
  refine ⟨hend.1, (oldestTimestamp_bounds_age_iff (by simp [Call.isTraffic]) (by decide +kernel)
    (by decide +kernel) hrun).1.2 fun block hblock ↦ ?_⟩
  rw [Option.mem_def.1 hblock] at hend
  exact of_decide_eq_true hend.2

/-- A repetition is due of a block that was filled a while after its packet was created: the reading is later
than the creation of all that waits. -/
theorem oldestTimestamp_after_creation :
    ∃ state,
      (idle .downlink .standard .standard (.flat 1.0) 1).run
        [.step 0.0, .generate 1000 1000, .step 0.001, .grant 500 nearby, .step 0.1] = .ok state ∧
      state.2.hasData = true ∧
      ¬∀ packet ∈ state.2.awaiting, state.2.oldestTimestamp ≤ packet.createdAt := by
  refine exists_ok_of_any
    (fun state ↦ state.2.hasData && state.2.awaiting.any fun packet ↦
      !decide (state.2.oldestTimestamp ≤ packet.createdAt))
    (by decide +kernel) fun state hrun hend ↦ ?_
  rw [Bool.and_eq_true, List.any_eq_true] at hend
  obtain ⟨hdata, packet, hpacket, hlate⟩ := hend
  refine ⟨hdata, fun hbound ↦ ?_⟩
  rw [Bool.not_eq_true', decide_eq_false_iff_not] at hlate
  exact hlate (hbound packet hpacket)

end Link

end RadioAccess
