import RadioAccess.Proofs.Egress.Run
import RadioAccess.Proofs.Link.Run

/-!
# Conservation of Bits on a Link

Between the stages of a link bits are cut out of packets, put into blocks, repeated, understood and given
up, but none is lost or duplicated.  Every block is in exactly one place, the far end learns of exactly
the blocks that were understood or given up and of the captured packets that did not fit, and what counts
as lost is counted once.
-/

namespace RadioAccess.Link

open Packet (Split bitsUnder origin stream stream_append)

/-! ## Readings of a journal -/

/-- The packet that an event admits. -/
def Event.admitted? : Event → Option Packet
  | admitted packet => some packet
  | _ => none

/-- The captured packet that an event turns away. -/
def Event.turnedAway? : Event → Option Packet
  | turnedAway packet => some packet
  | _ => none

/-- The block that is understood in an event. -/
def Event.understood? : Event → Option TransportBlock
  | attempted { outcome := .understood block, .. } => some block
  | _ => none

/-- The block that is given up in an event. -/
def Event.givenUp? : Event → Option TransportBlock
  | attempted { outcome := .givenUp block, .. } => some block
  | _ => none

/-- What the far end is told in an event. -/
def Event.farEnd? : Event → Option Egress.Call
  | stepped now => some (.step now)
  | turnedAway packet => some (.losePacket packet)
  | attempted { outcome := .understood block, .. } => some (.arrive block)
  | attempted { outcome := .givenUp block, .. } => some (.loseBlock block)
  | released _ => some .release
  | _ => none

/-- What is let go in an event. -/
def Event.departure? : Event → Option Departure
  | released departure => some departure
  | _ => none

/-- The count of lost bits after an event. -/
def Event.count (lost : RunningMean Float) : Event → RunningMean Float
  | stepped _ => lost.step
  | refused bits => lost.add bits.toFloat
  | turnedAway packet => lost.add packet.carried.toFloat
  | attempted { outcome := .givenUp block, .. } => lost.add block.bits.toFloat
  | _ => lost

/-- The packets that were admitted. -/
def admitted (journal : List Event) : List Packet := journal.filterMap Event.admitted?

/-- The captured packets that did not fit. -/
def turnedAway (journal : List Event) : List Packet := journal.filterMap Event.turnedAway?

/-- The blocks that were understood. -/
def understood (journal : List Event) : List TransportBlock := journal.filterMap Event.understood?

/-- The blocks that were given up. -/
def givenUp (journal : List Event) : List TransportBlock := journal.filterMap Event.givenUp?

/-- What blocks carry. -/
def cargo (blocks : List TransportBlock) : List Packet := blocks.flatMap (·.packets.toList)

theorem filterMap_concat {α β : Type} (f : α → Option β) (items : List α) (item : α) :
    (items ++ [item]).filterMap f = items.filterMap f ++ (f item).toList := by
  rw [List.filterMap_append]
  cases h : f item with
  | none => simp [h]
  | some b => simp [h]

theorem admitted_append (earlier later : List Event) :
    admitted (earlier ++ later) = admitted earlier ++ admitted later := List.filterMap_append

theorem admitted_concat (journal : List Event) (event : Event) :
    admitted (journal ++ [event]) = admitted journal ++ event.admitted?.toList :=
  filterMap_concat _ _ _

theorem admitted_map_admitted (packets : List Packet) : admitted (packets.map .admitted) = packets := by
  have hsome : Event.admitted? ∘ Event.admitted = some := funext fun packet ↦ rfl
  rw [admitted, List.filterMap_map, hsome, List.filterMap_some]

/-! ## Conservation -/

/-- Waiting packets and blocks hold exactly the bits that were admitted, in parts of the packets that
were admitted, and there is one block for each number that was used. -/
structure Conserved (admitted waiting : List Packet) (blocks : List TransportBlock) (nextBlock : Nat) :
    Prop where
  bits : (stream admitted).Perm (stream (waiting ++ cargo blocks))
  origins : ∀ part ∈ waiting ++ cargo blocks, ∃ packet ∈ admitted, packet.origin = part.origin
  numbers : (blocks.map (·.number.toNat)).Perm (List.range nextBlock)
  tallied : ∀ block ∈ blocks, block.IsTallied

namespace Conserved

variable {admitted waiting : List Packet} {blocks : List TransportBlock} {nextBlock : Nat}

theorem enter (h : Conserved admitted waiting blocks nextBlock) (packet : Packet) :
    Conserved (admitted ++ [packet]) (waiting ++ [packet]) blocks nextBlock := by
  refine ⟨?_, ?_, h.numbers, h.tallied⟩
  · rw [List.append_assoc, stream_append, stream_append]
    have hstream := h.bits
    rw [stream_append] at hstream
    have hswap : (stream waiting ++ stream (cargo blocks) ++ stream [packet]).Perm
        (stream waiting ++ stream ([packet] ++ cargo blocks)) := by
      rw [List.append_assoc, stream_append]
      exact List.perm_append_comm.append_left _
    exact (hstream.append_right _).trans hswap
  · intro part hpart
    by_cases hnew : part = packet
    · exact ⟨packet, by simp, by rw [hnew]⟩
    · obtain ⟨other, hother, horigin⟩ := h.origins part (by simpa [hnew] using hpart)
      exact ⟨other, List.mem_append_left _ hother, horigin⟩

/-- A block takes its bits from the waiting packets. -/
theorem form (h : Conserved admitted waiting blocks nextBlock) {block : TransportBlock}
    {rest : List Packet} (hsplit : Split waiting block.packets.toList rest) (htallied : block.IsTallied)
    (hnumber : block.number.toNat = nextBlock) :
    Conserved admitted rest (block :: blocks) (nextBlock + 1) := by
  refine ⟨?_, ?_, ?_, ?_⟩
  · have hstream := h.bits
    rw [stream_append, hsplit.stream_eq] at hstream
    have hswap : (stream block.packets.toList ++ stream rest ++ stream (cargo blocks)).Perm
        (stream rest ++ stream (block.packets.toList ++ cargo blocks)) := by
      rw [stream_append, ← List.append_assoc]
      exact List.perm_append_comm.append_right _
    rw [stream_append]
    exact hstream.trans hswap
  · intro part hpart
    rw [cargo, List.flatMap_cons] at hpart
    by_cases hpiece : part ∈ block.packets.toList ++ rest
    · obtain ⟨whole, hwhole, horigin⟩ := hsplit.exists_origin hpiece
      obtain ⟨packet, hpacket, hpacketorigin⟩ := h.origins whole (List.mem_append_left _ hwhole)
      exact ⟨packet, hpacket, hpacketorigin.trans horigin⟩
    · apply h.origins part
      simp only [List.mem_append, not_or] at hpart hpiece ⊢
      rcases hpart with hrest | hown | hother
      · exact absurd hrest hpiece.2
      · exact absurd hown hpiece.1
      · exact .inr hother
  · rw [List.map_cons, hnumber, List.range_succ]
    exact (h.numbers.cons _).trans (List.perm_append_singleton _ _).symm
  · intro other hother
    rcases List.mem_cons.1 hother with rfl | hother
    · exact htallied
    · exact h.tallied other hother

/-- Where the blocks are is of no concern. -/
theorem perm (h : Conserved admitted waiting blocks nextBlock) {others : List TransportBlock}
    (hperm : others.Perm blocks) : Conserved admitted waiting others nextBlock := by
  have hcargo : (cargo others).Perm (cargo blocks) := hperm.flatMap_right _
  refine ⟨?_, fun part hpart ↦ h.origins part ?_, (hperm.map _).trans h.numbers,
    fun block hblock ↦ h.tallied block (hperm.mem_iff.1 hblock)⟩
  · exact h.bits.trans ((hcargo.symm.append_left waiting).flatMap_right _)
  · exact (hcargo.append_left waiting).mem_iff.1 hpart

/-- Scheduling a block changes neither its number nor its load. -/
theorem sameLoad {block other : TransportBlock}
    (h : Conserved admitted waiting (block :: blocks) nextBlock) (hload : other.SameLoad block) :
    Conserved admitted waiting (other :: blocks) nextBlock := by
  have hcargo : cargo (other :: blocks) = cargo (block :: blocks) := by
    simp only [cargo, List.flatMap_cons, hload.packets]
  refine ⟨hcargo ▸ h.bits, hcargo ▸ h.origins, ?_, ?_⟩
  · have hnumbers := h.numbers
    rwa [List.map_cons, ← hload.number] at hnumbers
  · obtain ⟨hblock, hblocks⟩ := List.forall_mem_cons.1 h.tallied
    refine List.forall_mem_cons.2 ⟨?_, hblocks⟩
    rwa [TransportBlock.IsTallied, hload.bits, hload.packets]

end Conserved

/-- The blocks of a link: those that wait, those that were understood and those that were given up. -/
def blocks (journal : List Event) (queue : List TransportBlock) : List TransportBlock :=
  queue ++ understood journal ++ givenUp journal

theorem blocks_concat (journal : List Event) (event : Event) (queue : List TransportBlock) :
    blocks (journal ++ [event]) queue =
      queue ++ (understood journal ++ event.understood?.toList) ++
        (givenUp journal ++ event.givenUp?.toList) := by
  rw [blocks, understood, givenUp, filterMap_concat, filterMap_concat]
  rfl

theorem Takes.conserved {before held : View} {block : TransportBlock} (htakes : Takes before block held)
    {journal : List Event}
    (h : Conserved (admitted journal) before.waiting (blocks journal before.queue) before.nextBlock) :
    Conserved (admitted journal) held.waiting (block :: blocks journal held.queue) held.nextBlock := by
  cases htakes with
  | fresh hsplit htallied hnumber hshell => exact h.form hsplit htallied hnumber
  | again hqueue =>
    rw [hqueue] at h
    exact h

/-- The block of an attempt goes to one place. -/
theorem Goes.conserved {held after : View} {block : TransportBlock} {number : UInt32} {worth : UInt64}
    {outcome : Outcome} (hgoes : Goes held block outcome after) {journal : List Event}
    (h : Conserved (admitted journal) held.waiting (block :: blocks journal held.queue) held.nextBlock) :
    Conserved (admitted (journal ++ [.attempted { block, number, worth, outcome }])) after.waiting
      (blocks (journal ++ [.attempted { block, number, worth, outcome }]) after.queue)
      after.nextBlock := by
  rw [admitted_concat, blocks_concat]
  simp only [Event.admitted?, Event.understood?, Event.givenUp?, Option.toList_none, List.append_nil]
  rw [blocks] at h
  cases hgoes with
  | understood harrive =>
    apply h.perm
    rw [Option.toList_some, Option.toList_none, List.append_nil, ← List.append_assoc, List.append_assoc]
    exact List.perm_middle
  | waits hload hqueue =>
    apply (h.sameLoad hload).perm
    rw [Option.toList_none, List.append_nil, List.append_nil]
    exact (hqueue.append_right _).append_right _
  | givenUp hload hlose =>
    apply (h.sameLoad hload).perm
    rw [Option.toList_some, Option.toList_none, List.append_nil, ← List.append_assoc]
    exact List.perm_append_singleton _ _

/-- What is admitted is conserved in every run. -/
theorem Reaches.conserved {start view : View} {journal : List Event} (h : Reaches start journal view)
    (hstart : Conserved [] start.waiting start.queue start.nextBlock) :
    Conserved (admitted journal) view.waiting (blocks journal view.queue) view.nextBlock := by
  induction h with
  | start =>
    rw [blocks]
    simpa [admitted, understood, givenUp] using hstart
  | next hbefore hstep ih =>
    cases hstep with
    | admitted hwhole =>
      rw [admitted_concat, blocks_concat]
      simpa [blocks, Event.admitted?, Event.understood?, Event.givenUp?] using ih.enter _
    | attempted htakes hgoes => exact hgoes.conserved (htakes.conserved ih)
    | _ =>
      rw [admitted_concat, blocks_concat]
      simpa [blocks, Event.admitted?, Event.understood?, Event.givenUp?] using ih

/-! ## What is told -/

theorem Takes.keeps {before held : View} {block : TransportBlock} (h : Takes before block held) :
    held.lost = before.lost ∧ held.egress = before.egress := by
  cases h with
  | fresh => exact ⟨rfl, rfl⟩
  | again => exact ⟨rfl, rfl⟩

theorem Goes.lost_eq {held after : View} {block : TransportBlock} {outcome : Outcome}
    (h : Goes held block outcome after) (number : UInt32) (worth : UInt64) :
    after.lost = Event.count held.lost (.attempted { block, number, worth, outcome }) := by
  cases h with
  | understood harrive => rfl
  | waits hload hqueue => rfl
  | givenUp hload hlose => rfl

theorem Step.lost_eq {before after : View} {event : Event} (h : Step before event after) :
    after.lost = event.count before.lost := by
  cases h with
  | attempted htakes hgoes =>
    rw [← htakes.keeps.1]
    exact hgoes.lost_eq _ _
  | _ => rfl

/-- The count of lost bits takes in what was refused and what was given up, each once and in the order
of the journal. -/
theorem Reaches.lost_eq {start view : View} {journal : List Event} (h : Reaches start journal view) :
    view.lost = journal.foldl Event.count start.lost := by
  induction h with
  | start => rfl
  | next hbefore hstep ih => rw [List.foldl_append, ← ih, hstep.lost_eq, List.foldl_cons, List.foldl_nil]

/-- An event that concerns the far end is a call to it. -/
def TellsFarEnd (before : View) (event : Event) (after : View) : Prop :=
  event.farEnd? = none ∧ event.departure? = none ∧ after.egress = before.egress ∨
    ∃ call, event.farEnd? = some call ∧ before.egress.act call = .ok (event.departure?, after.egress)

theorem Goes.tellsFarEnd {held after : View} {block : TransportBlock} {outcome : Outcome}
    (h : Goes held block outcome after) (number : UInt32) (worth : UInt64) :
    TellsFarEnd held (.attempted { block, number, worth, outcome }) after := by
  cases h with
  | understood harrive =>
    refine .inr ⟨_, rfl, ?_⟩
    rw [Egress.act, harrive]
    rfl
  | waits hload hqueue => exact .inl ⟨rfl, rfl, rfl⟩
  | givenUp hload hlose =>
    refine .inr ⟨_, rfl, ?_⟩
    rw [Egress.act, hlose]
    rfl

theorem Step.tellsFarEnd {before after : View} {event : Event} (h : Step before event after) :
    TellsFarEnd before event after := by
  cases h with
  | stepped now => exact .inr ⟨_, rfl, rfl⟩
  | turnedAway hwhole hlose =>
    refine .inr ⟨_, rfl, ?_⟩
    rw [Egress.act, hlose]
    rfl
  | attempted htakes hgoes =>
    have htells := hgoes.tellsFarEnd
    unfold TellsFarEnd at htells ⊢
    rw [← htakes.keeps.2]
    exact htells _ _
  | released hrelease =>
    refine .inr ⟨_, rfl, ?_⟩
    rw [Egress.act, hrelease]
    rfl
  | _ => exact .inl ⟨rfl, rfl, rfl⟩

/-- The far end of a link has made the run that the journal tells. -/
theorem Reaches.exists_record {start view : View} {journal : List Event}
    (h : Reaches start journal view) :
    ∃ record, start.egress.run (journal.filterMap Event.farEnd?) = .ok (record, view.egress) ∧
      record.departures = journal.filterMap Event.departure? := by
  induction h with
  | start => exact ⟨_, rfl, rfl⟩
  | next hbefore hstep ih =>
    obtain ⟨record, hrun, hdepartures⟩ := ih
    rw [filterMap_concat, filterMap_concat]
    rcases hstep.tellsFarEnd with ⟨hnone, hnothing, hegress⟩ | ⟨call, hsome, hact⟩
    · refine ⟨record, ?_, ?_⟩
      · simpa [hnone, hegress] using hrun
      · simpa [hnothing] using hdepartures
    · rw [hsome]
      exact ⟨_, Egress.run_concat hrun hact, by rw [hdepartures]⟩

/-- A packet that comes to a link is whole, whether it fits or not. -/
theorem Step.isPart_eq_false {before after : View} {event : Event} {packet : Packet}
    (h : Step before event after) (hpacket : event = .admitted packet ∨ event = .turnedAway packet) :
    packet.isPart = false := by
  rcases hpacket with rfl | rfl
  · cases h with
    | admitted hwhole => exact hwhole
  · cases h with
    | turnedAway hwhole hlose => exact hwhole

theorem Reaches.isPart_of_mem_turnedAway {start view : View} {journal : List Event}
    (h : Reaches start journal view) : ∀ packet ∈ turnedAway journal, packet.isPart = false := by
  intro packet hpacket
  obtain ⟨event, hevent, htells⟩ := List.mem_filterMap.1 hpacket
  obtain ⟨before, next, hstep⟩ := h.exists_step hevent
  refine hstep.isPart_eq_false (.inr ?_)
  cases event <;> cases htells
  rfl

/-! ## Whole runs -/

theorem eq_of_origin_eq {part packet : Packet} (h : packet.origin = part.origin) :
    part = { packet with carried := part.carried } := by
  have hback : part = { part.origin with carried := part.carried } := rfl
  rw [hback, ← h]
  rfl

theorem conserved_nil : Conserved [] [] [] 0 := ⟨.refl _, by simp [cargo], .refl _, by simp⟩

/-- Between the stages of a link no bit is lost or duplicated. -/
theorem no_bit_lost_between_stages {direction : Direction} {config : LinkConfig} {profile : LinkProfile}
    {model : ErrorModel} {seed : UInt64} {calls : List Call} {journal : List Event} {after : Link}
    (h : (idle direction config profile model seed).run calls = .ok (journal, after)) :
    (∀ number, bitsUnder number (admitted journal) =
      bitsUnder number after.buffer.packets.toList + bitsUnder number (cargo after.harq.queue.items) +
        bitsUnder number (cargo (understood journal)) + bitsUnder number (cargo (givenUp journal))) ∧
    (∀ part ∈ after.buffer.packets.toList ++ cargo (blocks journal after.harq.queue.items),
      ∃ packet ∈ admitted journal, part = { packet with carried := part.carried }) ∧
    ((blocks journal after.harq.queue.items).map (·.number.toNat)).Perm
      (List.range after.nextBlock.toNat) ∧
    (∃ record, (Egress.empty config.egress (.ofSeed (Random.seedFor seed 1))).run
        (journal.filterMap Event.farEnd?) = .ok (record, after.egress) ∧
      record.departures = journal.filterMap Event.departure?) ∧
    (∀ packet ∈ turnedAway journal, packet.isPart = false) ∧
    after.buffer.lost = journal.foldl Event.count .empty ∧
    ∀ block ∈ blocks journal after.harq.queue.items, block.IsTallied := by
  have hreaches := reaches_of_run h
  have hconserved := hreaches.conserved conserved_nil
  refine ⟨?_, ?_, hconserved.numbers, hreaches.exists_record, hreaches.isPart_of_mem_turnedAway,
    hreaches.lost_eq, hconserved.tallied⟩
  · intro number
    rw [Packet.bitsUnder_eq_of_perm hconserved.bits, Packet.bitsUnder_append]
    simp only [view, blocks, cargo, List.flatMap_append, Packet.bitsUnder_append, Nat.add_assoc]
  · intro part hpart
    obtain ⟨packet, hpacket, horigin⟩ := hconserved.origins part hpart
    exact ⟨packet, hpacket, eq_of_origin_eq horigin⟩

/-- A packet is cut, its first block is given up after one repetition, and its rest waits. -/
theorem no_bit_lost_between_stages_given_up :
    ∃ state,
      (idle .downlink { LinkConfig.standard with harq := { HarqConfig.standard with maxRetransmissions := 1 } }
        .standard (.flat 1.0) 7).run
        [.step 0.0, .generate 100 40, .grant 60 { mcs := 10, sinr := 20.0, distance := 100.0 },
          .step 1.0, .grant 60 { mcs := 10, sinr := 20.0, distance := 100.0 }, .release] = .ok state ∧
      ∀ number, bitsUnder number (admitted state.1) =
        bitsUnder number state.2.buffer.packets.toList +
          bitsUnder number (cargo state.2.harq.queue.items) +
          bitsUnder number (cargo (understood state.1)) + bitsUnder number (cargo (givenUp state.1)) :=
  exists_ok_of_isOk (by decide +kernel) fun _ h ↦ (no_bit_lost_between_stages h).1

end RadioAccess.Link
