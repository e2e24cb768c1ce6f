import RadioAccess.Proofs.Egress.Delivery
import RadioAccess.Proofs.Link.Traffic

/-!
# Delivery over an Error-Free Link

Once the buffer of an error-free link is empty, all that was admitted has come to the far end, so that
the next release could deliver it.  It does so exactly when every packet can be put together there: a
packet of which more than the slack comes in crumbs is lost although no transmission failed.
-/

namespace RadioAccess.Link

open Egress (Call.keeps)
open Packet (bitsUnder bitsUnder_of_nodup exists_packet_of_mem_stream map_origin_sublist_stream
  origin pairwise_stream stream totalBits)
open Real64 (not_lt_add_zero)
open Reassembly (Recoverable SamePacket Transfer totalLength)
open TransmitBuffer (IsGenerated predecessorOf)

/-! ## What the far end is told -/

theorem farEnd_of_isErrorFree {event : Event} (h : event.isErrorFree = true) {call : Egress.Call}
    (hcall : event.farEnd? = some call) :
    call.keeps = true ∧ call.parts = cargo event.understood?.toList ∧
      ∀ block, call = .arrive block → event.understood? = some block := by
  cases event with
  | attempted attempt =>
    obtain ⟨block, number, worth, outcome⟩ := attempt
    cases outcome with
    | understood understood =>
      cases hcall
      refine ⟨rfl, by simp [Egress.Call.parts, cargo, Event.understood?], fun other hother ↦ ?_⟩
      cases hother
      rfl
    | waits => cases hcall
    | givenUp exhausted => cases h
  | stepped now =>
    cases hcall
    exact ⟨rfl, rfl, fun block hblock ↦ by cases hblock⟩
  | released departure =>
    cases hcall
    exact ⟨rfl, rfl, fun block hblock ↦ by cases hblock⟩
  | turnedAway packet => cases h
  | _ => cases hcall

theorem understood_of_farEnd_none {event : Event} (h : event.farEnd? = none) :
    event.understood? = none := by
  cases event with
  | attempted attempt =>
    obtain ⟨block, number, worth, outcome⟩ := attempt
    cases outcome with
    | understood understood => cases h
    | waits => rfl
    | givenUp exhausted => rfl
  | _ => rfl

/-- Without errors the far end is brought what blocks carry. -/
theorem parts_farEnd {journal : List Event} (h : ∀ event ∈ journal, event.isErrorFree = true) :
    (journal.filterMap Event.farEnd?).flatMap Egress.Call.parts = cargo (understood journal) := by
  induction journal with
  | nil => rfl
  | cons event journal ih =>
    have hjournal := ih fun other hother ↦ h other (List.mem_cons_of_mem _ hother)
    cases hcall : event.farEnd? with
    | none =>
      rw [List.filterMap_cons_none hcall, understood,
        List.filterMap_cons_none (understood_of_farEnd_none hcall)]
      exact hjournal
    | some call =>
      obtain ⟨-, hparts, -⟩ := farEnd_of_isErrorFree (h event List.mem_cons_self) hcall
      rw [List.filterMap_cons_some hcall, List.flatMap_cons, hparts, hjournal, understood, understood]
      cases hunderstood : event.understood? with
      | none => rw [List.filterMap_cons_none hunderstood]; rfl
      | some block => rw [List.filterMap_cons_some hunderstood]; simp [cargo]

theorem keeps_of_mem_farEnd {journal : List Event} (h : ∀ event ∈ journal, event.isErrorFree = true)
    {call : Egress.Call} (hcall : call ∈ journal.filterMap Event.farEnd?) :
    call.keeps = true ∧ ∀ block, call = .arrive block → block ∈ understood journal := by
  obtain ⟨event, hevent, hcall⟩ := List.mem_filterMap.1 hcall
  obtain ⟨hkeeps, -, hblock⟩ := farEnd_of_isErrorFree (h event hevent) hcall
  exact ⟨hkeeps, fun block heq ↦ List.mem_filterMap.2 ⟨event, hevent, hblock block heq⟩⟩

/-! ## Numbers -/

theorem pairwise_map_ofNat {count : Nat} (h : count ≤ 2 ^ 32) :
    ((List.range count).map UInt32.ofNat).Pairwise (· < ·) := by
  refine List.pairwise_map.2 (List.pairwise_lt_range.imp_of_mem fun {i j} _ hj hlt ↦ ?_)
  have hj := List.mem_range.1 hj
  rw [UInt32.lt_iff_toNat_lt, UInt32.toNat_ofNat_of_lt' (by simp [UInt32.size]; omega),
    UInt32.toNat_ofNat_of_lt' (by simp [UInt32.size]; omega)]
  exact hlt

theorem mem_map_ofNat_of_lt {count : Nat} {number other : UInt32}
    (h : number ∈ (List.range count).map UInt32.ofNat) (hlt : other < number) :
    other ∈ (List.range count).map UInt32.ofNat := by
  obtain ⟨i, hi, rfl⟩ := List.mem_map.1 h
  have hi := List.mem_range.1 hi
  rw [UInt32.lt_iff_toNat_lt] at hlt
  have hle : (UInt32.ofNat i).toNat ≤ i := Nat.mod_le _ _
  exact List.mem_map.2 ⟨other.toNat, List.mem_range.2 (by omega), UInt32.ofNat_toNat⟩

theorem succ_of_mem_predecessorOf {number before : UInt32} (h : before ∈ predecessorOf number) :
    before.toNat + 1 = number.toNat := by
  unfold predecessorOf at h
  split at h
  · cases h
  · rename_i hne
    cases h
    have hpos : 0 < number.toNat := Nat.pos_of_ne_zero fun hzero ↦ hne (UInt32.toNat_inj.1 hzero)
    rw [UInt32.toNat_sub_of_le _ _ (by rw [UInt32.le_iff_toNat_le]; exact hpos)]
    exact Nat.sub_add_cancel hpos

/-! ## The transfer -/

theorem samePacket_of_origin_eq {part packet : Packet} (h : part.origin = packet.origin) :
    SamePacket part packet ∧ part.erased = packet.erased := by
  have hpart : part = { packet with carried := part.carried } := eq_of_origin_eq h.symm
  rw [hpart]
  exact ⟨⟨rfl, rfl, rfl⟩, rfl⟩

/-- Once nothing waits, the far end has been brought all that was admitted. -/
theorem ErrorFree.transfer {journal : List Event} {view : View} (h : ErrorFree journal view)
    (hempty : view.waiting = [])
    (hnumbers : (admitted journal).map (·.number) =
      (List.range (admitted journal).length).map UInt32.ofNat)
    (hfew : (admitted journal).length < 2 ^ 32)
    (hgenerated : ∀ packet ∈ admitted journal, IsGenerated packet) :
    Transfer (admitted journal) (cargo (understood journal)) := by
  have hascending := pairwise_map_ofNat (Nat.le_of_lt hfew)
  rw [← hnumbers] at hascending
  have honce : ((admitted journal).map (·.number)).Nodup := hascending.imp UInt32.ne_of_lt
  have hstream := h.bits
  have hpositive := h.positive
  rw [hempty, Packet.stream_nil, List.append_nil] at hstream
  rw [hempty, List.append_nil] at hpositive
  have hshows := map_origin_sublist_stream hpositive
  rw [← hstream] at hshows
  have horigin : ∀ part ∈ cargo (understood journal), ∃ packet ∈ admitted journal,
      SamePacket part packet ∧ part.erased = packet.erased := by
    intro part hpart
    obtain ⟨packet, hpacket, heq⟩ :=
      exists_packet_of_mem_stream (hshows.subset (List.mem_map_of_mem hpart))
    exact ⟨packet, hpacket, samePacket_of_origin_eq heq.symm⟩
  refine ⟨honce, ?_, ?_, fun packet hpacket ↦ (hgenerated packet hpacket).positive, ?_, ?_, ?_, ?_⟩
  · intro packet hpacket number hlt
    have hmem : packet.number ∈ (admitted journal).map (·.number) := List.mem_map_of_mem hpacket
    rw [hnumbers] at hmem
    have hother := mem_map_ofNat_of_lt hmem hlt
    rw [← hnumbers] at hother
    exact List.mem_map.1 hother
  · intro packet hpacket before hbefore
    rw [(hgenerated packet hpacket).predecessor] at hbefore
    exact succ_of_mem_predecessorOf hbefore
  · intro part hpart
    obtain ⟨packet, hpacket, hsame, -⟩ := horigin part hpart
    exact ⟨packet, hpacket, hsame⟩
  · intro packet hpacket
    calc
      bitsUnder packet.number (cargo (understood journal)) =
          bitsUnder packet.number (admitted journal) :=
        Packet.bitsUnder_eq_of_perm (.of_eq hstream.symm) _
      _ = packet.carried.toNat := bitsUnder_of_nodup honce hpacket
      _ = packet.length.toNat := by rw [(hgenerated packet hpacket).whole]
  · intro part hpart
    obtain ⟨packet, hpacket, -, herased⟩ := horigin part hpart
    rw [herased]
    exact (hgenerated packet hpacket).sound
  · have hordered : (admitted journal).Pairwise (·.number ≤ ·.number) :=
      (List.pairwise_map.1 hascending).imp UInt32.le_of_lt
    have horigins := (pairwise_stream hordered).sublist hshows
    rw [List.pairwise_map] at horigins
    exact horigins

theorem totalLength_of_generated {packets : List Packet} (h : ∀ packet ∈ packets, IsGenerated packet) :
    totalLength packets = totalBits packets := by
  have hmap : packets.map (·.length.toNat) = packets.map (·.carried.toNat) :=
    List.map_congr_left fun packet hpacket ↦ by rw [(h packet hpacket).whole]
  rw [totalLength, totalBits, hmap]

/-! ## Time -/

/-- In a list of times that do not decrease, each is no later than the last. -/
theorem le_getLastD {first time : Float} {times : List Float} (h : (first :: times).Pairwise (· ≤ ·))
    (htime : time ∈ first :: times) : time ≤ times.getLastD first ∨ time = times.getLastD first := by
  induction times generalizing first with
  | nil => exact .inr (List.mem_singleton.1 htime)
  | cons second rest ih =>
    rw [List.getLastD_cons]
    rcases List.mem_cons.1 htime with rfl | hrest
    · exact .inl (List.rel_of_pairwise_cons h List.getLastD_mem_cons)
    · exact ih h.tail hrest

/-- What arrives without a backhaul delay is never due later than the time of the link. -/
theorem ErrorFree.not_late {journal : List Event} {view : View} (h : ErrorFree journal view)
    (htimes : (0.0 :: times journal).Pairwise (· ≤ ·)) {block : TransportBlock}
    (hblock : block ∈ understood journal) (random : Random) :
    ¬(block.backhaul.arrival block.dueAt random).1 > view.egress.now := by
  obtain ⟨hbackhaul, hdue⟩ := h.due block hblock
  rw [hbackhaul, h.together, h.clock]
  exact not_lt_add_zero (le_getLastD htimes hdue) _

/-! ## Release -/

/-- Bits that were released. -/
def releasedBits (journal : List Event) : Nat :=
  Egress.releasedBits (journal.filterMap Event.departure?)

theorem exists_release_iff (link : Link) (holds : Departure → Egress → Prop) :
    (∃ departure final, link.release = .ok (departure, final) ∧ holds departure final.egress) ↔
      ∃ departure final, link.egress.release = .ok (departure, final) ∧ holds departure final := by
  constructor
  · rintro ⟨departure, final, hrelease, hholds⟩
    obtain ⟨egress, hegress, hview⟩ := view_of_release hrelease
    have heq : final.egress = egress := congrArg View.egress hview
    exact ⟨departure, egress, hegress, heq ▸ hholds⟩
  · rintro ⟨departure, egress, hegress, hholds⟩
    refine ⟨departure, { link with egress }.report departure.settled, ?_, hholds⟩
    rw [release, hegress]
    rfl

/-- Over an error-free link whose buffer is empty, the next release empties the far end and completes
what was admitted if and only if every packet can be put together from its parts, provided that what
the release delivers fits a word. -/
theorem release_delivers_all_iff {direction : Direction} {config : LinkConfig} {profile : LinkProfile}
    {seed : UInt64} {strict : Bool} {calls : List Call} {journal : List Event} {after : Link}
    (hmode : config.egress = .reassembly strict) (hbackhaul : config.backhaul = .none)
    (hcalls : ∀ call ∈ calls, call.isTraffic = true)
    (htimes : (0.0 :: calls.filterMap Call.time?).Pairwise (· ≤ ·))
    (hfew : (admitted journal).length < 2 ^ 32)
    (h : (idle direction config profile (.flat 0.0) seed).run calls = .ok (journal, after))
    (hempty : after.buffer.hasData = false) :
    (∃ departure final, after.release = .ok (departure, final) ∧ final.egress.backlog = 0 ∧
      releasedBits journal + departure.bits.toNat = totalBits (admitted journal)) ↔
    (∀ packet ∈ admitted journal, Recoverable packet.number (cargo (understood journal))) ∧
      totalBits (admitted journal) < releasedBits journal + 2 ^ 64 := by
  have hregular := regular_of_run hcalls h
  have hreaches := reaches_of_run h
  have herrorFree : ErrorFree journal after.view := by
    refine hreaches.errorFree ⟨rfl, hbackhaul, rfl, rfl, rfl, ?_, ?_⟩ hregular.errorFree
      fun packet hpacket ↦ ?_
    · intro part hpart
      cases hpart
    · intro block hblock
      cases hblock
    · rw [(hregular.numbered.generated packet hpacket).whole]
      exact (hregular.numbered.generated packet hpacket).positive
  have hwaiting : after.view.waiting = [] := by
    apply (Fifo.isEmpty_iff after.buffer.packets).1
    simpa [TransmitBuffer.hasData] using hempty
  have htransfer := herrorFree.transfer hwaiting hregular.numbered.numbers hfew hregular.numbered.generated
  obtain ⟨record, hrun, hdepartures⟩ := hreaches.exists_record
  have hstart : (idle direction config profile (.flat 0.0) seed).view.egress =
      Egress.empty (.reassembly strict) (.ofSeed (Random.seedFor seed 1)) := by
    rw [← hmode]
    rfl
  rw [hstart] at hrun
  rw [← parts_farEnd hregular.errorFree] at htransfer ⊢
  rw [releasedBits, ← hdepartures, ← totalLength_of_generated hregular.numbered.generated,
    exists_release_iff after fun departure final ↦ final.backlog = 0 ∧
      Egress.releasedBits record.departures + departure.bits.toNat = totalLength (admitted journal)]
  refine Egress.release_completes_iff hrun htransfer
    (fun call hcall ↦ (keeps_of_mem_farEnd hregular.errorFree hcall).1) fun block hblock random ↦ ?_
  rw [← hregular.times] at htimes
  exact herrorFree.not_late htimes
    ((keeps_of_mem_farEnd hregular.errorFree hblock).2 block rfl) random

/-- Packets of 40 bits that are cut at 60 bits, with a release in between. -/
theorem release_delivers_all_iff_between_cuts :
    ∃ state,
      (idle .downlink { LinkConfig.standard with backhaul := .none } .standard (.flat 0.0) 1).run
        [.step 0.0, .generate 100 40, .grant 60 ⟨10, 20.0, 100.0⟩, .release, .step 0.001,
          .grant 60 ⟨10, 20.0, 100.0⟩] = .ok state ∧
      ∃ departure final, state.2.release = .ok (departure, final) ∧ final.egress.backlog = 0 ∧
        releasedBits state.1 + departure.bits.toNat = totalBits (admitted state.1) := by
  refine exists_ok_of_any (fun state ↦ !state.2.buffer.hasData &&
    decide ((admitted state.1).length < 2 ^ 32 ∧
      (∀ packet ∈ admitted state.1, Recoverable packet.number (cargo (understood state.1))) ∧
      totalBits (admitted state.1) < releasedBits state.1 + 2 ^ 64))
    (by decide +kernel) fun state hrun hstate ↦ ?_
  simp only [Bool.and_eq_true, Bool.not_eq_true', decide_eq_true_eq] at hstate
  obtain ⟨hempty, hfew, hrecoverable, hfits⟩ := hstate
  exact (release_delivers_all_iff rfl rfl (by decide) (by decide +kernel) hfew hrun hempty).2
    ⟨hrecoverable, hfits⟩

/-- A packet of 12 bits that comes in two parts of 6 bits is thrown away as crumbs, one that came before
time fell below zero stays at the far end, and two packets of `2 ^ 63` bits cannot be counted in one
release. -/
theorem not_every_release_delivers_all :
    (∃ state,
      (idle .downlink { LinkConfig.standard with backhaul := .none } .standard (.flat 0.0) 1).run
        [.step 0.0, .generate 12 12, .grant 6 ⟨10, 20.0, 100.0⟩, .grant 6 ⟨10, 20.0, 100.0⟩] =
          .ok state ∧
      state.2.buffer.hasData = false ∧ ∃ released, state.2.release = .ok released ∧
        releasedBits state.1 + released.1.bits.toNat ≠ totalBits (admitted state.1)) ∧
    (∃ state,
      (idle .downlink { LinkConfig.standard with backhaul := .none } .standard (.flat 0.0) 1).run
        [.generate 12 12, .grant 12 ⟨10, 20.0, 100.0⟩, .step (-1.0)] = .ok state ∧
      state.2.buffer.hasData = false ∧ ∃ released, state.2.release = .ok released ∧
        released.2.egress.backlog ≠ 0) ∧
    ∃ state,
      (idle .downlink { LinkConfig.standard with backhaul := .none, capacity := 0xFFFFFFFFFFFFFFFF } .standard
          (.flat 0.0) 1).run
        [.generate 0x8000000000000000 0x8000000000000000,
          .grant 0x8000000000000000 ⟨10, 20.0, 100.0⟩,
          .generate 0x8000000000000000 0x8000000000000000,
          .grant 0x8000000000000000 ⟨10, 20.0, 100.0⟩] = .ok state ∧
      state.2.buffer.hasData = false ∧ state.2.release.isOk = false := by
  refine ⟨?_, ?_, ?_⟩
  · refine exists_ok_of_any (fun state ↦ !state.2.buffer.hasData && state.2.release.toOption.any
      fun released ↦ releasedBits state.1 + released.1.bits.toNat ≠ totalBits (admitted state.1))
      (by decide +kernel) fun state hrun hstate ↦ ?_
    rw [Bool.and_eq_true, Bool.not_eq_true'] at hstate
    exact ⟨hstate.1, exists_ok_of_any _ hstate.2 fun released _ hbits ↦ of_decide_eq_true hbits⟩
  · refine exists_ok_of_any (fun state ↦ !state.2.buffer.hasData && state.2.release.toOption.any
      fun released ↦ released.2.egress.backlog ≠ 0) (by decide +kernel) fun state hrun hstate ↦ ?_
    rw [Bool.and_eq_true, Bool.not_eq_true'] at hstate
    exact ⟨hstate.1, exists_ok_of_any _ hstate.2 fun released _ hbits ↦ of_decide_eq_true hbits⟩
  · refine exists_ok_of_any (fun state ↦ !state.2.buffer.hasData && !state.2.release.isOk)
      (by decide +kernel) fun state hrun hstate ↦ ?_
    rwa [Bool.and_eq_true, Bool.not_eq_true', Bool.not_eq_true'] at hstate

end RadioAccess.Link
