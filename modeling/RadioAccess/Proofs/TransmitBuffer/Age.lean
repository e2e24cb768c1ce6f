import RadioAccess.Proofs.Real64.Order
import RadioAccess.Proofs.TransmitBuffer

/-!
# The Age of Data in a Block

Packets wait in the order in which they were created, and a block is filled from the front.  A cut packet
leaves its times to both parts.  So the earliest ingress that a block records is the creation time of one of
its packets, and nothing that the block or the buffer then holds was created before it (`heads_of_drain`).
The block's own creation time, at which it was filled, says nothing about that.
-/

namespace RadioAccess

open Packet (Split)

/-! ## Dates of packets -/

namespace Packet

/-- A packet that entered the system as it was created, at a time that is a number. -/
structure IsDated (packet : Packet) : Prop where
  ingress : packet.ingressAt = packet.createdAt
  number : packet.createdAt.isNaN = false

/-- Packets in the order in which they were created. -/
def Chronological (packets : List Packet) : Prop :=
  packets.Pairwise fun earlier later ↦ earlier.createdAt ≤ later.createdAt

theorem createdAt_of_origin {packet part : Packet} (h : part.origin = packet.origin) :
    part.createdAt = packet.createdAt :=
  congrArg (·.createdAt) h

theorem IsDated.part {packet part : Packet} (h : packet.IsDated) (horigin : part.origin = packet.origin) :
    part.IsDated := by
  have hcreated := createdAt_of_origin horigin
  have hingress : part.ingressAt = packet.ingressAt := congrArg (·.ingressAt) horigin
  exact ⟨by rw [hingress, hcreated, h.ingress], by rw [hcreated, h.number]⟩

namespace Split

variable {all front back : List Packet}

/-- Where nothing is on either side, there was nothing. -/
theorem eq_nil (h : Split all front back) (hfront : front = []) (hback : back = []) : all = [] := by
  cases h with
  | between => rw [hfront, hback, List.append_nil]
  | inside => cases hback

/-- Both parts of a cut packet have its dates. -/
theorem isDated (h : Split all front back) (hdated : ∀ packet ∈ all, packet.IsDated) :
    ∀ part ∈ front ++ back, part.IsDated := by
  intro part hpart
  obtain ⟨packet, hpacket, horigin⟩ := h.exists_origin hpart
  exact (hdated packet hpacket).part horigin.symm

/-- Cutting a packet keeps the order, its parts being equally old. -/
theorem chronological (h : Split all front back) (hdated : ∀ packet ∈ all, packet.IsDated)
    (hall : Chronological all) : Chronological (front ++ back) := by
  cases h with
  | between => exact hall
  | @inside before after packet part remainder bits hcut =>
    obtain ⟨hpart, hremainder⟩ := origin_of_cut hcut
    have hsame : packet.createdAt ≤ packet.createdAt := Real64.le_refl (hdated packet (by simp)).number
    rw [Chronological, List.pairwise_append, List.pairwise_cons] at hall
    obtain ⟨hbefore, ⟨hfirst, hafter⟩, hbetween⟩ := hall
    simp only [Chronological, List.pairwise_append, List.pairwise_cons, List.forall_mem_append,
      List.forall_mem_cons, createdAt_of_origin hpart, createdAt_of_origin hremainder]
    grind

end Split

end Packet

open Packet (IsDated Chronological)

/-! ## Filling a block -/

namespace TransportBlock

/-- A block whose recorded ingress is the creation time of its oldest packet, if it carries any. -/
structure RecordsOldest (block : TransportBlock) : Prop where
  attained : block.packets.toList ≠ [] →
    ∃ packet ∈ block.packets.toList, packet.createdAt = block.oldestIngress
  least : ∀ packet ∈ block.packets.toList, block.oldestIngress ≤ packet.createdAt

theorem recordsOldest_of_packets_eq_nil {block : TransportBlock} (h : block.packets.toList = []) :
    block.RecordsOldest := by
  constructor <;> simp [h]

theorem oldestIngress_of_push {block pushed : TransportBlock} {packet : Packet}
    (h : block.push packet = .ok pushed) :
    pushed.oldestIngress = if block.isEmpty || packet.ingressAt < block.oldestIngress then packet.ingressAt
      else block.oldestIngress := by
  simp only [push, bind_eq_ok_iff, pure_eq_ok_iff] at h
  obtain ⟨bits, -, rfl⟩ := h
  simp only [noteIngress]
  split <;> rfl

theorem RecordsOldest.push {block pushed : TransportBlock} {packet : Packet} (hblock : block.RecordsOldest)
    (hdated : packet.IsDated) (h : block.push packet = .ok pushed) : pushed.RecordsOldest := by
  obtain ⟨-, hpackets, -⟩ := eq_of_push h
  have hingress := oldestIngress_of_push h
  rw [hdated.ingress] at hingress
  by_cases hnew : (block.isEmpty || packet.createdAt < block.oldestIngress) = true
  · rw [if_pos hnew] at hingress
    refine ⟨fun _ ↦ ⟨packet, by simp [hpackets], hingress.symm⟩, fun other hother ↦ ?_⟩
    rw [hpackets, List.mem_append, List.mem_singleton] at hother
    rw [hingress]
    rcases hother with hold | rfl
    · have hfilled : block.isEmpty = false := by
        rw [isEmpty, Array.isEmpty_eq_false_iff]
        intro hempty
        rw [hempty] at hold
        cases hold
      rw [hfilled, Bool.false_or, decide_eq_true_eq] at hnew
      exact Real64.le_trans (Real64.le_of_lt hnew) (hblock.least other hold)
    · exact Real64.le_refl hdated.number
  · rw [if_neg hnew] at hingress
    rw [Bool.or_eq_true, decide_eq_true_eq, not_or, isEmpty, Array.isEmpty_iff] at hnew
    obtain ⟨oldest, hold, hoccurs⟩ := hblock.attained (by simpa using hnew.1)
    have hnumber : block.oldestIngress.isNaN = false :=
      ((Real64.le_iff_rank_le _ _).1 (hblock.least oldest hold)).1
    refine ⟨fun _ ↦ ⟨oldest, by simp [hpackets, hold], by rw [hingress, hoccurs]⟩, fun other hother ↦ ?_⟩
    rw [hpackets, List.mem_append, List.mem_singleton] at hother
    rw [hingress]
    rcases hother with hother | rfl
    · exact hblock.least other hother
    · exact Real64.le_of_not_lt hnew.2 hnumber hdated.number

/-- A block that carries packets and records the creation time of the oldest of them, which others do not
come before. -/
structure Heads (block : TransportBlock) (others : List Packet) : Prop where
  attained : ∃ packet ∈ block.packets.toList, packet.createdAt = block.oldestIngress
  least : ∀ packet ∈ block.packets.toList ++ others, block.oldestIngress ≤ packet.createdAt

end TransportBlock

namespace TransmitBuffer

theorem hasData_iff (buffer : TransmitBuffer) : buffer.hasData = true ↔ buffer.packets.toList ≠ [] := by
  rw [hasData, Bool.not_eq_true', ← Bool.not_eq_true, Fifo.isEmpty_iff]

theorem times_of_mem_segments {size bits : UInt64} {time : Float} {backhaul : Backhaul} {count : Nat}
    {number : UInt32} {packet : Packet} (h : packet ∈ segments size time backhaul count bits number) :
    packet.ingressAt = time ∧ packet.createdAt = time := by
  obtain ⟨number, predecessor, carried, rfl⟩ := exists_whole_of_mem_segments h
  exact ⟨rfl, rfl⟩

theorem recordsOldest_of_fill {bits left : UInt64} {packets rest : Fifo Packet}
    {block filled : TransportBlock} (hblock : block.RecordsOldest)
    (hdated : ∀ packet ∈ packets.toList, packet.IsDated)
    (h : fill bits packets block = .ok (left, rest, filled)) : filled.RecordsOldest := by
  revert hblock hdated h
  fun_induction fill bits packets block with
  | case1 packets block =>
    intro hblock _ h
    cases h
    exact hblock
  | case2 bits packets block hbits hnone =>
    intro hblock _ h
    cases h
    exact hblock
  | case3 bits packets block hbits first rest' hfirst hfits ih =>
    intro hblock hdated h
    rw [Fifo.toList_of_dequeue? hfirst, List.forall_mem_cons] at hdated
    rw [bind_eq_ok_iff] at h
    obtain ⟨pushed, hpush, hfill⟩ := h
    exact ih pushed (hblock.push hdated.1 hpush) hdated.2 hfill
  | case4 bits packets block hbits first rest' hfirst hlarge =>
    intro hblock hdated h
    rw [Fifo.toList_of_dequeue? hfirst, List.forall_mem_cons] at hdated
    simp only [bind_eq_ok_iff, pure_eq_ok_iff] at h
    obtain ⟨⟨part, remainder⟩, hcut, pushed, hpush, heq⟩ := h
    cases heq
    exact hblock.push (hdated.1.part (Packet.origin_of_cut hcut).1) hpush

/-- A grant that is worth something takes something from a buffer in which data waits. -/
theorem Filled.moved_ne_nil {bits left : UInt64} {waiting rest moved : List Packet}
    {block filled : TransportBlock} (h : Filled bits waiting block left rest filled moved) (hbits : bits ≠ 0)
    (hwaiting : waiting ≠ []) : moved ≠ [] := by
  rintro rfl
  have hleft : left = bits := UInt64.toNat_inj.1 h.moved
  exact hwaiting (h.split.eq_nil rfl (h.dry (hleft ▸ hbits)))

/-- A block that takes the front of the waiting packets is as old as the oldest of them. -/
theorem heads_of_drain {buffer next : TransmitBuffer} {bits moved : UInt64} {block filled : TransportBlock}
    (hempty : block.packets.toList = []) (hdated : ∀ packet ∈ buffer.packets.toList, packet.IsDated)
    (hordered : Chronological buffer.packets.toList) (hbits : bits ≠ 0) (hdata : buffer.hasData = true)
    (h : buffer.drain bits block = .ok (moved, next, filled)) :
    Split buffer.packets.toList filled.packets.toList next.packets.toList ∧
      filled.Heads next.packets.toList := by
  obtain ⟨left, parts, hfilled, -, -, -⟩ := filled_of_drain h
  have hparts : filled.packets.toList = parts := by rw [hfilled.packets, hempty, List.nil_append]
  have hsplit := hfilled.split
  have hmoved := hfilled.moved_ne_nil hbits ((hasData_iff buffer).1 hdata)
  rw [← hparts] at hsplit hmoved
  have hrecords : filled.RecordsOldest := by
    simp only [drain, bind_eq_ok_iff, pure_eq_ok_iff] at h
    obtain ⟨⟨left, rest, full⟩, hfill, _, -, _, -, heq⟩ := h
    cases heq
    exact recordsOldest_of_fill (TransportBlock.recordsOldest_of_packets_eq_nil hempty) hdated hfill
  obtain ⟨oldest, hold, hoccurs⟩ := hrecords.attained hmoved
  refine ⟨hsplit, ⟨oldest, hold, hoccurs⟩, fun packet hpacket ↦ ?_⟩
  rcases List.mem_append.1 hpacket with hinside | hbehind
  · exact hrecords.least packet hinside
  · rw [← hoccurs]
    exact (List.pairwise_append.1 (hsplit.chronological hdated hordered)).2.2 oldest hold packet hbehind

end TransmitBuffer

end RadioAccess
