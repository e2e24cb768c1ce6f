import RadioAccess.Proofs.Checked
import RadioAccess.Proofs.Parts
import RadioAccess.TransmitBuffer

/-!
# What the Transmit Buffer Does

Each operation of the transmit buffer is described by what it does to the list of waiting packets and to
the count of lost bits.
-/

namespace RadioAccess

open Packet (Split origin totalBits)

namespace TransportBlock

/-- A block without what it carries. -/
def shell (block : TransportBlock) : TransportBlock :=
  { block with packets := #[], bits := 0, oldestIngress := 0.0 }

/-- The bits of a block are those of its packets. -/
def IsTallied (block : TransportBlock) : Prop := block.bits.toNat = totalBits block.packets.toList

theorem eq_of_push {block pushed : TransportBlock} {packet : Packet}
    (h : block.push packet = .ok pushed) :
    pushed.shell = block.shell ∧ pushed.packets.toList = block.packets.toList ++ [packet] ∧
      pushed.bits.toNat = block.bits.toNat + packet.carried.toNat := by
  simp only [push, bind_eq_ok_iff, pure_eq_ok_iff] at h
  obtain ⟨bits, hbits, rfl⟩ := h
  have hsum := Word.toNat_of_add64_eq_ok hbits
  have hnoted : (block.noteIngress packet).bits = block.bits ∧
      (block.noteIngress packet).packets = block.packets ∧
      (block.noteIngress packet).shell = block.shell := by
    rw [noteIngress]
    split <;> exact ⟨rfl, rfl, rfl⟩
  obtain ⟨hsame, hpackets, hshell⟩ := hnoted
  rw [hsame] at hsum
  refine ⟨hshell, ?_, hsum⟩
  rw [hpackets, Array.toList_push]

end TransportBlock

namespace TransmitBuffer

/-! ## Admission -/

/-- Whether bits fit beside those that wait. -/
def Fits (buffer : TransmitBuffer) (bits : UInt64) : Prop :=
  buffer.buffered.toNat + bits.toNat ≤ buffer.capacity.toNat

/-- What is checked before an admission. -/
inductive Reserved (buffer : TransmitBuffer) (bits : UInt64) :
    Except AdmissionError Unit → TransmitBuffer → Prop where
  | granted (hfits : buffer.Fits bits) : Reserved buffer bits (.ok ()) buffer
  | refused (hmany : ¬buffer.Fits bits) :
      Reserved buffer bits (.error (.overflow bits buffer.buffered buffer.capacity))
        (buffer.recordLoss bits)

theorem reserved_of_reserve {buffer next : TransmitBuffer} {bits : UInt64}
    {result : Except AdmissionError Unit}
    (h : buffer.reserve bits = .ok (result, next)) : Reserved buffer bits result next := by
  simp only [reserve, bind_eq_ok_iff] at h
  obtain ⟨sum, hsum, h⟩ := h
  have htotal := Word.toNat_of_add64_eq_ok hsum
  split at h
  · rename_i hmany
    cases h
    refine .refused fun hfits ↦ ?_
    rw [gt_iff_lt, UInt64.lt_iff_toNat_lt, htotal] at hmany
    exact Nat.not_le.2 hmany hfits
  · rename_i hfits
    cases h
    refine .granted ?_
    rw [gt_iff_lt, UInt64.not_lt, UInt64.le_iff_toNat_le, htotal] at hfits
    exact hfits

/-- The answers to a request. -/
inductive Answered (buffer : TransmitBuffer) (bits size : UInt64) (time : Float) (backhaul : Backhaul) :
    Except AdmissionError Nat → TransmitBuffer → Prop where
  | senseless (hsize : size = 0) : Answered buffer bits size time backhaul (.error .emptyPackets) buffer
  | nothing (hsize : size ≠ 0) (hbits : bits = 0) : Answered buffer bits size time backhaul (.ok 0) buffer
  | admitted {buffered : UInt64} (hsize : size ≠ 0) (hbits : bits ≠ 0) (hfits : buffer.Fits bits)
      (hbuffered : buffered.toNat = buffer.buffered.toNat + bits.toNat) :
      Answered buffer bits size time backhaul (.ok (packetCount bits size)) { buffer with
        packets := (segments size time backhaul (packetCount bits size) bits buffer.nextNumber).foldl
          Fifo.enqueue buffer.packets
        nextNumber := buffer.nextNumber + (packetCount bits size).toUInt32
        buffered
        generated := buffer.generated.add bits.toFloat }
  | refused (hsize : size ≠ 0) (hbits : bits ≠ 0) (hmany : ¬buffer.Fits bits) :
      Answered buffer bits size time backhaul (.error (.overflow bits buffer.buffered buffer.capacity))
        (buffer.recordLoss bits)

theorem answered_of_generate {buffer next : TransmitBuffer} {bits size : UInt64} {time : Float}
    {backhaul : Backhaul} {result : Except AdmissionError Nat}
    (h : buffer.generate bits size time backhaul = .ok (result, next)) :
    Answered buffer bits size time backhaul result next := by
  unfold generate at h
  split at h
  · rename_i hsize
    cases h
    exact .senseless hsize
  rename_i hsize
  split at h
  · rename_i hbits
    cases h
    exact .nothing hsize hbits
  rename_i hbits
  rw [bind_eq_ok_iff] at h
  obtain ⟨⟨reserved, middle⟩, hreserve, h⟩ := h
  cases reserved_of_reserve hreserve with
  | refused hmany =>
    cases h
    exact .refused hsize hbits hmany
  | granted hfits =>
    simp only [bind_eq_ok_iff, pure_eq_ok_iff] at h
    obtain ⟨buffered, hbuffered, heq⟩ := h
    cases heq
    exact .admitted hsize hbits hfits (Word.toNat_of_add64_eq_ok hbuffered)

/-- The answers to a packet made elsewhere. -/
inductive Received (buffer : TransmitBuffer) (packet : Packet) :
    Except AdmissionError Unit → TransmitBuffer → Prop where
  | admitted {buffered : UInt64} (hfits : buffer.Fits packet.carried)
      (hbuffered : buffered.toNat = buffer.buffered.toNat + packet.carried.toNat) :
      Received buffer packet (.ok ()) { buffer with
        packets := buffer.packets.enqueue packet
        buffered
        generated := buffer.generated.add packet.carried.toFloat }
  | refused (hmany : ¬buffer.Fits packet.carried) :
      Received buffer packet (.error (.overflow packet.carried buffer.buffered buffer.capacity))
        (buffer.recordLoss packet.carried)

theorem received_of_accept {buffer next : TransmitBuffer} {packet : Packet}
    {result : Except AdmissionError Unit} (h : buffer.accept packet = .ok (result, next)) :
    Received buffer packet result next := by
  simp only [accept, bind_eq_ok_iff] at h
  obtain ⟨⟨reserved, middle⟩, hreserve, h⟩ := h
  cases reserved_of_reserve hreserve with
  | refused hmany =>
    cases h
    exact .refused hmany
  | granted hfits =>
    simp only [bind_eq_ok_iff, pure_eq_ok_iff] at h
    obtain ⟨buffered, hbuffered, heq⟩ := h
    cases heq
    exact .admitted hfits (Word.toNat_of_add64_eq_ok hbuffered)

/-- What an admission changes: packets are added, and nothing is lost. -/
structure Admitted (buffer : TransmitBuffer) (packets : List Packet) (next : TransmitBuffer) :
    Prop where
  packets : next.packets.toList = buffer.packets.toList ++ packets
  lost : next.lost = buffer.lost

/-- The packets of a request are whole, and all are of the time of the request. -/
theorem exists_whole_of_mem_segments {size bits : UInt64} {time : Float} {backhaul : Backhaul} {count : Nat}
    {number : UInt32} {packet : Packet} (h : packet ∈ segments size time backhaul count bits number) :
    ∃ name predecessor carried, packet = .whole name predecessor carried time backhaul := by
  induction count generalizing bits number with
  | zero => cases h
  | succ count ih =>
    rw [segments] at h
    rcases List.mem_cons.1 h with rfl | hrest
    · exact ⟨_, _, _, rfl⟩
    · exact ih hrest

theorem toList_foldl_enqueue (packets : List Packet) (queue : Fifo Packet) :
    (packets.foldl Fifo.enqueue queue).toList = queue.toList ++ packets := by
  induction packets generalizing queue with
  | nil => simp
  | cons packet packets ih => simp [ih]

theorem toNat_pos_of_ne_zero {size : UInt64} (h : size ≠ 0) : 0 < size.toNat :=
  Nat.pos_of_ne_zero fun hzero ↦ h (UInt64.toNat_inj.1 hzero)

theorem packetCount_zero (size : UInt64) : packetCount 0 size = 0 := by
  rw [packetCount]
  rcases Nat.eq_zero_or_pos size.toNat with hzero | hpos
  · rw [hzero, Nat.div_zero]
  · exact Nat.div_eq_of_lt (by simp; omega)

/-- A request is admitted, refused as too large, or makes no sense. -/
theorem eq_of_generate {buffer next : TransmitBuffer} {bits size : UInt64} {time : Float}
    {backhaul : Backhaul} {result : Except AdmissionError Nat}
    (h : buffer.generate bits size time backhaul = .ok (result, next)) :
    size ≠ 0 ∧ result = .ok (packetCount bits size) ∧
        next.nextNumber = buffer.nextNumber + (packetCount bits size).toUInt32 ∧
        Admitted buffer (segments size time backhaul (packetCount bits size) bits buffer.nextNumber)
          next ∨
      result = .error (.overflow bits buffer.buffered buffer.capacity) ∧
        next = buffer.recordLoss bits ∨
      result = .error .emptyPackets ∧ next = buffer := by
  cases answered_of_generate h with
  | senseless => exact .inr (.inr ⟨rfl, rfl⟩)
  | nothing hsize hbits =>
    rw [hbits, packetCount_zero]
    exact .inl ⟨hsize, rfl, (UInt32.add_zero _).symm, (List.append_nil _).symm, rfl⟩
  | admitted hsize => exact .inl ⟨hsize, rfl, rfl, toList_foldl_enqueue _ _, rfl⟩
  | refused => exact .inr (.inl ⟨rfl, rfl⟩)

/-- A packet made elsewhere is admitted or counted as lost. -/
theorem eq_of_accept {buffer next : TransmitBuffer} {packet : Packet}
    {result : Except AdmissionError Unit}
    (h : buffer.accept packet = .ok (result, next)) :
    result = .ok () ∧ Admitted buffer [packet] next ∨
      ∃ reason, result = .error reason ∧ next = buffer.recordLoss packet.carried := by
  cases received_of_accept h with
  | admitted => exact .inl ⟨rfl, Fifo.toList_enqueue _ _, rfl⟩
  | refused => exact .inr ⟨_, rfl, rfl⟩

/-! ## Draining -/

/-- What filling a block does: waiting packets are moved into it in their order, the last of them
possibly as a part, and nothing waits if the block is not full. -/
structure Filled (bits : UInt64) (waiting : List Packet) (block : TransportBlock) (left : UInt64)
    (rest : List Packet) (filled : TransportBlock) (moved : List Packet) : Prop where
  split : Split waiting moved rest
  shell : filled.shell = block.shell
  packets : filled.packets.toList = block.packets.toList ++ moved
  tally : filled.bits.toNat = block.bits.toNat + totalBits moved
  moved : left.toNat + totalBits moved = bits.toNat
  dry : left ≠ 0 → rest = []

theorem filled_of_fill {bits left : UInt64} {packets rest : Fifo Packet} {block filled : TransportBlock}
    (h : fill bits packets block = .ok (left, rest, filled)) :
    ∃ moved, Filled bits packets.toList block left rest.toList filled moved := by
  revert h
  fun_induction fill bits packets block with
  | case1 packets block =>
    intro h
    cases h
    exact ⟨[], .between [] _, rfl, by simp, rfl, rfl, by simp⟩
  | case2 bits packets block hbits hnone =>
    intro h
    have hempty := (Fifo.dequeue?_eq_none_iff packets).1 hnone
    cases h
    exact ⟨[], .between [] _, rfl, by simp, rfl, rfl, fun _ ↦ hempty⟩
  | case3 bits packets block hbits first rest' hfirst hfits ih =>
    intro h
    rw [bind_eq_ok_iff] at h
    obtain ⟨pushed, hpush, hfill⟩ := h
    obtain ⟨moved, hfilled⟩ := ih pushed hfill
    obtain ⟨hshell, hpackets, hsum⟩ := TransportBlock.eq_of_push hpush
    have hdifference := UInt64.toNat_sub_of_le _ _ hfits
    have hle := UInt64.le_iff_toNat_le.1 hfits
    have hleft := hfilled.moved
    have hbitsum := hfilled.tally
    refine ⟨first :: moved, ?_, hfilled.shell.trans hshell, ?_, ?_, ?_, hfilled.dry⟩
    · rw [Fifo.toList_of_dequeue? hfirst]
      exact hfilled.split.cons first
    · rw [hfilled.packets, hpackets, List.append_assoc, List.singleton_append]
    · rw [Packet.totalBits_cons]
      omega
    · rw [Packet.totalBits_cons]
      omega
  | case4 bits packets block hbits first rest' hfirst hlarge =>
    intro h
    simp only [bind_eq_ok_iff, pure_eq_ok_iff] at h
    obtain ⟨⟨part, remainder⟩, hcut, pushed, hpush, heq⟩ := h
    cases heq
    obtain ⟨hshell, hpackets, hsum⟩ := TransportBlock.eq_of_push hpush
    have hpart := Packet.carried_of_cut hcut
    refine ⟨[part], ?_, hshell, hpackets, by simpa using hsum, by simp [hpart], by simp⟩
    rw [Fifo.toList_of_dequeue? hfirst, Fifo.toList_putBack]
    refine .inside [] rest'.toList hcut ?_ (UInt64.not_le.1 hlarge)
    exact UInt64.pos_iff_ne_zero.2 hbits

/-- What draining into an empty block does. -/
theorem filled_of_drain {buffer next : TransmitBuffer} {bits moved : UInt64}
    {block filled : TransportBlock} (h : buffer.drain bits block = .ok (moved, next, filled)) :
    ∃ left parts, Filled bits buffer.packets.toList block left next.packets.toList filled parts ∧
      moved.toNat = totalBits parts ∧ next.lost = buffer.lost ∧
      next.nextNumber = buffer.nextNumber := by
  simp only [drain, bind_eq_ok_iff, pure_eq_ok_iff] at h
  obtain ⟨⟨left, rest, full⟩, hfill, difference, hdifference, buffered, -, heq⟩ := h
  cases heq
  obtain ⟨parts, hfilled⟩ := filled_of_fill hfill
  obtain ⟨hmoved, hle⟩ := Word.toNat_of_sub64_eq_ok hdifference
  have hsum := hfilled.moved
  refine ⟨left, parts, hfilled, ?_, rfl, rfl⟩
  rw [hmoved, ← hsum, Nat.add_sub_cancel_left]

end TransmitBuffer

end RadioAccess
