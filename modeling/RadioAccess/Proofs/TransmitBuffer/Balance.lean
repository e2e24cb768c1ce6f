import RadioAccess.Proofs.Segments
import RadioAccess.Proofs.TransmitBuffer.Stream

/-!
# The Balance of the Transmit Buffer

The buffer counts the bits that wait, whoever made the packets.  As long as no packet in it is empty, which
one that is made elsewhere may be, a drain that finds data moves at least one bit.  A request for traffic is
refused an answer only if the count does not fit a word.
-/

namespace RadioAccess.TransmitBuffer

open Packet (totalBits)

/-- Whether the count of a buffer is that of its packets. -/
structure Balanced (buffer : TransmitBuffer) : Prop where
  count : buffer.buffered.toNat = totalBits buffer.packets.toList
  bounded : buffer.buffered ≤ buffer.capacity

/-- Packets enter a buffer behind those that wait, and they are counted. -/
structure Enters (buffer : TransmitBuffer) (packets : List Packet) (next : TransmitBuffer) : Prop where
  packets : next.packets.toList = buffer.packets.toList ++ packets
  balanced : buffer.Balanced → next.Balanced

/-- Whether no packet that waits is empty. -/
def Laden (buffer : TransmitBuffer) : Prop := ∀ packet ∈ buffer.packets.toList, 0 < packet.carried

variable {buffer middle next : TransmitBuffer} {bits size : UInt64} {time : Float} {backhaul : Backhaul}

theorem balanced_empty (capacity : UInt64) : (empty capacity).Balanced := ⟨rfl, UInt64.zero_le⟩

theorem laden_empty (capacity : UInt64) : (empty capacity).Laden := by
  simp [Laden, empty]

/-! ## Packets that enter -/

/-- Nothing enters, and at most the statistics change. -/
theorem enters_nil (hpackets : next.packets = buffer.packets) (hbuffered : next.buffered = buffer.buffered)
    (hcapacity : next.capacity = buffer.capacity) : Enters buffer [] next := by
  refine ⟨by rw [hpackets, List.append_nil], fun h ↦ ⟨?_, ?_⟩⟩
  · rw [hbuffered, hpackets, h.count]
  · rw [hbuffered, hcapacity]
    exact h.bounded

theorem Enters.trans {packets more : List Packet} (h : Enters buffer packets middle)
    (hmore : Enters middle more next) : Enters buffer (packets ++ more) next :=
  ⟨by rw [hmore.packets, h.packets, List.append_assoc], fun hbalanced ↦ hmore.balanced (h.balanced hbalanced)⟩

theorem Admitted.enters {packets : List Packet} (h : Admitted buffer packets next)
    (hcounts : buffer.buffered ≤ buffer.capacity → Counts buffer (totalBits packets) next) :
    Enters buffer packets next := by
  refine ⟨h.packets, fun hbalanced ↦ ?_⟩
  obtain ⟨hcapacity, hbuffered, hbounded⟩ := hcounts hbalanced.bounded
  refine ⟨?_, ?_⟩
  · rw [hbuffered, h.packets, Packet.totalBits_append, hbalanced.count]
  · rw [UInt64.le_iff_toNat_le, hbuffered, hcapacity]
    exact hbounded

theorem enters_of_accept {packet : Packet} {result : Except AdmissionError Unit}
    (h : buffer.accept packet = .ok (result, next)) :
    Enters buffer (if result.isOk then [packet] else []) next := by
  rcases eq_of_accept h with ⟨rfl, hadmitted⟩ | ⟨reason, rfl, rfl⟩
  · exact hadmitted.enters fun _ ↦ counts_of_accept h
  · exact enters_nil rfl rfl rfl

/-- The packets of a request enter that are cut out of it; none does that is refused. -/
theorem enters_of_generate {count : Nat} (h : buffer.generate bits size time backhaul = .ok (.ok count, next)) :
    Enters buffer (segments size time backhaul count bits buffer.nextNumber) next := by
  rcases eq_of_generate h with ⟨hsize, hcount, -, hadmitted⟩ | ⟨hcount, -⟩ | ⟨hcount, -⟩ <;> cases hcount
  refine hadmitted.enters fun hbounded ↦ ?_
  rw [totalBits_segments (le_mul_packetCount hsize)]
  exact counts_of_generate hbounded h

theorem enters_of_refusal {reason : AdmissionError}
    (h : buffer.generate bits size time backhaul = .ok (.error reason, next)) : Enters buffer [] next := by
  rcases eq_of_generate h with ⟨-, hreason, -⟩ | ⟨-, rfl⟩ | ⟨-, rfl⟩
  · cases hreason
  · exact enters_nil rfl rfl rfl
  · exact enters_nil rfl rfl rfl

/-! ## Requests -/

/-- What a buffer makes itself is not empty. -/
theorem Laden.generate (h : buffer.Laden) {result : Except AdmissionError Nat}
    (hgenerate : buffer.generate bits size time backhaul = .ok (result, next)) : next.Laden := by
  rcases eq_of_generate hgenerate with ⟨hsize, rfl, -, hadmitted⟩ | ⟨rfl, rfl⟩ | ⟨rfl, rfl⟩
  · intro packet hpacket
    rw [hadmitted.packets] at hpacket
    rcases List.mem_append.1 hpacket with hold | hnew
    · exact h packet hold
    · have hgenerated := isGenerated_of_mem_segments hsize
        (fun k hk ↦ mul_lt_of_lt_packetCount hsize hk) hnew
      rw [hgenerated.whole]
      exact hgenerated.positive
  · exact h
  · exact h

theorem exists_generate (buffer : TransmitBuffer) (size : UInt64) (time : Float) (backhaul : Backhaul)
    (hfits : buffer.buffered.toNat + bits.toNat < 2 ^ 64) :
    ∃ result, buffer.generate bits size time backhaul = .ok result := by
  have hsum := Word.add64_eq_ok hfits
  unfold generate
  split
  · exact ⟨_, rfl⟩
  split
  · exact ⟨_, rfl⟩
  · simp only [reserve, hsum, ok_bind]
    split
    · exact ⟨_, rfl⟩
    · simp only [hsum, pure_bind, ok_bind]
      exact ⟨_, rfl⟩

/-! ## Draining -/

/-- What a drain moves out of the buffer it moves into the block. -/
theorem Balanced.drain (h : buffer.Balanced) {moved : UInt64} {block filled : TransportBlock}
    (hdrain : buffer.drain bits block = .ok (moved, next, filled)) :
    next.Balanced ∧
      moved.toNat + totalBits next.packets.toList = totalBits buffer.packets.toList ∧
      filled.bits.toNat = block.bits.toNat + moved.toNat ∧
      filled.retransmissions = block.retransmissions := by
  obtain ⟨left, parts, hfilled, hmoved, -, -⟩ := filled_of_drain hdrain
  obtain ⟨hcapacity, hcount⟩ := counts_of_drain hdrain
  have hlength := congrArg List.length hfilled.split.stream_eq
  rw [List.length_append, Packet.length_stream, Packet.length_stream, Packet.length_stream] at hlength
  rw [h.count] at hcount
  refine ⟨⟨by omega, ?_⟩, by omega, ?_, ?_⟩
  · have hbounded := h.bounded
    rw [UInt64.le_iff_toNat_le, h.count] at hbounded
    rw [UInt64.le_iff_toNat_le, hcapacity]
    omega
  · rw [hfilled.tally, hmoved]
  · have hcount := congrArg TransportBlock.retransmissions hfilled.shell
    exact hcount

theorem Laden.totalBits_pos (h : buffer.Laden) (hdata : buffer.hasData = true) :
    0 < totalBits buffer.packets.toList := by
  rw [hasData, Bool.not_eq_true', ← Bool.not_eq_true, Fifo.isEmpty_iff] at hdata
  cases hpackets : buffer.packets.toList with
  | nil => exact absurd hpackets hdata
  | cons packet later =>
    have hpositive := h packet (by rw [hpackets]; exact List.mem_cons_self)
    rw [UInt64.lt_iff_toNat_lt] at hpositive
    rw [Packet.totalBits_cons]
    exact Nat.lt_add_right _ hpositive

/-- A drain that finds data moves at least one bit. -/
theorem Laden.drain (h : buffer.Laden) (hbalanced : buffer.Balanced) (hbits : bits ≠ 0)
    (hdata : buffer.hasData = true) {moved : UInt64} {block filled : TransportBlock}
    (hdrain : buffer.drain bits block = .ok (moved, next, filled)) : next.Laden ∧ 0 < moved.toNat := by
  obtain ⟨left, parts, hfilled, -, -, -⟩ := filled_of_drain hdrain
  have hpositive := toNat_pos_of_ne_zero hbits
  have htotal := h.totalBits_pos hdata
  have hall := toNat_of_drain hbalanced.count hdrain
  rw [hbalanced.count] at hall
  exact ⟨fun part hpart ↦ hfilled.split.carried_pos h part (List.mem_append_right _ hpart), by omega⟩

end RadioAccess.TransmitBuffer
