import RadioAccess.Proofs.TransmitBuffer

/-!
# Generated Packets

Traffic is generated as whole packets, numbered one after the other, of which each names the one before
it.  None of them is empty, and together they carry what was asked for.  What a buffer generates is numbered
from zero on, whatever it is asked for (`Numbered`).
-/

namespace RadioAccess.TransmitBuffer

/-- A packet as traffic is generated. -/
structure IsGenerated (packet : Packet) : Prop where
  whole : packet.carried = packet.length
  positive : 0 < packet.length
  sound : packet.erased = false
  predecessor : packet.predecessor = predecessorOf packet.number

/-- Numbers follow one another modulo `2 ^ 32`. -/
theorem numbers_segments (size bits : UInt64) (time : Float) (backhaul : Backhaul) (count start : Nat) :
    (segments size time backhaul count bits (UInt32.ofNat start)).map (·.number) =
      (List.range' start count).map UInt32.ofNat := by
  induction count generalizing start bits with
  | zero => rfl
  | succ count ih =>
    have hnext : UInt32.ofNat start + 1 = UInt32.ofNat (start + 1) := (UInt32.ofNat_add start 1).symm
    rw [segments, List.map_cons, List.range'_succ, List.map_cons, hnext, ih]
    rfl

@[simp]
theorem length_segments (size : UInt64) (time : Float) (backhaul : Backhaul) (count : Nat) (bits : UInt64)
    (number : UInt32) : (segments size time backhaul count bits number).length = count := by
  induction count generalizing bits number with
  | zero => rfl
  | succ count ih => rw [segments, List.length_cons, ih]

/-- What is cut behind packets that are numbered from zero on takes the numbers that follow. -/
theorem numbers_append_segments {packets : List Packet} (size bits : UInt64) (time : Float)
    (backhaul : Backhaul) (count : Nat)
    (h : packets.map (·.number) = (List.range packets.length).map UInt32.ofNat) :
    (packets ++ segments size time backhaul count bits (UInt32.ofNat packets.length)).map (·.number) =
      (List.range (packets.length + count)).map UInt32.ofNat := by
  have hrange := List.range'_append_1 (s := 0) (m := packets.length) (n := count)
  rw [Nat.zero_add, ← List.range_eq_range', ← List.range_eq_range'] at hrange
  rw [List.map_append, h, numbers_segments, ← List.map_append, hrange]

section Segments

variable {size bits : UInt64} {time : Float} {backhaul : Backhaul} {count : Nat} {number : UInt32}

theorem totalBits_segments (h : bits.toNat ≤ size.toNat * count) :
    Packet.totalBits (segments size time backhaul count bits number) = bits.toNat := by
  induction count generalizing bits number with
  | zero =>
    rw [segments, Packet.totalBits_nil]
    omega
  | succ count ih =>
    rw [segments]
    by_cases hlast : bits < size
    · rw [if_pos hlast, UInt64.sub_self, Packet.totalBits_cons, ih (by simp)]
      rfl
    · have hle : size ≤ bits := UInt64.not_lt.1 hlast
      have hdifference := UInt64.toNat_sub_of_le _ _ hle
      rw [UInt64.le_iff_toNat_le] at hle
      rw [Nat.mul_succ] at h
      rw [if_neg hlast, Packet.totalBits_cons, ih (by omega), hdifference]
      show size.toNat + (bits.toNat - size.toNat) = bits.toNat
      omega

/-- As long as each packet before it is full, a packet is not empty. -/
theorem isGenerated_of_mem_segments (hsize : size ≠ 0) (h : ∀ k < count, size.toNat * k < bits.toNat)
    {packet : Packet} (hpacket : packet ∈ segments size time backhaul count bits number) :
    IsGenerated packet := by
  induction count generalizing bits number with
  | zero => cases hpacket
  | succ count ih =>
    have hsome := h 0 (by omega)
    have hpos := toNat_pos_of_ne_zero hsize
    rw [segments] at hpacket
    rcases List.mem_cons.1 hpacket with rfl | hrest
    · refine ⟨rfl, ?_, rfl, rfl⟩
      show 0 < if bits < size then bits else size
      rw [UInt64.lt_iff_toNat_lt]
      split
      · exact Nat.lt_of_le_of_lt (Nat.zero_le _) hsome
      · exact hpos
    · refine ih (fun k hk ↦ ?_) hrest
      have hfull := h (k + 1) (by omega)
      rw [Nat.mul_succ] at hfull
      have hle : size ≤ bits := by
        rw [UInt64.le_iff_toNat_le]
        omega
      rw [if_neg (UInt64.not_lt.2 hle), UInt64.toNat_sub_of_le _ _ hle]
      omega

theorem mul_lt_of_lt_packetCount (hsize : size ≠ 0) {k : Nat} (hk : k < packetCount bits size) :
    size.toNat * k < bits.toNat := by
  have hpos := toNat_pos_of_ne_zero hsize
  have hle := (Nat.le_div_iff_mul_le hpos).1 (Nat.succ_le_of_lt hk)
  rw [Nat.succ_mul, Nat.mul_comm] at hle
  omega

theorem le_mul_packetCount (hsize : size ≠ 0) : bits.toNat ≤ size.toNat * packetCount bits size := by
  have hpos := toNat_pos_of_ne_zero hsize
  have hlt := Nat.lt_mul_div_succ (bits.toNat + size.toNat - 1) hpos
  rw [Nat.mul_succ] at hlt
  rw [packetCount]
  omega

end Segments

/-! ## Numbers -/

/-- The packets are generated ones, numbered from zero on, and `next` comes after them. -/
structure Numbered (packets : List Packet) (next : UInt32) : Prop where
  next_eq : next = UInt32.ofNat packets.length
  numbers : packets.map (·.number) = (List.range packets.length).map UInt32.ofNat
  generated : ∀ packet ∈ packets, IsGenerated packet

namespace Numbered

variable {packets : List Packet} {next : UInt32}

theorem nil : Numbered [] 0 := ⟨rfl, rfl, fun _ hpacket ↦ nomatch hpacket⟩

/-- Further packets take the numbers that follow. -/
theorem enter (h : Numbered packets next) {bits size : UInt64} (hsize : size ≠ 0) (time : Float)
    (backhaul : Backhaul) :
    Numbered (packets ++ segments size time backhaul (packetCount bits size) bits next)
      (next + (packetCount bits size).toUInt32) := by
  obtain ⟨rfl, hnumbers, hgenerated⟩ := h
  refine ⟨?_, ?_, ?_⟩
  · rw [List.length_append, length_segments, UInt32.ofNat_add]
  · rw [List.length_append, length_segments]
    exact numbers_append_segments size bits time backhaul _ hnumbers
  · intro packet hpacket
    rcases List.mem_append.1 hpacket with hearlier | hlater
    · exact hgenerated packet hearlier
    · exact isGenerated_of_mem_segments hsize (fun k hk ↦ mul_lt_of_lt_packetCount hsize hk) hlater

/-- The numbers are counted modulo `2 ^ 32`. -/
theorem number_getElem (h : Numbered packets next) {i : Nat} (hi : i < packets.length) :
    packets[i].number = UInt32.ofNat i := by
  have hnumber := congrArg (·[i]?) h.numbers
  simpa [hi] using hnumber

end Numbered

end RadioAccess.TransmitBuffer
