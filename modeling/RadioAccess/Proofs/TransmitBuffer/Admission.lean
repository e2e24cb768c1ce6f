import Mathlib.Algebra.Order.Floor.Div
import RadioAccess.Proofs.Real64.Rounding
import RadioAccess.Proofs.Segments

/-!
# Admission

A request is admitted as a whole or not at all.  It is admitted if it fits, and then it is cut into full
packets and one that holds the rest.  What is refused leaves everything as it was, but for the count of lost
bits.

This is said of any buffer and any request that gets an answer; which requests do is the subject of
`RadioAccess.Proofs.TransmitBuffer.Faults`.
-/

namespace RadioAccess.TransmitBuffer

variable {buffer next : TransmitBuffer} {bits size : UInt64} {time : Float} {backhaul : Backhaul}

/-! ## Cutting a request -/

/-- Whole packets of one time that carry `bits` bits, `size` bits each but for the last one, which holds the
rest.  They are numbered one after the other from `number` on, modulo `2 ^ 32`, and each names the number
before its own. -/
structure Segmented (bits size : UInt64) (time : Float) (backhaul : Backhaul) (number : UInt32)
    (packets : List Packet) : Prop where
  count : packets.length = bits.toNat ⌈/⌉ size.toNat
  whole : ∀ i, ∀ _ : i < packets.length, ∃ length, packets[i] =
    .whole (number + .ofNat i) (predecessorOf (number + .ofNat i)) length time backhaul
  full : ∀ i, ∀ _ : i + 1 < packets.length, packets[i].carried = size
  last : ∀ packet ∈ packets.getLast?,
    packet.carried.toNat = bits.toNat - (packets.length - 1) * size.toNat ∧
      1 ≤ packet.carried.toNat ∧ packet.carried.toNat ≤ size.toNat

/-- Each packet takes what is left behind those before it, but not more than its size. -/
theorem getElem?_segments (time : Float) (backhaul : Backhaul) {count i : Nat} (number : UInt32)
    (hi : i < count) (h : i * size.toNat ≤ bits.toNat) :
    ∃ carried : UInt64, carried.toNat = min (bits.toNat - i * size.toNat) size.toNat ∧
      (segments size time backhaul count bits number)[i]? =
        some (.whole (number + .ofNat i) (predecessorOf (number + .ofNat i)) carried time backhaul) := by
  induction i generalizing count bits number with
  | zero =>
    obtain ⟨count, rfl⟩ := Nat.exists_eq_add_one.2 hi
    have hnumber : number + .ofNat 0 = number := UInt32.add_zero number
    refine ⟨if bits < size then bits else size, ?_, by rw [segments, List.getElem?_cons_zero, hnumber]⟩
    rw [Nat.zero_mul, Nat.sub_zero]
    split
    · rename_i hless
      exact (Nat.min_eq_left (UInt64.lt_iff_toNat_lt.1 hless).le).symm
    · rename_i hfull
      exact (Nat.min_eq_right (UInt64.le_iff_toNat_le.1 (UInt64.not_lt.1 hfull))).symm
  | succ i ih =>
    obtain ⟨count, rfl⟩ := Nat.exists_eq_add_one.2 (Nat.zero_lt_of_lt hi)
    rw [Nat.succ_mul] at h
    have hle : size ≤ bits := by
      rw [UInt64.le_iff_toNat_le]
      omega
    have hrest := UInt64.toNat_sub_of_le _ _ hle
    obtain ⟨carried, hcarried, hget⟩ := ih (number + 1) (Nat.lt_of_succ_lt_succ hi)
      (show i * size.toNat ≤ (bits - size).toNat by omega)
    have hnumber : number + 1 + .ofNat i = number + .ofNat (i + 1) := by
      rw [UInt32.add_assoc, UInt32.add_comm 1, UInt32.ofNat_add]
      rfl
    refine ⟨carried, ?_, ?_⟩
    · rw [hcarried, hrest, Nat.succ_mul, Nat.sub_sub, Nat.add_comm size.toNat]
    · rw [segments, List.getElem?_cons_succ, if_neg (UInt64.not_lt.2 hle), hget, hnumber]

theorem packetCount_eq_ceilDiv (bits size : UInt64) : packetCount bits size = bits.toNat ⌈/⌉ size.toNat :=
  (Nat.ceilDiv_eq_add_pred_div _ _).symm

/-- A request is cut as it should be. -/
theorem segmented_segments (hsize : size ≠ 0) (number : UInt32) :
    Segmented bits size time backhaul number
      (segments size time backhaul (packetCount bits size) bits number) := by
  have hmore {i : Nat} (hi : i < packetCount bits size) : i * size.toNat < bits.toNat := by
    rw [Nat.mul_comm]
    exact mul_lt_of_lt_packetCount hsize hi
  have hget {i : Nat} (hi : i < packetCount bits size) :=
    getElem?_segments time backhaul number hi (hmore hi).le
  refine ⟨?_, fun i hi ↦ ?_, fun i hi ↦ ?_, fun packet hpacket ↦ ?_⟩
  · rw [length_segments, packetCount_eq_ceilDiv]
  · obtain ⟨carried, -, hwhole⟩ := hget (length_segments .. ▸ hi)
    exact ⟨carried, (List.getElem_eq_iff hi).2 hwhole⟩
  · rw [length_segments] at hi
    have hnext := hmore hi
    obtain ⟨carried, hcarried, hwhole⟩ := hget (Nat.lt_of_succ_lt hi)
    rw [Nat.succ_mul] at hnext
    rw [(List.getElem_eq_iff _).2 hwhole, ← UInt64.toNat_inj]
    show carried.toNat = _
    omega
  · rw [List.getLast?_eq_getElem?, length_segments] at hpacket
    rw [length_segments]
    rcases Nat.eq_zero_or_pos (packetCount bits size) with hzero | hpos
    · rw [hzero] at hpacket
      cases hpacket
    · have hlast : packetCount bits size - 1 < packetCount bits size := Nat.sub_lt hpos Nat.one_pos
      obtain ⟨carried, hcarried, hwhole⟩ := hget hlast
      rw [hwhole] at hpacket
      cases hpacket
      have hless := hmore hlast
      have hall : bits.toNat ≤ size.toNat * packetCount bits size := le_mul_packetCount hsize
      have hone : packetCount bits size - 1 + 1 = packetCount bits size := Nat.sub_add_cancel hpos
      rw [Nat.mul_comm, ← hone, Nat.succ_mul] at hall
      show carried.toNat = _ ∧ 1 ≤ carried.toNat ∧ carried.toNat ≤ _
      have hpositive := toNat_pos_of_ne_zero hsize
      omega

/-! ## Answers -/

/-- Bits are added to an accumulator.  A count of bits stays exact as long as it is less than `2 ^ 53`. -/
structure Grows (acc : RunningMean Float) (bits : UInt64) (next : RunningMean Float) : Prop where
  added : next = acc.add bits.toFloat
  counted : ∀ sum : UInt64, sum.toNat + bits.toNat < 2 ^ 53 →
    (acc.pending = sum.toFloat → next.pending = (sum + bits).toFloat) ∧
      (acc.windowSum = sum.toFloat → next.windowSum = (sum + bits).toFloat)

theorem grows_add (acc : RunningMean Float) (bits : UInt64) : Grows acc bits (acc.add bits.toFloat) := by
  refine ⟨rfl, fun sum hsmall ↦ ⟨fun hpending ↦ ?_, fun hwindow ↦ ?_⟩⟩
  · rw [← Real64.toFloat_add_toFloat hsmall, ← hpending]
    rfl
  · rw [← Real64.toFloat_add_toFloat hsmall, ← hwindow]
    rfl

/-- What is admitted joins the queue at its end and is counted; nothing else changes but the number of the
next packet. -/
structure Joins (buffer : TransmitBuffer) (bits : UInt64) (packets : List Packet) (number : UInt32)
    (next : TransmitBuffer) : Prop where
  packets : next.packets.toList = buffer.packets.toList ++ packets
  buffered : next.buffered.toNat = buffer.buffered.toNat + bits.toNat
  generated : Grows buffer.generated bits next.generated
  others : next = { buffer with
    packets := next.packets, nextNumber := number, buffered := next.buffered, generated := next.generated }

/-- A request that is answered is admitted exactly if its packets have a size and its bits, if any, fit.  It
is admitted as whole packets of that size and one that holds the rest, and all its bits are counted; a refusal
changes nothing but the count of lost bits, and that only if the bits did not fit.  The same holds of a packet
made elsewhere. -/
theorem admitted_whole_or_not_at_all (buffer : TransmitBuffer) :
    (∀ bits size time backhaul result next,
      buffer.generate bits size time backhaul = .ok (result, next) →
      (result.isOk = true ↔ size ≠ 0 ∧ (bits = 0 ∨ buffer.Fits bits)) ∧
      (∀ count, result = .ok count → ∃ packets, packets.length = count ∧
        Segmented bits size time backhaul buffer.nextNumber packets ∧
        (bits = 0 ∧ next = buffer ∨ Joins buffer bits packets (buffer.nextNumber + .ofNat count) next)) ∧
      ∀ reason, result = .error reason →
        size = 0 ∧ reason = .emptyPackets ∧ next = buffer ∨
        size ≠ 0 ∧ reason = .overflow bits buffer.buffered buffer.capacity ∧
          next = { buffer with lost := next.lost } ∧ Grows buffer.lost bits next.lost) ∧
    ∀ packet result next, buffer.accept packet = .ok (result, next) →
      (result.isOk = true ↔ buffer.Fits packet.carried) ∧
      (result = .ok () → Joins buffer packet.carried [packet] buffer.nextNumber next) ∧
      ∀ reason, result = .error reason →
        reason = .overflow packet.carried buffer.buffered buffer.capacity ∧
          next = { buffer with lost := next.lost } ∧ Grows buffer.lost packet.carried next.lost := by
  constructor
  · intro bits size time backhaul result next h
    cases answered_of_generate h with
    | senseless hsize =>
      refine ⟨by simp [Except.isOk, Except.toBool, hsize], by simp, fun reason hreason ↦ ?_⟩
      cases hreason
      exact .inl ⟨hsize, rfl, rfl⟩
    | nothing hsize hbits =>
      refine ⟨by simp [Except.isOk, Except.toBool, hsize, hbits], fun count hcount ↦ ?_, by simp⟩
      cases hcount
      have hnone : Segmented bits size time backhaul _ _ := segmented_segments hsize buffer.nextNumber
      rw [hbits, packetCount_zero] at hnone
      rw [hbits]
      exact ⟨[], rfl, hnone, .inl ⟨rfl, rfl⟩⟩
    | admitted hsize hbits hfits hbuffered =>
      refine ⟨by simp [Except.isOk, Except.toBool, hsize, hfits], fun count heq ↦ ?_, by simp⟩
      cases heq
      exact ⟨_, length_segments .., segmented_segments hsize _,
        .inr ⟨toList_foldl_enqueue _ _, hbuffered, grows_add _ _, rfl⟩⟩
    | refused hsize hbits hmany =>
      refine ⟨by simp [Except.isOk, Except.toBool, hbits, hmany], by simp, fun reason hreason ↦ ?_⟩
      cases hreason
      exact .inr ⟨hsize, rfl, rfl, grows_add _ _⟩
  · intro packet result next h
    cases received_of_accept h with
    | admitted hfits hbuffered =>
      exact ⟨by simp [Except.isOk, Except.toBool, hfits],
        fun _ ↦ ⟨Fifo.toList_enqueue _ _, hbuffered, grows_add _ _, rfl⟩, by simp⟩
    | refused hmany =>
      refine ⟨by simp [Except.isOk, Except.toBool, hmany], by simp, fun reason hreason ↦ ?_⟩
      cases hreason
      exact ⟨rfl, rfl, grows_add _ _⟩

/-- Fifty bits are three packets of up to twenty, and the number zero follows the last number. -/
theorem admitted_whole_or_not_at_all_of_three :
    ∃ answer,
      ({ empty 100 with nextNumber := 4294967295 } : TransmitBuffer).generate 50 20 1.0 .none = .ok answer ∧
      answer.2.packets.toList.map (fun packet ↦ (packet.number, packet.carried)) =
        [(4294967295, 20), (0, 20), (1, 10)] ∧
      ∃ packets, packets.length = 3 ∧ Segmented 50 20 1.0 .none 4294967295 packets := by
  refine exists_ok_of_any (fun answer ↦ answer.1.toOption == some 3 &&
    answer.2.packets.toList.map (fun packet ↦ (packet.number, packet.carried)) ==
      [(4294967295, 20), (0, 20), (1, 10)]) (by decide +kernel) fun ⟨result, next⟩ h hanswer ↦ ?_
  rw [Bool.and_eq_true, beq_iff_eq, beq_iff_eq] at hanswer
  obtain ⟨hcount, hpackets⟩ := hanswer
  cases result with
  | error reason => cases hcount
  | ok count =>
    cases hcount
    obtain ⟨packets, hlength, hsegmented, -⟩ :=
      ((admitted_whole_or_not_at_all _).1 _ _ _ _ _ _ h).2.1 3 rfl
    exact ⟨hpackets, packets, hlength, hsegmented⟩

end RadioAccess.TransmitBuffer
