import Mathlib.Algebra.Ring.Nat
import RadioAccess.Packet

/-!
# Packets and Their Parts

A part keeps everything of its packet but the number of bits that it carries.  What it keeps is its
origin, and a list of parts is a stream of bits of which each names its origin.  Cutting changes neither
the stream nor the origins.
-/

namespace RadioAccess.Packet

/-- What all parts of a packet have in common. -/
def origin (part : Packet) : Packet := { part with carried := 0 }

/-- The bits of packets, each named by its origin. -/
def stream (packets : List Packet) : List Packet :=
  packets.flatMap fun packet ↦ List.replicate packet.carried.toNat packet.origin

/-- Bits that packets carry together. -/
def totalBits (packets : List Packet) : Nat := (packets.map (·.carried.toNat)).sum

/-- Bits that are carried under a number. -/
def bitsUnder (number : UInt32) (packets : List Packet) : Nat :=
  totalBits (packets.filter (·.number = number))

/-- Packets are parted into a front and a back, and at most one of them is cut for that, into parts of
which none is empty. -/
inductive Split : List Packet → List Packet → List Packet → Prop where
  | between (front back : List Packet) : Split (front ++ back) front back
  | inside (front back : List Packet) {packet part remainder : Packet} {bits : UInt64}
      (hcut : packet.cut bits = .ok (part, remainder)) (hpos : 0 < bits) (hlt : bits < packet.carried) :
      Split (front ++ packet :: back) (front ++ [part]) (remainder :: back)

@[simp]
theorem number_origin (part : Packet) : part.origin.number = part.number := rfl

@[simp]
theorem stream_nil : stream [] = [] := rfl

@[simp]
theorem stream_cons (packet : Packet) (packets : List Packet) :
    stream (packet :: packets) = List.replicate packet.carried.toNat packet.origin ++ stream packets :=
  rfl

@[simp]
theorem stream_append (earlier later : List Packet) :
    stream (earlier ++ later) = stream earlier ++ stream later := List.flatMap_append

@[simp]
theorem totalBits_nil : totalBits [] = 0 := rfl

@[simp]
theorem totalBits_cons (packet : Packet) (packets : List Packet) :
    totalBits (packet :: packets) = packet.carried.toNat + totalBits packets := rfl

@[simp]
theorem totalBits_append (earlier later : List Packet) :
    totalBits (earlier ++ later) = totalBits earlier + totalBits later := by
  simp [totalBits]

@[simp]
theorem bitsUnder_append (number : UInt32) (earlier later : List Packet) :
    bitsUnder number (earlier ++ later) = bitsUnder number earlier + bitsUnder number later := by
  simp [bitsUnder]

theorem totalBits_eq_of_perm {some others : List Packet} (h : some.Perm others) :
    totalBits some = totalBits others := (h.map _).sum_nat

theorem bitsUnder_self (part : Packet) : bitsUnder part.number [part] = part.carried.toNat := by
  simp [bitsUnder]

theorem bitsUnder_cons_of_number_eq {number : UInt32} {part : Packet} (h : part.number = number)
    (parts : List Packet) :
    bitsUnder number (part :: parts) = part.carried.toNat + bitsUnder number parts := by
  simp [bitsUnder, h]

theorem bitsUnder_cons_of_number_ne {number : UInt32} {part : Packet} (h : part.number ≠ number)
    (parts : List Packet) : bitsUnder number (part :: parts) = bitsUnder number parts := by
  simp [bitsUnder, h]

/-- A packet carries no more than all that is carried under its number. -/
theorem carried_le_bitsUnder {part : Packet} {parts : List Packet} (h : part ∈ parts) :
    part.carried.toNat ≤ bitsUnder part.number parts := by
  obtain ⟨front, back, rfl⟩ := List.append_of_mem h
  rw [bitsUnder_append, bitsUnder_cons_of_number_eq rfl]
  omega

theorem bitsUnder_le_totalBits (number : UInt32) (parts : List Packet) :
    bitsUnder number parts ≤ totalBits parts := by
  induction parts with
  | nil => exact Nat.le_refl 0
  | cons part parts ih =>
    rw [totalBits_cons]
    by_cases hnumber : part.number = number
    · rw [bitsUnder_cons_of_number_eq hnumber]
      exact Nat.add_le_add_left ih _
    · rw [bitsUnder_cons_of_number_ne hnumber]
      exact Nat.le_trans ih (Nat.le_add_left _ _)

theorem bitsUnder_eq_zero {number : UInt32} {parts : List Packet}
    (h : ∀ part ∈ parts, part.number ≠ number) : bitsUnder number parts = 0 := by
  induction parts with
  | nil => rfl
  | cons part parts ih =>
    obtain ⟨hpart, hparts⟩ := List.forall_mem_cons.1 h
    rw [bitsUnder_cons_of_number_ne hpart, ih hparts]

theorem length_stream (packets : List Packet) : (stream packets).length = totalBits packets := by
  induction packets with
  | nil => rfl
  | cons packet packets ih =>
    rw [stream_cons, List.length_append, List.length_replicate, ih, totalBits_cons]

/-- The bits under a number are those of the stream that name it. -/
theorem countP_stream (number : UInt32) (packets : List Packet) :
    (stream packets).countP (·.number = number) = bitsUnder number packets := by
  induction packets with
  | nil => rfl
  | cons packet packets ih =>
    rw [stream_cons, List.countP_append, ih, List.countP_replicate, number_origin]
    by_cases hnumber : packet.number = number
    · rw [bitsUnder_cons_of_number_eq hnumber, if_pos (decide_eq_true hnumber)]
    · rw [bitsUnder_cons_of_number_ne hnumber, if_neg (by simpa using hnumber), Nat.zero_add]

theorem bitsUnder_eq_of_perm {some others : List Packet} (h : (stream some).Perm (stream others))
    (number : UInt32) : bitsUnder number some = bitsUnder number others := by
  rw [← countP_stream, ← countP_stream, h.countP_eq]

/-- If no two packets have one number, what is carried under a number is carried by its packet. -/
theorem bitsUnder_of_nodup {packets : List Packet} (h : (packets.map (·.number)).Nodup)
    {packet : Packet} (hpacket : packet ∈ packets) :
    bitsUnder packet.number packets = packet.carried.toNat := by
  induction packets with
  | nil => cases hpacket
  | cons first rest ih =>
    rw [List.map_cons, List.nodup_cons] at h
    rcases List.mem_cons.1 hpacket with rfl | hrest
    · have hnone : rest.filter (·.number = packet.number) = [] := by
        refine List.filter_eq_nil_iff.2 fun other hother hnumber ↦ h.1 ?_
        rw [← of_decide_eq_true hnumber]
        exact List.mem_map_of_mem hother
      rw [bitsUnder_cons_of_number_eq rfl, bitsUnder, hnone]
      rfl
    · have hne : first.number ≠ packet.number := by
        intro heq
        rw [heq] at h
        exact h.1 (List.mem_map_of_mem hrest)
      rw [bitsUnder_cons_of_number_ne hne, ih h.2 hrest]

/-! ## Order in a stream -/

theorem exists_packet_of_mem_stream {packets : List Packet} {bit : Packet} (h : bit ∈ stream packets) :
    ∃ packet ∈ packets, packet.origin = bit := by
  obtain ⟨packet, hpacket, hbit⟩ := List.mem_flatMap.1 h
  exact ⟨packet, hpacket, (List.eq_of_mem_replicate hbit).symm⟩

/-- Every packet that is not empty shows in the stream. -/
theorem map_origin_sublist_stream {packets : List Packet} (h : ∀ packet ∈ packets, 0 < packet.carried) :
    (packets.map origin).Sublist (stream packets) := by
  induction packets with
  | nil => exact List.nil_sublist _
  | cons packet rest ih =>
    have hrest := ih fun other hother ↦ h other (List.mem_cons_of_mem _ hother)
    have hpos : 0 < packet.carried.toNat := UInt64.lt_iff_toNat_lt.1 (h packet List.mem_cons_self)
    have hone : [packet.origin].Sublist (List.replicate packet.carried.toNat packet.origin) :=
      List.singleton_sublist.2 (List.mem_replicate.2 ⟨Nat.ne_of_gt hpos, rfl⟩)
    exact hone.append hrest

theorem pairwise_stream {packets : List Packet} (h : packets.Pairwise (·.number ≤ ·.number)) :
    (stream packets).Pairwise (·.number ≤ ·.number) := by
  induction packets with
  | nil => exact List.Pairwise.nil
  | cons packet rest ih =>
    rw [stream_cons, List.pairwise_append]
    refine ⟨List.pairwise_replicate.2 (.inr (UInt32.le_refl _)), ih h.tail, fun a ha b hb ↦ ?_⟩
    obtain ⟨other, hother, rfl⟩ := exists_packet_of_mem_stream hb
    have hle : packet.number ≤ other.number := List.rel_of_pairwise_cons h hother
    rwa [List.eq_of_mem_replicate ha]

/-! ## Cutting -/

theorem origin_of_cut {packet part remainder : Packet} {bits : UInt64}
    (h : packet.cut bits = .ok (part, remainder)) :
    part.origin = packet.origin ∧ remainder.origin = packet.origin := by
  unfold cut at h
  split at h
  · cases h
    exact ⟨rfl, rfl⟩
  · cases h

theorem carried_of_cut {packet part remainder : Packet} {bits : UInt64}
    (h : packet.cut bits = .ok (part, remainder)) : part.carried = bits := by
  unfold cut at h
  split at h
  · cases h
    rfl
  · cases h

theorem Split.cons (packet : Packet) {all front back : List Packet} (h : Split all front back) :
    Split (packet :: all) (packet :: front) back := by
  cases h with
  | between => exact .between (packet :: front) back
  | inside before after hcut hpos hlt => exact .inside (packet :: before) after hcut hpos hlt

/-- The stream is parted, not changed. -/
theorem Split.stream_eq {all front back : List Packet} (h : Split all front back) :
    stream all = stream front ++ stream back := by
  cases h with
  | between => exact stream_append front back
  | inside before after hcut hpos hlt =>
    obtain ⟨hpart, hremainder⟩ := origin_of_cut hcut
    simp only [stream_append, stream_cons, stream_nil, List.append_nil, hpart, hremainder,
      ← carried_add_carried_of_cut hcut, ← List.replicate_append_replicate, List.append_assoc]

/-- Every piece has the origin of one of the packets. -/
theorem Split.exists_origin {all front back : List Packet} (h : Split all front back) {part : Packet}
    (hpart : part ∈ front ++ back) : ∃ packet ∈ all, packet.origin = part.origin := by
  cases h with
  | between => exact ⟨part, hpart, rfl⟩
  | @inside before after packet piece remainder bits hcut hpos hlt =>
    obtain ⟨hpiece, hremainder⟩ := origin_of_cut hcut
    simp only [List.append_assoc, List.mem_append, List.mem_cons, List.not_mem_nil, or_false] at hpart
    rcases hpart with hbefore | rfl | rfl | hafter
    · exact ⟨part, by simp [hbefore], rfl⟩
    · exact ⟨packet, by simp, hpiece.symm⟩
    · exact ⟨packet, by simp, hremainder.symm⟩
    · exact ⟨part, by simp [hafter], rfl⟩

/-- No piece is empty if no packet is. -/
theorem Split.carried_pos {all front back : List Packet} (h : Split all front back)
    (hpositive : ∀ packet ∈ all, 0 < packet.carried) : ∀ part ∈ front ++ back, 0 < part.carried := by
  cases h with
  | between => exact hpositive
  | @inside before after packet piece remainder bits hcut hpos hlt =>
    have hpiece := carried_of_cut hcut
    have hsum := carried_add_carried_of_cut hcut
    intro part hpart
    simp only [List.append_assoc, List.mem_append, List.mem_cons, List.not_mem_nil, or_false] at hpart
    rcases hpart with hbefore | rfl | rfl | hafter
    · exact hpositive part (by simp [hbefore])
    · rwa [hpiece]
    · rw [hpiece] at hsum
      rw [UInt64.lt_iff_toNat_lt] at hlt ⊢
      show 0 < part.carried.toNat
      omega
    · exact hpositive part (by simp [hafter])

end RadioAccess.Packet
