import Mathlib.Data.List.Nodup
import Mathlib.Data.List.Perm.Subperm
import RadioAccess.Proofs.Reassembly.Unbroken

/-!
# Transfers

A transfer is a list of parts in which packets have come as a whole and in the order of their numbers,
without a number left out.  Of such parts nothing is missing but what was thrown away as crumbs.  What
was delivered is compared with what was sent by the lengths of the packets.
-/

namespace RadioAccess.Reassembly

open Packet (bitsUnder)

/-! ## Lengths -/

/-- Bits of whole packets together. -/
def totalLength (packets : List Packet) : Nat := (packets.map (·.length.toNat)).sum

@[simp]
theorem totalLength_append (earlier later : List Packet) :
    totalLength (earlier ++ later) = totalLength earlier + totalLength later := by
  simp [totalLength]

/-- What tells a packet and its length. -/
def label (packet : Packet) : UInt32 × UInt64 := (packet.number, packet.length)

theorem totalLength_eq_sum_label (packets : List Packet) :
    totalLength packets = ((packets.map label).map (·.2.toNat)).sum := by
  rw [List.map_map]
  rfl

theorem SamePacket.label_eq {a b : Packet} (h : SamePacket a b) : label a = label b :=
  Prod.ext h.number h.length

theorem nodup_labels {packets : List Packet} (h : (packets.map (·.number)).Nodup) :
    (packets.map label).Nodup := by
  apply List.Nodup.of_map Prod.fst
  rwa [List.map_map]

/-- Among packets with different numbers, the number tells the packet. -/
theorem eq_of_number_eq {packets : List Packet} (h : (packets.map (·.number)).Nodup) {a b : Packet}
    (ha : a ∈ packets) (hb : b ∈ packets) (hnumber : a.number = b.number) : a = b :=
  List.inj_on_of_nodup_map h ha hb hnumber

/-- Packets with different numbers that are all among others are a part of them. -/
theorem exists_perm_labels {some packets : List Packet} (hsome : (some.map (·.number)).Nodup)
    (hsame : ∀ packet ∈ some, ∃ other ∈ packets, label packet = label other) :
    ∃ rest, (packets.map label).Perm (some.map label ++ rest) := by
  have hsubset : some.map label ⊆ packets.map label := by
    intro entry hentry
    obtain ⟨packet, hpacket, rfl⟩ := List.mem_map.1 hentry
    obtain ⟨other, hother, hlabel⟩ := hsame packet hpacket
    exact List.mem_map.2 ⟨other, hother, hlabel.symm⟩
  obtain ⟨chosen, hchosen, hsublist⟩ := (nodup_labels hsome).subperm hsubset
  obtain ⟨rest, hrest⟩ := hsublist.exists_perm_append
  exact ⟨rest, hrest.trans (hchosen.append_right rest)⟩

/-- Packets with different numbers that are all among others are no longer together. -/
theorem totalLength_le {some packets : List Packet} (hsome : (some.map (·.number)).Nodup)
    (hsame : ∀ packet ∈ some, ∃ other ∈ packets, label packet = label other) :
    totalLength some ≤ totalLength packets := by
  obtain ⟨rest, hperm⟩ := exists_perm_labels hsome hsame
  have htotal := (hperm.map (·.2.toNat)).sum_nat
  rw [List.map_append, List.sum_append] at htotal
  rw [totalLength_eq_sum_label, totalLength_eq_sum_label, htotal]
  exact Nat.le_add_right _ _

/-- Some of the packets have the length of all if and only if they are all. -/
theorem totalLength_eq_iff {some packets : List Packet} (hsome : (some.map (·.number)).Nodup)
    (hpackets : (packets.map (·.number)).Nodup) (hpositive : ∀ packet ∈ packets, 0 < packet.length)
    (hsame : ∀ packet ∈ some, ∃ other ∈ packets, SamePacket packet other) :
    totalLength some = totalLength packets ↔
      ∀ packet ∈ packets, ∃ other ∈ some, other.number = packet.number := by
  have hlabels (packet : Packet) (hpacket : packet ∈ some) :
      ∃ other ∈ packets, label packet = label other := by
    obtain ⟨other, hother, hsame⟩ := hsame packet hpacket
    exact ⟨other, hother, hsame.label_eq⟩
  obtain ⟨rest, hperm⟩ := exists_perm_labels hsome hlabels
  rw [totalLength_eq_sum_label, totalLength_eq_sum_label]
  constructor
  · intro hsum packet hpacket
    -- What is left over has no length, so nothing is left over.
    have hnone : rest = [] := by
      rcases rest with _ | ⟨entry, rest⟩
      · rfl
      have hentry : entry ∈ packets.map label := hperm.mem_iff.2 (by simp)
      obtain ⟨other, hother, rfl⟩ := List.mem_map.1 hentry
      have hpos := UInt64.lt_iff_toNat_lt.1 (hpositive other hother)
      have htotal := (hperm.map (·.2.toNat)).sum_nat
      rw [← hsum, List.map_append, List.sum_append, List.map_cons, List.sum_cons] at htotal
      have hzero : (0 : UInt64).toNat = 0 := rfl
      simp only [label] at htotal
      omega
    rw [hnone, List.append_nil] at hperm
    obtain ⟨other, hother, hlabel⟩ := List.mem_map.1 (hperm.mem_iff.1 (List.mem_map_of_mem hpacket))
    exact ⟨other, hother, congrArg Prod.fst hlabel⟩
  · intro hall
    refine ((List.perm_ext_iff_of_nodup (nodup_labels hsome) (nodup_labels hpackets)).2
      fun entry ↦ ⟨fun h ↦ hperm.mem_iff.2 (List.mem_append_left _ h), fun hentry ↦ ?_⟩).map _ |>.sum_nat
    obtain ⟨packet, hpacket, rfl⟩ := List.mem_map.1 hentry
    obtain ⟨other, hother, hnumber⟩ := hall packet hpacket
    obtain ⟨third, hthird, hlabel⟩ := hsame other hother
    have heq := eq_of_number_eq hpackets hthird hpacket (hlabel.number.symm.trans hnumber)
    exact List.mem_map.2 ⟨other, hother, by rw [hlabel.label_eq, heq]⟩

/-! ## Transfers -/

/-- Parts in which packets have come, all of them and in order. -/
structure Transfer (packets parts : List Packet) : Prop where
  once : (packets.map (·.number)).Nodup
  lower : ∀ packet ∈ packets, ∀ number < packet.number, ∃ other ∈ packets, other.number = number
  predecessor : ∀ packet ∈ packets, ∀ before ∈ packet.predecessor,
    before.toNat + 1 = packet.number.toNat
  positive : ∀ packet ∈ packets, 0 < packet.length
  same : ∀ part ∈ parts, ∃ packet ∈ packets, SamePacket part packet
  whole : ∀ packet ∈ packets, bitsUnder packet.number parts = packet.length.toNat
  sound : ∀ part ∈ parts, part.erased = false
  ordered : parts.Pairwise (·.number ≤ ·.number)

namespace Transfer

variable {packets parts : List Packet}

theorem coherent (h : Transfer packets parts) : Coherent parts := by
  refine ⟨?_, ?_, ?_⟩
  · intro a ha b hb hnumber
    obtain ⟨first, hfirst, hsame⟩ := h.same a ha
    obtain ⟨second, hsecond, hother⟩ := h.same b hb
    have heq : first = second := eq_of_number_eq h.once hfirst hsecond
      (hsame.number.symm.trans (hnumber.trans hother.number))
    rw [heq] at hsame
    exact ⟨hnumber, hsame.predecessor.trans hother.predecessor.symm,
      hsame.length.trans hother.length.symm⟩
  · intro part hpart
    obtain ⟨packet, hpacket, hsame⟩ := h.same part hpart
    rw [hsame.length]
    exact h.positive packet hpacket
  · intro part hpart
    obtain ⟨packet, hpacket, hsame⟩ := h.same part hpart
    rw [hsame.number, hsame.length]
    exact Nat.le_of_eq (h.whole packet hpacket)

/-- If each packet can be put together, it was started before the parts of later ones came. -/
theorem gapless (h : Transfer packets parts)
    (hrecoverable : ∀ packet ∈ packets, Recoverable packet.number parts) : Gapless parts := by
  rintro earlier ⟨later, rfl⟩ part hpart number hlt
  obtain ⟨packet, hpacket, hsame⟩ := h.same part (List.mem_append_left _ hpart)
  rw [hsame.number] at hlt
  obtain ⟨other, hother, rfl⟩ := h.lower packet hpacket number hlt
  obtain ⟨⟨first, hfirst, hnumber, hstarts⟩, -⟩ := hrecoverable other hother
  rcases List.mem_append.1 hfirst with hbefore | hafter
  · exact ⟨first, hbefore, hnumber, hstarts⟩
  · have hle := (List.pairwise_append.1 h.ordered).2.2 part hpart first hafter
    rw [hsame.number, hnumber] at hle
    exact absurd hlt (UInt32.not_lt.2 hle)

theorem arrived (h : Transfer packets parts)
    (hrecoverable : ∀ packet ∈ packets, Recoverable packet.number parts) : Arrived parts := by
  refine ⟨h.gapless hrecoverable, ?_, ?_, ?_⟩
  · intro part hpart before hbefore
    obtain ⟨packet, hpacket, hsame⟩ := h.same part hpart
    rw [hsame.predecessor] at hbefore
    rw [hsame.number]
    exact h.predecessor packet hpacket before hbefore
  · intro part hpart
    obtain ⟨packet, hpacket, hsame⟩ := h.same part hpart
    rw [hsame.number, hsame.length]
    exact h.whole packet hpacket
  · intro part hpart
    obtain ⟨packet, hpacket, hsame⟩ := h.same part hpart
    rw [hsame.number]
    exact hrecoverable packet hpacket

/-- A packet of which something can be put together has a part. -/
theorem exists_part {packet : Packet} (hrecoverable : Recoverable packet.number parts) :
    ∃ part ∈ parts, part.number = packet.number := by
  obtain ⟨⟨part, hpart, hnumber, -⟩, -⟩ := hrecoverable
  exact ⟨part, hpart, hnumber⟩

end Transfer

/-- The packets that were delivered. -/
def delivered (settled : List Settled) : List Packet :=
  (settled.filter (·.fate = .delivered)).map (·.packet)

@[simp]
theorem delivered_append (earlier later : List Settled) :
    delivered (earlier ++ later) = delivered earlier ++ delivered later := by
  simp [delivered]

theorem mem_delivered_iff {packet : Packet} {settled : List Settled} :
    packet ∈ delivered settled ↔ ∃ entry ∈ settled, entry.fate = .delivered ∧ entry.packet = packet := by
  simp [delivered, and_assoc]

/-- All bits were delivered if and only if every packet was. -/
theorem Reaches.totalLength_delivered_iff {strict : Bool} {history : List Event} {view : View}
    {packets : List Packet} (h : Reaches strict history view)
    (htransfer : Transfer packets (parts history)) :
    totalLength (delivered ((exits history).map (·.settled))) = totalLength packets ↔
      ∀ packet ∈ packets, ∃ exit ∈ exits history,
        exit.settled.fate = .delivered ∧ exit.number = packet.number := by
  have haccounted := h.accounted htransfer.coherent
  have hnumbers : (((exits history).map (·.settled.packet)).map (·.number)).Nodup := by
    rw [List.map_map]
    exact List.pairwise_map.2 haccounted.once
  have honce : ((delivered ((exits history).map (·.settled))).map (·.number)).Nodup := by
    refine hnumbers.sublist (List.Sublist.map _ ?_)
    have hsublist : (((exits history).map (·.settled)).filter (·.fate = .delivered)).Sublist
        ((exits history).map (·.settled)) := List.filter_sublist
    have hpackets := hsublist.map (·.packet)
    rwa [List.map_map] at hpackets
  rw [totalLength_eq_iff honce htransfer.once htransfer.positive]
  · refine forall₂_congr fun packet hpacket ↦ ?_
    simp [mem_delivered_iff, Exit.number, and_assoc]
  · intro packet hpacket
    obtain ⟨settled, hsettled, -, rfl⟩ := mem_delivered_iff.1 hpacket
    obtain ⟨exit, hexit, rfl⟩ := List.mem_map.1 hsettled
    obtain ⟨-, -, part, hpart, hsame⟩ := haccounted.gone exit hexit
    obtain ⟨other, hother, hpart⟩ := htransfer.same part hpart
    exact ⟨other, hother, hsame.number.trans hpart.number,
      hsame.predecessor.trans hpart.predecessor, hsame.length.trans hpart.length⟩

end RadioAccess.Reassembly
