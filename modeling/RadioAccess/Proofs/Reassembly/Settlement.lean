import RadioAccess.Proofs.Parts
import RadioAccess.Proofs.Reassembly.History

/-!
# Settling Once

A packet may leave while up to ten of its bits are still on their way.  These bits come as a part that
cannot start an entry, so nothing is put together for a packet that has left.  The argument counts the
bits that have arrived under each number: an entry holds no more than these, and what has left was
complete but for the slack.
-/

namespace RadioAccess.Reassembly

open Packet (Ascending bitsUnder bitsUnder_append bitsUnder_self)

/-- Parts that can be those of one packet for each number: they name the same packet, and together they
carry no more than it. -/
structure Coherent (parts : List Packet) : Prop where
  same : ∀ a ∈ parts, ∀ b ∈ parts, a.number = b.number → SamePacket a b
  positive : ∀ part ∈ parts, 0 < part.length
  bounded : ∀ part ∈ parts, bitsUnder part.number parts ≤ part.length.toNat

/-- Parts that agree, for each number, on the length of the packet, and that carry no more than it
together. -/
structure Measured (parts : List Packet) : Prop where
  length : ∀ a ∈ parts, ∀ b ∈ parts, a.number = b.number → a.length = b.length
  positive : ∀ part ∈ parts, 0 < part.length
  bounded : ∀ part ∈ parts, bitsUnder part.number parts ≤ part.length.toNat

theorem Coherent.measured {parts : List Packet} (h : Coherent parts) : Measured parts :=
  ⟨fun a ha b hb hnumber ↦ (h.same a ha b hb hnumber).length, h.positive, h.bounded⟩

theorem Measured.left {earlier later : List Packet} (h : Measured (earlier ++ later)) :
    Measured earlier := by
  refine ⟨fun a ha b hb ↦ h.length a (List.mem_append_left _ ha) b (List.mem_append_left _ hb),
    fun part hpart ↦ h.positive part (List.mem_append_left _ hpart), fun part hpart ↦ ?_⟩
  have hbounded := h.bounded part (List.mem_append_left _ hpart)
  rw [bitsUnder_append] at hbounded
  omega

/-- What is coherent as a whole was so before its last parts came. -/
theorem Coherent.left {earlier later : List Packet} (h : Coherent (earlier ++ later)) :
    Coherent earlier :=
  ⟨fun a ha b hb ↦ h.same a (List.mem_append_left _ ha) b (List.mem_append_left _ hb),
    h.measured.left.positive, h.measured.left.bounded⟩

/-- What is known of each packet that is put together or has left. -/
structure Accounted (history : List Event) (view : View) : Prop where
  held : ∀ entry ∈ view.entries, 0 < entry.carried.toNat ∧
    entry.carried.toNat ≤ bitsUnder entry.number (parts history) ∧
    ∃ part ∈ parts history, SamePacket entry part
  gone : ∀ exit ∈ exits history, 0 < bitsUnder exit.number (parts history) ∧
    exit.settled.packet.length.toNat ≤ bitsUnder exit.number (parts history) + completionSlack ∧
    ∃ part ∈ parts history, SamePacket exit.settled.packet part
  apart : ∀ entry ∈ view.entries, ∀ exit ∈ exits history, exit.number ≠ entry.number
  once : (exits history).Pairwise (·.number ≠ ·.number)

theorem length_le_of_isComplete {packet : Packet} (h : packet.isComplete = true) :
    packet.length.toNat ≤ packet.carried.toNat + completionSlack := by
  simp only [Packet.isComplete, Bool.and_eq_true, decide_eq_true_eq] at h
  exact h.2

theorem carried_pos_of_startsEntry {part : Packet} (hstarts : startsEntry part = true)
    (hpositive : 0 < part.length) : 0 < part.carried.toNat := by
  have hlength : 0 < part.length.toNat := by simpa [UInt64.lt_iff_toNat_lt] using hpositive
  simp only [startsEntry, Packet.isPart, Bool.or_eq_true, Bool.not_eq_true', bne_eq_false_iff_eq,
    decide_eq_true_eq] at hstarts
  rcases hstarts with hwhole | hlarge
  · rwa [hwhole]
  · omega

/-- A part cannot start an entry after its packet has left: what is still to come is within the slack,
and something came before. -/
theorem Accounted.not_startsEntry {history : List Event} {view : View} {part : Packet} {exit : Exit}
    (h : Accounted history view) (hmeasured : Measured (parts history ++ [part]))
    (hexit : exit ∈ exits history) (hnumber : exit.number = part.number) :
    startsEntry part = false := by
  obtain ⟨hpos, hslack, other, hother, hsame⟩ := h.gone exit hexit
  have hlength : other.length = part.length :=
    hmeasured.length other (by simp [hother]) part (by simp) (hsame.number.symm.trans hnumber)
  have hbounded := hmeasured.bounded part (by simp)
  rw [bitsUnder_append, bitsUnder_self] at hbounded
  rw [hnumber] at hpos hslack
  rw [hsame.length, hlength] at hslack
  have hshort : part.carried.toNat < part.length.toNat := by omega
  have hpart : part.carried ≠ part.length := by
    intro heq
    rw [heq] at hshort
    exact Nat.lt_irrefl _ hshort
  simp only [startsEntry, Packet.isPart, Bool.or_eq_false_iff, Bool.not_eq_false', bne_iff_ne,
    decide_eq_false_iff_not, Nat.not_lt]
  exact ⟨hpart, by omega⟩

/-- A further part leaves true what is known of packets that it does not touch. -/
theorem Accounted.mono {history : List Event} {event : Event} {part : Packet} {view : View}
    (h : Accounted history view) (hpart : event.part? = some part) :
    Accounted (history ++ [event]) view := by
  have hparts := parts_concat_of_part? history hpart
  have hexits := exits_concat_of_part? history hpart
  refine ⟨?_, ?_, ?_, ?_⟩
  · intro entry hentry
    obtain ⟨hpos, hheld, other, hother, hsame⟩ := h.held entry hentry
    rw [hparts, bitsUnder_append]
    exact ⟨hpos, by omega, other, List.mem_append_left _ hother, hsame⟩
  · intro exit hexit
    rw [hexits] at hexit
    obtain ⟨hpos, hslack, other, hother, hsame⟩ := h.gone exit hexit
    rw [hparts, bitsUnder_append]
    exact ⟨by omega, by omega, other, List.mem_append_left _ hother, hsame⟩
  · rw [hexits]
    exact h.apart
  · rw [hexits]
    exact h.once

/-- What is known of a packet is known of the entries after one of them was put in place. -/
theorem Accounted.put {history : List Event} {cursor : Option UInt32} {entries : List Packet}
    {number : UInt32} {new : Packet} (h : Accounted history ⟨cursor, entries⟩)
    (hnumber : new.number = number)
    (hheld : 0 < new.carried.toNat ∧ new.carried.toNat ≤ bitsUnder new.number (parts history) ∧
      ∃ part ∈ parts history, SamePacket new part)
    (hapart : ∀ exit ∈ exits history, exit.number ≠ number) :
    Accounted history ⟨cursor, PacketTree.putAmong number new entries⟩ := by
  refine ⟨?_, h.gone, ?_, h.once⟩
  · intro entry hentry
    rcases mem_putAmong_iff.1 hentry with rfl | ⟨hold, -⟩
    · exact hheld
    · exact h.held entry hold
  · intro entry hentry exit hexit
    rcases mem_putAmong_iff.1 hentry with rfl | ⟨hold, -⟩
    · rw [hnumber]
      exact hapart exit hexit
    · exact h.apart entry hold exit hexit

theorem Accounted.place {history : List Event} {event : Event} {part : Packet} {cursor : Option UInt32}
    {entries after : List Packet} {arrival : Arrival} (h : Accounted history ⟨cursor, entries⟩)
    (hpart : event.part? = some part) (hmeasured : Measured (parts history ++ [part]))
    (hplacement : Placement arrival part entries after) :
    Accounted (history ++ [event]) ⟨cursor, after⟩ := by
  have hparts := parts_concat_of_part? history hpart
  have hexits := exits_concat_of_part? history hpart
  have hmono := h.mono hpart
  have hself := bitsUnder_self part
  cases hplacement with
  | @joined entry joined hentry hnumber hjoin hsame hsum =>
    obtain ⟨hpos, hheld, other, hother, hname⟩ := h.held entry hentry
    have hjoined : joined.number = part.number := hsame.number.trans hnumber
    refine hmono.put hjoined ⟨by omega, ?_, other, ?_, ?_⟩ fun exit hexit ↦ ?_
    · rw [hjoined, hparts, bitsUnder_append, hself, hsum, ← hnumber]
      omega
    · simp [hparts, hother]
    · exact ⟨hsame.number.trans hname.number, hsame.predecessor.trans hname.predecessor,
        hsame.length.trans hname.length⟩
    · rw [hexits] at hexit
      rw [← hnumber]
      exact h.apart entry hentry exit hexit
  | @started fresh habsent hstarts hfresh hsame hcarried =>
    have hpositive := carried_pos_of_startsEntry hstarts (hmeasured.positive part (by simp))
    refine hmono.put hsame.number ⟨by rwa [hcarried], ?_, part, by simp [hparts], hsame⟩
      fun exit hexit hnumber ↦ ?_
    · rw [hsame.number, hparts, bitsUnder_append, hself, hcarried]
      omega
    · rw [hexits] at hexit
      rw [h.not_startsEntry hmeasured hexit hnumber] at hstarts
      cases hstarts
  | ignored habsent hstarts => exact hmono

theorem Accounted.left {history : List Event} {now : Float} {cursor after : Option UInt32}
    {packet : Packet} {later : List Packet} {fate : Fate}
    (h : Accounted history ⟨cursor, packet :: later⟩) (hascending : Ascending (packet :: later))
    (hcomplete : packet.isComplete = true) :
    Accounted (history ++ [.left ⟨now, cursor, ⟨packet, fate⟩⟩]) ⟨after, later⟩ := by
  obtain ⟨hpos, hheld, part, hpart, hsame⟩ := h.held packet List.mem_cons_self
  have hslack := length_le_of_isComplete hcomplete
  refine ⟨?_, ?_, ?_, ?_⟩
  · intro entry hentry
    rw [parts_concat_left]
    exact h.held entry (List.mem_cons_of_mem _ hentry)
  · intro exit hexit
    rw [parts_concat_left]
    rw [exits_concat_left] at hexit
    rcases List.mem_append.1 hexit with hbefore | hlast
    · exact h.gone exit hbefore
    · rw [List.mem_singleton.1 hlast]
      exact ⟨Nat.lt_of_lt_of_le hpos hheld, Nat.le_trans hslack (Nat.add_le_add_right hheld _), part,
        hpart, hsame⟩
  · intro entry hentry exit hexit
    rw [exits_concat_left] at hexit
    rcases List.mem_append.1 hexit with hbefore | hlast
    · exact h.apart entry (List.mem_cons_of_mem _ hentry) exit hbefore
    · rw [List.mem_singleton.1 hlast]
      exact UInt32.ne_of_lt (List.rel_of_pairwise_cons hascending hentry)
  · rw [exits_concat_left]
    refine List.pairwise_append.2 ⟨h.once, List.pairwise_singleton _ _, fun exit hexit last hlast ↦ ?_⟩
    rw [List.mem_singleton.1 hlast]
    exact h.apart packet List.mem_cons_self exit hexit

/-- If the parts that come are measured, everything is accounted for after every history. -/
theorem Reaches.accounted_of_measured {strict : Bool} {history : List Event} {view : View}
    (h : Reaches strict history view) (hmeasured : Measured (parts history)) :
    Accounted history view := by
  induction h with
  | start => exact ⟨by simp, by simp, by simp, List.Pairwise.nil⟩
  | next hbefore hstep ih =>
    rw [parts_append] at hmeasured
    have haccounted := ih hmeasured.left
    cases hstep with
    | placed harrival hplaced =>
      obtain ⟨part, hpart⟩ := exists_part_of_arrival? harrival
      rw [← parts_append, parts_concat_of_part? _ hpart] at hmeasured
      exact haccounted.place hpart hmeasured (placement_of_placeAmong hpart harrival hplaced)
    | left hfate => exact haccounted.left hbefore.ascending (fate?_eq_some_iff.1 hfate).1

theorem Reaches.accounted {strict : Bool} {history : List Event} {view : View}
    (h : Reaches strict history view) (hcoherent : Coherent (parts history)) :
    Accounted history view := h.accounted_of_measured hcoherent.measured

/-- No entry holds more than its packet. -/
theorem Accounted.carried_le {history : List Event} {view : View} (h : Accounted history view)
    (hcoherent : Coherent (parts history)) {entry : Packet} (hentry : entry ∈ view.entries) :
    entry.carried ≤ entry.length := by
  obtain ⟨-, hheld, part, hpart, hsame⟩ := h.held entry hentry
  rw [UInt64.le_iff_toNat_le, hsame.length]
  rw [hsame.number] at hheld
  exact Nat.le_trans hheld (hcoherent.bounded part hpart)

end RadioAccess.Reassembly
