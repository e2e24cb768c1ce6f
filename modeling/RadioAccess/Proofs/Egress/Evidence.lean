import RadioAccess.Proofs.Egress.Verdicts
import RadioAccess.Proofs.Reassembly.Evidence

/-!
# What a Verdict Says

The sender of a packet learns only whether it was accepted.  An acceptance stands for a packet of which
everything but the slack has arrived in time and nothing beyond the slack is lost, before or after.  A
rejection stands for a loss, or for a stream that had passed the packet.
-/

namespace RadioAccess.Reassembly

open Packet (bitsUnder bitsUnder_append)

/-- What is known of a packet that leaves in the middle of a history. -/
structure Departing (strict : Bool) (before : List Event) (exit : Exit) : Prop where
  grounded : Grounded strict before exit.settled.packet
  named : ∃ part ∈ parts before, SamePacket exit.settled.packet part
  fate : ∃ dataWaits, fate? strict exit.now exit.cursor exit.settled.packet dataWaits =
    some exit.settled.fate

theorem Reaches.departing {strict : Bool} {before later : List Event} {exit : Exit} {view : View}
    (h : Reaches strict (before ++ .left exit :: later) view)
    (hmeasured : Measured (parts (before ++ .left exit :: later))) : Departing strict before exit := by
  rw [parts_append] at hmeasured
  obtain ⟨middle, next, hbefore, hstep⟩ := h.split
  cases hstep with
  | placed harrival hplaced => cases harrival
  | left hfate =>
    obtain ⟨-, -, hnamed⟩ :=
      (hbefore.accounted_of_measured hmeasured.left).held _ List.mem_cons_self
    exact ⟨hbefore.grounded hmeasured.left _ List.mem_cons_self, hnamed, _, hfate⟩

namespace Departing

variable {strict : Bool} {before later : List Event} {exit : Exit}

theorem intact (h : Departing strict before exit) (hfate : exit.settled.fate = .delivered) :
    Intact strict before exit.settled.packet := by
  obtain ⟨dataWaits, hleaves⟩ := h.fate
  rw [hfate] at hleaves
  obtain ⟨-, ⟨-, hstale⟩ | ⟨-, -, ⟨-, hlost⟩ | ⟨hsound, -, -⟩⟩⟩ := fate?_eq_some_iff.1 hleaves
  · cases hstale
  · cases hlost
  · exact h.grounded.intact hsound

/-- What is delivered has arrived but for the slack. -/
theorem length_le (h : Departing strict before exit) (hfate : exit.settled.fate = .delivered) :
    exit.settled.packet.length.toNat ≤ bitsUnder exit.number (arrivals before) + completionSlack := by
  obtain ⟨dataWaits, hleaves⟩ := h.fate
  calc
    exit.settled.packet.length.toNat ≤ exit.settled.packet.carried.toNat + completionSlack :=
      length_le_of_isComplete (fate?_eq_some_iff.1 hleaves).1
    _ ≤ bitsUnder exit.number (arrivals before) + completionSlack :=
      Nat.add_le_add_right (h.intact hfate).bits _

/-- What is delivered loses nothing beyond the slack, also not afterwards: all its parts together carry
no more than its length. -/
theorem carried_le_of_mem_losses (h : Departing strict before exit)
    (hmeasured : Measured (parts (before ++ later))) (hfate : exit.settled.fate = .delivered)
    {part : Packet} (hpart : part ∈ losses (before ++ later)) (hnumber : part.number = exit.number) :
    part.carried.toNat ≤ completionSlack := by
  rw [losses_append] at hpart
  rcases List.mem_append.1 hpart with hearlier | hlater
  · exact (h.intact hfate).whole part hearlier hnumber
  obtain ⟨first, hfirst, hsame⟩ := h.named
  have hmem : first ∈ parts (before ++ later) := by simp [hfirst]
  have hown : first.number = exit.number := hsame.number.symm
  have hlength := h.length_le hfate
  have hbounded := hmeasured.bounded first hmem
  have hcarried := Packet.carried_le_bitsUnder hlater
  rw [hnumber] at hcarried
  rw [hsame.length] at hlength
  rw [hown, parts_append, bitsUnder_append, bitsUnder_parts, bitsUnder_parts] at hbounded
  omega

/-- What is delivered was due, if its release times are numbers. -/
theorem not_lt_of_merged (h : Departing strict before exit) (hfate : exit.settled.fate = .delivered)
    (htimes : ∀ releaseAt, Merged strict exit.number releaseAt before → releaseAt.isNaN = false)
    {releaseAt : Float} (hmerged : Merged strict exit.number releaseAt before) :
    ¬releaseAt > exit.now := by
  obtain ⟨dataWaits, hleaves⟩ := h.fate
  rw [hfate] at hleaves
  obtain ⟨-, ⟨-, hstale⟩ | ⟨-, -, ⟨-, hlost⟩ | ⟨-, hdue, -⟩⟩⟩ := fate?_eq_some_iff.1 hleaves
  · cases hstale
  · cases hlost
  intro hlate
  apply hdue
  apply Real64.lt_of_lt_of_not_lt hlate
  · exact h.grounded.due releaseAt hmerged
  · exact htimes _ (h.intact hfate).released

/-- What is not delivered has lost a part, came with the mark of a loss, or was passed by a strict
stream. -/
theorem exists_loss (h : Departing strict before exit) (hfate : exit.settled.fate ≠ .delivered) :
    ((∃ part ∈ losses before, part.number = exit.number) ∨
        ∃ part ∈ arrivals before, part.number = exit.number ∧ part.erased = true) ∨
      strict = true ∧ exit.cursor.any (exit.number ≤ ·) = true := by
  obtain ⟨dataWaits, hleaves⟩ := h.fate
  obtain ⟨-, ⟨hstale, -⟩ | ⟨-, -, ⟨hmarked, -⟩ | ⟨-, -, hdelivered⟩⟩⟩ := fate?_eq_some_iff.1 hleaves
  · rw [Bool.and_eq_true] at hstale
    exact .inr hstale
  · exact .inl (h.grounded.marked hmarked)
  · exact absurd hdelivered hfate

end Departing

end RadioAccess.Reassembly

namespace RadioAccess.Egress

open Packet (bitsUnder)
open Reassembly (Event Measured Merged arrivals exits losses parts)

theorem delivered_of_accept {settled : Settled} {number : UInt32}
    (h : settled.verdict = .accept number) :
    settled.fate = .delivered ∧ settled.packet.number = number := by
  rw [Settled.verdict] at h
  cases hfate : settled.fate <;> simp_all

theorem not_delivered_of_reject {settled : Settled} {number : UInt32}
    (h : settled.verdict = .reject number) :
    settled.fate ≠ .delivered ∧ settled.packet.number = number := by
  rw [Settled.verdict] at h
  cases hfate : settled.fate <;> simp_all

/-- If the parts under each number agree on the length of its packet and carry no more than that
together, verdicts tell the truth.  When a packet is accepted, all of it but the slack has arrived, no
part of it beyond the slack is lost in the whole run, and none of the parts merged into its entry was to
leave later, provided their times are numbers.  When a packet is rejected, a part of it was lost before,
or the stream of a strict far end had reached its number, unless it came with the mark of a loss. -/
theorem verdict_tells_truth {strict : Bool} {stream : Random} {calls : List Call} {record : Record}
    {after : Egress} (hparts : Measured (calls.flatMap Call.parts))
    (h : (empty (.reassembly strict) stream).run calls = .ok (record, after)) :
    record.departures.flatMap (·.settled) = (exits record.history).map (·.settled) ∧
      ∀ before exit later, record.history = before ++ .left exit :: later → ∀ number,
        (exit.settled.verdict = .accept number →
          (∃ part ∈ arrivals before, part.number = number) ∧
          (∀ part ∈ calls.flatMap Call.parts, part.number = number →
            part.length.toNat ≤ bitsUnder number (arrivals before) + completionSlack) ∧
          (∀ part ∈ losses record.history, part.number = number →
            part.carried.toNat ≤ completionSlack) ∧
          ((∀ releaseAt, Merged strict number releaseAt before → releaseAt.isNaN = false) →
            ∀ releaseAt, Merged strict number releaseAt before → ¬releaseAt > exit.now)) ∧
        (exit.settled.verdict = .reject number →
          (∀ part ∈ arrivals before, part.number = number → part.erased = false) →
          (∃ part ∈ losses before, part.number = number) ∨
            strict = true ∧ exit.cursor.any (number ≤ ·) = true) := by
  obtain ⟨assembly, htraced⟩ := traced_of_run h
  rw [← htraced.parts] at hparts ⊢
  refine ⟨htraced.settled, fun before exit later hhistory number ↦ ⟨fun haccept ↦ ?_, fun hreject ↦ ?_⟩⟩
  · obtain ⟨hfate, rfl⟩ := delivered_of_accept haccept
    rw [hhistory] at hparts ⊢
    have hdeparting := (hhistory ▸ htraced.reaches).departing hparts
    obtain ⟨first, hfirst, hsame⟩ := hdeparting.named
    refine ⟨(hdeparting.intact hfate).released.exists_arrived, fun part hpart hnumber ↦ ?_,
      fun part hpart hnumber ↦ hdeparting.carried_le_of_mem_losses hparts hfate hpart hnumber,
      fun htimes releaseAt hmerged ↦ hdeparting.not_lt_of_merged hfate htimes hmerged⟩
    have hlength := hdeparting.length_le hfate
    rwa [hsame.length, hparts.length first (by simp [hfirst]) part hpart
      (hsame.number.symm.trans hnumber.symm)] at hlength
  · obtain ⟨hfate, rfl⟩ := not_delivered_of_reject hreject
    rw [hhistory] at hparts
    intro hsound
    obtain (hloss | ⟨part, hpart, hnumber, hmarked⟩) | hstale :=
      ((hhistory ▸ htraced.reaches).departing hparts).exists_loss hfate
    · exact .inl hloss
    · rw [hsound part hpart hnumber] at hmarked
      cases hmarked
    · exact .inr hstale

/-- The first 8 of 20 bits are lost before anything else of packet 0 comes, and half of packet 1. -/
theorem verdict_tells_truth_of_lost_crumb :
    ∃ state,
      (empty (.reassembly true) (.ofSeed 1)).run
        [.losePacket { Packet.whole 0 none 20 0.0 .none with carried := 8 },
          .arrive { TransportBlock.empty 0 0.5 10 100.0 .none with
            packets := #[{ Packet.whole 0 none 20 0.0 .none with carried := 12 },
              { Packet.whole 1 (some 0) 30 0.0 .none with carried := 15 }] },
          .losePacket { Packet.whole 1 (some 0) 30 0.0 .none with carried := 15 },
          .step 1.0, .release] = .ok state ∧
      (state.1.departures.flatMap (·.settled)).map (·.verdict) = [.accept 0, .reject 1] ∧
      ∀ before exit later, state.1.history = before ++ .left exit :: later →
        (exit.settled.verdict = .accept 0 →
          ∀ part ∈ losses state.1.history, part.number = 0 → part.carried.toNat ≤ completionSlack) ∧
        (exit.settled.verdict = .reject 1 →
          (∀ part ∈ arrivals before, part.number = 1 → part.erased = false) →
          (∃ part ∈ losses before, part.number = 1) ∨ exit.cursor.any (1 ≤ ·) = true) := by
  refine exists_ok_of_any (fun state ↦
    (state.1.departures.flatMap (·.settled)).map (·.verdict) = [.accept 0, .reject 1])
    (by decide +kernel) fun state h hverdicts ↦
      ⟨of_decide_eq_true hverdicts, fun before exit later hhistory ↦ ?_⟩
  obtain ⟨-, htruth⟩ := verdict_tells_truth ⟨by decide, by decide, by decide⟩ h
  exact ⟨fun haccept ↦ ((htruth before exit later hhistory 0).1 haccept).2.2.1,
    fun hreject hsound ↦ ((htruth before exit later hhistory 1).2 hreject hsound).imp_right And.right⟩

end RadioAccess.Egress
