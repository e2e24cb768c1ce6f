import RadioAccess.Proofs.Real64.Order
import RadioAccess.Proofs.Reassembly.Recovery

/-!
# What an Entry Rests On

An entry tells of the parts of its number only what it has summed up: bits, a release time and a mark
for a loss.  Here these are traced back to the parts themselves.  An entry without the mark holds bits
that have arrived, has lost nothing beyond the slack, and is due when the last of the parts that were
merged into it is; an entry with the mark goes back to a part that was lost (`Reaches.grounded`).

Release times come from measured delays and may fail to be numbers.  No such time counts as later than
another one, so the time of an entry bounds those of its parts only if it is a number.
-/

namespace RadioAccess.Reassembly

open Packet (bitsUnder bitsUnder_append bitsUnder_self bitsUnder_cons_of_number_eq
  bitsUnder_cons_of_number_ne)
open PacketTree (putAmong)

/-! ## Merged parts -/

/-- Whether a part that may leave at a time was merged into the entry of a number: there is an entry of
that number once the part has come. -/
def Merged (strict : Bool) (number : UInt32) (releaseAt : Float) (history : List Event) : Prop :=
  ∃ earlier part later view, history = earlier ++ .arrived releaseAt part :: later ∧
    part.number = number ∧ Reaches strict (earlier ++ [.arrived releaseAt part]) view ∧
    ∃ entry ∈ view.entries, entry.number = number

section

variable {strict : Bool} {number : UInt32} {releaseAt : Float} {history : List Event}

theorem Merged.append (h : Merged strict number releaseAt history) (more : List Event) :
    Merged strict number releaseAt (history ++ more) := by
  obtain ⟨earlier, part, later, view, rfl, hmerged⟩ := h
  exact ⟨earlier, part, later ++ more, view, by simp, hmerged⟩

theorem Merged.isStarted (h : Merged strict number releaseAt history) :
    IsStarted number (parts history) := by
  obtain ⟨earlier, part, later, view, rfl, -, hreaches, hentry⟩ := h
  have hstarted := (hreaches.isStarted_iff number).2 (.inl hentry)
  rw [List.append_cons, parts_append]
  exact hstarted.append _

theorem Merged.exists_arrived (h : Merged strict number releaseAt history) :
    ∃ part ∈ arrivals history, part.number = number := by
  obtain ⟨earlier, part, later, view, rfl, hnumber, -⟩ := h
  exact ⟨part, List.mem_filterMap.2 ⟨.arrived releaseAt part, by simp, rfl⟩, hnumber⟩

theorem merged_concat_self {part entry : Packet} {view : View}
    (h : Reaches strict (history ++ [.arrived releaseAt part]) view) (hentry : entry ∈ view.entries)
    (hnumber : entry.number = part.number) :
    Merged strict part.number releaseAt (history ++ [.arrived releaseAt part]) :=
  ⟨history, part, [], view, rfl, rfl, h, entry, hentry, hnumber⟩

/-- What was merged was so before, or comes with the last event. -/
theorem Merged.of_concat {event : Event} (h : Merged strict number releaseAt (history ++ [event])) :
    Merged strict number releaseAt history ∨
      ∃ part, event = .arrived releaseAt part ∧ part.number = number := by
  obtain ⟨earlier, part, later, view, heq, hnumber, hmerged⟩ := h
  rcases List.eq_nil_or_concat later with rfl | ⟨later, last, rfl⟩
  · obtain ⟨-, hlast⟩ := List.append_inj' heq rfl
    exact .inr ⟨part, List.singleton_inj.1 hlast, hnumber⟩
  · rw [List.concat_eq_append, ← List.cons_append, ← List.append_assoc] at heq
    obtain ⟨rfl, -⟩ := List.append_inj' heq rfl
    exact .inl ⟨earlier, part, later, view, rfl, hnumber, hmerged⟩

theorem Merged.of_concat_lost {part : Packet}
    (h : Merged strict number releaseAt (history ++ [.lost part])) :
    Merged strict number releaseAt history := by
  obtain hearlier | ⟨_, heq, -⟩ := h.of_concat
  · exact hearlier
  · cases heq

end

/-! ## Entries -/

/-- What an entry without the mark of a loss rests on. -/
structure Intact (strict : Bool) (history : List Event) (entry : Packet) : Prop where
  released : Merged strict entry.number entry.releaseAt history
  bits : entry.carried.toNat ≤ bitsUnder entry.number (arrivals history)
  whole : ∀ part ∈ losses history, part.number = entry.number → part.carried.toNat ≤ completionSlack

/-- What an entry rests on.  A part that was marked before it came is as good as lost. -/
structure Grounded (strict : Bool) (history : List Event) (entry : Packet) : Prop where
  due : ∀ releaseAt, Merged strict entry.number releaseAt history → ¬releaseAt > entry.releaseAt
  intact : entry.erased = false → Intact strict history entry
  marked : entry.erased = true → (∃ part ∈ losses history, part.number = entry.number) ∨
    ∃ part ∈ arrivals history, part.number = entry.number ∧ part.erased = true

theorem carried_le_of_startsEntry_eq_false {part : Packet} (h : startsEntry part = false) :
    part.carried.toNat ≤ completionSlack := by
  simp only [startsEntry, Bool.or_eq_false_iff, decide_eq_false_iff_not, Nat.not_lt] at h
  exact h.2

namespace Grounded

variable {strict : Bool} {history : List Event} {event : Event} {arrival : Arrival}
  {part entry joined fresh : Packet} {view : View}

/-- An event that brings no part of the number changes nothing. -/
theorem mono (h : Grounded strict history entry)
    (hother : ∀ part, event.part? = some part → part.number ≠ entry.number) :
    Grounded strict (history ++ [event]) entry := by
  refine ⟨fun releaseAt hmerged ↦ ?_, fun hsound ↦ ⟨?_, ?_, ?_⟩, fun hmarked ↦ ?_⟩
  · obtain hearlier | ⟨part, rfl, hnumber⟩ := hmerged.of_concat
    · exact h.due releaseAt hearlier
    · exact absurd hnumber (hother part rfl)
  · exact (h.intact hsound).released.append _
  · rw [arrivals_append, bitsUnder_append]
    exact Nat.le_add_right_of_le (h.intact hsound).bits
  · intro part hpart hnumber
    rw [losses_append] at hpart
    rcases List.mem_append.1 hpart with hearlier | hlast
    · exact (h.intact hsound).whole part hearlier hnumber
    · obtain ⟨last, hmem, hlost⟩ := List.mem_filterMap.1 hlast
      rw [List.mem_singleton.1 hmem] at hlost
      cases event with
      | lost lost =>
        cases hlost
        exact absurd hnumber (hother part rfl)
      | arrived releaseAt part => cases hlost
      | left exit => cases hlost
  · obtain ⟨part, hpart, hnumber⟩ | ⟨part, hpart, hnumber⟩ := h.marked hmarked
    · exact .inl ⟨part, by simp [hpart], hnumber⟩
    · exact .inr ⟨part, by simp [hpart], hnumber⟩

/-- An entry goes on resting on what it rested on, with the part that joins it. -/
theorem join (h : Grounded strict history entry) (hpart : event.part? = some part)
    (harrival : event.arrival? = some arrival) (hnumber : entry.number = part.number)
    (hjoin : arrival.join entry = .ok joined) (hafter : Reaches strict (history ++ [event]) view)
    (hjoined : joined ∈ view.entries) : Grounded strict (history ++ [event]) joined := by
  cases event with
  | left exit => cases hpart
  | arrived releaseAt arrived =>
    cases hpart
    cases harrival
    obtain ⟨rfl, hsum⟩ := eq_of_joinArrived hjoin
    have hmerged := merged_concat_self hafter hjoined hnumber
    rw [← hnumber] at hmerged
    refine ⟨fun other hother ↦ ?_, fun hsound ↦ ⟨?_, ?_, ?_⟩, fun hmarked ↦ ?_⟩
    · show ¬other > if releaseAt > entry.releaseAt then releaseAt else entry.releaseAt
      split
      · rename_i hlater
        obtain hearlier | ⟨part, heq, -⟩ := hother.of_concat
        · exact fun hlt ↦ h.due other hearlier (Real64.lt_trans hlater hlt)
        · cases heq
          exact Real64.lt_irrefl _
      · rename_i hlater
        obtain hearlier | ⟨part, heq, -⟩ := hother.of_concat
        · exact h.due other hearlier
        · cases heq
          exact hlater
    · show Merged strict entry.number
        (if releaseAt > entry.releaseAt then releaseAt else entry.releaseAt) _
      split
      · exact hmerged
      · exact (h.intact hsound).released.append _
    · show (entry.carried + part.carried).toNat ≤ bitsUnder entry.number _
      have hself := bitsUnder_self part
      have hbits := (h.intact hsound).bits
      rw [← hnumber] at hself
      rw [arrivals_concat_arrived, bitsUnder_append, hself, hsum]
      omega
    · rw [losses_concat_arrived]
      exact (h.intact hsound).whole
    · obtain ⟨other, hother, hsame⟩ | ⟨other, hother, hsame⟩ := h.marked hmarked
      · exact .inl ⟨other, by simp [hother], hsame⟩
      · exact .inr ⟨other, by simp [hother], hsame⟩
  | lost lost =>
    cases hpart
    cases harrival
    obtain ⟨rfl, -⟩ := eq_of_joinLost hjoin
    refine ⟨fun other hother ↦ h.due other hother.of_concat_lost, fun hsound ↦ Bool.noConfusion hsound,
      fun _ ↦ .inl ⟨part, ?_, hnumber.symm⟩⟩
    rw [losses_concat_lost]
    exact List.mem_append_right _ (List.mem_singleton_self _)

/-- An entry rests on the part that starts it: the others that came could not start one. -/
theorem start (hnone : ¬IsStarted part.number (parts history)) (hpart : event.part? = some part)
    (harrival : event.arrival? = some arrival) (hfresh : arrival.fresh = some fresh)
    (hafter : Reaches strict (history ++ [event]) view) (hmem : fresh ∈ view.entries) :
    Grounded strict (history ++ [event]) fresh := by
  obtain ⟨hstarts, hsame, hcarried⟩ := samePacket_of_fresh hpart harrival hfresh
  have hcrumb : ∀ other ∈ losses history, other.number = fresh.number →
      other.carried.toNat ≤ completionSlack := by
    intro other hother hnumber
    apply carried_le_of_startsEntry_eq_false
    rw [Bool.eq_false_iff]
    exact fun hother' ↦ hnone
      ⟨other, mem_parts_of_mem_losses hother, hnumber.trans hsame.number, hother'⟩
  have hearlier (releaseAt : Float) : ¬Merged strict fresh.number releaseAt history := by
    rw [hsame.number]
    exact fun hmerged ↦ hnone hmerged.isStarted
  cases event with
  | left exit => cases hpart
  | arrived releaseAt arrived =>
    cases hpart
    cases harrival
    obtain rfl : { part with releaseAt } = fresh := by simpa [arrivalOf, hstarts] using hfresh
    refine ⟨fun other hother ↦ ?_, fun hsound ↦ ⟨?_, ?_, ?_⟩, fun hmarked ↦ .inr ⟨part, ?_, rfl, hmarked⟩⟩
    · obtain hmerged | ⟨part, heq, -⟩ := hother.of_concat
      · exact absurd hmerged (hearlier other)
      · cases heq
        exact Real64.lt_irrefl _
    · exact merged_concat_self hafter hmem rfl
    · show part.carried.toNat ≤ bitsUnder part.number _
      rw [arrivals_concat_arrived, bitsUnder_append, bitsUnder_self]
      exact Nat.le_add_left _ _
    · rw [losses_concat_arrived]
      exact hcrumb
    · rw [arrivals_concat_arrived]
      exact List.mem_append_right _ (List.mem_singleton_self _)
  | lost lost =>
    cases hpart
    cases harrival
    obtain rfl : { part with erased := true } = fresh := by simpa [lossOf, hstarts] using hfresh
    refine ⟨fun other hother ↦ absurd hother.of_concat_lost (hearlier other),
      fun hsound ↦ Bool.noConfusion hsound, fun _ ↦ .inl ⟨part, ?_, rfl⟩⟩
    rw [losses_concat_lost]
    exact List.mem_append_right _ (List.mem_singleton_self _)

end Grounded

/-- If the parts that come are measured, every entry is grounded in them. -/
theorem Reaches.grounded {strict : Bool} {history : List Event} {view : View}
    (h : Reaches strict history view) (hmeasured : Measured (parts history)) :
    ∀ entry ∈ view.entries, Grounded strict history entry := by
  induction h with
  | start => simp
  | @next history event before after hbefore hstep ih =>
    have hafter := hbefore.next hstep
    rw [parts_append] at hmeasured
    have hheld := ih hmeasured.left
    cases hstep with
    | @left now cursor packet later fate hfate =>
      intro entry hentry
      exact (hheld entry (List.mem_cons_of_mem _ hentry)).mono fun part hpart ↦ by cases hpart
    | @placed cursor entries after event arrival harrival hplaced =>
      obtain ⟨part, hpart⟩ := exists_part_of_arrival? harrival
      have hothers (entry : Packet) (hentry : entry ∈ entries) (hne : entry.number ≠ part.number) :
          Grounded strict (history ++ [event]) entry := by
        apply (hheld entry hentry).mono
        intro other hother
        rw [hpart, Option.some.injEq] at hother
        rw [← hother]
        exact hne.symm
      cases placement_of_placeAmong hpart harrival hplaced with
      | @joined entry joined hentry hnumber hjoin hsame hsum =>
        have hnew := (hheld entry hentry).join hpart harrival hnumber hjoin hafter
          (mem_putAmong_iff.2 (.inl rfl))
        intro other hother
        rcases mem_putAmong_iff.1 hother with rfl | ⟨hold, hne⟩
        · exact hnew
        · exact hothers other hold hne
      | @started fresh habsent hstarts hfresh hsame hcarried =>
        rw [← parts_append, parts_concat_of_part? _ hpart] at hmeasured
        have hnone := hbefore.not_isStarted hmeasured habsent hstarts
        have hnew := Grounded.start hnone hpart harrival hfresh hafter (mem_putAmong_iff.2 (.inl rfl))
        intro other hother
        rcases mem_putAmong_iff.1 hother with rfl | ⟨hold, hne⟩
        · exact hnew
        · exact hothers other hold hne
      | ignored habsent hstarts => exact fun entry hentry ↦ hothers entry hentry (habsent entry hentry)

/-! ## Packets that leave -/

/-- What a reassembly held before an event in the middle of a history, and what the event did. -/
theorem Reaches.split {strict : Bool} {before later : List Event} {event : Event} {view : View}
    (h : Reaches strict (before ++ event :: later) view) :
    ∃ middle next, Reaches strict before middle ∧ Step strict middle event next := by
  generalize heq : before ++ event :: later = history at h
  induction h generalizing later with
  | start => simp at heq
  | next hbefore hstep ih =>
    rcases List.eq_nil_or_concat later with rfl | ⟨front, last, rfl⟩
    · obtain ⟨rfl, hevent⟩ := List.append_inj' heq rfl
      rw [List.singleton_inj.1 hevent]
      exact ⟨_, _, hbefore, hstep⟩
    · rw [List.concat_eq_append, ← List.cons_append, ← List.append_assoc] at heq
      obtain ⟨heq, -⟩ := List.append_inj' heq rfl
      exact ih heq

/-- The bits under a number have arrived or are lost. -/
theorem bitsUnder_parts (number : UInt32) (history : List Event) :
    bitsUnder number (parts history) =
      bitsUnder number (arrivals history) + bitsUnder number (losses history) := by
  induction history with
  | nil => rfl
  | cons event later ih =>
    rw [← List.singleton_append, parts_append, arrivals_append, losses_append, bitsUnder_append,
      bitsUnder_append, bitsUnder_append, ih]
    cases event with
    | arrived releaseAt part =>
      show bitsUnder number [part] + _ = bitsUnder number [part] + _ + (0 + _)
      omega
    | lost part =>
      show bitsUnder number [part] + _ = 0 + _ + (bitsUnder number [part] + _)
      omega
    | left exit =>
      show 0 + _ = 0 + _ + (0 + _)
      omega

end RadioAccess.Reassembly
