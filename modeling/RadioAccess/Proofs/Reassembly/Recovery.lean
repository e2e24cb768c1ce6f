import RadioAccess.Proofs.Reassembly.Settlement

/-!
# Recovering Packets

What is put together when no part is lost.  A part within the slack cannot start an entry, so the parts
that come before the first one that can are crumbs: their bits are missing for good.  An entry holds all
bits of its number but the crumbs, and a packet can leave only if its crumbs are within the slack.
-/

namespace RadioAccess.Reassembly

open Packet (bitsUnder bitsUnder_append bitsUnder_self totalBits totalBits_append)
open PacketTree (putAmong)

/-! ## Crumbs -/

/-- The parts of a number before the first one that can start an entry. -/
def crumbs (number : UInt32) (parts : List Packet) : List Packet :=
  (parts.filter (·.number = number)).takeWhile (!startsEntry ·)

/-- Whether there is a part of a number that can start an entry. -/
def IsStarted (number : UInt32) (parts : List Packet) : Prop :=
  ∃ part ∈ parts, part.number = number ∧ startsEntry part = true

/-- Whether the parts of a number can be put together: an entry is started, and no more than the slack
is missing. -/
def Recoverable (number : UInt32) (parts : List Packet) : Prop :=
  IsStarted number parts ∧ totalBits (crumbs number parts) ≤ completionSlack

instance (number : UInt32) (parts : List Packet) : Decidable (IsStarted number parts) :=
  inferInstanceAs (Decidable (∃ part ∈ parts, part.number = number ∧ startsEntry part = true))

instance (number : UInt32) (parts : List Packet) : Decidable (Recoverable number parts) :=
  inferInstanceAs (Decidable (_ ∧ _))

theorem IsStarted.append {number : UInt32} {earlier : List Packet} (h : IsStarted number earlier)
    (later : List Packet) : IsStarted number (earlier ++ later) := by
  obtain ⟨part, hpart, hstarts⟩ := h
  exact ⟨part, List.mem_append_left _ hpart, hstarts⟩

theorem isStarted_concat {number : UInt32} {earlier : List Packet} {part : Packet} :
    IsStarted number (earlier ++ [part]) ↔
      IsStarted number earlier ∨ part.number = number ∧ startsEntry part = true := by
  simp [IsStarted, or_and_right, exists_or]

/-- Once an entry was started, there are no further crumbs. -/
theorem crumbs_append_of_isStarted {number : UInt32} {earlier : List Packet}
    (h : IsStarted number earlier) (later : List Packet) :
    crumbs number (earlier ++ later) = crumbs number earlier := by
  obtain ⟨part, hpart, hnumber, hstarts⟩ := h
  have hmem : part ∈ earlier.filter (·.number = number) := by simp [hpart, hnumber]
  have hshort : ((earlier.filter (·.number = number)).takeWhile (!startsEntry ·)).length ≠
      (earlier.filter (·.number = number)).length := by
    intro hlength
    have hall := (List.takeWhile_prefix (!startsEntry ·)).eq_of_length hlength
    rw [← hall] at hmem
    have hcrumb := List.all_eq_true.1 List.all_takeWhile part hmem
    simp [hstarts] at hcrumb
  rw [crumbs, List.filter_append, List.takeWhile_append, if_neg hshort, crumbs]

/-- If nothing came that can start an entry, all that came are crumbs. -/
theorem totalBits_crumbs_concat {earlier : List Packet} {part : Packet}
    (h : ¬IsStarted part.number earlier) (hstarts : startsEntry part = true) :
    totalBits (crumbs part.number (earlier ++ [part])) = bitsUnder part.number earlier := by
  have hall : ∀ other ∈ earlier.filter (·.number = part.number), (!startsEntry other) = true := by
    intro other hother
    simp only [List.mem_filter, decide_eq_true_eq] at hother
    rw [Bool.not_eq_true']
    exact Bool.eq_false_iff.2 fun hother' ↦ h ⟨other, hother.1, hother.2, hother'⟩
  have hlast : [part].filter (·.number = part.number) = [part] := by simp
  rw [crumbs, List.filter_append, List.takeWhile_append_of_pos hall, hlast,
    List.takeWhile_cons_of_neg (by simp [hstarts]), List.append_nil]
  rfl

theorem Recoverable.append {number : UInt32} {earlier : List Packet} (h : Recoverable number earlier)
    (later : List Packet) : Recoverable number (earlier ++ later) := by
  refine ⟨h.1.append later, ?_⟩
  rw [crumbs_append_of_isStarted h.1]
  exact h.2

/-! ## Started numbers -/

theorem exists_mem_putAmong_iff {number other : UInt32} {new : Packet} {packets : List Packet}
    (hnew : new.number = other) :
    (∃ entry ∈ putAmong other new packets, entry.number = number) ↔
      other = number ∨ ∃ entry ∈ packets, entry.number = number := by
  simp only [mem_putAmong_iff, or_and_right, exists_or, exists_eq_left, hnew]
  apply or_congr_right'
  intro hne
  apply exists_congr
  intro entry
  constructor
  · rintro ⟨⟨hentry, -⟩, hnumber⟩
    exact ⟨hentry, hnumber⟩
  · rintro ⟨hentry, hnumber⟩
    exact ⟨⟨hentry, fun heq ↦ hne (heq.symm.trans hnumber)⟩, hnumber⟩

/-- Among the numbers with a part that can start an entry are exactly those of the entries and of the
packets that have left. -/
theorem Reaches.isStarted_iff {strict : Bool} {history : List Event} {view : View}
    (h : Reaches strict history view) (number : UInt32) :
    IsStarted number (parts history) ↔ (∃ entry ∈ view.entries, entry.number = number) ∨
      ∃ exit ∈ exits history, exit.number = number := by
  induction h with
  | start => simp [IsStarted]
  | next hbefore hstep ih =>
    cases hstep with
    | @placed cursor entries after event arrival harrival hplaced =>
      obtain ⟨part, hpart⟩ := exists_part_of_arrival? harrival
      rw [parts_concat_of_part? _ hpart, exits_concat_of_part? _ hpart, isStarted_concat, ih]
      cases placement_of_placeAmong hpart harrival hplaced with
      | @joined entry joined hentry hnumber hjoin hsame hsum =>
        have hown : part.number = number → ∃ entry ∈ entries, entry.number = number :=
          fun hpart ↦ ⟨entry, hentry, hnumber.trans hpart⟩
        rw [exists_mem_putAmong_iff (hsame.number.trans hnumber), or_iff_right_of_imp hown]
        exact or_iff_left_of_imp fun hpart ↦ .inl (hown hpart.1)
      | started habsent hstarts hfresh hsame hcarried =>
        rw [exists_mem_putAmong_iff hsame.number, and_iff_left hstarts, or_comm, or_assoc]
      | ignored habsent hstarts => simp [hstarts]
    | @left now cursor packet later fate hfate =>
      rw [parts_concat_left, exits_concat_left, ih]
      simp only [List.mem_cons, List.mem_append, List.not_mem_nil, or_false, or_and_right, exists_or,
        exists_eq_left, Exit.number]
      rw [or_assoc, or_left_comm]
      exact or_congr_right or_comm

/-- A part with which an entry starts is the first one of its number that could start one. -/
theorem Reaches.not_isStarted {strict : Bool} {history : List Event} {cursor : Option UInt32}
    {entries : List Packet} {part : Packet} (h : Reaches strict history ⟨cursor, entries⟩)
    (hmeasured : Measured (parts history ++ [part]))
    (habsent : ∀ entry ∈ entries, entry.number ≠ part.number) (hstarts : startsEntry part = true) :
    ¬IsStarted part.number (parts history) := by
  rw [h.isStarted_iff]
  rintro (⟨entry, hentry, hnumber⟩ | ⟨exit, hexit, hnumber⟩)
  · exact habsent entry hentry hnumber
  · -- The whole packet has left, so only a crumb of it can still come.
    have haccounted := h.accounted_of_measured hmeasured.left
    rw [haccounted.not_startsEntry hmeasured hexit hnumber] at hstarts
    cases hstarts

/-! ## Histories without loss -/

/-- A history in which no part is lost. -/
structure Lossless (history : List Event) : Prop where
  coherent : Coherent (parts history)
  sound : ∀ part ∈ parts history, part.erased = false
  kept : ∀ part, Event.lost part ∉ history

theorem Lossless.left {earlier later : List Event} (h : Lossless (earlier ++ later)) :
    Lossless earlier := by
  have hcoherent := h.coherent
  rw [parts_append] at hcoherent
  refine ⟨hcoherent.left, fun part hpart ↦ h.sound part ?_, fun part hpart ↦ h.kept part ?_⟩
  · rw [parts_append]
    exact List.mem_append_left _ hpart
  · exact List.mem_append_left _ hpart

/-- An entry of which only the crumbs are missing. -/
structure Recovering (history : List Event) (entry : Packet) : Prop where
  sound : entry.erased = false
  started : IsStarted entry.number (parts history)
  bits : entry.carried.toNat + totalBits (crumbs entry.number (parts history)) =
    bitsUnder entry.number (parts history)
  arrived : ∃ part, Event.arrived entry.releaseAt part ∈ history

theorem parts_concat_arrived (history : List Event) (releaseAt : Float) (part : Packet) :
    parts (history ++ [.arrived releaseAt part]) = parts history ++ [part] :=
  parts_concat_of_part? history rfl

theorem exits_concat_arrived (history : List Event) (releaseAt : Float) (part : Packet) :
    exits (history ++ [.arrived releaseAt part]) = exits history :=
  exits_concat_of_part? history (show Event.part? (.arrived releaseAt part) = some part from rfl)

namespace Recovering

variable {history : List Event} {releaseAt : Float} {part entry : Packet}

/-- A part of another number changes nothing. -/
theorem other (h : Recovering history entry) (hne : part.number ≠ entry.number) :
    Recovering (history ++ [.arrived releaseAt part]) entry := by
  obtain ⟨first, hfirst⟩ := h.arrived
  have hparts := parts_concat_arrived history releaseAt part
  refine ⟨h.sound, ?_, ?_, first, List.mem_append_left _ hfirst⟩
  · rw [hparts]
    exact h.started.append _
  · rw [hparts, crumbs_append_of_isStarted h.started, bitsUnder_append,
      Packet.bitsUnder_cons_of_number_ne hne, h.bits]
    rfl

theorem join (h : Recovering history entry) (hnumber : entry.number = part.number) {joined : Packet}
    (hjoin : joinArrived releaseAt part entry = .ok joined) :
    Recovering (history ++ [.arrived releaseAt part]) joined := by
  obtain ⟨rfl, hsum⟩ := eq_of_joinArrived hjoin
  obtain ⟨first, hfirst⟩ := h.arrived
  have hparts := parts_concat_arrived history releaseAt part
  have hbits := h.bits
  refine ⟨h.sound, ?_, ?_, ?_⟩
  · rw [hparts]
    exact h.started.append _
  · show (entry.carried + part.carried).toNat + totalBits (crumbs entry.number _) =
      bitsUnder entry.number _
    have hself := bitsUnder_self part
    rw [← hnumber] at hself
    rw [hparts, crumbs_append_of_isStarted h.started, bitsUnder_append, hself, hsum]
    omega
  · show ∃ other, Event.arrived (if releaseAt > entry.releaseAt then releaseAt else entry.releaseAt)
      other ∈ _
    split
    · exact ⟨part, by simp⟩
    · exact ⟨first, List.mem_append_left _ hfirst⟩

theorem fresh (h : ¬IsStarted part.number (parts history)) (hstarts : startsEntry part = true)
    (hsound : part.erased = false) :
    Recovering (history ++ [.arrived releaseAt part]) { part with releaseAt } := by
  have hparts := parts_concat_arrived history releaseAt part
  refine ⟨hsound, ?_, ?_, part, by simp⟩
  · rw [hparts]
    exact isStarted_concat.2 (.inr ⟨rfl, hstarts⟩)
  · show part.carried.toNat + totalBits (crumbs part.number _) = bitsUnder part.number _
    rw [hparts, totalBits_crumbs_concat h hstarts, bitsUnder_append, bitsUnder_self, Nat.add_comm]

end Recovering

/-- What is known of each packet when no part is lost. -/
structure Recovered (history : List Event) (view : View) : Prop where
  held : ∀ entry ∈ view.entries, Recovering history entry
  gone : ∀ exit ∈ exits history, exit.settled.fate ≠ .lost ∧ Recoverable exit.number (parts history)
  started : ∀ number, IsStarted number (parts history) →
    (∃ entry ∈ view.entries, entry.number = number) ∨ ∃ exit ∈ exits history, exit.number = number

namespace Recovered

variable {history : List Event} {releaseAt : Float} {part : Packet} {cursor : Option UInt32}
  {entries : List Packet} {strict : Bool}

/-- A packet that has left stays recoverable. -/
theorem gone_concat (h : Recovered history ⟨cursor, entries⟩) (releaseAt : Float) (part : Packet) :
    ∀ exit ∈ exits (history ++ [.arrived releaseAt part]), exit.settled.fate ≠ .lost ∧
      Recoverable exit.number (parts (history ++ [.arrived releaseAt part])) := by
  rw [exits_concat_arrived, parts_concat_arrived]
  intro exit hexit
  obtain ⟨hfate, hrecoverable⟩ := h.gone exit hexit
  exact ⟨hfate, hrecoverable.append _⟩

/-- One entry is put in place for the part that has come. -/
theorem held_putAmong (h : Recovered history ⟨cursor, entries⟩) {new : Packet}
    (hnew : Recovering (history ++ [.arrived releaseAt part]) new) :
    ∀ entry ∈ putAmong part.number new entries,
      Recovering (history ++ [.arrived releaseAt part]) entry := by
  intro other hother
  rcases mem_putAmong_iff.1 hother with rfl | ⟨hold, hne⟩
  · exact hnew
  · exact (h.held other hold).other (Ne.symm hne)

theorem place {after : List Packet} (h : Recovered history ⟨cursor, entries⟩)
    (hbefore : Reaches strict history ⟨cursor, entries⟩)
    (hmeasured : Measured (parts history ++ [part])) (hsound : part.erased = false)
    (hplacement : Placement (arrivalOf releaseAt part) part entries after)
    (hreaches : Reaches strict (history ++ [.arrived releaseAt part]) ⟨cursor, after⟩) :
    Recovered (history ++ [.arrived releaseAt part]) ⟨cursor, after⟩ := by
  refine ⟨?_, h.gone_concat releaseAt part, fun number ↦ (hreaches.isStarted_iff number).1⟩
  cases hplacement with
  | @joined entry joined hentry hnumber hjoin hsame hsum =>
    exact h.held_putAmong ((h.held entry hentry).join hnumber hjoin)
  | @started fresh habsent hstarts hfresh hsame hcarried =>
    have hnew := hbefore.not_isStarted hmeasured habsent hstarts
    have heq : fresh = { part with releaseAt } := by
      simpa [arrivalOf, hstarts, eq_comm] using hfresh
    rw [heq]
    exact h.held_putAmong (.fresh hnew hstarts hsound)
  | ignored habsent hstarts =>
    intro other hother
    exact (h.held other hother).other (Ne.symm (habsent other hother))

end Recovered

/-- A packet that leaves lacks no more than the slack. -/
theorem Recovered.left {history : List Event} {strict : Bool} {now : Float}
    {cursor after : Option UInt32} {packet : Packet} {later : List Packet} {dataWaits : Unit → Bool}
    {fate : Fate} (h : Recovered history ⟨cursor, packet :: later⟩)
    (haccounted : Accounted history ⟨cursor, packet :: later⟩) (hcoherent : Coherent (parts history))
    (hfate : fate? strict now cursor packet dataWaits = some fate)
    (hreaches : Reaches strict (history ++ [.left ⟨now, cursor, ⟨packet, fate⟩⟩]) ⟨after, later⟩) :
    Recovered (history ++ [.left ⟨now, cursor, ⟨packet, fate⟩⟩]) ⟨after, later⟩ := by
  have hrecovering := h.held packet List.mem_cons_self
  refine ⟨?_, ?_, fun number ↦ (hreaches.isStarted_iff number).1⟩
  · intro entry hentry
    obtain ⟨hsound, hstarted, hbits, part, hpart⟩ := h.held entry (List.mem_cons_of_mem _ hentry)
    refine ⟨hsound, ?_, ?_, part, List.mem_append_left _ hpart⟩
    · rwa [parts_concat_left]
    · rwa [parts_concat_left]
  · intro exit hexit
    rw [parts_concat_left]
    rw [exits_concat_left] at hexit
    rcases List.mem_append.1 hexit with hbefore | hlast
    · exact h.gone exit hbefore
    rw [List.mem_singleton.1 hlast]
    obtain ⟨hcomplete, hcases⟩ := fate?_eq_some_iff.1 hfate
    obtain ⟨-, -, part, hpart, hsame⟩ := haccounted.held packet List.mem_cons_self
    have hslack := length_le_of_isComplete hcomplete
    have hbounded := hcoherent.bounded part hpart
    have hbits := hrecovering.bits
    rw [← hsame.number, ← hsame.length] at hbounded
    refine ⟨?_, hrecovering.started, ?_⟩
    · rcases hcases with ⟨-, rfl⟩ | ⟨-, -, ⟨herased, -⟩ | ⟨-, -, rfl⟩⟩
      · exact Fate.noConfusion
      · rw [hrecovering.sound] at herased
        cases herased
      · exact Fate.noConfusion
    · show totalBits (crumbs packet.number (parts history)) ≤ completionSlack
      omega

/-- If no part is lost, no packet is, and each entry lacks only its crumbs. -/
theorem Reaches.recovered {strict : Bool} {history : List Event} {view : View}
    (h : Reaches strict history view) (hlossless : Lossless history) : Recovered history view := by
  induction h with
  | start => exact ⟨by simp, by simp, fun number hstarted ↦ by simp [IsStarted] at hstarted⟩
  | @next history event before after hbefore hstep ih =>
    have hrecovered := ih hlossless.left
    have haccounted := hbefore.accounted hlossless.left.coherent
    have hreaches := hbefore.next hstep
    cases hstep with
    | placed harrival hplaced =>
      cases event with
      | arrived releaseAt part =>
        cases harrival
        have hparts := parts_concat_arrived history releaseAt part
        have hcoherent := hlossless.coherent
        have hsound := hlossless.sound part (by rw [hparts]; simp)
        rw [hparts] at hcoherent
        have hpart : Event.part? (.arrived releaseAt part) = some part := rfl
        exact hrecovered.place hbefore hcoherent.measured hsound
          (placement_of_placeAmong hpart rfl hplaced) hreaches
      | lost part => exact absurd (List.mem_append_right _ List.mem_cons_self) (hlossless.kept part)
      | left exit => cases harrival
    | left hfate => exact hrecovered.left haccounted hlossless.left.coherent hfate hreaches

end RadioAccess.Reassembly
