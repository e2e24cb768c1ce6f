import RadioAccess.Proofs.Reassembly.Evidence
import RadioAccess.Proofs.Reassembly.Sequence

/-!
# Whole Packets in Any Order

Packets that come as a whole, each once, are either waiting or have left, whatever the order of their
arrival (`Reaches.perm_brought`).  If each of them names the number before its own, a strict reassembly
lets them go without a gap from the first one that it takes, and what it finds stale lies below that
(`Reaches.contiguous`).  So the packet that comes next is never missing once all have come: what can
hold back the lowest packet is a release time, or a loss at the start of a stream in which nothing
arrives.
-/

namespace RadioAccess.Reassembly

open PacketTree (putAmong)

/-! ## Entries and their parts -/

/-- The entry that the part of an event starts. -/
def Event.started? : Event → Option Packet
  | arrived releaseAt part => some { part with releaseAt }
  | lost part => some { part with erased := true }
  | left _ => none

/-- The entries that the parts of a history start, each by itself. -/
def brought (history : List Event) : List Packet := history.filterMap Event.started?

@[simp]
theorem brought_append (earlier later : List Event) :
    brought (earlier ++ later) = brought earlier ++ brought later := List.filterMap_append

theorem mem_brought_iff {history : List Event} {packet : Packet} :
    packet ∈ brought history ↔
      (∃ releaseAt part, Event.arrived releaseAt part ∈ history ∧ packet = { part with releaseAt }) ∨
        ∃ part ∈ losses history, packet = { part with erased := true } := by
  rw [brought, List.mem_filterMap]
  constructor
  · rintro ⟨event, hevent, hentry⟩
    cases event with
    | arrived releaseAt part => exact .inl ⟨releaseAt, part, hevent, (Option.some.inj hentry).symm⟩
    | lost part => exact .inr ⟨part, mem_losses_iff.2 hevent, (Option.some.inj hentry).symm⟩
    | left exit => cases hentry
  · rintro (⟨releaseAt, part, hevent, rfl⟩ | ⟨part, hpart, rfl⟩)
    · exact ⟨_, hevent, rfl⟩
    · exact ⟨_, mem_losses_iff.1 hpart, rfl⟩

theorem map_number_brought (history : List Event) :
    (brought history).map (·.number) = (parts history).map (·.number) := by
  rw [brought, parts, List.map_filterMap, List.map_filterMap]
  congr 1
  funext event
  cases event <;> rfl

theorem fresh_eq_started? {event : Event} {arrival : Arrival} {part : Packet}
    (hpart : event.part? = some part) (harrival : event.arrival? = some arrival)
    (hstarts : startsEntry part = true) : arrival.fresh = event.started? := by
  cases event with
  | arrived releaseAt arrived =>
    cases hpart
    cases harrival
    exact if_pos hstarts
  | lost lost =>
    cases hpart
    cases harrival
    exact if_pos hstarts
  | left exit => cases hpart

theorem startsEntry_of_carried_eq {part : Packet} (h : part.carried = part.length) :
    startsEntry part = true := by
  simp [startsEntry, Packet.isPart, h]

/-- What is put among others is added to them. -/
theorem perm_putAmong {number : UInt32} {packets : List Packet}
    (h : ∀ packet ∈ packets, packet.number ≠ number) (new : Packet) :
    (putAmong number new packets).Perm (new :: packets) := by
  have hhigher : packets.filter (number < ·.number) =
      packets.filter fun packet ↦ !decide (packet.number < number) := by
    apply List.filter_congr
    intro packet hpacket
    rw [← decide_not, decide_eq_decide, UInt32.not_lt]
    exact ⟨UInt32.le_of_lt, fun hle ↦ UInt32.lt_of_le_of_ne hle (h packet hpacket).symm⟩
  rw [putAmong, hhigher]
  apply List.perm_middle.trans
  apply List.Perm.cons
  exact List.filter_append_perm _ _

/-- Packets that come as a whole and once: each of them waits or has left, as what it came. -/
theorem Reaches.perm_brought {strict : Bool} {history : List Event} {view : View}
    (h : Reaches strict history view) (hwhole : ∀ part ∈ parts history, part.carried = part.length)
    (honce : ((parts history).map (·.number)).Nodup) :
    (view.entries ++ (exits history).map (·.settled.packet)).Perm (brought history) := by
  induction h with
  | start => exact .nil
  | @next history event before after hbefore hstep ih =>
    cases hstep with
    | @placed cursor entries after event arrival harrival hplaced =>
      obtain ⟨part, hpart⟩ := exists_part_of_arrival? harrival
      rw [parts_concat_of_part? _ hpart] at hwhole honce
      rw [List.map_append, List.nodup_append] at honce
      have hperm := ih (fun other hother ↦ hwhole other (List.mem_append_left _ hother)) honce.1
      have hstarts := startsEntry_of_carried_eq (hwhole part (by simp))
      have habsent : ∀ entry ∈ entries, entry.number ≠ part.number := by
        intro entry hentry
        have hbrought := List.mem_map_of_mem (f := (·.number))
          (hperm.mem_iff.1 (List.mem_append_left _ hentry))
        rw [map_number_brought] at hbrought
        exact honce.2.2 _ hbrought _ (by simp)
      rw [exits_concat_of_part? _ hpart]
      cases placement_of_placeAmong hpart harrival hplaced with
      | joined hentry hnumber hjoin hsame hsum => exact absurd hnumber (habsent _ hentry)
      | @started fresh _ _ hfresh hsame hcarried =>
        have hlast : brought [event] = [fresh] := by
          rw [brought, List.filterMap_cons_some
            ((fresh_eq_started? hpart harrival hstarts).symm.trans hfresh), List.filterMap_nil]
        rw [brought_append, hlast]
        calc
          (putAmong part.number fresh entries ++ (exits history).map (·.settled.packet)).Perm
              (fresh :: (entries ++ (exits history).map (·.settled.packet))) :=
            (perm_putAmong habsent fresh).append_right _
          (fresh :: (entries ++ (exits history).map (·.settled.packet))).Perm
              (brought history ++ [fresh]) :=
            (hperm.cons fresh).trans (List.perm_append_singleton fresh _).symm
      | ignored _ hcannot =>
        rw [hstarts] at hcannot
        cases hcannot
    | @left now cursor packet later fate hfate =>
      rw [parts_concat_left] at hwhole honce
      have hnone : brought [.left ⟨now, cursor, ⟨packet, fate⟩⟩] = [] := rfl
      rw [exits_concat_left, List.map_append, brought_append, hnone, List.append_nil, ← List.append_assoc]
      exact (List.perm_append_singleton packet _).trans (ih hwhole honce)

theorem exists_part_of_mem_brought {history : List Event} {packet : Packet}
    (h : packet ∈ brought history) :
    ∃ part ∈ parts history, SamePacket packet part ∧ packet.carried = part.carried := by
  obtain ⟨releaseAt, part, hevent, rfl⟩ | ⟨part, hpart, rfl⟩ := mem_brought_iff.1 h
  · exact ⟨part, List.mem_filterMap.2 ⟨_, hevent, rfl⟩, ⟨rfl, rfl, rfl⟩, rfl⟩
  · exact ⟨part, mem_parts_of_mem_losses hpart, ⟨rfl, rfl, rfl⟩, rfl⟩

/-! ## Linked packets -/

/-- Packets that come as a whole and once, each of them but the first with the number before its own as
its predecessor. -/
structure Linked (base : UInt32) (packets : List Packet) : Prop where
  whole : ∀ packet ∈ packets, packet.carried = packet.length
  once : (packets.map (·.number)).Nodup
  base_le : ∀ packet ∈ packets, base ≤ packet.number
  predecessor : ∀ packet ∈ packets, packet.number ≠ base →
    packet.predecessor = some (packet.number - 1)

theorem Linked.left {base : UInt32} {earlier later : List Packet} (h : Linked base (earlier ++ later)) :
    Linked base earlier := by
  have honce := h.once
  rw [List.map_append, List.nodup_append] at honce
  exact ⟨fun packet hpacket ↦ h.whole packet (List.mem_append_left _ hpacket), honce.1,
    fun packet hpacket ↦ h.base_le packet (List.mem_append_left _ hpacket),
    fun packet hpacket ↦ h.predecessor packet (List.mem_append_left _ hpacket)⟩

section

variable {strict : Bool} {base : UInt32} {history : List Event} {view : View}

theorem Reaches.perm_of_linked (h : Reaches strict history view) (hlinked : Linked base (parts history)) :
    (view.entries ++ (exits history).map (·.settled.packet)).Perm (brought history) :=
  h.perm_brought hlinked.whole hlinked.once

/-- Each number is that of one entry or of one packet that has left. -/
theorem Reaches.perm_numbers (h : Reaches strict history view) (hlinked : Linked base (parts history)) :
    (view.entries.map (·.number) ++ (exits history).map Exit.number).Perm
      ((parts history).map (·.number)) := by
  have hperm := (h.perm_of_linked hlinked).map (·.number)
  rwa [List.map_append, List.map_map, map_number_brought] at hperm

theorem Reaches.ne_of_mem (h : Reaches strict history view) (hlinked : Linked base (parts history))
    {entry : Packet} {exit : Exit} (hentry : entry ∈ view.entries) (hexit : exit ∈ exits history) :
    exit.number ≠ entry.number := by
  have honce := (h.perm_numbers hlinked).nodup_iff.2 hlinked.once
  exact ((List.nodup_append.1 honce).2.2 _ (List.mem_map_of_mem hentry) _
    (List.mem_map_of_mem hexit)).symm

/-- What has come waits or has left. -/
theorem Reaches.exists_of_part (h : Reaches strict history view) (hlinked : Linked base (parts history))
    {part : Packet} (hpart : part ∈ parts history) :
    (∃ entry ∈ view.entries, entry.number = part.number) ∨
      ∃ exit ∈ exits history, exit.number = part.number :=
  (h.isStarted_iff part.number).1
    ⟨part, hpart, rfl, startsEntry_of_carried_eq (hlinked.whole part hpart)⟩

theorem Reaches.exists_part_of_entry (h : Reaches strict history view)
    (hlinked : Linked base (parts history)) {entry : Packet} (hentry : entry ∈ view.entries) :
    ∃ part ∈ parts history, SamePacket entry part ∧ entry.carried = part.carried :=
  exists_part_of_mem_brought
    ((h.perm_of_linked hlinked).mem_iff.1 (List.mem_append_left _ hentry))

theorem Reaches.base_le_of_exit (h : Reaches strict history view)
    (hlinked : Linked base (parts history)) {exit : Exit} (hexit : exit ∈ exits history) :
    base ≤ exit.number := by
  obtain ⟨part, hpart, hsame, -⟩ := exists_part_of_mem_brought
    ((h.perm_of_linked hlinked).mem_iff.1 (List.mem_append_right _ (List.mem_map_of_mem hexit)))
  rw [Exit.number, hsame.number]
  exact hlinked.base_le part hpart

/-- A packet that came as a whole is complete. -/
theorem Reaches.isComplete (h : Reaches strict history view) (hlinked : Linked base (parts history))
    {entry : Packet} (hentry : entry ∈ view.entries) : entry.isComplete = true := by
  obtain ⟨part, hpart, hsame, hcarried⟩ := h.exists_part_of_entry hlinked hentry
  simp [Packet.isComplete, hcarried, hsame.length, hlinked.whole part hpart]

/-- A packet above the cursor names the number before its own. -/
theorem Reaches.predecessor_of_lt (h : Reaches true history view)
    (hlinked : Linked base (parts history)) {entry : Packet} {last : UInt32}
    (hentry : entry ∈ view.entries) (hcursor : view.cursor = some last) (hlt : last < entry.number) :
    entry.predecessor = some (entry.number - 1) := by
  obtain ⟨exit, hexit, rfl⟩ : ∃ exit ∈ inSequence history, exit.number = last := by
    have hlast := h.sequenced.cursor_eq
    rw [hcursor, eq_comm, Option.map_eq_some_iff] at hlast
    obtain ⟨exit, hexit, hnumber⟩ := hlast
    exact ⟨exit, List.mem_of_getLast? hexit, hnumber⟩
  have hle := h.base_le_of_exit hlinked (List.mem_of_mem_filter hexit)
  obtain ⟨part, hpart, hsame, -⟩ := h.exists_part_of_entry hlinked hentry
  rw [hsame.number] at hlt ⊢
  rw [hsame.predecessor]
  apply hlinked.predecessor part hpart
  rintro rfl
  exact absurd hlt (UInt32.not_lt.2 hle)

end

/-! ## No gaps -/

/-- The numbers that have left a strict reassembly: all from the first one in sequence up to the cursor,
and of the others only some below that. -/
structure Contiguous (history : List Event) (cursor : Option UInt32) : Prop where
  reached : ∀ exit ∈ exits history, ∃ last ∈ cursor, exit.number ≤ last
  filled : ∀ first ∈ (inSequence history).head?, ∀ last ∈ cursor, ∀ number,
    first.number ≤ number → number ≤ last → ∃ exit ∈ inSequence history, exit.number = number
  behind : ∀ exit ∈ exits history, exit.isStale = true →
    ∃ first ∈ (inSequence history).head?, exit.number < first.number

section

variable {history : List Event} {cursor : Option UInt32} {exit : Exit}

theorem Sequenced.exists_first (h : Sequenced (inSequence history) cursor) {last : UInt32}
    (hlast : last ∈ cursor) : ∃ first, (inSequence history).head? = some first := by
  rw [h.cursor_eq] at hlast
  cases hstream : inSequence history with
  | nil =>
    rw [hstream] at hlast
    cases hlast
  | cons first rest => exact ⟨first, rfl⟩

/-- What is found stale was not taken in sequence, so it lies below all that was. -/
theorem Contiguous.stale (h : Contiguous history cursor)
    (hsequenced : Sequenced (inSequence history) cursor)
    (hnew : ∀ other ∈ exits history, other.number ≠ exit.number) (hstale : exit.isStale = true)
    (hreached : ∃ last ∈ cursor, exit.number ≤ last) :
    Contiguous (history ++ [.left exit]) cursor := by
  have hsame : inSequence (history ++ [.left exit]) = inSequence history := by
    rw [inSequence_concat_left, if_pos hstale]
  refine ⟨?_, ?_, ?_⟩
  · intro other hother
    rw [exits_concat_left] at hother
    rcases List.mem_append.1 hother with hearlier | hnow
    · exact h.reached other hearlier
    · rwa [List.mem_singleton.1 hnow]
  · rw [hsame]
    exact h.filled
  · rw [hsame]
    intro other hother hbehind
    rw [exits_concat_left] at hother
    rcases List.mem_append.1 hother with hearlier | hnow
    · exact h.behind other hearlier hbehind
    rw [List.mem_singleton.1 hnow]
    obtain ⟨last, hlast, hle⟩ := hreached
    obtain ⟨first, hfirst⟩ := hsequenced.exists_first hlast
    refine ⟨first, hfirst, UInt32.not_le.1 fun hge ↦ ?_⟩
    obtain ⟨taken, htaken, hnumber⟩ := h.filled first hfirst last hlast exit.number hge hle
    exact hnew taken (List.mem_of_mem_filter htaken) hnumber

/-- What is taken in sequence comes right after the cursor. -/
theorem Contiguous.next (h : Contiguous history cursor) (hstale : exit.isStale = false)
    (hahead : ∀ last ∈ cursor, last < exit.number)
    (hnext : ∀ last ∈ cursor, ∀ number < exit.number, number ≤ last) :
    Contiguous (history ++ [.left exit]) (some exit.number) := by
  have hlonger : inSequence (history ++ [.left exit]) = inSequence history ++ [exit] := by
    rw [inSequence_concat_left, hstale, if_neg Bool.false_ne_true]
  refine ⟨?_, ?_, ?_⟩
  · intro other hother
    rw [exits_concat_left] at hother
    rcases List.mem_append.1 hother with hearlier | hnow
    · obtain ⟨last, hlast, hle⟩ := h.reached other hearlier
      exact ⟨_, rfl, UInt32.le_of_lt (UInt32.lt_of_le_of_lt hle (hahead last hlast))⟩
    · rw [List.mem_singleton.1 hnow]
      exact ⟨_, rfl, UInt32.le_refl _⟩
  · rw [hlonger, List.head?_append]
    rintro first hfirst _ ⟨⟩ number hge hle
    rcases UInt32.lt_or_eq_of_le hle with hlt | rfl
    · cases hold : (inSequence history).head? with
      | none =>
        rw [hold] at hfirst
        cases hfirst
        exact absurd hlt (UInt32.not_lt.2 hge)
      | some old =>
        rw [hold] at hfirst
        cases hfirst
        obtain ⟨last, hlast, -⟩ := h.reached first (List.mem_of_mem_filter (List.mem_of_head? hold))
        obtain ⟨taken, htaken, hnumber⟩ :=
          h.filled first hold last hlast number hge (hnext last hlast number hlt)
        exact ⟨taken, List.mem_append_left _ htaken, hnumber⟩
    · exact ⟨exit, List.mem_append_right _ (List.mem_singleton_self _), rfl⟩
  · rw [hlonger, List.head?_append]
    intro other hother hbehind
    rw [exits_concat_left] at hother
    rcases List.mem_append.1 hother with hearlier | hnow
    · obtain ⟨first, hfirst, hlt⟩ := h.behind other hearlier hbehind
      exact ⟨first, by rw [Option.mem_def.1 hfirst]; rfl, hlt⟩
    · rw [List.mem_singleton.1 hnow, hstale] at hbehind
      cases hbehind

end

theorem any_le_iff (cursor : Option UInt32) (number : UInt32) :
    cursor.any (number ≤ ·) = true ↔ ∃ last ∈ cursor, number ≤ last := by
  cases cursor <;> simp

theorem any_le_eq_false_iff (cursor : Option UInt32) (number : UInt32) :
    cursor.any (number ≤ ·) = false ↔ ∀ last ∈ cursor, last < number := by
  cases cursor <;> simp

theorem continues_some {last predecessor : UInt32} {packet : Packet}
    (h : packet.predecessor = some predecessor) (dataWaits : Unit → Bool) :
    continues (some last) packet dataWaits = (predecessor == last) := by
  simp [continues, h]

theorem toNat_sub_one {number other : UInt32} (h : other < number) :
    (number - 1).toNat = number.toNat - 1 := by
  rw [UInt32.lt_iff_toNat_lt] at h
  apply UInt32.toNat_sub_of_le
  rw [UInt32.le_iff_toNat_le]
  show 1 ≤ number.toNat
  omega

theorem le_sub_one {number other : UInt32} (h : number < other) : number ≤ other - 1 := by
  rw [UInt32.le_iff_toNat_le, toNat_sub_one h]
  rw [UInt32.lt_iff_toNat_lt] at h
  omega

/-- Linked packets leave a strict reassembly without a gap. -/
theorem Reaches.contiguous {base : UInt32} {history : List Event} {view : View}
    (h : Reaches true history view) (hlinked : Linked base (parts history)) :
    Contiguous history view.cursor := by
  induction h with
  | start => exact ⟨by simp, by simp [inSequence], by simp⟩
  | @next history event before after hbefore hstep ih =>
    cases hstep with
    | placed harrival hplaced =>
      obtain ⟨part, hpart⟩ := exists_part_of_arrival? harrival
      have hexits := exits_concat_of_part? history hpart
      have hsequence : inSequence (history ++ [event]) = inSequence history := by
        rw [inSequence, hexits, inSequence]
      rw [parts_append] at hlinked
      obtain ⟨hreached, hfilled, hbehind⟩ := ih hlinked.left
      refine ⟨?_, ?_, ?_⟩
      · rwa [hexits]
      · rwa [hsequence]
      · rwa [hexits, hsequence]
    | @left now cursor packet later fate hfate =>
      rw [parts_concat_left] at hlinked
      have hcontiguous := ih hlinked
      obtain ⟨-, ⟨hstale, rfl⟩ | ⟨hahead, hcontinues, hfates⟩⟩ := fate?_eq_some_iff.1 hfate
      · apply hcontiguous.stale hbefore.sequenced
        · exact fun other hother ↦ hbefore.ne_of_mem hlinked List.mem_cons_self hother
        · exact (isStale_iff_of_fate? hfate).2 rfl
        · exact (any_le_iff cursor packet.number).1 hstale
      rw [Bool.true_and, any_le_eq_false_iff] at hahead
      have hne : fate ≠ .stale := by
        rintro rfl
        simp at hfates
      have hcursor : cursorAfter cursor packet fate = some packet.number := by
        cases fate with
        | stale => exact absurd rfl hne
        | delivered => rfl
        | lost => rfl
      rw [hcursor]
      apply hcontiguous.next
      · exact Bool.eq_false_iff.2 fun hstale ↦ hne ((isStale_iff_of_fate? hfate).1 hstale)
      · exact hahead
      · -- Above the cursor a packet names the number before its own, and that is the cursor.
        rintro last hlast number hlt
        have hpredecessor := hbefore.predecessor_of_lt hlinked List.mem_cons_self hlast
          (hahead last hlast)
        have hgoes := hcontinues rfl
        rw [show cursor = some last from hlast, continues_some hpredecessor, beq_iff_eq] at hgoes
        rw [← hgoes]
        exact le_sub_one hlt

/-! ## All settled -/

/-- Whole packets whose numbers are those from `base` on, in any order, each of them but the first with
the number before its own as its predecessor. -/
structure Consecutive (base : UInt32) (packets : List Packet) : Prop where
  whole : ∀ packet ∈ packets, packet.carried = packet.length
  numbers : (packets.map (·.number.toNat)).Perm (List.range' base.toNat packets.length)
  predecessor : ∀ packet ∈ packets, packet.number ≠ base →
    packet.predecessor = some (packet.number - 1)

namespace Consecutive

variable {base : UInt32} {packets : List Packet}

theorem nodup_numbers (h : Consecutive base packets) : (packets.map (·.number)).Nodup := by
  apply List.Nodup.of_map UInt32.toNat
  rw [List.map_map]
  exact h.numbers.nodup_iff.2 List.nodup_range'

theorem mem_numbers_iff (h : Consecutive base packets) (number : UInt32) :
    (∃ packet ∈ packets, packet.number = number) ↔
      base.toNat ≤ number.toNat ∧ number.toNat < base.toNat + packets.length := by
  have hmem := h.numbers.mem_iff (a := number.toNat)
  rw [List.mem_map, List.mem_range'_1] at hmem
  simpa only [UInt32.toNat_inj] using hmem

theorem linked (h : Consecutive base packets) : Linked base packets := by
  refine ⟨h.whole, h.nodup_numbers, fun packet hpacket ↦ ?_, h.predecessor⟩
  rw [UInt32.le_iff_toNat_le]
  exact ((h.mem_numbers_iff packet.number).1 ⟨packet, hpacket, rfl⟩).1

/-- No number between the first one and that of a packet is left out. -/
theorem exists_packet (h : Consecutive base packets) {packet : Packet} (hpacket : packet ∈ packets)
    {number : UInt32} (hge : base ≤ number) (hle : number ≤ packet.number) :
    ∃ other ∈ packets, other.number = number := by
  have hrange := (h.mem_numbers_iff packet.number).1 ⟨packet, hpacket, rfl⟩
  rw [UInt32.le_iff_toNat_le] at hge hle
  exact (h.mem_numbers_iff number).2 ⟨hge, by omega⟩

end Consecutive

/-- A complete packet leaves if it is due or lost and nothing before it is waited for. -/
theorem fate?_ne_none {strict : Bool} {now : Float} {cursor : Option UInt32} {packet : Packet}
    {dataWaits : Unit → Bool} (hcomplete : packet.isComplete = true)
    (hdue : packet.erased = false → ¬packet.releaseAt > now)
    (hcontinues : strict = true → (∀ last ∈ cursor, last < packet.number) →
      continues cursor packet dataWaits = true) :
    fate? strict now cursor packet dataWaits ≠ none := by
  have hsome : ∃ fate, fate? strict now cursor packet dataWaits = some fate := by
    cases hstale : strict && cursor.any (packet.number ≤ ·) with
    | true => exact ⟨.stale, fate?_eq_some_iff.2 ⟨hcomplete, .inl ⟨hstale, rfl⟩⟩⟩
    | false =>
      have hgoes : strict = true → continues cursor packet dataWaits = true := by
        rintro rfl
        apply hcontinues rfl
        rwa [Bool.true_and, any_le_eq_false_iff] at hstale
      cases hmark : packet.erased with
      | true => exact ⟨.lost, fate?_eq_some_iff.2 ⟨hcomplete, .inr ⟨hstale, hgoes, .inl ⟨hmark, rfl⟩⟩⟩⟩
      | false =>
        exact ⟨.delivered,
          fate?_eq_some_iff.2 ⟨hcomplete, .inr ⟨hstale, hgoes, .inr ⟨hmark, hdue hmark, rfl⟩⟩⟩⟩
  exact Option.ne_none_iff_exists'.2 hsome

section

variable {strict : Bool} {base : UInt32} {history : List Event} {cursor : Option UInt32}
  {packet : Packet} {later : List Packet}

theorem Reaches.lowest_le (h : Reaches strict history ⟨cursor, packet :: later⟩) {entry : Packet}
    (hentry : entry ∈ packet :: later) : packet.number ≤ entry.number := by
  rcases List.mem_cons.1 hentry with rfl | hlater
  · exact UInt32.le_refl _
  · exact UInt32.le_of_lt (List.rel_of_pairwise_cons h.ascending hlater)

/-- Once all packets have come, the lowest one above the cursor is the next one. -/
theorem Reaches.continues_of_cursor {last : UInt32}
    (h : Reaches true history ⟨some last, packet :: later⟩)
    (hconsecutive : Consecutive base (parts history)) (hlt : last < packet.number)
    (dataWaits : Unit → Bool) : continues (some last) packet dataWaits = true := by
  have hlinked := hconsecutive.linked
  have hcontiguous := h.contiguous hlinked
  rw [continues_some (h.predecessor_of_lt hlinked List.mem_cons_self rfl hlt), beq_iff_eq]
  by_contra hne
  have habove : last < packet.number - 1 :=
    UInt32.lt_of_le_of_ne (le_sub_one hlt) fun heq ↦ hne heq.symm
  have hbelow : packet.number - 1 < packet.number := by
    have hprevious := toNat_sub_one hlt
    rw [UInt32.lt_iff_toNat_lt] at hlt ⊢
    omega
  -- Something has left, so the number between lies in the range of the packets.
  have hbase : base ≤ packet.number - 1 := by
    obtain ⟨first, hfirst⟩ := h.sequenced.exists_first rfl
    obtain ⟨last', hlast, hle⟩ := hcontiguous.reached first
      (List.mem_of_mem_filter (List.mem_of_head? hfirst))
    cases hlast
    have hge := h.base_le_of_exit hlinked (List.mem_of_mem_filter (List.mem_of_head? hfirst))
    exact UInt32.le_of_lt (UInt32.lt_of_le_of_lt (UInt32.le_trans hge hle) habove)
  obtain ⟨own, hown, hsame, -⟩ := h.exists_part_of_entry hlinked List.mem_cons_self
  obtain ⟨part, hpart, hnumber⟩ := hconsecutive.exists_packet hown hbase
    (hsame.number ▸ UInt32.le_of_lt hbelow)
  obtain ⟨entry, hentry, hequal⟩ | ⟨exit, hexit, hequal⟩ := h.exists_of_part hlinked hpart
  · have hle := h.lowest_le hentry
    rw [hequal, hnumber] at hle
    exact absurd hbelow (UInt32.not_lt.2 hle)
  · obtain ⟨last', hlast, hle⟩ := hcontiguous.reached exit hexit
    cases hlast
    rw [hequal, hnumber] at hle
    exact absurd habove (UInt32.not_lt.2 hle)

theorem Reaches.exits_eq_nil (h : Reaches true history ⟨none, packet :: later⟩)
    (hlinked : Linked base (parts history)) : exits history = [] := by
  apply List.eq_nil_iff_forall_not_mem.2
  intro exit hexit
  obtain ⟨last, hlast, -⟩ := (h.contiguous hlinked).reached exit hexit
  cases hlast

/-- Before anything has left, any packet can open the stream if data waits. -/
theorem Reaches.continues_of_data (h : Reaches true history ⟨none, packet :: later⟩)
    (hlinked : Linked base (parts history)) (hsound : ∀ part ∈ arrivals history, part.erased = false)
    (hdata : arrivals history ≠ []) :
    continues none packet (fun _ ↦ later.any isDeliverable) = true := by
  obtain ⟨part, hpart⟩ := List.exists_mem_of_ne_nil _ hdata
  obtain ⟨releaseAt, hevent⟩ := mem_arrivals_iff.1 hpart
  have hwaits : { part with releaseAt } ∈ packet :: later := by
    have hmem := (h.perm_of_linked hlinked).mem_iff.2
      (mem_brought_iff.2 (.inl ⟨releaseAt, part, hevent, rfl⟩))
    rwa [h.exits_eq_nil hlinked, List.map_nil, List.append_nil] at hmem
  have hmark : ({ part with releaseAt } : Packet).erased = false := hsound part hpart
  cases hpredecessor : packet.predecessor with
  | none => simp [continues, hpredecessor]
  | some predecessor =>
    rcases List.mem_cons.1 hwaits with hself | hlater
    · rw [hself] at hmark
      simp [continues, hpredecessor, hmark]
    · have hdeliverable : isDeliverable { part with releaseAt } = true := by
        rw [isDeliverable, h.isComplete hlinked hwaits, hmark]
        rfl
      have hany : later.any isDeliverable = true := List.any_eq_true.2 ⟨_, hlater, hdeliverable⟩
      simp [continues, hpredecessor, hany]

/-- Before anything has left, the first packet opens the stream if it names no predecessor. -/
theorem Reaches.continues_of_first (h : Reaches true history ⟨none, packet :: later⟩)
    (hconsecutive : Consecutive base (parts history))
    (hnone : ∀ part ∈ parts history, part.number = base → part.predecessor = none)
    (dataWaits : Unit → Bool) : continues none packet dataWaits = true := by
  have hlinked := hconsecutive.linked
  obtain ⟨own, hown, hsame, -⟩ := h.exists_part_of_entry hlinked List.mem_cons_self
  have hge := hlinked.base_le own hown
  obtain ⟨first, hfirst, hnumber⟩ := hconsecutive.exists_packet hown (UInt32.le_refl base) hge
  -- The first packet still waits, so it is the lowest one.
  have hbase : own.number = base := by
    apply UInt32.le_antisymm _ hge
    obtain ⟨entry, hentry, hequal⟩ | ⟨exit, hexit, -⟩ := h.exists_of_part hlinked hfirst
    · rw [← hsame.number, ← hnumber, ← hequal]
      exact h.lowest_le hentry
    · rw [h.exits_eq_nil hlinked] at hexit
      cases hexit
  have hpredecessor : packet.predecessor = none := by
    rw [hsame.predecessor]
    exact hnone own hown hbase
  simp [continues, hpredecessor]

end

/-- What is left over when nothing more can leave and everything is due: nothing. -/
theorem Reaches.entries_eq_nil {strict : Bool} {base : UInt32} {history : List Event} {view : View}
    (h : Reaches strict history view) (hconsecutive : Consecutive base (parts history))
    (hsound : ∀ part ∈ arrivals history, part.erased = false)
    (hopens : strict = true → arrivals history ≠ [] ∨
      ∀ part ∈ parts history, part.number = base → part.predecessor = none) {now : Float}
    (hdue : ∀ releaseAt part, Event.arrived releaseAt part ∈ history → ¬releaseAt > now)
    (hstop : ∀ packet later, view.entries = packet :: later →
      fate? strict now view.cursor packet (fun _ ↦ later.any isDeliverable) = none) :
    view.entries = [] := by
  obtain ⟨cursor, entries⟩ := view
  cases entries with
  | nil => rfl
  | cons packet later =>
    have hlinked := hconsecutive.linked
    have hbrought := (h.perm_of_linked hlinked).mem_iff.1 (List.mem_append_left _ List.mem_cons_self)
    refine absurd (hstop packet later rfl)
      (fate?_ne_none (h.isComplete hlinked List.mem_cons_self) (fun hmark ↦ ?_)
        fun hstrict hahead ↦ ?_)
    · obtain ⟨releaseAt, part, hevent, rfl⟩ | ⟨part, -, rfl⟩ := mem_brought_iff.1 hbrought
      · exact hdue releaseAt part hevent
      · cases hmark
    · subst hstrict
      cases cursor with
      | none =>
        rcases hopens rfl with hdata | hnone
        · exact h.continues_of_data hlinked hsound hdata
        · exact h.continues_of_first hconsecutive hnone _
      | some last => exact h.continues_of_cursor hconsecutive (hahead last rfl) _

/-! ## Verdicts -/

section

variable {strict : Bool} {base : UInt32} {history : List Event} {view : View} {exit : Exit}

theorem Reaches.fate?_of_exit (h : Reaches strict history view) (hexit : exit ∈ exits history) :
    ∃ dataWaits, fate? strict exit.now exit.cursor exit.settled.packet dataWaits =
      some exit.settled.fate := by
  obtain ⟨event, hevent, heq⟩ := List.mem_filterMap.1 hexit
  cases event with
  | arrived releaseAt part => cases heq
  | lost part => cases heq
  | left other =>
    cases heq
    obtain ⟨before, later, rfl⟩ := List.append_of_mem hevent
    obtain ⟨middle, next, -, hstep⟩ := h.split
    cases hstep with
    | placed harrival hplaced => cases harrival
    | left hfate => exact ⟨_, hfate⟩

/-- What came and no longer waits has left. -/
theorem Reaches.exists_exit (h : Reaches strict history view) (hlinked : Linked base (parts history))
    (hempty : view.entries = []) {packet : Packet} (hpacket : packet ∈ brought history) :
    ∃ exit ∈ exits history, exit.settled.packet = packet := by
  have hmem := (h.perm_of_linked hlinked).mem_iff.2 hpacket
  rwa [hempty, List.nil_append, List.mem_map] at hmem

/-- In a strict reassembly exactly the packets below the first one in sequence are stale. -/
theorem Reaches.isStale_iff_lt (h : Reaches true history view) (hlinked : Linked base (parts history))
    (hexit : exit ∈ exits history) :
    exit.isStale = true ↔ (inSequence history).head?.any (exit.number < ·.number) = true := by
  rw [Option.any_eq_true]
  simp only [decide_eq_true_eq]
  constructor
  · exact (h.contiguous hlinked).behind exit hexit
  · rintro ⟨first, hfirst, hlt⟩
    by_contra hstale
    have htaken : exit ∈ inSequence history := List.mem_filter.2 ⟨hexit, by simpa using hstale⟩
    obtain ⟨rest, hrest⟩ := List.head?_eq_some_iff.1 hfirst
    have hascending := h.sequenced.ascending
    rw [hrest] at htaken hascending
    rcases List.mem_cons.1 htaken with rfl | hlater
    · exact UInt32.lt_irrefl _ hlt
    · exact UInt32.lt_asymm hlt (List.rel_of_pairwise_cons hascending hlater)

theorem Reaches.verdict_of_marked (h : Reaches strict history view) (hexit : exit ∈ exits history)
    (hmark : exit.settled.packet.erased = true) : exit.settled.verdict = .reject exit.number := by
  obtain ⟨dataWaits, hleaves⟩ := h.fate?_of_exit hexit
  obtain ⟨-, ⟨-, hfate⟩ | ⟨-, -, ⟨-, hfate⟩ | ⟨hsound, -⟩⟩⟩ := fate?_eq_some_iff.1 hleaves
  · rw [Settled.verdict, hfate]
    rfl
  · rw [Settled.verdict, hfate]
    rfl
  · rw [hmark] at hsound
    cases hsound

theorem Reaches.verdict_of_sound (h : Reaches strict history view) (hlinked : Linked base (parts history))
    (hexit : exit ∈ exits history) (hsound : exit.settled.packet.erased = false) :
    exit.settled.verdict =
      if strict && (inSequence history).head?.any (exit.number < ·.number) then .reject exit.number
      else .accept exit.number := by
  obtain ⟨dataWaits, hleaves⟩ := h.fate?_of_exit hexit
  have hfates := fate?_eq_some_iff.1 hleaves
  cases strict with
  | false =>
    obtain ⟨-, ⟨hstale, -⟩ | ⟨-, -, ⟨hmark, -⟩ | ⟨-, -, hfate⟩⟩⟩ := hfates
    · cases hstale
    · rw [hsound] at hmark
      cases hmark
    · rw [Settled.verdict, hfate]
      rfl
  | true =>
    have hstale : (inSequence history).head?.any (exit.number < ·.number) = true ↔
        exit.settled.fate = .stale :=
      (h.isStale_iff_lt hlinked hexit).symm.trans (isStale_iff_of_fate? hleaves)
    rw [Bool.true_and]
    obtain ⟨-, ⟨-, hfate⟩ | ⟨-, -, ⟨hmark, -⟩ | ⟨-, -, hfate⟩⟩⟩ := hfates
    · rw [if_pos (hstale.2 hfate), Settled.verdict, hfate]
      rfl
    · rw [hsound] at hmark
      cases hmark
    · have hnot : ¬(inSequence history).head?.any (exit.number < ·.number) = true := by
        rw [hstale, hfate]
        exact Fate.noConfusion
      rw [if_neg hnot, Settled.verdict, hfate]
      rfl

end

end RadioAccess.Reassembly
