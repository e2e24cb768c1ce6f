import RadioAccess.Link.Reassembly.View
import RadioAccess.Proofs.Checked

/-!
# Histories of a Reassembly

A reassembly changes one part or one packet at a time: a part arrives, a part is lost, or the packet
with the lowest number leaves.  A history lists these events, and for a packet that leaves also the time
and the cursor that it met.  `Step` says all that one event can do to the cursor and the entries, and
`Reaches` collects what a reassembly that was empty at first can come to.

Statements about whole runs are proved here by induction on the history: what no event breaks holds
after every history.
-/

namespace RadioAccess.Reassembly

open Packet (Ascending)
open PacketTree (putAmong)

/-! ## Events -/

/-- A packet that has left, when it left, and the cursor that it met. -/
structure Exit where
  now : Float
  cursor : Option UInt32
  settled : Settled

/-- The number of the packet that has left. -/
def Exit.number (exit : Exit) : UInt32 := exit.settled.packet.number

/-- What happens to a reassembly. -/
inductive Event where
  | arrived (releaseAt : Float) (part : Packet)
  | lost (part : Packet)
  | left (exit : Exit)

/-- The part that an event brings. -/
def Event.part? : Event → Option Packet
  | arrived _ part => some part
  | lost part => some part
  | left _ => none

/-- The packet that leaves in an event. -/
def Event.exit? : Event → Option Exit
  | arrived _ _ => none
  | lost _ => none
  | left exit => some exit

/-- The parts that a history brings. -/
def parts (history : List Event) : List Packet := history.filterMap Event.part?

/-- The part that arrives in an event. -/
def Event.arrived? : Event → Option Packet
  | arrived _ part => some part
  | lost _ => none
  | left _ => none

/-- The part that is lost in an event. -/
def Event.lost? : Event → Option Packet
  | arrived _ _ => none
  | lost part => some part
  | left _ => none

/-- The packets that leave in a history. -/
def exits (history : List Event) : List Exit := history.filterMap Event.exit?

/-- The parts that arrive in a history. -/
def arrivals (history : List Event) : List Packet := history.filterMap Event.arrived?

/-- The parts that are lost in a history. -/
def losses (history : List Event) : List Packet := history.filterMap Event.lost?

/-- Where a part that has arrived goes. -/
def arrivalOf (releaseAt : Float) (part : Packet) : Arrival :=
  { number := part.number
    join := joinArrived releaseAt part
    fresh := if startsEntry part then some { part with releaseAt } else none }

/-- Where a part that is lost goes. -/
def lossOf (part : Packet) : Arrival :=
  { number := part.number
    join := joinLost part
    fresh := if startsEntry part then some { part with erased := true } else none }

/-- Where the part of an event goes. -/
def Event.arrival? : Event → Option Arrival
  | arrived releaseAt part => some (arrivalOf releaseAt part)
  | lost part => some (lossOf part)
  | left _ => none

@[simp]
theorem parts_nil : parts [] = [] := rfl

@[simp]
theorem exits_nil : exits [] = [] := rfl

@[simp]
theorem parts_append (earlier later : List Event) :
    parts (earlier ++ later) = parts earlier ++ parts later := List.filterMap_append

@[simp]
theorem exits_append (earlier later : List Event) :
    exits (earlier ++ later) = exits earlier ++ exits later := List.filterMap_append

@[simp]
theorem arrivals_append (earlier later : List Event) :
    arrivals (earlier ++ later) = arrivals earlier ++ arrivals later := List.filterMap_append

@[simp]
theorem losses_append (earlier later : List Event) :
    losses (earlier ++ later) = losses earlier ++ losses later := List.filterMap_append

theorem arrivals_concat_arrived (history : List Event) (releaseAt : Float) (part : Packet) :
    arrivals (history ++ [.arrived releaseAt part]) = arrivals history ++ [part] :=
  arrivals_append history [.arrived releaseAt part]

theorem losses_concat_arrived (history : List Event) (releaseAt : Float) (part : Packet) :
    losses (history ++ [.arrived releaseAt part]) = losses history := by
  rw [losses_append]
  exact List.append_nil _

theorem losses_concat_lost (history : List Event) (part : Packet) :
    losses (history ++ [.lost part]) = losses history ++ [part] :=
  losses_append history [.lost part]

theorem mem_arrivals_iff {history : List Event} {part : Packet} :
    part ∈ arrivals history ↔ ∃ releaseAt, Event.arrived releaseAt part ∈ history := by
  rw [arrivals, List.mem_filterMap]
  constructor
  · rintro ⟨_ | _ | _, hevent, ⟨⟩⟩
    exact ⟨_, hevent⟩
  · rintro ⟨releaseAt, hevent⟩
    exact ⟨_, hevent, rfl⟩

theorem mem_losses_iff {history : List Event} {part : Packet} :
    part ∈ losses history ↔ Event.lost part ∈ history := by
  rw [losses, List.mem_filterMap]
  constructor
  · rintro ⟨_ | _ | _, hevent, ⟨⟩⟩
    exact hevent
  · intro hevent
    exact ⟨_, hevent, rfl⟩

theorem mem_parts_of_mem_losses {history : List Event} {part : Packet} (h : part ∈ losses history) :
    part ∈ parts history :=
  List.mem_filterMap.2 ⟨_, mem_losses_iff.1 h, rfl⟩

@[simp]
theorem parts_lost (part : Packet) : parts [.lost part] = [part] := rfl

@[simp]
theorem exits_lost (part : Packet) : exits [.lost part] = [] := rfl

theorem parts_concat_of_part? (history : List Event) {event : Event} {part : Packet}
    (h : event.part? = some part) : parts (history ++ [event]) = parts history ++ [part] := by
  rw [parts_append, parts, parts, List.filterMap_cons_some h, List.filterMap_nil]

@[simp]
theorem parts_concat_left (history : List Event) (exit : Exit) :
    parts (history ++ [.left exit]) = parts history := by
  rw [parts_append]
  exact List.append_nil _

theorem exits_concat_of_part? (history : List Event) {event : Event} {part : Packet}
    (h : event.part? = some part) : exits (history ++ [event]) = exits history := by
  rw [exits_append]
  cases event with
  | arrived releaseAt part => exact List.append_nil _
  | lost part => exact List.append_nil _
  | left exit => cases h

@[simp]
theorem exits_concat_left (history : List Event) (exit : Exit) :
    exits (history ++ [.left exit]) = exits history ++ [exit] := by
  rw [exits_append]
  rfl

theorem parts_map_of_part? {event : Packet → Event} (h : ∀ part, (event part).part? = some part)
    (packets : List Packet) : parts (packets.map event) = packets := by
  have hsome : Event.part? ∘ event = some := funext h
  rw [parts, List.filterMap_map, hsome, List.filterMap_some]

theorem exits_map_of_exit? {event : Packet → Event} (h : ∀ part, (event part).exit? = none)
    (packets : List Packet) : exits (packets.map event) = [] := by
  rw [exits, List.filterMap_map]
  exact List.filterMap_eq_nil_iff.2 fun part _ ↦ h part

@[simp]
theorem parts_map_arrived (releaseAt : Float) (packets : List Packet) :
    parts (packets.map (.arrived releaseAt)) = packets := parts_map_of_part? (fun _ ↦ rfl) packets

@[simp]
theorem exits_map_arrived (releaseAt : Float) (packets : List Packet) :
    exits (packets.map (.arrived releaseAt)) = [] := exits_map_of_exit? (fun _ ↦ rfl) packets

@[simp]
theorem parts_map_lost (packets : List Packet) : parts (packets.map .lost) = packets :=
  parts_map_of_part? (fun _ ↦ rfl) packets

@[simp]
theorem exits_map_lost (packets : List Packet) : exits (packets.map .lost) = [] :=
  exits_map_of_exit? (fun _ ↦ rfl) packets

@[simp]
theorem parts_map_left (leaving : List Exit) : parts (leaving.map .left) = [] := by
  rw [parts, List.filterMap_map]
  exact List.filterMap_eq_nil_iff.2 fun exit _ ↦ rfl

/-- One packet after the other. -/
@[simp]
theorem exits_map_left (leaving : List Exit) : exits (leaving.map .left) = leaving := by
  have hsome : Event.exit? ∘ Event.left = some := funext fun exit ↦ rfl
  rw [exits, List.filterMap_map, hsome, List.filterMap_some]

/-! ## Steps -/

/-- What a reassembly holds: its cursor and its entries. -/
structure View where
  cursor : Option UInt32
  entries : List Packet

/-- What this reassembly holds. -/
def view (assembly : Reassembly) : View := { cursor := assembly.cursor, entries := assembly.entries }

/-- What one event does. -/
inductive Step (strict : Bool) : View → Event → View → Prop where
  | placed {cursor : Option UInt32} {entries after : List Packet} {event : Event} {arrival : Arrival}
      (harrival : event.arrival? = some arrival) (hplaced : placeAmong arrival entries = .ok after) :
      Step strict ⟨cursor, entries⟩ event ⟨cursor, after⟩
  | left {now : Float} {cursor : Option UInt32} {packet : Packet} {later : List Packet} {fate : Fate}
      (hfate : fate? strict now cursor packet (fun _ ↦ later.any isDeliverable) = some fate) :
      Step strict ⟨cursor, packet :: later⟩ (.left ⟨now, cursor, ⟨packet, fate⟩⟩)
        ⟨cursorAfter cursor packet fate, later⟩

/-- What a reassembly that was empty at first holds after a history. -/
inductive Reaches (strict : Bool) : List Event → View → Prop where
  | start : Reaches strict [] ⟨none, []⟩
  | next {history : List Event} {event : Event} {before after : View}
      (hbefore : Reaches strict history before) (hstep : Step strict before event after) :
      Reaches strict (history ++ [event]) after

/-! ## What a part does -/

theorem eq_of_joinArrived {releaseAt : Float} {part entry joined : Packet}
    (h : joinArrived releaseAt part entry = .ok joined) :
    joined = { entry with
      carried := entry.carried + part.carried
      releaseAt := if releaseAt > entry.releaseAt then releaseAt else entry.releaseAt
      ingressAt := if part.ingressAt < entry.ingressAt then part.ingressAt else entry.ingressAt } ∧
    joined.carried.toNat = entry.carried.toNat + part.carried.toNat := by
  simp only [joinArrived, Packet.absorb, bind_eq_ok_iff, pure_eq_ok_iff] at h
  obtain ⟨absorbed, ⟨carried, hcarried, rfl⟩, rfl⟩ := h
  have hsum := Word.toNat_of_add64_eq_ok hcarried
  rw [Word.eq_add_of_add64_eq_ok hcarried] at hsum ⊢
  exact ⟨rfl, hsum⟩

theorem eq_of_joinLost {part entry joined : Packet} (h : joinLost part entry = .ok joined) :
    joined = { entry with carried := entry.carried + part.carried, erased := true } ∧
    joined.carried.toNat = entry.carried.toNat + part.carried.toNat := by
  simp only [joinLost, Packet.absorb, bind_eq_ok_iff, pure_eq_ok_iff] at h
  obtain ⟨carried, hcarried, rfl⟩ := h
  have hsum := Word.toNat_of_add64_eq_ok hcarried
  rw [Word.eq_add_of_add64_eq_ok hcarried] at hsum ⊢
  exact ⟨rfl, hsum⟩

/-- Two parts name the same packet: its number, its predecessor and its length. -/
structure SamePacket (a b : Packet) : Prop where
  number : a.number = b.number
  predecessor : a.predecessor = b.predecessor
  length : a.length = b.length

/-- What joins an entry keeps the name of its packet and adds the bits of the part. -/
theorem samePacket_of_join {event : Event} {arrival : Arrival} {part entry joined : Packet}
    (hpart : event.part? = some part) (harrival : event.arrival? = some arrival)
    (hjoin : arrival.join entry = .ok joined) :
    SamePacket joined entry ∧ joined.carried.toNat = entry.carried.toNat + part.carried.toNat := by
  cases event with
  | arrived releaseAt arrived =>
    cases hpart
    cases harrival
    obtain ⟨rfl, hsum⟩ := eq_of_joinArrived hjoin
    exact ⟨⟨rfl, rfl, rfl⟩, hsum⟩
  | lost lost =>
    cases hpart
    cases harrival
    obtain ⟨rfl, hsum⟩ := eq_of_joinLost hjoin
    exact ⟨⟨rfl, rfl, rfl⟩, hsum⟩
  | left exit => cases hpart

theorem number_of_arrival? {event : Event} {arrival : Arrival} {part : Packet}
    (hpart : event.part? = some part) (harrival : event.arrival? = some arrival) :
    arrival.number = part.number := by
  cases event with
  | arrived releaseAt arrived => cases hpart; cases harrival; rfl
  | lost lost => cases hpart; cases harrival; rfl
  | left exit => cases hpart

theorem exists_part_of_arrival? {event : Event} {arrival : Arrival}
    (harrival : event.arrival? = some arrival) : ∃ part, event.part? = some part := by
  cases event with
  | arrived releaseAt part => exact ⟨part, rfl⟩
  | lost part => exact ⟨part, rfl⟩
  | left exit => cases harrival

/-- An entry is started by a part that may start one, and holds the bits of that part. -/
theorem samePacket_of_fresh {event : Event} {arrival : Arrival} {part fresh : Packet}
    (hpart : event.part? = some part) (harrival : event.arrival? = some arrival)
    (hfresh : arrival.fresh = some fresh) :
    startsEntry part = true ∧ SamePacket fresh part ∧ fresh.carried = part.carried := by
  have hstarts {packet : Packet} (h : (if startsEntry part then some packet else none) = some fresh) :
      startsEntry part = true ∧ packet = fresh := by
    split at h
    · exact ⟨by assumption, Option.some.inj h⟩
    · cases h
  cases event with
  | arrived releaseAt arrived =>
    cases hpart
    cases harrival
    obtain ⟨hs, rfl⟩ := hstarts hfresh
    exact ⟨hs, ⟨rfl, rfl, rfl⟩, rfl⟩
  | lost lost =>
    cases hpart
    cases harrival
    obtain ⟨hs, rfl⟩ := hstarts hfresh
    exact ⟨hs, ⟨rfl, rfl, rfl⟩, rfl⟩
  | left exit => cases hpart

theorem startsEntry_eq_false_of_fresh {event : Event} {arrival : Arrival} {part : Packet}
    (hpart : event.part? = some part) (harrival : event.arrival? = some arrival)
    (hfresh : arrival.fresh = none) : startsEntry part = false := by
  cases event with
  | arrived releaseAt arrived =>
    cases hpart
    cases harrival
    simpa [arrivalOf] using hfresh
  | lost lost =>
    cases hpart
    cases harrival
    simpa [lossOf] using hfresh
  | left exit => cases hpart

/-- Where a part goes: it joins the entry of its number, starts an entry, or is ignored. -/
inductive Placement (arrival : Arrival) (part : Packet) (entries : List Packet) :
    List Packet → Prop where
  | joined {entry joined : Packet} (hentry : entry ∈ entries) (hnumber : entry.number = part.number)
      (hjoin : arrival.join entry = .ok joined) (hsame : SamePacket joined entry)
      (hsum : joined.carried.toNat = entry.carried.toNat + part.carried.toNat) :
      Placement arrival part entries (putAmong part.number joined entries)
  | started {fresh : Packet} (habsent : ∀ entry ∈ entries, entry.number ≠ part.number)
      (hstarts : startsEntry part = true) (hfresh : arrival.fresh = some fresh)
      (hsame : SamePacket fresh part) (hcarried : fresh.carried = part.carried) :
      Placement arrival part entries (putAmong part.number fresh entries)
  | ignored (habsent : ∀ entry ∈ entries, entry.number ≠ part.number)
      (hstarts : startsEntry part = false) : Placement arrival part entries entries

theorem placement_of_placeAmong {event : Event} {arrival : Arrival} {part : Packet}
    {entries after : List Packet} (hpart : event.part? = some part)
    (harrival : event.arrival? = some arrival) (h : placeAmong arrival entries = .ok after) :
    Placement arrival part entries after := by
  have hnumber := number_of_arrival? hpart harrival
  unfold placeAmong at h
  cases hfind : entries.find? (·.number == arrival.number) with
  | some entry =>
    simp only [hfind, bind_eq_ok_iff, pure_eq_ok_iff] at h
    obtain ⟨joined, hjoin, rfl⟩ := h
    obtain ⟨hsame, hsum⟩ := samePacket_of_join hpart harrival hjoin
    have hentry : entry.number = part.number := by
      rw [← hnumber]
      simpa using List.find?_some hfind
    rw [hnumber]
    exact .joined (List.mem_of_find?_eq_some hfind) hentry hjoin hsame hsum
  | none =>
    have habsent : ∀ entry ∈ entries, entry.number ≠ part.number := by
      rw [← hnumber]
      simpa using hfind
    simp only [hfind, Except.ok.injEq] at h
    cases hfresh : arrival.fresh with
    | some fresh =>
      obtain ⟨hstarts, hsame, hcarried⟩ := samePacket_of_fresh hpart harrival hfresh
      rw [hfresh, Option.elim_some, hnumber] at h
      rw [← h]
      exact .started habsent hstarts hfresh hsame hcarried
    | none =>
      rw [hfresh, Option.elim_none] at h
      rw [← h]
      exact .ignored habsent (startsEntry_eq_false_of_fresh hpart harrival hfresh)

theorem mem_putAmong_iff {number : UInt32} {new packet : Packet} {packets : List Packet} :
    packet ∈ putAmong number new packets ↔ packet = new ∨ packet ∈ packets ∧ packet.number ≠ number := by
  have hne : packet.number ≠ number ↔ packet.number < number ∨ number < packet.number := by
    simp only [ne_eq, ← UInt32.toNat_inj, UInt32.lt_iff_toNat_lt]
    omega
  simp only [putAmong, List.mem_append, List.mem_cons, List.mem_filter, decide_eq_true_eq, hne]
  rw [or_left_comm, ← and_or_left]

/-! ## The order of the entries -/

/-- Every event keeps the ascending order of the entries. -/
theorem Step.ascending {strict : Bool} {before after : View} {event : Event}
    (hstep : Step strict before event after) (h : Ascending before.entries) :
    Ascending after.entries := by
  cases hstep with
  | left hfate => exact h.tail
  | placed harrival hplaced =>
    obtain ⟨part, hpart⟩ := exists_part_of_arrival? harrival
    cases placement_of_placeAmong hpart harrival hplaced with
    | joined hentry hnumber hjoin hsame hsum =>
      exact PacketTree.ascending_putAmong (hsame.number.trans hnumber) h
    | started habsent hstarts hfresh hsame hcarried =>
      exact PacketTree.ascending_putAmong hsame.number h
    | ignored habsent hstarts => exact h

theorem Reaches.ascending {strict : Bool} {history : List Event} {view : View}
    (h : Reaches strict history view) : Ascending view.entries := by
  induction h with
  | start => exact List.Pairwise.nil
  | next hbefore hstep ih => exact hstep.ascending ih

/-! ## Departures -/

/-- When a packet leaves, and as what. -/
theorem fate?_eq_some_iff {strict : Bool} {now : Float} {cursor : Option UInt32} {packet : Packet}
    {dataWaits : Unit → Bool} {fate : Fate} :
    fate? strict now cursor packet dataWaits = some fate ↔
      packet.isComplete = true ∧
      ((strict && cursor.any (packet.number ≤ ·)) = true ∧ fate = .stale ∨
        (strict && cursor.any (packet.number ≤ ·)) = false ∧
        (strict = true → continues cursor packet dataWaits = true) ∧
        (packet.erased = true ∧ fate = .lost ∨
          packet.erased = false ∧ ¬ packet.releaseAt > now ∧ fate = .delivered)) := by
  unfold fate?
  cases packet.isComplete with
  | false => simp
  | true =>
    cases hstale : strict && cursor.any (packet.number ≤ ·) with
    | true => simp [@eq_comm Fate _ fate]
    | false =>
      cases strict <;> cases continues cursor packet dataWaits <;> cases packet.erased <;>
        by_cases hdue : packet.releaseAt > now <;> simp [hdue, @eq_comm Fate _ fate]

/-- The packets that leave at `now`, the lowest number first, and the cursors that they meet. -/
def leaving (strict : Bool) (now : Float) (cursor : Option UInt32) : List Packet → List Exit
  | [] => []
  | packet :: later =>
    match fate? strict now cursor packet fun _ ↦ later.any isDeliverable with
    | none => []
    | some fate =>
      ⟨now, cursor, ⟨packet, fate⟩⟩ :: leaving strict now (cursorAfter cursor packet fate) later

theorem map_settled_leaving (strict : Bool) (now : Float) (packets : List Packet)
    (cursor : Option UInt32) :
    (leaving strict now cursor packets).map (·.settled) = (settle strict now cursor packets).1 := by
  induction packets generalizing cursor with
  | nil => rfl
  | cons packet later ih =>
    rw [leaving, settle]
    cases fate? strict now cursor packet fun _ ↦ later.any isDeliverable with
    | none => rfl
    | some fate => simpa using ih (cursorAfter cursor packet fate)

/-- A departure is one event for each packet that leaves. -/
theorem Reaches.settle {strict : Bool} {history : List Event} {packets : List Packet}
    {cursor : Option UInt32} (h : Reaches strict history ⟨cursor, packets⟩) (now : Float) :
    Reaches strict (history ++ (leaving strict now cursor packets).map .left)
      ⟨(settle strict now cursor packets).2.1, (settle strict now cursor packets).2.2⟩ := by
  induction packets generalizing history cursor with
  | nil => simpa [leaving, Reassembly.settle] using h
  | cons packet later ih =>
    rw [leaving, Reassembly.settle]
    cases hfate : fate? strict now cursor packet fun _ ↦ later.any isDeliverable with
    | none => simpa using h
    | some fate =>
      have hnext := ih (h.next (.left hfate))
      simpa using hnext

/-- A departure stops at a packet that cannot leave. -/
theorem settle_stops (strict : Bool) (now : Float) (packets : List Packet) (cursor : Option UInt32)
    {packet : Packet} {later : List Packet}
    (h : (settle strict now cursor packets).2.2 = packet :: later) :
    fate? strict now (settle strict now cursor packets).2.1 packet
      (fun _ ↦ later.any isDeliverable) = none := by
  induction packets generalizing cursor with
  | nil => cases h
  | cons first rest ih =>
    rw [settle] at h ⊢
    cases hfate : fate? strict now cursor first fun _ ↦ rest.any isDeliverable with
    | none =>
      simp only [hfate] at h
      cases h
      exact hfate
    | some fate =>
      simp only [hfate] at h
      exact ih (cursorAfter cursor first fate) h

/-! ## Operations -/

theorem eq_of_place {assembly after : Reassembly} {arrival : Arrival}
    (h : assembly.place arrival = .ok after) :
    after.strict = assembly.strict ∧ after.cursor = assembly.cursor := by
  unfold place at h
  split at h
  · simp only [bind_eq_ok_iff, pure_eq_ok_iff] at h
    obtain ⟨joined, -, rfl⟩ := h
    exact ⟨rfl, rfl⟩
  · split at h
    · cases h
      exact ⟨rfl, rfl⟩
    · cases h
      exact ⟨rfl, rfl⟩

/-- What places the part of an event makes one step. -/
theorem Reaches.place {assembly after : Reassembly} {history : List Event} {event : Event}
    {arrival : Arrival} (h : Reaches assembly.strict history assembly.view)
    (harrival : event.arrival? = some arrival) (hplace : assembly.place arrival = .ok after) :
    Reaches assembly.strict (history ++ [event]) after.view := by
  have hplaced := map_entries_place h.ascending arrival
  rw [hplace] at hplaced
  have hview : after.view = ⟨assembly.cursor, after.entries⟩ := by
    rw [view, (eq_of_place hplace).2]
  rw [hview]
  exact h.next (.placed harrival hplaced.symm)

/-- Parts that are placed one after the other make one step each. -/
theorem Reaches.foldlM_place {assembly after : Reassembly} {history : List Event}
    {arrival : Packet → Arrival} (h : Reaches assembly.strict history assembly.view)
    (event : Packet → Event) (harrival : ∀ part, (event part).arrival? = some (arrival part))
    {parts : List Packet}
    (hplaced : parts.foldlM (fun assembly part ↦ assembly.place (arrival part)) assembly = .ok after) :
    after.strict = assembly.strict ∧
      Reaches assembly.strict (history ++ parts.map event) after.view := by
  refine foldlM_eq_ok_induction
    (fun done middle ↦ middle.strict = assembly.strict ∧
      Reaches assembly.strict (history ++ done.map event) middle.view) ?_ hplaced ⟨rfl, by simpa using h⟩
  rintro done middle part next ⟨hstrict, hreaches⟩ hplace
  rw [← hstrict] at hreaches ⊢
  refine ⟨(eq_of_place hplace).1, ?_⟩
  have hnext := hreaches.place (harrival part) hplace
  simpa using hnext

/-- A departure is a step for each packet that leaves. -/
theorem Reaches.depart {assembly : Reassembly} {history : List Event}
    (h : Reaches assembly.strict history assembly.view) (now : Float) :
    Reaches assembly.strict
      (history ++ (leaving assembly.strict now assembly.cursor assembly.entries).map .left)
      (assembly.depart now).2.view := by
  have hsettled := Reaches.settle h now
  rw [settle_entries] at hsettled
  exact hsettled

theorem fate?_of_depart_eq_cons (assembly : Reassembly) (now : Float) (packet : Packet)
    (later : List Packet) (h : (assembly.depart now).2.entries = packet :: later) :
    fate? assembly.strict now (assembly.depart now).2.cursor packet
      (fun _ ↦ later.any isDeliverable) = none := by
  have hsettled := settle_entries assembly now
  have hrest : (settle assembly.strict now assembly.cursor assembly.entries).2.2 = packet :: later := by
    rw [hsettled]
    exact h
  have hstop := settle_stops _ _ _ _ hrest
  rwa [hsettled] at hstop

/-- The packets that leave together ascend, stale ones included. -/
theorem Reaches.ascending_depart {assembly : Reassembly} {history : List Event}
    (h : Reaches assembly.strict history assembly.view) (now : Float) :
    Ascending ((assembly.depart now).1.map (·.packet)) := by
  have hentries : Ascending assembly.entries := h.ascending
  rw [← entries_eq_append_of_depart assembly now] at hentries
  exact (List.pairwise_append.1 hentries).1

end RadioAccess.Reassembly
