import RadioAccess.Link.Reassembly

/-!
# The View of a Reassembly

A reassembly keeps its entries in a tree, which is of no concern to what it does.  Here each operation is
described by what it does to the list of all entries: an arrival is placed among them by its number
(`map_entries_place`), and a departure settles them from the lowest number on (`settle_entries`).
-/

namespace RadioAccess.Reassembly

open Packet (Ascending)
open PacketTree (putAmong)

/-- Places an arrival among packets whose numbers ascend. -/
def placeAmong (arrival : Arrival) (packets : List Packet) : Except Fault (List Packet) :=
  match packets.find? (·.number == arrival.number) with
  | some entry => do
    let joined ← arrival.join entry
    return putAmong arrival.number joined packets
  | none => .ok (arrival.fresh.elim packets fun packet ↦ putAmong arrival.number packet packets)

/-- Settles packets, the lowest number first, until one cannot leave.  Gives the settled packets, the
cursor, and the packets that remain. -/
def settle (strict : Bool) (now : Float) (cursor : Option UInt32) :
    List Packet → List Settled × Option UInt32 × List Packet
  | [] => ([], cursor, [])
  | packet :: later =>
    match fate? strict now cursor packet fun _ ↦ later.any isDeliverable with
    | none => ([], cursor, packet :: later)
    | some fate =>
      let (settled, cursor, rest) := settle strict now (cursorAfter cursor packet fate) later
      ({ packet, fate } :: settled, cursor, rest)

theorem length_entries (assembly : Reassembly) : assembly.entries.length = assembly.length :=
  assembly.tree.length_toList

/-! ## Arrival -/

/-- An arrival is placed among the entries by its number. -/
theorem map_entries_place {assembly : Reassembly} (h : Ascending assembly.entries)
    (arrival : Arrival) :
    (assembly.place arrival).map entries = placeAmong arrival assembly.entries := by
  have hput := PacketTree.toList_put h arrival.number
  rw [placeAmong, place, entries, PacketTree.find?_toList h]
  cases assembly.tree.find? arrival.number with
  | some entry =>
    simp only
    cases arrival.join entry with
    | error fault => rfl
    | ok joined => simp [entries, bind, Except.bind, pure, Except.pure, Except.map, hput]
  | none =>
    cases arrival.fresh with
    | none => rfl
    | some packet => simp [entries, Except.map, hput]

/-! ## Departure -/

/-- Settling a tree settles the list of its packets, behind what was settled before. -/
theorem settleAfter_eq (strict : Bool) (now : Float) (done : List Settled) (cursor : Option UInt32)
    (tree : PacketTree) :
    (settleAfter strict now done cursor tree).1 =
        done.reverse ++ (settle strict now cursor tree.toList).1 ∧
      (settleAfter strict now done cursor tree).2.1 =
        (settle strict now cursor tree.toList).2.1 ∧
      (settleAfter strict now done cursor tree).2.2.toList =
        (settle strict now cursor tree.toList).2.2 := by
  fun_induction settleAfter strict now done cursor tree with
  | case1 done cursor tree hnone =>
    simp [(PacketTree.takeLowest?_eq_none_iff tree).1 hnone, settle]
  | case2 done cursor tree packet rest htake hfate =>
    rw [← PacketTree.any_toList] at hfate
    simp [PacketTree.toList_of_takeLowest? htake, settle, hfate]
  | case3 done cursor tree packet rest htake fate hfate ih =>
    rw [← PacketTree.any_toList] at hfate
    simpa [PacketTree.toList_of_takeLowest? htake, settle, hfate] using ih

/-- A departure settles the entries from the lowest number on. -/
theorem settle_entries (assembly : Reassembly) (now : Float) :
    settle assembly.strict now assembly.cursor assembly.entries =
      ((assembly.depart now).1, (assembly.depart now).2.cursor, (assembly.depart now).2.entries) := by
  obtain ⟨hsettled, hcursor, hrest⟩ :=
    settleAfter_eq assembly.strict now [] assembly.cursor assembly.tree
  simp only [depart, entries, hsettled, hcursor, hrest]
  rfl

/-- What remains after settling is the end of what was there. -/
theorem settle_eq_append (strict : Bool) (now : Float) (packets : List Packet)
    (cursor : Option UInt32) :
    (settle strict now cursor packets).1.map (·.packet) ++ (settle strict now cursor packets).2.2 =
      packets := by
  induction packets generalizing cursor with
  | nil => rfl
  | cons packet later ih =>
    rw [settle]
    cases fate? strict now cursor packet fun _ ↦ later.any isDeliverable with
    | none => rfl
    | some fate => simpa using ih (cursorAfter cursor packet fate)

/-- A departure takes entries away from the lowest number on. -/
theorem entries_eq_append_of_depart (assembly : Reassembly) (now : Float) :
    (assembly.depart now).1.map (·.packet) ++ (assembly.depart now).2.entries = assembly.entries := by
  have := settle_eq_append assembly.strict now assembly.entries assembly.cursor
  rwa [settle_entries] at this

end RadioAccess.Reassembly
