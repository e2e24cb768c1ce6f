import RadioAccess.Capture
import RadioAccess.PacketTree

/-!
# Reassembly

At the far end of a link the parts of a packet are summed up by packet number.  A packet leaves when it
is complete, as delivered if no part of it was lost and its release time has come, else as lost.
Packets leave in the order of their numbers; one that cannot leave holds back all later ones.

A strict reassembly moreover keeps to one stream: a packet that names a predecessor waits until that
predecessor was the last to leave, and a packet that is completed after the stream has moved past its
number leaves as stale.  What leaves is decided from the lowest number on.  The view `Reassembly.entries`
lists what is being put together in the order of the numbers, and what each operation does to it is said
in `RadioAccess.Link.Reassembly.View`.
-/

namespace RadioAccess

inductive Fate where
  | delivered
  | lost
  /-- The stream had moved past the packet when it was completed. -/
  | stale
deriving DecidableEq

structure Settled where
  packet : Packet
  fate : Fate

def Settled.verdict (settled : Settled) : Verdict :=
  match settled.fate with
  | .delivered => .accept settled.packet.number
  | .lost => .reject settled.packet.number
  | .stale => .reject settled.packet.number

/-- Packets that are being put together.  There is one entry for each number. -/
structure Reassembly where
  strict : Bool
  tree : PacketTree
  /-- The number of the packet that was the last to leave, stale ones apart. -/
  cursor : Option UInt32

namespace Reassembly

def empty (strict : Bool) : Reassembly := { strict, tree := .leaf, cursor := none }

/-- All entries, the lowest number first. -/
def entries (assembly : Reassembly) : List Packet := assembly.tree.toList

def length (assembly : Reassembly) : Nat := assembly.tree.length

/-! ## Arrival -/

/-- Whether a part may start an entry.  A part within the slack cannot: without it its packet counts as
complete, so the packet may have left before. -/
def startsEntry (packet : Packet) : Bool :=
  !packet.isPart || decide (completionSlack < packet.carried.toNat)

/-- What happens at the place of a number: an entry that is there is changed by `join`, else `fresh` is
put there. -/
structure Arrival where
  number : UInt32
  join : Packet → Except Fault Packet
  fresh : Option Packet

def place (assembly : Reassembly) (arrival : Arrival) : Except Fault Reassembly :=
  match assembly.tree.find? arrival.number with
  | some entry => do
    let joined ← arrival.join entry
    return { assembly with tree := assembly.tree.put arrival.number joined }
  | none =>
    match arrival.fresh with
    | some packet => .ok { assembly with tree := assembly.tree.put arrival.number packet }
    | none => .ok assembly

/-- Joins a part that may be released at `releaseAt` to the entry of its packet.  The entry may be
released when its last part may, and its ingress is that of its first one. -/
def joinArrived (releaseAt : Float) (packet entry : Packet) : Except Fault Packet := do
  let entry ← entry.absorb packet.carried
  return { entry with
    releaseAt := if releaseAt > entry.releaseAt then releaseAt else entry.releaseAt
    ingressAt := if packet.ingressAt < entry.ingressAt then packet.ingressAt else entry.ingressAt }

def arrive (assembly : Reassembly) (releaseAt : Float) (packet : Packet) : Except Fault Reassembly :=
  assembly.place
    { number := packet.number
      join := joinArrived releaseAt packet
      fresh := if startsEntry packet then some { packet with releaseAt } else none }

/-- Joins a part that is lost to the entry of its packet.  Its bits count as arrived, so that the packet
can be settled as lost. -/
def joinLost (packet entry : Packet) : Except Fault Packet :=
  { entry with erased := true }.absorb packet.carried

def lose (assembly : Reassembly) (packet : Packet) : Except Fault Reassembly :=
  assembly.place
    { number := packet.number
      join := joinLost packet
      fresh := if startsEntry packet then some { packet with erased := true } else none }

/-! ## Departure -/

/-- Whether a packet can be delivered once it is due. -/
def isDeliverable (packet : Packet) : Bool := packet.isComplete && !packet.erased

/-- Whether a strict stream that has reached `cursor` can go on with a packet.  A lost packet inside a
stream that has not started waits for data that can start it; whether there is some is asked then only. -/
def continues (cursor : Option UInt32) (packet : Packet) (dataWaits : Unit → Bool) : Bool :=
  match cursor, packet.predecessor with
  | _, none => true
  | some last, some predecessor => predecessor == last
  | none, some _ => !packet.erased || dataWaits ()

/-- How the packet with the lowest number leaves at `now`, if it does; `dataWaits` says whether packets
that can be delivered wait behind it. -/
def fate? (strict : Bool) (now : Float) (cursor : Option UInt32) (packet : Packet)
    (dataWaits : Unit → Bool) : Option Fate :=
  if !packet.isComplete then none
  else if strict && cursor.any (packet.number ≤ ·) then some .stale
  else if strict && !continues cursor packet dataWaits then none
  else if packet.erased then some .lost
  else if packet.releaseAt > now then none
  else some .delivered

def cursorAfter (cursor : Option UInt32) (packet : Packet) : Fate → Option UInt32
  | .stale => cursor
  | .lost => some packet.number
  | .delivered => some packet.number

/-- Settles packets, the lowest number first, until one cannot leave; `done` were settled before, the
last of them first.  Gives the settled packets, the cursor, and the packets that remain. -/
def settleAfter (strict : Bool) (now : Float) (done : List Settled) (cursor : Option UInt32)
    (tree : PacketTree) : List Settled × Option UInt32 × PacketTree :=
  match _ : tree.takeLowest? with
  | none => (done.reverse, cursor, tree)
  | some (packet, rest) =>
    match fate? strict now cursor packet fun _ ↦ rest.any isDeliverable with
    | none => (done.reverse, cursor, tree)
    | some fate =>
      settleAfter strict now ({ packet, fate } :: done) (cursorAfter cursor packet fate) rest
termination_by tree.length
decreasing_by
  have := PacketTree.length_of_takeLowest? ‹tree.takeLowest? = some (packet, rest)›
  omega

def depart (assembly : Reassembly) (now : Float) : List Settled × Reassembly :=
  let (settled, cursor, tree) :=
    settleAfter assembly.strict now [] assembly.cursor assembly.tree
  (settled, { assembly with cursor, tree })

end Reassembly

end RadioAccess
