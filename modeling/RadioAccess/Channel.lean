import RadioAccess.Direction

/-!
# Channel Conditions

The physical layer is given by numbers: for a user, a direction and a group of frequencies, what a
symbol can carry, which modulation and coding scheme is used and how strong the signal is; and for a
user its distance from the base station.  The emulator only reads them, through a `Channel`.
-/

namespace RadioAccess

/-- Conditions of one user on one frequency group. -/
structure ChannelState where
  /-- Bits that a symbol on the group can carry. -/
  bitsPerSymbol : Float
  mcs : UInt8
  /-- Ratio of signal to interference and noise in decibels. -/
  sinr : Float
deriving BEq

def ChannelState.dead : ChannelState := { bitsPerSymbol := 0.0, mcs := 0, sinr := 0.0 }

/-- Conditions of a user that are the same on all frequencies at all times. -/
structure UserChannel where
  /-- Distance from the base station in metres. -/
  distance : Float
  states : PerDirection ChannelState
deriving BEq

def UserChannel.standard : UserChannel :=
  { distance := 100.0
    states :=
      { downlink := { bitsPerSymbol := 200.0, mcs := 20, sinr := 25.0 }
        uplink := { bitsPerSymbol := 100.0, mcs := 15, sinr := 20.0 } } }

/-- Where channel conditions come from: a function of user, direction, frequency group and time, and
one of user and time. -/
structure Channel where
  observe : Nat → Direction → Nat → Float → ChannelState
  distance : Nat → Float → Float

/-- Conditions that do not change over time: one entry for each user, and exceptions for single
frequency groups, of which the latest counts. -/
structure StaticChannel where
  users : Array UserChannel
  exceptions : List ((Nat × Direction × Nat) × ChannelState)

namespace StaticChannel

def ofUsers (users : Array UserChannel) : StaticChannel := { users, exceptions := [] }

def setGroup (channel : StaticChannel) (user : Nat) (direction : Direction) (group : Nat)
    (state : ChannelState) : StaticChannel :=
  { channel with exceptions := ((user, direction, group), state) :: channel.exceptions }

/-- The conditions on a frequency group.  A user without an entry has a dead channel. -/
def observe (channel : StaticChannel) (user : Nat) (direction : Direction) (group : Nat) :
    ChannelState :=
  match channel.exceptions.lookup (user, direction, group) with
  | some state => state
  | none =>
    match channel.users[user]? with
    | some entry => entry.states.get direction
    | none => .dead

/-- The distance of a user; one without an entry stands at the base station. -/
def distance (channel : StaticChannel) (user : Nat) : Float :=
  match channel.users[user]? with
  | some entry => entry.distance
  | none => 0.0

def toChannel (channel : StaticChannel) : Channel :=
  { observe := fun user direction group _ ↦ channel.observe user direction group
    distance := fun user _ ↦ channel.distance user }

end StaticChannel

end RadioAccess
