import RadioAccess.Channel
import RadioAccess.Clock
import RadioAccess.Grid.Pass
import RadioAccess.Link.Basic
import RadioAccess.Traffic

/-!
# The Emulated Network

The users with their links, and one resource grid for each direction.  An interval is two steps.  First
each user moves on by itself: both of its links let go what is due and take in new traffic.  Then the
grid of each direction is passed over and hands its grants to the links of that direction.

A step of a user touches nothing but that user, and a pass touches nothing but the links of its
direction and its own grid.
-/

namespace RadioAccess

/-- What an interval brought to a link of a user. -/
structure LinkTick where
  /-- Bits of new traffic that were admitted. -/
  generated : UInt64
  /-- Bits of new traffic that were refused. -/
  rejected : UInt64
  /-- Bits that were released. -/
  released : UInt64
  /-- Captured packets that were admitted. -/
  captured : Nat

def LinkTick.none : LinkTick := { generated := 0, rejected := 0, released := 0, captured := 0 }

structure User where
  links : PerDirection Link
  source : TrafficSource
  weights : MetricWeights
  /-- What the last interval brought. -/
  ticks : PerDirection LinkTick

structure Network where
  users : Array User
  grids : PerDirection Grid
  /-- Reports on the last passes. -/
  reports : PerDirection PassReport
  channel : Channel

namespace User

/-! ## Users -/

/-- Offers `bits` bits of traffic to a link.  Gives the bits admitted and the bits refused. -/
def offerTo (link : Link) (bits size : UInt64) : Except Fault ((UInt64 × UInt64) × Link) :=
  if bits = 0 then .ok ((0, 0), link)
  else do
    match ← link.generate bits size with
    | (.ok _, link) => return ((bits, 0), link)
    | (.error _, link) => return ((0, bits), link)

def stepLink (user : User) (now : Float) (direction : Direction) : Except Fault User := do
  let (departure, link) ← ((user.links.get direction).step now).release
  let (bits, source) ← user.source.offer direction intervalSeconds
  let ((generated, rejected), link) ← offerTo link bits source.config.packetBits
  let (captured, link) ← link.ingest
  return { user with
    links := user.links.set link direction
    source
    ticks := user.ticks.set { generated, rejected, released := departure.bits, captured } direction }

def step (user : User) (now : Float) : Except Fault User := do
  (← user.stepLink now .downlink).stepLink now .uplink

end User

/-! ## Passes -/

namespace Network

/-- The standing of somebody who does not exist. -/
def nobody : Candidate :=
  { hasData := false, bitsPerSymbol := 0.0
    demand := { since := 0.0, average := 0.0, achievable := 0.0, delay := 0.0, weights := .standard } }

/-- The standing of a link under given channel conditions. -/
def candidateOf (link : Link) (weights : MetricWeights) (state : ChannelState) (now : Float) :
    Candidate :=
  let oldest := link.oldestTimestamp
  { hasData := link.hasData
    bitsPerSymbol := state.bitsPerSymbol
    demand :=
      { since := oldest
        average := link.averageThroughput
        achievable := state.bitsPerSymbol
        delay := Real64.larger (now - oldest) 0.0
        weights } }

def conditionsOf (channel : Channel) (grant : Grant) (now : Float) : LinkConditions :=
  let state := channel.observe grant.user grant.direction grant.group now
  { mcs := state.mcs, sinr := state.sinr, distance := channel.distance grant.user now }

/-- Spends the whole bits of a grant on a user's link. -/
def deliver (channel : Channel) (direction : Direction) (now : Float) (users : Array User)
    (grant : Grant) : Except Fault (Float × Array User) :=
  match users[grant.user]? with
  | none => .ok (0.0, users)
  | some user => do
    let (bits, link) ← (user.links.get direction).spend
      grant.bits.toUInt64 (conditionsOf channel grant now)
    return (bits.toFloat,
      users.setIfInBounds grant.user { user with links := user.links.set link direction })

/-- The users as a grid of a direction knows them. -/
def directory (channel : Channel) (direction : Direction) (now : Float) : Directory (Array User) where
  users := Array.size
  candidate := fun users user group time ↦
    match users[user]? with
    | none => nobody
    | some entry =>
      candidateOf (entry.links.get direction) entry.weights
        (channel.observe user direction group time) time
  deliver := deliver channel direction now

/-! ## Jobs -/

/-- A part of the work of an interval. -/
inductive Job where
  | user (index : Nat)
  | grid (direction : Direction)
deriving DecidableEq

def stepUser (network : Network) (index : Nat) (now : Float) : Except Fault Network :=
  match network.users[index]? with
  | none => .ok network
  | some user => do
    return { network with users := network.users.setIfInBounds index (← user.step now) }

def stepGrid (network : Network) (direction : Direction) (now : Float) : Except Fault Network := do
  let (visits, grid, users) ←
    (network.grids.get direction).pass (directory network.channel direction now) now network.users
  return { network with
    users
    grids := network.grids.set grid direction
    reports := network.reports.set (.ofVisits visits) direction }

def execute (network : Network) (now : Float) : Job → Except Fault Network
  | .user index => network.stepUser index now
  | .grid direction => network.stepGrid direction now

/-- Does one job on behalf of a round; a job that ends with a fault leaves the network as it was. -/
def attempt (now : Float) (job : Job) (network : Network) : Option Fault × Network :=
  match network.execute now job with
  | .ok network => (none, network)
  | .error fault => (some fault, network)

end Network

/-- What an interval brought to all links of a direction. -/
structure DirectionTick where
  direction : Direction
  pass : PassReport
  generated : UInt64
  rejected : UInt64
  released : UInt64
  captured : Nat

namespace DirectionTick

def ofPass (direction : Direction) (pass : PassReport) : DirectionTick :=
  { direction, pass, generated := 0, rejected := 0, released := 0, captured := 0 }

def add (sum : DirectionTick) (tick : LinkTick) : Except Fault DirectionTick := do
  return { sum with
    generated := ← Word.add64 sum.generated tick.generated
    rejected := ← Word.add64 sum.rejected tick.rejected
    released := ← Word.add64 sum.released tick.released
    captured := sum.captured + tick.captured }

def ofNetwork (network : Network) (direction : Direction) : Except Fault DirectionTick :=
  (network.users.toList.map (·.ticks.get direction)).foldlM add
    (.ofPass direction (network.reports.get direction))

end DirectionTick

end RadioAccess
