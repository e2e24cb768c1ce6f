import RadioAccess.Config.Basic
import RadioAccess.Emulator.Network
import RadioAccess.Link.Tap
import RadioAccess.Rounds

/-!
# The Emulator

Sets a network up from a configuration and moves it on, one interval at a time.  An interval is a round
of jobs for the users and then a round for the grids; the order of the jobs within a round is free.

All random streams derive from one seed: three for each user, of which the first two belong to its links
and the last one to its traffic.
-/

namespace RadioAccess

inductive EmulatorError where
  | config (reason : ConfigError)
  | grid (reason : GridError)
  | userNotFound (user : Nat)
  | capture (reason : CaptureError)

def EmulatorError.message : EmulatorError → String
  | config reason => reason.message
  | grid reason => "grid construction failed: " ++ reason.message
  | userNotFound user => "user " ++ toString user ++ " not found"
  | capture reason => "cannot attach capture: " ++ reason.message

structure Emulator where
  network : Network
  /-- Worker threads. -/
  workers : Nat
  clock : Clock
  /-- The taps that were handed out, each on a user's link in a direction. -/
  taps : Array (Tap (Nat × Direction))

/-- What an interval brought. -/
structure Tick where
  interval : UInt64
  /-- Seconds at the start of the interval. -/
  time : Float
  directions : PerDirection DirectionTick

structure TickFailure where
  fault : Fault
  /-- What workers reported. -/
  notices : List Notice

namespace Emulator

/-! ## Setting up -/

def streamsPerUser : UInt64 := 3

/-- What selects the error rates of the links that a grid serves. -/
def profileOf (modulation : Modulation) (layout : GridLayout) : LinkProfile :=
  { modulation, layers := layout.layers, groupSize := layout.groupSize.toUInt32 }

/-- The seeds of a user's streams: one for each link, and one for the traffic. -/
def userSeeds (master : UInt64) (index : Nat) : PerDirection UInt64 × UInt64 :=
  let base := index.toUInt64 * streamsPerUser
  (.ofDirection fun direction ↦ Random.seedFor master (base + direction.index),
    Random.seedFor master (base + 2))

def userOf (config : Config) (profiles : PerDirection LinkProfile) (index : Nat)
    (user : UserConfig) : User :=
  let (linkSeeds, trafficSeed) := userSeeds config.seed index
  { links := .ofDirection fun direction ↦
      .idle direction (config.links.get direction) (profiles.get direction) config.errorModel
        (linkSeeds.get direction)
    source := .ofSeed user.traffic trafficSeed
    weights := user.weights
    ticks := .ofDirection fun _ ↦ .none }

/-- Users at the start of an emulation, numbered from `index` on. -/
def usersOf (config : Config) (profiles : PerDirection LinkProfile) (index : Nat) :
    List UserConfig → List User
  | [] => []
  | user :: users => userOf config profiles index user :: usersOf config profiles (index + 1) users

def ofGrids (config : Config) (channel : Channel) (grids : PerDirection Grid) : Emulator :=
  let profiles := PerDirection.ofDirection fun direction ↦
    profileOf config.modulation (grids.get direction).layout
  { network :=
      { users := (usersOf config profiles 0 config.users).toArray
        grids, reports := .ofDirection fun _ ↦ .empty, channel }
    workers := config.workers.toNat, clock := .standard, taps := #[] }

def notice (config : Config) : Notice :=
  .info ("emulator: " ++ toString config.users.length ++ " users, " ++
    toString config.workers.toNat ++ " worker threads, seed " ++ toString config.seed.toNat)

/-- Sets up both grids.  Gives the notices on the way. -/
def setUpGrids (config : GridConfig) :
    List Notice × Except Fault (Except GridError (PerDirection Grid)) :=
  match Grid.setUp .downlink config with
  | (notices, .error fault) => (notices, .error fault)
  | (notices, .ok (.error reason)) => (notices, .ok (.error reason))
  | (notices, .ok (.ok downlink)) =>
    match Grid.setUp .uplink config with
    | (further, .error fault) => (notices ++ further, .error fault)
    | (further, .ok (.error reason)) => (notices ++ further, .ok (.error reason))
    | (further, .ok (.ok uplink)) => (notices ++ further, .ok (.ok { downlink, uplink }))

/-- Sets up an emulation with a channel.  Gives the notices on the way. -/
def setUp (config : Config) (channel : Channel) :
    List Notice × Except Fault (Except EmulatorError Emulator) :=
  match config.flaw? with
  | some flaw => ([], .ok (.error (.config (.invalid flaw))))
  | none =>
    match setUpGrids config.grid with
    | (notices, .error fault) => (notices, .error fault)
    | (notices, .ok (.error reason)) => (notices, .ok (.error (.grid reason)))
    | (notices, .ok (.ok grids)) =>
      (notices ++ [notice config], do
        takeOn config.workers.toNat
        return .ok (ofGrids config channel grids))

def channelOf (config : Config) : StaticChannel :=
  .ofUsers (config.users.map (·.channel)).toArray

def ofConfig (config : Config) : List Notice × Except Fault (Except EmulatorError Emulator) :=
  setUp config (channelOf config).toChannel

/-! ## Intervals -/

def round (workers : Nat) (now : Float) (jobs : List Network.Job) (network : Network) :
    Except TickFailure Network :=
  let result := RoundResult.ofRound workers (Network.attempt now) jobs network
  match result.fault? with
  | none => .ok result.state
  | some fault =>
    .error
      { fault
        notices := if workers = 0 then [] else
          result.faults.map fun _ ↦ .error "worker job panicked" }

/-- Moves on by one interval, with the jobs of the users and of the grids in the given orders. -/
def tickInOrder (users : List Nat) (directions : List Direction) (emulator : Emulator) :
    Except TickFailure (Tick × Emulator) := do
  let now := emulator.clock.now
  let network ← round emulator.workers now (users.map .user) emulator.network
  let network ← round emulator.workers now (directions.map .grid) network
  let ended : Except Fault (Tick × Emulator) := do
    let downlink ← DirectionTick.ofNetwork network .downlink
    let uplink ← DirectionTick.ofNetwork network .uplink
    return ({ interval := emulator.clock.interval, time := now, directions := { downlink, uplink } },
      { emulator with network, clock := ← emulator.clock.advance })
  match ended with
  | .ok result => return result
  | .error fault => throw { fault, notices := [] }

def tick (emulator : Emulator) : Except TickFailure (Tick × Emulator) :=
  emulator.tickInOrder (List.range emulator.network.users.size) Direction.all

/-- Moves on by so many intervals, `done` holding the intervals before in reverse order. -/
def runOnto (done : List Tick) (emulator : Emulator) : Nat → Except TickFailure (List Tick × Emulator)
  | 0 => .ok (done.reverse, emulator)
  | count + 1 => do
    let (tick, emulator) ← emulator.tick
    emulator.runOnto (tick :: done) count

/-- Bytes that the record of an interval takes. -/
def tickSize : Nat := 160

/-- Moves on by so many intervals, for whose records there has to be room.  Gives what each of them
brought. -/
def run (emulator : Emulator) (count : Nat) : Except TickFailure (List Tick × Emulator) :=
  match makeRoom count tickSize with
  | .ok () => emulator.runOnto [] count
  | .error fault => .error { fault, notices := [] }

/-! ## Queries -/

def layout (emulator : Emulator) (direction : Direction) : GridLayout :=
  (emulator.network.grids.get direction).layout

def link? (emulator : Emulator) (user : Nat) (direction : Direction) : Except EmulatorError Link :=
  match emulator.network.users[user]? with
  | some entry => .ok (entry.links.get direction)
  | none => .error (.userNotFound user)

def setLink (emulator : Emulator) (user : Nat) (direction : Direction) (link : Link) : Emulator :=
  let users := emulator.network.users.modify user fun entry ↦
    { entry with links := entry.links.set link direction }
  { emulator with network := { emulator.network with users } }

def statistics (emulator : Emulator) (user : Nat) (direction : Direction) (window : Window) :
    Except EmulatorError (LinkStatistics × Emulator) := do
  let (statistics, link) := (← emulator.link? user direction).statistics window
  return (statistics, emulator.setLink user direction link)

def bufferedBits (emulator : Emulator) (user : Nat) (direction : Direction) :
    Except EmulatorError UInt64 := do
  return (← emulator.link? user direction).buffer.buffered

def summary (emulator : Emulator) : String :=
  "Emulator \x7b tti: " ++ toString emulator.clock.interval.toNat ++ ", users: " ++
    toString emulator.network.users.size ++ ", worker_threads: " ++ toString emulator.workers ++ " \x7d"

/-! ## Capture -/

/-- Taps a user's link.  Gives the number of the new tap. -/
def attach (emulator : Emulator) (user : Nat) (direction : Direction) :
    Except EmulatorError (Nat × Emulator) := do
  match (← emulator.link? user direction).attach with
  | .error reason => throw (.capture reason)
  | .ok (replaced, link) =>
    let taps :=
      match replaced with
      | none => emulator.taps
      | some bridge => emulator.taps.map (Tap.sever · (user, direction) bridge)
    return (taps.size,
      { emulator.setLink user direction link with taps := taps.push (.attached (user, direction)) })

def tapAt (emulator : Emulator) (number : Nat) : Tap (Nat × Direction) :=
  emulator.taps.getD number .dropped

def setTap (emulator : Emulator) (number : Nat) (tap : Tap (Nat × Direction)) : Emulator :=
  { emulator with taps := emulator.taps.setIfInBounds number tap }

/-- Submits a packet over a tap.  Gives nothing for a tap that was dropped. -/
def submit? (emulator : Emulator) (number : Nat) (captured : CapturedPacket) :
    Option (Except CaptureError Emulator) :=
  match emulator.tapAt number with
  | .dropped => none
  | .severed bridge => some do
    return emulator.setTap number (.severed (← bridge.submit captured))
  | .attached (user, direction) => some do
    match emulator.link? user direction with
    | .ok link => return emulator.setLink user direction (← link.submit captured)
    | .error _ => throw .disconnected

/-- Reads the verdicts that wait at a tap.  Gives nothing for a tap that was dropped. -/
def takeVerdicts? (emulator : Emulator) (number : Nat) : Option (List Verdict × Emulator) :=
  match emulator.tapAt number with
  | .dropped => none
  | .severed bridge =>
    let (verdicts, bridge) := bridge.takeVerdicts
    some (verdicts, emulator.setTap number (.severed bridge))
  | .attached (user, direction) =>
    match emulator.link? user direction with
    | .ok link =>
      let (verdicts, link) := link.takeVerdicts
      some (verdicts, emulator.setLink user direction link)
    | .error _ => some ([], emulator)

def dropTap (emulator : Emulator) (number : Nat) : Emulator :=
  let rest := emulator.setTap number .dropped
  match emulator.tapAt number with
  | .attached (user, direction) =>
    match emulator.link? user direction with
    | .ok link => rest.setLink user direction link.dropCollaborator
    | .error _ => rest
  | _ => rest

end Emulator

end RadioAccess
