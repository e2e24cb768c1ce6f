import RadioAccess.Channel
import RadioAccess.Grid.Layout
import RadioAccess.Link.Basic
import RadioAccess.ReadError
import RadioAccess.Traffic

/-!
# Configuration

Everything that an emulation is set up from, and the check that refuses values with which nothing can
work.  Numbers that select a setting are not checked here, as the grid replaces those it does not know.
-/

namespace RadioAccess

structure UserConfig where
  traffic : TrafficConfig
  weights : MetricWeights
  /-- The user's channel, unless channels come from elsewhere. -/
  channel : UserChannel
deriving BEq

def UserConfig.standard : UserConfig :=
  { traffic := .standard, weights := .standard, channel := .standard }

/-- The settings of an emulation. -/
structure Config where
  /-- The seed from which all random streams derive. -/
  seed : UInt64
  /-- Worker threads; without any, all work is done by the caller. -/
  workers : UInt64
  grid : GridConfig
  links : PerDirection LinkConfig
  modulation : Modulation
  /-- Whether error rates are read from the table. -/
  useErrorTable : Bool
  /-- The error rate if they are not. -/
  errorRate : Float
  users : List UserConfig
deriving BEq

/-- One user with the standard settings; uplinks release whole blocks. -/
def Config.standard : Config :=
  { seed := 12345, workers := 2, grid := .standard
    links :=
      { downlink := .standard
        uplink := { LinkConfig.standard with egress := .blocks } }
    modulation := LinkProfile.standard.modulation, useErrorTable := false
    errorRate := ErrorModel.targetRate, users := [.standard] }

/-- A value with which nothing can work. -/
inductive ConfigFlaw where
  | noUsers
  | bandwidth (hertz : Float)
  | errorRate (rate : Float)
  | capacity (direction : Direction)
  | delays (direction : Direction)
  | packetSize (user : Nat)
  | weights (user : Nat)
  | distance (user : Nat)

namespace ConfigFlaw

def directionName : Direction → String
  | .downlink => "downlink"
  | .uplink => "uplink"

def message : ConfigFlaw → String
  | noUsers => "at least one user is required"
  | bandwidth hertz => "bandwidth must be positive, got " ++ Decimal.plain hertz ++ " Hz"
  | errorRate rate =>
    "flat error probability must lie in [0, 1], got " ++ Decimal.plain rate
  | capacity direction => directionName direction ++ " buffer capacity must be positive"
  | delays direction => directionName direction ++ " delays must be finite and non-negative"
  | packetSize user => "user " ++ toString user ++ ": packet size must be positive"
  | weights user =>
    "user " ++ toString user ++
      ": weights need priority >= 0, delay_target > 0 and delta in (0, 1]"
  | distance user => "user " ++ toString user ++ ": negative distance"

end ConfigFlaw

inductive ConfigError where
  /-- The text does not write a configuration. -/
  | malformed
  /-- There is no text to read. -/
  | unreadable (path : String) (reason : ReadError)
  | invalid (flaw : ConfigFlaw)

def ConfigError.message : ConfigError → String
  | malformed => "invalid configuration JSON"
  | unreadable path reason => "cannot read " ++ path ++ ": " ++ reason.message
  | invalid flaw => "invalid configuration: " ++ flaw.message

/-- Whether a delay is a finite number that is not negative. -/
def isDelay (seconds : Float) : Bool := seconds.isFinite && !(seconds < 0.0)

def LinkConfig.delays (config : LinkConfig) : List Float :=
  [config.harq.ackPeriod, config.harq.ackSpread, config.harq.processing,
    config.harq.processingSpread, config.backhaul.mean, config.backhaul.spread]

def LinkConfig.flaw? (direction : Direction) (config : LinkConfig) : Option ConfigFlaw :=
  if config.capacity = 0 then some (.capacity direction)
  else if !config.delays.all isDelay then some (.delays direction)
  else none

/-- Whether weights refuse to make scores. -/
def MetricWeights.areFlawed (w : MetricWeights) : Bool :=
  w.priority < 0.0 || w.delayTarget <= 0.0 || !(w.delta > 0.0 && w.delta <= 1.0)

def UserConfig.flaw? (config : UserConfig) (user : Nat) : Option ConfigFlaw :=
  if config.traffic.packetBits = 0 then some (.packetSize user)
  else if config.weights.areFlawed then some (.weights user)
  else if config.channel.distance < 0.0 then some (.distance user)
  else none

namespace Config

/-- The first flaw among users, who are numbered from `user` on. -/
def userFlaw? (user : Nat) : List UserConfig → Option ConfigFlaw
  | [] => none
  | config :: configs =>
    match config.flaw? user with
    | some flaw => some flaw
    | none => userFlaw? (user + 1) configs

def flaw? (config : Config) : Option ConfigFlaw :=
  if config.users.isEmpty then some .noUsers
  else if !(config.grid.bandwidth.isFinite && config.grid.bandwidth > 0.0) then
    some (.bandwidth config.grid.bandwidth)
  else if !(0.0 <= config.errorRate && config.errorRate <= 1.0) then
    some (.errorRate config.errorRate)
  else
    (Direction.all.findSome? fun direction ↦ (config.links.get direction).flaw? direction).or
      (userFlaw? 0 config.users)

def validated (config : Config) : Except ConfigError Config :=
  match config.flaw? with
  | some flaw => .error (.invalid flaw)
  | none => .ok config

def errorModel (config : Config) : ErrorModel :=
  if config.useErrorTable then .table else .flat config.errorRate

end Config

end RadioAccess
