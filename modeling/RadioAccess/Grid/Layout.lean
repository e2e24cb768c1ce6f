import RadioAccess.Decimal.Layout
import RadioAccess.Grid.Carrier
import RadioAccess.Grid.SymbolCycle
import RadioAccess.Notice
import RadioAccess.Rotation

/-!
# Grid Layout

How a carrier is divided for one direction: into frequency groups, and in time into rows.  A row is
either a slot or a whole subframe.  A carrier that both directions share in frequency gives each of them
half of its band; one that they share in time follows a symbol cycle.

Most settings are numbers, and a number without a meaning is replaced and noticed.  What cannot be
replaced is a band that is too narrow.
-/

namespace RadioAccess

inductive Duplexing where
  /-- In time. -/
  | time
  /-- In frequency. -/
  | frequency
deriving DecidableEq

/-- What a row of the grid is. -/
inductive RowSpan where
  | slot
  | subframe
deriving DecidableEq

inductive Grouping where
  /-- By a column of the table of group sizes. -/
  | table (column : UInt8)
  /-- Every block by itself. -/
  | single
deriving DecidableEq

structure GridConfig where
  /-- Spatial layers. -/
  layers : UInt32
  numerology : UInt8
  /-- The band in hertz, which sharing in frequency divides. -/
  bandwidth : Float
  /-- Zero makes rows of slots, one a row of the subframe. -/
  scheduling : UInt8
  /-- Zero groups by table, one not at all. -/
  grouping : UInt8
  /-- The column of the table. -/
  groupingColumn : UInt8
  metric : UInt8
  /-- Zero shares the carrier in time, one in frequency. -/
  duplexing : UInt8
  /-- The pattern of symbols, used when the carrier is shared in time. -/
  pattern : DuplexPattern
deriving BEq

/-- Twenty megahertz shared in time. -/
def GridConfig.standard : GridConfig :=
  { layers := 1, numerology := 1, bandwidth := 20e6, scheduling := 1, grouping := 0
    groupingColumn := 0, metric := Metric.standard.number, duplexing := 0, pattern := .standard }

inductive GridError where
  /-- Its band of so many hertz holds too few resource blocks. -/
  | tooNarrow (bandwidth : Float) (numerology : UInt8) (blocks : Nat)

def GridError.message : GridError → String
  | tooNarrow bandwidth numerology blocks =>
    "bandwidth " ++ Decimal.plain bandwidth ++ " Hz at numerology " ++ toString numerology.toNat ++
      " gives " ++ toString blocks ++ " resource blocks, minimum is " ++
      toString Carrier.leastBlocks

namespace GridConfig

/-! ## Settings -/

def duplexingOf (number : UInt8) : Duplexing := if number = 1 then .frequency else .time

def rowSpanOf (number : UInt8) : RowSpan := if number = 0 then .slot else .subframe

def groupingOf (number column : UInt8) : Grouping := if number = 0 then .table column else .single

/-- The notices about numbers that were replaced, the symbol cycle apart. -/
def replacements (config : GridConfig) : List Notice :=
  Notice.warnIf (config.numerology > Carrier.numerologyLimit)
      ("numerology " ++ toString config.numerology.toNat ++ " out of range 0..=" ++
        toString Carrier.numerologyLimit.toNat ++ ", using " ++
        toString Carrier.standardNumerology.toNat) ++
    Notice.warnIf (config.duplexing > 1)
      ("unknown duplexing mode " ++ toString config.duplexing.toNat ++ ", using TDD") ++
    Notice.warnIf (config.scheduling > 1)
      ("unknown scheduling mode " ++ toString config.scheduling.toNat ++ ", using localized") ++
    Notice.warnIf (config.grouping > 1)
      ("unknown grouping type " ++ toString config.grouping.toNat ++ ", using no grouping") ++
    Notice.warnIf (Metric.ofNumber? config.metric).isNone
      ("unknown scheduling metric id " ++ toString config.metric.toNat ++
        ", using proportional fair")

def transitionReplacement (pattern : DuplexPattern) : List Notice :=
  Notice.warnIf (!DuplexPattern.knownTransition pattern.transition)
    ("invalid TDD transition configuration " ++ toString pattern.transition.toNat ++ ", using " ++
      toString DuplexPattern.standardTransition.toNat)

end GridConfig

/-- A carrier divided for one direction. -/
structure GridLayout where
  direction : Direction
  numerology : UInt8
  /-- Spatial layers, at least one. -/
  layers : UInt32
  rowSpan : RowSpan
  duplexing : Duplexing
  metric : Metric
  /-- Resource blocks of the carrier. -/
  blocks : Nat
  /-- Resource blocks of a frequency group. -/
  groupSize : Nat
  /-- Frequency groups. -/
  groups : Nat
  /-- Time rows. -/
  rows : Nat
  symbolsPerRow : Nat
  /-- Resource elements of the carrier in a subframe. -/
  elements : Nat

namespace GridLayout

def cells (layout : GridLayout) : Nat := layout.rows * layout.groups

/-- The band that is left to one direction. -/
def bandOf (config : GridConfig) : Float :=
  match GridConfig.duplexingOf config.duplexing with
  | .frequency => config.bandwidth / 2.0
  | .time => config.bandwidth

/-- Resource blocks that a band holds, as far as the numerology allows. -/
def blocksIn (band : Float) (numerology : UInt8) (spacing : Float) : Nat :=
  let width := spacing * Float.ofNat Carrier.subcarriersPerBlock
  min (band / width).toUInt32.toNat (Carrier.blockLimits.getD numerology.toNat 0)

/-- Divides a carrier for one direction. -/
def ofConfig (direction : Direction) (config : GridConfig) :
    Except Fault (Except GridError GridLayout) := do
  let numerology := Carrier.numerologyOf config.numerology
  let slots ← Carrier.slotsPerSubframe numerology
  let band := bandOf config
  let blocks := blocksIn band numerology (← Carrier.subcarrierSpacing numerology)
  if blocks < Carrier.leastBlocks then
    return .error (.tooNarrow band numerology blocks)
  let rowSpan := GridConfig.rowSpanOf config.scheduling
  let groupSize :=
    match GridConfig.groupingOf config.grouping config.groupingColumn with
    | .table column => Carrier.groupSize blocks column
    | .single => 1
  return .ok
    { direction, numerology, rowSpan, blocks, groupSize
      layers := max config.layers 1
      duplexing := GridConfig.duplexingOf config.duplexing
      metric := Metric.ofNumber config.metric
      groups := blocks / groupSize
      rows :=
        match rowSpan with
        | .slot => slots
        | .subframe => 1
      symbolsPerRow :=
        match rowSpan with
        | .slot => Carrier.symbolsPerSlot
        | .subframe => Carrier.symbolsPerSlot * slots
      elements := blocks * Carrier.subcarriersPerBlock * Carrier.symbolsPerSlot * slots }

def notice (layout : GridLayout) : Notice :=
  .info (layout.direction.label ++ " grid: μ=" ++ toString layout.numerology.toNat ++ " " ++
    toString layout.blocks ++ " RBs, RBG size " ++ toString layout.groupSize ++ " → " ++
    toString layout.groups ++ " groups × " ++ toString layout.rows ++ " rows, " ++
    toString layout.elements ++ " REs per TTI, metric " ++ layout.metric.label)

end GridLayout

end RadioAccess
