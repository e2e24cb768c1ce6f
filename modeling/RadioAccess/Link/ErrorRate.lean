import RadioAccess.Fault
import RadioAccess.Real64

/-!
# Block Error Rates

The probability that a transmitted block is not understood.  It is either one number for all blocks,
or read from a table over modulation, size class of the frequency group, number of spatial layers,
modulation and coding scheme, and signal strength.  The table is a family of logistic curves over the
signal strength, sampled in buckets of half a decibel.  It is generated from an exponential function; which
one is fixed where the table is set up, so that nothing else depends on how exponentials are rounded.

Repetitions add soft-combining gain; how often a block may be repeated is not decided here.
-/

namespace RadioAccess

inductive Modulation where
  | qam64
  | qam256
deriving DecidableEq

/-- What does not change about a link and selects its error rates. -/
structure LinkProfile where
  modulation : Modulation
  /-- Spatial layers, of which the table knows one to four. -/
  layers : UInt32
  /-- Resource blocks in a frequency group. -/
  groupSize : UInt32

def LinkProfile.standard : LinkProfile := { modulation := .qam256, layers := 1, groupSize := 1 }

namespace ErrorTable

/-! ## Coordinates -/

def modulations : Nat := 2

/-- Number of size classes of frequency groups. -/
def groupClasses : Nat := 4

def layerLimit : Nat := 4

def schemes : Nat := 28

def buckets : Nat := 91

def leastSignal : Float := -10.0

def bucketWidth : Float := 0.5

def modulationIndex : Modulation → Nat
  | .qam64 => 0
  | .qam256 => 1

/-- The size class of a frequency group: one, two, four, or eight and more resource blocks. -/
def groupClass (groupSize : UInt32) : Nat :=
  if groupSize < 2 then 0 else if groupSize < 4 then 1 else if groupSize < 8 then 2 else 3

/-- The row of a number of layers, which is taken into the range of the table. -/
def layerIndex (layers : UInt32) : Nat := min (max layers.toNat 1) layerLimit - 1

/-- The row of a scheme; schemes beyond the table count as its last one. -/
def schemeIndex (mcs : UInt8) : Nat := min mcs.toNat (schemes - 1)

/-- The bucket nearest to a signal strength; strengths beyond the table belong to its ends, and what
is not a number to the first bucket. -/
def bucketOf (sinr : Float) : Nat :=
  if !sinr.isFinite || sinr <= leastSignal then
    if sinr == 1.0 / 0.0 then buckets - 1 else 0
  else min (Real64.nearestCount ((sinr - leastSignal) / bucketWidth)).toNat (buckets - 1)

/-! ## Values -/

/-- The signal strength at which half of the blocks fail. -/
def threshold (modulation layer scheme : Nat) : Float :=
  let base := if modulation = 0 then -6.0 + 0.9 * Float.ofNat scheme
    else -4.0 + 1.1 * Float.ofNat scheme
  base + 1.5 * Float.ofNat layer

def slope (group : Nat) : Float := 1.2 + 0.3 * Float.ofNat group

def signal (bucket : Nat) : Float := leastSignal + Float.ofNat bucket * bucketWidth

def rate (exponential : Float → Float) (modulation group layer scheme bucket : Nat) : Float :=
  Real64.clamp 1e-6 1.0
    (1.0 / (1.0 + exponential (slope group * (signal bucket - threshold modulation layer scheme))))

/-- The rates of all places, the bucket changing fastest and the modulation slowest. -/
def generate (exponential : Float → Float) : Array Float :=
  ((List.range modulations).flatMap fun modulation ↦
    (List.range groupClasses).flatMap fun group ↦
      (List.range layerLimit).flatMap fun layer ↦
        (List.range schemes).flatMap fun scheme ↦
          (List.range buckets).map fun bucket ↦
            rate exponential modulation group layer scheme bucket).toArray

def values : Array Float := generate Float.exp

def offset (modulation group layer scheme bucket : Nat) : Nat :=
  (((modulation * groupClasses + group) * layerLimit + layer) * schemes + scheme) * buckets + bucket

/-- The error rate that a table has for a link at a scheme and a signal strength. -/
def lookupIn (table : Array Float) (profile : LinkProfile) (mcs : UInt8) (sinr : Float) : Float :=
  table.getD (offset (modulationIndex profile.modulation) (groupClass profile.groupSize)
    (layerIndex profile.layers) (schemeIndex mcs) (bucketOf sinr)) 0.0

def lookup (profile : LinkProfile) (mcs : UInt8) (sinr : Float) : Float :=
  lookupIn values profile mcs sinr

end ErrorTable

inductive ErrorModel where
  /-- Error rates from the table, compounded over the attempts of a block. -/
  | table
  /-- The same probability for every attempt. -/
  | flat (probability : Float)

namespace ErrorModel

/-- The failure probability that links are usually tuned to. -/
def targetRate : Float := 0.1

/-- The share of the failure probability that each further attempt removes. -/
def combiningGain : Float := 0.2

/-- A word read as a signed number in two's complement. -/
def signedReading (word : UInt32) : Int := word.toInt32.toInt

def largestSigned : Int := 0x7FFFFFFF

/-- The exponent of the success probability: the number of attempts made so far, counted in signed
words. -/
def attemptsMade (attempt : UInt32) : Except Fault Int :=
  if signedReading attempt < largestSigned then .ok (signedReading attempt + 1)
  else .error .addOverflow

/-- The probability that attempt number `attempt` of a block fails whose first attempt fails with
probability `rate`. -/
def compounded (rate : Float) (attempt : UInt32) : Except Fault Float := do
  let success := Real64.power (1.0 - rate) (← attemptsMade attempt)
  let repetitions := if attempt = 0 then 0 else signedReading (attempt - 1)
  let gain := Real64.power (1.0 - combiningGain) repetitions
  return Real64.clamp 0.0 1.0 ((1.0 - success) * gain)

/-- The probability that attempt number `attempt` of a block fails under a given table, the first being
number zero. -/
def failureProbabilityIn (table : Array Float) (model : ErrorModel) (profile : LinkProfile) (mcs : UInt8)
    (sinr : Float) (attempt : UInt32) : Except Fault Float :=
  match model with
  | .flat probability => .ok probability
  | .table => compounded (ErrorTable.lookupIn table profile mcs sinr) attempt

/-- The probability that attempt number `attempt` of a block fails, the first being number zero. -/
def failureProbability (model : ErrorModel) (profile : LinkProfile) (mcs : UInt8) (sinr : Float)
    (attempt : UInt32) : Except Fault Float :=
  model.failureProbabilityIn ErrorTable.values profile mcs sinr attempt

end ErrorModel

end RadioAccess
