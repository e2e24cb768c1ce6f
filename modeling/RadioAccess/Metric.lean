import RadioAccess.Real64

/-!
# Scheduling Metrics

A metric scores the users that compete for a cell of the resource grid; the highest score wins.  All
metrics but the rotation are functions of the time and of what the user currently demands.

Metrics are selected by number.  A number that selects none stands for proportional fairness.
-/

namespace RadioAccess

inductive Metric where
  /-- The longer the oldest data waits, the better. -/
  | fifo
  /-- The lower the throughput, past and present, the better. -/
  | blindEqualThroughput
  /-- The nearer to the delay target, the better. -/
  | distanceToDelay
  /-- The larger the delay is against its target, the better. -/
  | weightedDelay
  /-- The higher the achievable throughput, the better. -/
  | maxThroughput
  /-- Users take turns. -/
  | roundRobin
  /-- The higher the achievable throughput is against the past one, the better. -/
  | proportionalFair
deriving DecidableEq

/-- What a user puts into its scores. -/
structure MetricWeights where
  /-- A factor of every score. -/
  priority : Float
  /-- Weight of the past, or exponent of fairness. -/
  beta : Float
  /-- Acceptable probability of a delay beyond the target. -/
  delta : Float
  /-- Delay target in seconds. -/
  delayTarget : Float
deriving BEq

/-- Equal priority and a target of one millisecond. -/
def MetricWeights.standard : MetricWeights :=
  { priority := 1.0, beta := 0.9, delta := 0.8, delayTarget := 0.001 }

/-- What a user demands on a group of frequencies. -/
structure Demand where
  /-- When the oldest waiting data was created. -/
  since : Float
  /-- The mean of delivered bits per interval. -/
  average : Float
  /-- Bits that a symbol on the group can carry. -/
  achievable : Float
  /-- How long the oldest data waits. -/
  delay : Float
  weights : MetricWeights

namespace Metric

def all : List Metric :=
  [fifo, blindEqualThroughput, distanceToDelay, weightedDelay, maxThroughput, roundRobin,
    proportionalFair]

def standard : Metric := proportionalFair

def number : Metric → UInt8
  | fifo => 0
  | blindEqualThroughput => 1
  | distanceToDelay => 2
  | weightedDelay => 3
  | maxThroughput => 4
  | roundRobin => 5
  | proportionalFair => 6

def ofNumber? (number : UInt8) : Option Metric := all[number.toNat]?

/-- The metric that a number stands for. -/
def ofNumber (number : UInt8) : Metric := (ofNumber? number).getD standard

def label : Metric → String
  | fifo => "Fifo"
  | blindEqualThroughput => "BlindEqualThroughput"
  | distanceToDelay => "DistanceToDelay"
  | weightedDelay => "WeightedDelay"
  | maxThroughput => "MaxThroughput"
  | roundRobin => "RoundRobin"
  | proportionalFair => "ProportionalFair"

/-- Least distance to a delay target, reached or passed targets included. -/
def leastSlack : Float := 1e-6

/-- The score of a demand at `now`.  The rotation scores nothing by itself. -/
def score (metric : Metric) (now : Float) (demand : Demand) : Float :=
  let w := demand.weights
  match metric with
  | fifo => w.priority * (now - demand.since)
  | blindEqualThroughput =>
    w.priority / (w.beta * demand.average + (1.0 - w.beta) * demand.achievable)
  | distanceToDelay => w.priority / Real64.larger (w.delayTarget - demand.delay) leastSlack
  | weightedDelay => -(Float.log w.delta / w.delayTarget) * w.priority * demand.delay
  | maxThroughput => w.priority * demand.achievable
  | roundRobin => 0.0
  | proportionalFair =>
    if demand.average != 0.0 then
      w.priority * demand.achievable / Float.pow demand.average w.beta
    else w.priority * demand.achievable

end Metric

end RadioAccess
