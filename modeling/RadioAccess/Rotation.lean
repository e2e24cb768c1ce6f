import RadioAccess.Metric

/-!
# Rotation

Under the round robin metric users take turns.  Users are scored in sweeps, one for each cell; the turn
moves on when a sweep begins, and a sweep begins with the first query of a pass, with another frequency
group than that of the query before, and with a user that does not follow the one of the query before.

A `Scorer` holds a metric together with the turn, which the other metrics do not look at.
-/

namespace RadioAccess

/-- Whose turn it is, and the query before. -/
structure Rotation where
  /-- The user whose turn it is; none before the first turn. -/
  turn : Option Nat
  lastGroup : Option Nat
  lastUser : Option Nat

namespace Rotation

def start : Rotation := { turn := none, lastGroup := none, lastUser := none }

/-- A new pass begins: the next query begins a sweep. -/
def beginPass (rotation : Rotation) : Rotation :=
  { rotation with lastGroup := none, lastUser := none }

def beginsSweep (rotation : Rotation) (group user : Nat) : Bool :=
  rotation.lastGroup != some group || rotation.lastUser.all (user ≤ ·)

/-- The turn after `turn` among `users` users. -/
def nextTurn (turn : Option Nat) (users : Nat) : Nat :=
  match turn with
  | none => 0
  | some user => (user + 1) % users

/-- Asks whether it is the turn of `user`, one of `users`, on a frequency group. -/
def query (rotation : Rotation) (group user users : Nat) : Bool × Rotation :=
  if users = 0 then (false, rotation)
  else
    let turn := if rotation.beginsSweep group user then some (nextTurn rotation.turn users)
      else rotation.turn
    (turn.any (· % users = user), { turn, lastGroup := some group, lastUser := some user })

end Rotation

structure Scorer where
  metric : Metric
  rotation : Rotation

namespace Scorer

def ofMetric (metric : Metric) : Scorer := { metric, rotation := .start }

def beginPass (scorer : Scorer) : Scorer := { scorer with rotation := scorer.rotation.beginPass }

/-- Scores `user`, one of `users`, on a frequency group. -/
def score (scorer : Scorer) (group user users : Nat) (now : Float) (demand : Demand) :
    Float × Scorer :=
  match scorer.metric with
  | .roundRobin =>
    let (designated, rotation) := scorer.rotation.query group user users
    (if designated then 1.0 else 0.0, { scorer with rotation })
  | metric => (metric.score now demand, scorer)

end Scorer

end RadioAccess
