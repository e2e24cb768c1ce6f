import RadioAccess.Fault

/-!
# Emulated Time

Time advances in transmission time intervals.  The clock counts intervals; the time in seconds is
the count times the length of one interval, computed afresh at every query, so no rounding error
accumulates over a run.
-/

namespace RadioAccess

def intervalSeconds : Float := 0.001

/-- A count of elapsed intervals and the length of one of them in seconds. -/
structure Clock where
  interval : UInt64
  seconds : Float

namespace Clock

/-- A clock at its start.  The length has to be positive. -/
def start (seconds : Float) : Except Fault Clock :=
  if seconds > 0.0 then .ok { interval := 0, seconds := seconds } else .error .intervalNotPositive

def standard : Clock := { interval := 0, seconds := intervalSeconds }

def advance (clock : Clock) : Except Fault Clock := do
  return { clock with interval := ← Word.add64 clock.interval 1 }

def advanceBy (clock : Clock) : Nat → Except Fault Clock
  | 0 => .ok clock
  | n + 1 => do (← clock.advance).advanceBy n

/-- Seconds since the start. -/
def now (clock : Clock) : Float := clock.interval.toFloat * clock.seconds

end Clock

end RadioAccess
