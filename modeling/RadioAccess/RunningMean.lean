import RadioAccess.Clock

/-!
# Running Means

Every statistic of a link is a quantity per interval that can be read as the mean since the last
windowed reading or as the mean since the start.  What is added between two steps is one sample.
The long-term mean is kept as a mean and corrected by each sample, so it needs no growing sum.

The accumulator is generic in its numbers: it runs on doubles, and over a field its two readings are
true means.
-/

namespace RadioAccess

inductive Window where
  /-- The mean since the last reading of this kind, which starts the next window. -/
  | sinceLastQuery
  | cumulative
deriving DecidableEq

instance floatNatCast : NatCast Float where
  natCast := Float.ofNat

/-- Sums and means of a quantity per step. -/
structure RunningMean (α : Type) where
  /-- What was added since the window was last read. -/
  windowSum : α
  /-- Steps since the window was last read. -/
  windowSteps : Nat
  /-- What was added since the last step. -/
  pending : α
  /-- The mean over all steps. -/
  mean : α
  /-- All steps. -/
  steps : Nat

namespace RunningMean

variable {α : Type} [Zero α] [Add α] [Sub α] [Div α] [NatCast α]

def empty : RunningMean α :=
  { windowSum := 0, windowSteps := 0, pending := 0, mean := 0, steps := 0 }

def add (acc : RunningMean α) (amount : α) : RunningMean α :=
  { acc with windowSum := acc.windowSum + amount, pending := acc.pending + amount }

def step (acc : RunningMean α) : RunningMean α :=
  { acc with
    windowSteps := acc.windowSteps + 1
    steps := acc.steps + 1
    mean := acc.mean + (acc.pending - acc.mean) / ((acc.steps + 1 : Nat) : α)
    pending := 0 }

/-- The mean since the window was last read, and the accumulator with a new window.  A window
without steps counts as one step. -/
def take (acc : RunningMean α) : α × RunningMean α :=
  (acc.windowSum / ((max acc.windowSteps 1 : Nat) : α), { acc with windowSum := 0, windowSteps := 0 })

def total (acc : RunningMean α) : α := acc.mean

/-- The mean of a window, and the accumulator after the reading. -/
def read (acc : RunningMean α) : Window → α × RunningMean α
  | .sinceLastQuery => acc.take
  | .cumulative => (acc.total, acc)

end RunningMean

def megabitsPerSecond (bits : Float) : Float := bits / intervalSeconds * 1e-6

end RadioAccess
