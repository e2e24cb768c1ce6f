import RadioAccess.Direction
import RadioAccess.Grid.Carrier

/-!
# Symbol Cycles

Where both directions share a carrier, each symbol serves one of them or, as a guard between them, none.
The symbols repeat a pattern: full downlink slots, one transition slot with downlink, flexible and uplink
symbols in this order, and full uplink slots.

A cycle reads the pattern for one direction and keeps its place.  Symbols are not stored one by one: the
pattern is three runs, and how many symbols of a window serve a direction is the difference of two
counts from the beginning of the pattern.
-/

namespace RadioAccess

inductive SymbolUse where
  | serves (direction : Direction)
  | flexible
deriving DecidableEq

structure DuplexPattern where
  /-- Full downlink slots before the transition slot. -/
  downlinkSlots : UInt32
  /-- Full uplink slots after the transition slot. -/
  uplinkSlots : UInt32
  /-- The number of the transition slot. -/
  transition : UInt8
deriving DecidableEq

namespace DuplexPattern

/-- Three downlink slots, the transition slot and one uplink slot. -/
def standard : DuplexPattern := { downlinkSlots := 3, uplinkSlots := 1, transition := 1 }

/-- Downlink, flexible and uplink symbols of the numbered transition slots; the first one is
reserved. -/
def transitions : List (Nat × Nat × Nat) :=
  [(14, 0, 0), (10, 2, 2), (6, 4, 4), (4, 2, 8), (2, 2, 10), (12, 2, 0), (0, 2, 12)]

/-- The number that stands for every number without a transition slot. -/
def standardTransition : UInt8 := 1

/-- Whether a number has a transition slot that may be used. -/
def knownTransition (number : UInt8) : Bool := 1 ≤ number && number.toNat < transitions.length

def transitionSymbols (pattern : DuplexPattern) : Nat × Nat × Nat :=
  let number := if knownTransition pattern.transition then pattern.transition
    else standardTransition
  transitions.getD number.toNat (0, 0, 0)

end DuplexPattern

/-- A pattern as the lengths of its three runs. -/
structure SymbolRuns where
  downlink : Nat
  flexible : Nat
  uplink : Nat
deriving DecidableEq

namespace SymbolRuns

/-- The runs of a pattern; the symbols of its full slots have to fit a 32-bit word. -/
def ofPattern (pattern : DuplexPattern) : Except Fault SymbolRuns := do
  let downlinkSlots ← Word.mul32 pattern.downlinkSlots Carrier.symbolsPerSlot.toUInt32
  let uplinkSlots ← Word.mul32 pattern.uplinkSlots Carrier.symbolsPerSlot.toUInt32
  let (downlink, flexible, uplink) := pattern.transitionSymbols
  return { downlink := downlinkSlots.toNat + downlink, flexible, uplink := uplink + uplinkSlots.toNat }

def length (runs : SymbolRuns) : Nat := runs.downlink + runs.flexible + runs.uplink

/-- What the symbol at a place is for, the pattern being repeated for ever. -/
def useAt (runs : SymbolRuns) (place : Nat) : SymbolUse :=
  let place := place % runs.length
  if place < runs.downlink then .serves .downlink
  else if place < runs.downlink + runs.flexible then .flexible
  else .serves .uplink

/-- How many of the first `count` symbols of one pattern serve a direction. -/
def servedWithin (runs : SymbolRuns) (direction : Direction) (count : Nat) : Nat :=
  match direction with
  | .downlink => min count runs.downlink
  | .uplink => count - (runs.downlink + runs.flexible)

/-- How many of the first `count` symbols serve a direction, the pattern being repeated for ever. -/
def servedBefore (runs : SymbolRuns) (direction : Direction) (count : Nat) : Nat :=
  count / runs.length * runs.servedWithin direction runs.length +
    runs.servedWithin direction (count % runs.length)

end SymbolRuns

/-- A repeated pattern, read for one direction. -/
structure SymbolCycle where
  runs : SymbolRuns
  direction : Direction
  /-- The place of the next symbol in the pattern. -/
  cursor : Nat

namespace SymbolCycle

def start (pattern : DuplexPattern) (direction : Direction) : Except Fault SymbolCycle := do
  return { runs := ← SymbolRuns.ofPattern pattern, direction, cursor := 0 }

/-- How many of the next `count` symbols serve the direction. -/
def available (cycle : SymbolCycle) (count : Nat) : Nat :=
  cycle.runs.servedBefore cycle.direction (cycle.cursor + count) -
    cycle.runs.servedBefore cycle.direction cycle.cursor

def advance (cycle : SymbolCycle) (count : Nat) : SymbolCycle :=
  { cycle with cursor := (cycle.cursor + count) % cycle.runs.length }

/-- Passes over the next `count` symbols.  Gives how many of them serve the direction. -/
def take (cycle : SymbolCycle) (count : Nat) : Nat × SymbolCycle :=
  (cycle.available count, cycle.advance count)

end SymbolCycle

end RadioAccess
