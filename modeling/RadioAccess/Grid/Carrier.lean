import RadioAccess.Fault

/-!
# Carriers

A carrier is a band of frequencies.  Its numerology `μ` sets the distance of its subcarriers, 15 kHz
times `2 ^ μ`, and the number of slots in a subframe of one millisecond, `2 ^ μ`.  Twelve subcarriers
make a resource block, and neighbouring resource blocks are scheduled together in groups, of a size
that depends on how many blocks the carrier has.
-/

namespace RadioAccess.Carrier

def numerologyLimit : UInt8 := 5

/-- The numerology that stands for all numbers beyond the highest one. -/
def standardNumerology : UInt8 := 1

def leastBlocks : Nat := 20

/-- Most resource blocks of a carrier, by numerology. -/
def blockLimits : List Nat := [270, 273, 135, 264, 264, 264]

def symbolsPerSlot : Nat := 14

def subcarriersPerBlock : Nat := 12

def numerologyOf (number : UInt8) : UInt8 :=
  if number > numerologyLimit then standardNumerology else number

/-- Slots in a subframe, as far as a 32-bit word can count them. -/
def slotsPerSubframe (numerology : UInt8) : Except Fault Nat :=
  if numerology < 32 then .ok (Nat.pow 2 numerology.toNat) else .error .shiftOverflow

/-- Distance of neighbouring subcarriers in hertz. -/
def subcarrierSpacing (numerology : UInt8) : Except Fault Float := do
  return 15000.0 * Float.ofNat (← slotsPerSubframe numerology)

/-- The two sizes of a group on a carrier with so many resource blocks. -/
def groupSizes (blocks : Nat) : Nat × Nat :=
  if 1 ≤ blocks ∧ blocks < 37 then (2, 4)
  else if 37 ≤ blocks ∧ blocks < 73 then (4, 8)
  else if 73 ≤ blocks ∧ blocks < 145 then (8, 16)
  else (16, 16)

/-- Resource blocks in a group; column one of the table has the larger groups, and every other number
stands for column zero. -/
def groupSize (blocks : Nat) (column : UInt8) : Nat :=
  if column = 1 then (groupSizes blocks).2 else (groupSizes blocks).1

theorem groupSize_pos (blocks : Nat) (column : UInt8) : 0 < groupSize blocks column := by
  unfold groupSize groupSizes
  repeat' split
  all_goals decide

theorem numerologyOf_le (number : UInt8) : numerologyOf number ≤ numerologyLimit := by
  unfold numerologyOf
  split
  · decide
  · exact UInt8.not_lt.mp ‹_›

end RadioAccess.Carrier
