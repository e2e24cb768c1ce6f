/-!
# Double Precision Arithmetic

The numbers of the emulator are IEEE double precision numbers in the type `Float`.  This module
adds the operations that core does not have: the larger of two numbers, clamping, integer powers
and rounding to a count.  All of them are built from comparison, arithmetic and truncation, so
they can be unfolded down to the model of `Float`.

No operation here assumes that its argument is a number; each says what happens otherwise.
-/

namespace RadioAccess.Real64

/-- The larger of two numbers; where one of them is not a number, the other one. -/
def larger (a b : Float) : Float :=
  if a.isNaN then b else if a < b then b else a

/-- The nearest value between `low` and `high`.  What is not a number stays so. -/
def clamp (low high x : Float) : Float :=
  if x < low then low else if high < x then high else x

/-- The product of `acc` and the `k`-th power of `base`, squaring `base` once for each binary digit
of `k` after the first. -/
def powerOnto (acc base : Float) (k : Nat) : Float :=
  let acc := if k % 2 = 1 then acc * base else acc
  if k < 2 then acc else powerOnto acc (base * base) (k / 2)
termination_by k
decreasing_by omega

/-- An integer power, by repeated squaring; a negative power is the reciprocal of the positive one. -/
def power (base : Float) (exponent : Int) : Float :=
  let magnitude := powerOnto 1.0 base exponent.natAbs
  if exponent < 0 then 1.0 / magnitude else magnitude

/-- A number from which on every number is whole. -/
def wholeFrom : Float := 9007199254740992.0

/-- The nearest count, halves going up.  What is negative or not a number counts as nothing, and
what does not fit is the largest word. -/
def nearestCount (x : Float) : UInt64 :=
  let whole := x.toUInt64
  if x < wholeFrom && x - whole.toFloat >= 0.5 then whole + 1 else whole

end RadioAccess.Real64
