import RadioAccess.Decimal.Binary

/-!
# Fewest Digits That Read Back

Among the decimals that a reader rounds to a given double, this module finds the one with fewest
digits and, of several, the one nearest to the double.  The reals that round to `m * 2 ^ q` form an
interval around it whose ends belong to it when `m` is even; a decimal with `n` digits lies in it
only if one of the double's two neighbours on the grid of `n`-digit decimals does.  So the grids are
tried from coarse to fine, and the first hit wins.

Zero, infinities and what is not a number have no digits and are left to the layouts.
-/

namespace RadioAccess.Decimal

/-- A positive decimal `digits * 10 ^ exponent`. -/
structure Scaled where
  digits : Nat
  exponent : Int

/-- Which of two decimals is taken when both are equally near. -/
inductive Tie where
  | up
  | toEven

/-- The reals that a reader rounds to `significand * 2 ^ exponent`, as four times their bounds in
units of `2 ^ exponent`. -/
structure Basin where
  lower : Nat
  centre : Nat
  upper : Nat
  closed : Bool

/-- The basin of a double.  Below a power of two the doubles lie twice as dense. -/
def Basin.of (significand : Nat) (exponent : Int) : Basin :=
  { lower := if significand = hiddenBit ∧ leastExponent < exponent
      then 4 * significand - 1 else 4 * significand - 2
    centre := 4 * significand
    upper := 4 * significand + 2
    closed := significand % 2 = 0 }

/-- Whether a value lies in the basin, both taken as multiples of one quantity of which the basin's
unit has `unit`. -/
def Basin.holds (basin : Basin) (unit value : Nat) : Bool :=
  if basin.closed then basin.lower * unit ≤ value && value ≤ basin.upper * unit
  else basin.lower * unit < value && value < basin.upper * unit

/-- The multiple of `10 ^ place` that lies in the basin of a double with the given exponent and is
nearest to the double, if there is one. -/
def onGrid? (tie : Tie) (exponent : Int) (basin : Basin) (place : Int) : Option Scaled :=
  let unit := upPower 2 exponent * downPower 10 place
  let step := 4 * (downPower 2 exponent * upPower 10 place)
  let below := basin.centre * unit / step
  let belowHit := below ≠ 0 && basin.holds unit (below * step)
  let aboveHit := basin.holds unit ((below + 1) * step)
  let twice := 2 * (basin.centre * unit - below * step)
  if belowHit && aboveHit then
    let takeBelow := twice < step || (twice = step && match tie with
      | .up => false
      | .toEven => below % 2 = 0)
    some { digits := if takeBelow then below else below + 1, exponent := place }
  else if belowHit then some { digits := below, exponent := place }
  else if aboveHit then some { digits := below + 1, exponent := place }
  else none

/-- The exponent of the leading decimal digit of `significand * 2 ^ exponent`: an estimate from the
leading binary digit, corrected by one in either direction. -/
def leadingPlace (significand : Nat) (exponent : Int) : Int :=
  let estimate := Int.fdiv ((significand.log2 + exponent) * 1233) 4096
  let value := significand * upPower 2 exponent
  let unit := downPower 2 exponent
  let reaches (place : Int) : Bool :=
    upPower 10 place * unit ≤ value * downPower 10 place
  if reaches (estimate + 1) then estimate + 1
  else if reaches estimate then estimate
  else estimate - 1

/-- The first grid, starting at `place` and getting finer, with a decimal in the basin. -/
def firstOnGrids (tie : Tie) (exponent : Int) (basin : Basin) : Nat → Int → Option Scaled
  | 0, _ => none
  | grids + 1, place =>
    match onGrid? tie exponent basin place with
    | some found => some found
    | none => firstOnGrids tie exponent basin grids (place - 1)

def Scaled.trim (value : Scaled) : Scaled :=
  if _ : value.digits = 0 then value
  else if value.digits % 10 = 0 then
    Scaled.trim { digits := value.digits / 10, exponent := value.exponent + 1 }
  else value
termination_by value.digits
decreasing_by omega

/-- The fewest digits that read back as the positive double `significand * 2 ^ exponent`.  Seventeen
digits always do. -/
def shortest (tie : Tie) (significand : Nat) (exponent : Int) : Scaled :=
  match firstOnGrids tie exponent (.of significand exponent) 17
    (leadingPlace significand exponent) with
  | some value => value.trim
  | none => { digits := 0, exponent := 0 }

end RadioAccess.Decimal
