import RadioAccess.Decimal.Shortest

/-!
# Layouts of Decimal Text

Two ways to write a double.  The *plain* layout has the fewest digits that read back and never an
exponent.  The *fixed* layout has a given number of places after the point, rounding the exact
value of the double, a half going to the even neighbour.

The layout of numbers in JSON texts differs from both and is not covered here.
-/

namespace RadioAccess.Decimal

/-- The decimal digits of a count, most significant first. -/
def digitText (n : Nat) : List Char := Nat.toDigits 10 n

def zeros (n : Nat) : List Char := List.replicate n '0'

/-- Puts the point `places` digits from the end, with at least one digit before it. -/
def pointed (digits : List Char) (places : Nat) : List Char :=
  let digits := zeros (places + 1 - digits.length) ++ digits
  let whole := digits.length - places
  digits.take whole ++ '.' :: digits.drop whole

/-- A positive decimal without exponent; a whole number has no point. -/
def Scaled.plain (value : Scaled) : List Char :=
  if 0 ≤ value.exponent then digitText value.digits ++ zeros value.exponent.toNat
  else pointed (digitText value.digits) (-value.exponent).toNat

def signed (negative : Bool) (text : List Char) : List Char :=
  if negative then '-' :: text else text

def plain (x : Float) : String :=
  match Shape.ofFloat x with
  | .notANumber => "NaN"
  | .infinite negative => String.ofList (signed negative ['i', 'n', 'f'])
  | .finite negative significand exponent =>
    String.ofList (signed negative
      (if significand = 0 then ['0'] else (shortest .up significand exponent).plain))

/-- The quotient rounded to the nearest count, a half going to the even neighbour. -/
def roundedQuotient (numerator denominator : Nat) : Nat :=
  let below := numerator / denominator
  let twice := 2 * (numerator % denominator)
  if twice < denominator || (twice = denominator && below % 2 = 0) then below else below + 1

def fixed (places : Nat) (x : Float) : String :=
  match Shape.ofFloat x with
  | .notANumber => "NaN"
  | .infinite negative => String.ofList (signed negative ['i', 'n', 'f'])
  | .finite negative significand exponent =>
    let scaled := roundedQuotient (significand * upPower 2 exponent * upPower 10 places)
      (downPower 2 exponent)
    String.ofList (signed negative
      (if places = 0 then digitText scaled else pointed (digitText scaled) places))

def padLeft (width : Nat) (text : String) : String :=
  String.ofList (List.replicate (width - text.length) ' ') ++ text

end RadioAccess.Decimal
