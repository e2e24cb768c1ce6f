import RadioAccess.Decimal.Shortest

/-!
# JSON Numerals

A numeral is kept as it is written: sign, digits before and after the point, and exponent.  What it
means depends on what is asked for: a word is written by a numeral without sign, point and exponent
only, while any numeral writes a double.

The double of a numeral is not always the nearest one.  It is computed from the longest beginning of
the digits that fits 64 bits, by one rounded multiplication or division by a power of ten; for up to
fifteen digits and small exponents that is exact.
-/

namespace RadioAccess

abbrev Digit := Fin 10

namespace Digit

def ofChar? (c : Char) : Option Digit :=
  if h : 48 ≤ c.toNat ∧ c.toNat - 48 < 10 then some ⟨c.toNat - 48, h.2⟩ else none

def toChar (digit : Digit) : Char := Char.ofNat (48 + digit.val)

def value (digits : List Digit) : Nat := digits.foldl (fun n digit ↦ 10 * n + digit.val) 0

/-- The digits of a count, most significant first. -/
def listOf (n : Nat) : List Digit := (Nat.toDigits 10 n).filterMap ofChar?

def scan : List Char → List Digit × List Char
  | [] => ([], [])
  | c :: text =>
    match ofChar? c with
    | some digit => (digit :: (scan text).1, (scan text).2)
    | none => ([], c :: text)

/-- Digits that the text has to start with, and the rest of it. -/
def scan? (text : List Char) : Option (List Digit × List Char) :=
  match scan text with
  | ([], _) => none
  | found => some found

end Digit

structure Numeral where
  negative : Bool
  whole : List Digit
  /-- The digits after the point; none if there is no point. -/
  fraction : List Digit
  exponent : Option Int

namespace Numeral

/-! ## Text -/

/-- The digits before the point: a zero, or digits that do not start with a zero. -/
def scanWhole? : List Char → Option (List Digit × List Char)
  | '0' :: text => some ([0], text)
  | text => Digit.scan? text

def scanFraction? : List Char → Option (List Digit × List Char)
  | '.' :: text => Digit.scan? text
  | text => some ([], text)

def scanSignedExponent? : List Char → Option (Int × List Char)
  | '+' :: text => (Digit.scan? text).map fun (digits, rest) ↦ (Int.ofNat (Digit.value digits), rest)
  | '-' :: text => (Digit.scan? text).map fun (digits, rest) ↦ (-(Int.ofNat (Digit.value digits)), rest)
  | text => (Digit.scan? text).map fun (digits, rest) ↦ (Int.ofNat (Digit.value digits), rest)

def scanExponent? : List Char → Option (Option Int × List Char)
  | 'e' :: text => (scanSignedExponent? text).map fun (exponent, rest) ↦ (some exponent, rest)
  | 'E' :: text => (scanSignedExponent? text).map fun (exponent, rest) ↦ (some exponent, rest)
  | text => some (none, text)

/-- A numeral that the text has to start with, and the rest of it. -/
def scan? (text : List Char) : Option (Numeral × List Char) := do
  let (negative, text) := match text with
    | '-' :: text => (true, text)
    | text => (false, text)
  let (whole, text) ← scanWhole? text
  let (fraction, text) ← scanFraction? text
  let (exponent, text) ← scanExponent? text
  return ({ negative, whole, fraction, exponent }, text)

/-- The text of an exponent, its sign always written if it is positive. -/
def exponentText : Option Int → List Char
  | none => []
  | some exponent =>
    'e' :: (if exponent < 0 then '-' else '+') :: Nat.toDigits 10 exponent.natAbs

def text (numeral : Numeral) : List Char :=
  (if numeral.negative then ['-'] else []) ++ numeral.whole.map Digit.toChar ++
    (if numeral.fraction.isEmpty then [] else '.' :: numeral.fraction.map Digit.toChar) ++
    exponentText numeral.exponent

/-! ## Words -/

def ofNat (n : Nat) : Numeral :=
  { negative := false, whole := Digit.listOf n, fraction := [], exponent := none }

def toNatBelow? (bound : Nat) (numeral : Numeral) : Option Nat :=
  if numeral.negative || !numeral.fraction.isEmpty || numeral.exponent.isSome then none
  else if Digit.value numeral.whole < bound then some (Digit.value numeral.whole)
  else none

/-! ## Doubles -/

/-- Takes digits onto `significand` while it fits 64 bits.  Gives the significand and the digits that
were not taken. -/
def takeDigits (significand : Nat) : List Digit → Nat × List Digit
  | [] => (significand, [])
  | digit :: digits =>
    if 10 * significand + digit.val < UInt64.size then takeDigits (10 * significand + digit.val) digits
    else (significand, digit :: digits)

def powerOfTen (exponent : Nat) : Float := Float.ofScientific 1 false exponent

/-- The largest exponent of a power of ten that is a double. -/
def largestPower : Nat := 308

/-- Divides by `10 ^ exponent`, in steps of the largest power. -/
def scaleDown (x : Float) (exponent : Nat) : Float :=
  if exponent ≤ largestPower then x / powerOfTen exponent
  else if x == 0.0 then x
  else scaleDown (x / powerOfTen largestPower) (exponent - largestPower)
termination_by exponent
decreasing_by
  unfold largestPower at *
  omega

/-- Multiplies by `10 ^ exponent`, unless the result is infinite. -/
def scaleUp? (x : Float) (exponent : Nat) : Option Float :=
  if exponent ≤ largestPower then
    let scaled := x * powerOfTen exponent
    if scaled.isInf then none else some scaled
  else if x == 0.0 then some x
  else none

/-- The size from which on a written exponent is beyond any double. -/
def exponentBound : Nat := 0x80000000

/-- The double that a numeral writes without its sign, if it is not too large. -/
def magnitude? (numeral : Numeral) : Option Float :=
  let (significand, leftWhole) := takeDigits 0 numeral.whole
  let (significand, leftFraction) := takeDigits significand numeral.fraction
  let place : Int := leftWhole.length - (numeral.fraction.length - leftFraction.length : Nat)
  let written := numeral.exponent.getD 0
  if exponentBound ≤ written.natAbs then
    if significand ≠ 0 && 0 < written then none else some 0.0
  else
    let exponent := place + written
    let x := significand.toUInt64.toFloat
    if exponent < 0 then some (scaleDown x exponent.natAbs) else scaleUp? x exponent.natAbs

def toFloat? (numeral : Numeral) : Option Float :=
  numeral.magnitude?.map fun x ↦ if numeral.negative then -x else x

/-- Least exponent of a leading digit that is written by position. -/
def leastPositional : Int := -5

/-- Least exponent of a leading digit that is again written with an exponent. -/
def positionalBound : Int := 16

/-- The numeral of a positive decimal: without exponent and with at least one digit after the point if
it is neither small nor large, else with one digit before the point. -/
def ofScaled (negative : Bool) (value : Decimal.Scaled) : Numeral :=
  let digits := Digit.listOf value.digits
  let leading := value.exponent + digits.length - 1
  if leading < leastPositional || positionalBound ≤ leading then
    { negative, whole := digits.take 1, fraction := digits.drop 1, exponent := some leading }
  else if 0 ≤ value.exponent then
    { negative, whole := digits ++ List.replicate value.exponent.toNat 0, fraction := [0],
      exponent := none }
  else if 0 ≤ leading then
    { negative, whole := digits.take (leading.toNat + 1), fraction := digits.drop (leading.toNat + 1),
      exponent := none }
  else
    { negative, whole := [0], fraction := List.replicate (-leading - 1).toNat 0 ++ digits,
      exponent := none }

/-- The numeral of a double, with the fewest digits that read back; only finite doubles have one. -/
def ofFloat? (x : Float) : Option Numeral :=
  match Decimal.Shape.ofFloat x with
  | .notANumber => none
  | .infinite _ => none
  | .finite negative significand exponent =>
    if significand = 0 then some { negative, whole := [0], fraction := [0], exponent := none }
    else some (ofScaled negative (Decimal.shortest .toEven significand exponent))

end Numeral

end RadioAccess
