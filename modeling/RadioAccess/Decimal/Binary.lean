/-!
# The Value of a Double

Decimal texts of a double are computed from its exact value `m * 2 ^ q`.  This module reads the
value off the bits; it is the only one that knows how a double is laid out.
-/

namespace RadioAccess.Decimal

/-- What a double stands for. -/
inductive Shape where
  | notANumber
  | infinite (negative : Bool)
  /-- The value `significand * 2 ^ exponent`, or its negative.  Zero has a sign too. -/
  | finite (negative : Bool) (significand : Nat) (exponent : Int)

/-- The bit of a significand that is not stored, which is the least full significand. -/
def hiddenBit : Nat := 0x10000000000000

def signBit : Nat := 0x8000000000000000

/-- The exponent field of what is no finite number; the field has eleven bits. -/
def specialField : Nat := 0x7FF

/-- The exponent of the doubles of least magnitude. -/
def leastExponent : Int := -1074

def Shape.ofFloat (x : Float) : Shape :=
  let bits := x.toBits.toNat
  let negative := signBit ≤ bits
  let field := bits / hiddenBit % (specialField + 1)
  let stored := bits % hiddenBit
  if field = specialField then
    if stored = 0 then .infinite negative else .notANumber
  else if field = 0 then .finite negative stored leastExponent
  else .finite negative (stored + hiddenBit) (leastExponent + (field - 1 : Nat))

/-- The factor `base ^ exponent`, or one if the exponent is negative. -/
def upPower (base : Nat) (exponent : Int) : Nat := Nat.pow base exponent.toNat

/-- The factor `base ^ (-exponent)`, or one if the exponent is positive. -/
def downPower (base : Nat) (exponent : Int) : Nat := Nat.pow base (-exponent).toNat

end RadioAccess.Decimal
