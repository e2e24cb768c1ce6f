import RadioAccess.Json.Numeral

/-!
# JSON Values

The tree that a JSON text writes.  Objects keep their members in the order of the text, equal names
included, as some readers refuse an object that names a member twice.  Strings are texts of Unicode
characters; an escaped half of a surrogate pair without its other half is no character, and a string
that holds one is `none`.
-/

namespace RadioAccess

inductive Json where
  | null
  | bool (value : Bool)
  | number (numeral : Numeral)
  | string (text : Option String)
  | array (elements : List Json)
  | object (members : List (Option String × Json))

namespace Json

def ofNat (n : Nat) : Json := .number (.ofNat n)

def ofString (text : String) : Json := .string (some text)

def ofMembers (members : List (String × Json)) : Json :=
  .object (members.map fun (name, value) ↦ (some name, value))

end Json

/-! ## Doubles -/

/-- How doubles are written as numerals and read from them. -/
structure DoubleFormat where
  write : Float → Option Numeral
  read : Numeral → Option Float

namespace DoubleFormat

def standard : DoubleFormat := { write := Numeral.ofFloat?, read := Numeral.toFloat? }

/-- The value that a double is written by: a number if it has a numeral, else null. -/
def toJson (format : DoubleFormat) (x : Float) : Json :=
  match format.write x with
  | some numeral => .number numeral
  | none => .null

def ofJson? (format : DoubleFormat) : Json → Option Float
  | .number numeral => format.read numeral
  | _ => none

end DoubleFormat

end RadioAccess
