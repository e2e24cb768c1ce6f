import RadioAccess.Json.Value

/-!
# Records in JSON

A record is written as an object whose members are its fields, or as an array of its fields in their
order.  An object may leave fields out and may have members that are no fields, which are skipped; an
array may leave out its last fields.  A field that is written twice, a member whose name is no text, and
a surplus element make it no record.

An alternative among several is written by its name alone, or by an object of one member that is named
for it and holds what belongs to it.
-/

namespace RadioAccess.Json

/-- The fields of a record that are written, with their values. -/
abbrev Record := List (String × Json)

def recordOfMembers? (names : List String) : List (Option String × Json) → Option Record
  | [] => some []
  | (none, _) :: _ => none
  | (some name, value) :: members => do
    let record ← recordOfMembers? names members
    if !names.contains name then return record
    else if (record.lookup name).isSome then none
    else return (name, value) :: record

def recordOfElements? : List String → List Json → Option Record
  | _, [] => some []
  | [], _ :: _ => none
  | name :: names, value :: values => do
    return (name, value) :: (← recordOfElements? names values)

/-- The record with the given fields that a value writes. -/
def record? (names : List String) : Json → Option Record
  | .object members => recordOfMembers? names members
  | .array elements => recordOfElements? names elements
  | _ => none

def Record.required? {α : Type} (record : Record) (name : String) (decode : Json → Option α) :
    Option α :=
  (record.lookup name).bind decode

/-- A field that has the value `absent` if it is not written. -/
def Record.field? {α : Type} (record : Record) (name : String) (decode : Json → Option α)
    (absent : α) : Option α :=
  match record.lookup name with
  | none => some absent
  | some value => decode value

/-- The name of an alternative and what is written with it, which is null if nothing is. -/
def alternative? : Json → Option (String × Json)
  | .string (some name) => some (name, .null)
  | .object [(some name, value)] => some (name, value)
  | _ => none

/-! ## Fields -/

def toNatBelow? (bound : Nat) : Json → Option Nat
  | .number numeral => numeral.toNatBelow? bound
  | _ => none

def toUInt8? (value : Json) : Option UInt8 := (value.toNatBelow? UInt8.size).map Nat.toUInt8

def toUInt32? (value : Json) : Option UInt32 := (value.toNatBelow? UInt32.size).map Nat.toUInt32

def toUInt64? (value : Json) : Option UInt64 := (value.toNatBelow? UInt64.size).map Nat.toUInt64

def toBool? : Json → Option Bool
  | .bool value => some value
  | _ => none

def toList? {α : Type} (decode : Json → Option α) : Json → Option (List α)
  | .array elements => elements.mapM decode
  | _ => none

end RadioAccess.Json
