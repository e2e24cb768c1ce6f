import RadioAccess.Json.Token
import RadioAccess.Json.Value

/-!
# Reading JSON

Builds the value that a list of tokens writes.  Nesting is not limited.
-/

namespace RadioAccess.Json

mutual

def readValue? : Nat → List Token → Option (Json × List Token)
  | 0, _ => none
  | _, [] => none
  | _ + 1, .null :: rest => some (.null, rest)
  | _ + 1, .bool value :: rest => some (.bool value, rest)
  | _ + 1, .number numeral :: rest => some (.number numeral, rest)
  | _ + 1, .string text :: rest => some (.string text, rest)
  | _ + 1, .openBracket :: .closeBracket :: rest => some (.array [], rest)
  | fuel + 1, .openBracket :: rest => do
    let (elements, rest) ← readElements? fuel rest
    return (.array elements, rest)
  | _ + 1, .openBrace :: .closeBrace :: rest => some (.object [], rest)
  | fuel + 1, .openBrace :: rest => do
    let (members, rest) ← readMembers? fuel rest
    return (.object members, rest)
  | _ + 1, _ :: _ => none

/-- One or more values up to the end of their array. -/
def readElements? : Nat → List Token → Option (List Json × List Token)
  | 0, _ => none
  | fuel + 1, tokens => do
    match ← readValue? fuel tokens with
    | (value, .comma :: rest) =>
      let (elements, rest) ← readElements? fuel rest
      return (value :: elements, rest)
    | (value, .closeBracket :: rest) => return ([value], rest)
    | _ => none

/-- One or more members up to the end of their object. -/
def readMembers? : Nat → List Token → Option (List (Option String × Json) × List Token)
  | 0, _ => none
  | _, [] => none
  | fuel + 1, .string name :: .colon :: rest => do
    match ← readValue? fuel rest with
    | (value, .comma :: rest) =>
      let (members, rest) ← readMembers? fuel rest
      return ((name, value) :: members, rest)
    | (value, .closeBrace :: rest) => return ([(name, value)], rest)
    | _ => none
  | _ + 1, _ :: _ => none

end

/-- The value that a text writes.  A value takes at most two calls for each of its tokens. -/
def read? (text : String) : Option Json := do
  let tokens ← tokens? text
  match ← readValue? (2 * tokens.length + 2) tokens with
  | (value, []) => return value
  | _ => none

end RadioAccess.Json
