import RadioAccess.Json.Value

/-!
# Writing JSON

The indented layout: every element and member has a line of its own, two blanks deeper than its
array or object; empty arrays and objects are closed at once.
-/

namespace RadioAccess.Json

def hexChar (n : Nat) : Char := Nat.digitChar n

def charText (c : Char) : List Char :=
  if c = '"' then ['\\', '"']
  else if c = '\\' then ['\\', '\\']
  else if c = '\n' then ['\\', 'n']
  else if c = '\r' then ['\\', 'r']
  else if c = '\t' then ['\\', 't']
  else if c = '\x08' then ['\\', 'b']
  else if c = '\x0c' then ['\\', 'f']
  else if c.toNat < 32 then ['\\', 'u', '0', '0', hexChar (c.toNat / 16), hexChar (c.toNat % 16)]
  else [c]

/-- The text of a string.  One that is no text of characters is written as an empty one. -/
def stringText (text : Option String) : List Char :=
  '"' :: (text.getD "").toList.flatMap charText ++ ['"']

def lineBreak (depth : Nat) : List Char := '\n' :: List.replicate (2 * depth) ' '

mutual

/-- The text of a value at a depth. -/
def layout (depth : Nat) : Json → List Char
  | .null => ['n', 'u', 'l', 'l']
  | .bool true => ['t', 'r', 'u', 'e']
  | .bool false => ['f', 'a', 'l', 's', 'e']
  | .number numeral => numeral.text
  | .string text => stringText text
  | .array [] => ['[', ']']
  | .array (element :: elements) =>
    '[' :: lineBreak (depth + 1) ++ layout (depth + 1) element ++
      layoutElements (depth + 1) elements ++ lineBreak depth ++ [']']
  | .object [] => ['{', '}']
  | .object ((name, value) :: members) =>
    '{' :: lineBreak (depth + 1) ++ stringText name ++ [':', ' '] ++ layout (depth + 1) value ++
      layoutMembers (depth + 1) members ++ lineBreak depth ++ ['}']

/-- The text of the elements behind the first one. -/
def layoutElements (depth : Nat) : List Json → List Char
  | [] => []
  | element :: elements =>
    ',' :: lineBreak depth ++ layout depth element ++ layoutElements depth elements

/-- The text of the members behind the first one. -/
def layoutMembers (depth : Nat) : List (Option String × Json) → List Char
  | [] => []
  | (name, value) :: members =>
    ',' :: lineBreak depth ++ stringText name ++ [':', ' '] ++ layout depth value ++
      layoutMembers depth members

end

def text (value : Json) : String := String.ofList (layout 0 value)

end RadioAccess.Json
