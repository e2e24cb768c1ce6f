import RadioAccess.Json.Numeral

/-!
# JSON Tokens

Splits a text into the tokens of JSON: six signs, three words, numerals and strings.  Blanks between
tokens are dropped.  Two values without a sign between them are still told apart here (`01` is two
numerals); that no JSON text holds them side by side is the business of the grammar.
-/

namespace RadioAccess.Json

inductive Token where
  | openBrace
  | closeBrace
  | openBracket
  | closeBracket
  | colon
  | comma
  | null
  | bool (value : Bool)
  | number (numeral : Numeral)
  | string (text : Option String)

/-! ## Strings -/

/-- What one place of a string stands for: a character or half of a surrogate pair. -/
inductive Piece where
  | char (c : Char)
  | highHalf (code : Nat)
  | lowHalf (code : Nat)

def Piece.ofUnit (code : Nat) : Piece :=
  if 0xD800 ≤ code && code < 0xDC00 then .highHalf code
  else if 0xDC00 ≤ code && code < 0xE000 then .lowHalf code
  else .char (Char.ofNat code)

/-- Joins the halves of surrogate pairs; fails on a half without its other half. -/
def Piece.join? : List Piece → Option (List Char)
  | [] => some []
  | .char c :: pieces => (join? pieces).map (c :: ·)
  | .highHalf high :: .lowHalf low :: pieces =>
    (join? pieces).map (Char.ofNat (0x10000 + (high - 0xD800) * 0x400 + (low - 0xDC00)) :: ·)
  | _ :: _ => none

def hexDigit? (c : Char) : Option Nat :=
  let n := c.toNat
  if 48 ≤ n && n < 58 then some (n - 48)
  else if 65 ≤ n && n < 71 then some (n - 55)
  else if 97 ≤ n && n < 103 then some (n - 87)
  else none

def escapedChar? : Char → Option Char
  | '"' => some '"'
  | '\\' => some '\\'
  | '/' => some '/'
  | 'b' => some '\x08'
  | 'f' => some '\x0c'
  | 'n' => some '\n'
  | 'r' => some '\r'
  | 't' => some '\t'
  | _ => none

/-- The pieces of a string up to its closing quote, and the text behind it. -/
def scanString? : List Char → Option (List Piece × List Char)
  | [] => none
  | '"' :: text => some ([], text)
  | '\\' :: 'u' :: a :: b :: c :: d :: text => do
    let code := ((← hexDigit? a) * 16 + (← hexDigit? b)) * 256 + (← hexDigit? c) * 16 + (← hexDigit? d)
    let (pieces, text) ← scanString? text
    return (.ofUnit code :: pieces, text)
  | '\\' :: letter :: text => do
    let c ← escapedChar? letter
    let (pieces, text) ← scanString? text
    return (.char c :: pieces, text)
  | c :: text => do
    if c.toNat < 32 || c = '\\' then none
    let (pieces, text) ← scanString? text
    return (.char c :: pieces, text)

/-! ## Texts -/

def isBlank (c : Char) : Bool := c = ' ' || c = '\n' || c = '\t' || c = '\r'

/-- The token that a text without leading blanks starts with, and the rest of the text. -/
def scanToken? : List Char → Option (Token × List Char)
  | '{' :: text => some (.openBrace, text)
  | '}' :: text => some (.closeBrace, text)
  | '[' :: text => some (.openBracket, text)
  | ']' :: text => some (.closeBracket, text)
  | ':' :: text => some (.colon, text)
  | ',' :: text => some (.comma, text)
  | 'n' :: 'u' :: 'l' :: 'l' :: text => some (.null, text)
  | 't' :: 'r' :: 'u' :: 'e' :: text => some (.bool true, text)
  | 'f' :: 'a' :: 'l' :: 's' :: 'e' :: text => some (.bool false, text)
  | '"' :: text => do
    let (pieces, text) ← scanString? text
    return (.string ((Piece.join? pieces).map String.ofList), text)
  | text => (Numeral.scan? text).map fun (numeral, rest) ↦ (.number numeral, rest)

/-- The tokens of a text, reading at most `fuel` of them. -/
def scanTokens? : Nat → List Char → Option (List Token)
  | 0, text => if text.all isBlank then some [] else none
  | fuel + 1, text =>
    match text.dropWhile isBlank with
    | [] => some []
    | c :: text => do
      let (token, rest) ← scanToken? (c :: text)
      return token :: (← scanTokens? fuel rest)

/-- The tokens of a text.  Each has at least one character, which bounds their number. -/
def tokens? (text : String) : Option (List Token) :=
  let text := text.toList
  scanTokens? text.length text

end RadioAccess.Json
