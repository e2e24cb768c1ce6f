import RadioAccess.Json.Printer
import RadioAccess.Json.Reader
import RadioAccess.Proofs.Json.Numeral

/-!
# JSON Texts Read Back

The text of a value is read as that value, as long as its strings are texts of characters and its numerals
have proper digits before the point.  The layout is cut into the tokens of the value, whatever the depth
(`lexes_layout`), and these are put together again (`readValue?_tokensOf`).
-/

namespace RadioAccess.Json

open Digit (Leads)
open Numeral (Closes)

/-! ## Strings -/

theorem hexDigit?_hexChar {n : Nat} (h : n < 16) : hexDigit? (hexChar n) = some n := by
  revert n
  decide

/-- Puts a character in front of what a string is read as. -/
def consPiece (c : Char) (found : List Piece × List Char) : List Piece × List Char :=
  (.char c :: found.1, found.2)

theorem scanString?_escaped {letter c : Char} (hletter : letter ≠ 'u') (hc : escapedChar? letter = some c)
    (text : List Char) :
    scanString? ('\\' :: letter :: text) = (scanString? text).map (consPiece c) := by
  rw [scanString?]
  · simp only [hc]
    cases scanString? text <;> rfl
  · rintro _ _ _ _ _ rfl
    exact absurd rfl hletter

theorem scanString?_control {c : Char} (hc : c.toNat < 32) (text : List Char) :
    scanString? ('\\' :: 'u' :: '0' :: '0' :: hexChar (c.toNat / 16) :: hexChar (c.toNat % 16) :: text) =
      (scanString? text).map (consPiece c) := by
  have hcode : Piece.ofUnit (c.toNat / 16 * 16 + c.toNat % 16) = .char c := by
    rw [Nat.div_add_mod', Piece.ofUnit, if_neg, if_neg, Char.ofNat_toNat]
    · simp
      omega
    · simp
      omega
  have hzero : hexDigit? '0' = some 0 := rfl
  rw [scanString?, hexDigit?_hexChar (show c.toNat / 16 < 16 by omega),
    hexDigit?_hexChar (Nat.mod_lt _ (by decide)), hzero]
  simp only [Option.bind_eq_bind, Option.bind_some, Nat.zero_mul, Nat.zero_add, hcode]
  cases scanString? text <;> rfl

theorem scanString?_plain {c : Char} (hquote : c ≠ '"') (hslash : c ≠ '\\') (hc : ¬c.toNat < 32)
    (text : List Char) :
    scanString? (c :: text) = (scanString? text).map (consPiece c) := by
  rw [scanString?]
  · simp only [hc, hslash, decide_false, Bool.or_false, Bool.false_eq_true, if_false]
    cases scanString? text <;> rfl
  · exact hquote
  · exact fun _ _ _ _ _ heq _ ↦ hslash heq
  · exact fun _ _ heq _ ↦ hslash heq

/-- What a character is written as is read as that character. -/
theorem scanString?_charText (c : Char) (text : List Char) :
    scanString? (charText c ++ text) = (scanString? text).map (consPiece c) := by
  unfold charText
  iterate 7
    split
    · subst c
      exact scanString?_escaped (by decide) rfl text
  split
  · exact scanString?_control ‹_› text
  · exact scanString?_plain ‹_› ‹_› ‹_› text

theorem scanString?_flatMap (text rest : List Char) :
    scanString? (text.flatMap charText ++ '"' :: rest) = some (text.map .char, rest) := by
  induction text with
  | nil => rfl
  | cons c text ih =>
    rw [List.flatMap_cons, List.append_assoc, scanString?_charText, ih]
    rfl

theorem join?_map_char (text : List Char) : Piece.join? (text.map .char) = some text := by
  induction text with
  | nil => rfl
  | cons c text ih => simp [Piece.join?, ih]

/-! ## Tokens -/

theorem scanToken?_stringText (text : String) (rest : List Char) :
    scanToken? (stringText (some text) ++ rest) = some (.string (some text), rest) := by
  have hscan := scanString?_flatMap text.toList rest
  have htext : stringText (some text) ++ rest = '"' :: (text.toList.flatMap charText ++ '"' :: rest) := by
    simp [stringText]
  rw [htext, scanToken?]
  simp [hscan, join?_map_char]

/-- What starts with a sign or a digit is scanned as a numeral. -/
theorem scanToken?_cons_of_numeric {c : Char} (hc : c = '-' ∨ (Digit.ofChar? c).isSome = true)
    (text : List Char) : scanToken? (c :: text) =
      (Numeral.scan? (c :: text)).map fun (numeral, rest) ↦ (.number numeral, rest) := by
  -- No sign, word or quote starts so, which leaves the last case of the scan.
  unfold scanToken?
  split
  case h_11 => rfl
  all_goals
    rename_i heq
    cases heq
    exact absurd hc (by decide)

/-- The tokens of a text, whatever the number of characters that may be read beyond its length. -/
def Lexes (text : List Char) (tokens : List Token) : Prop :=
  ∀ fuel, text.length ≤ fuel → scanTokens? fuel text = some tokens

theorem lexes_nil : Lexes [] [] := by
  intro fuel _
  cases fuel <;> rfl

theorem Lexes.blank {text : List Char} {tokens : List Token} (h : Lexes text tokens) (c : Char)
    (hc : isBlank c = true) : Lexes (c :: text) tokens := by
  intro fuel hfuel
  cases fuel with
  | zero => cases hfuel
  | succ fuel =>
    have hrest := h (fuel + 1) (by simp at hfuel; omega)
    rw [scanTokens?] at hrest ⊢
    rwa [List.dropWhile_cons_of_pos hc]

theorem Lexes.lineBreak {text : List Char} {tokens : List Token} (h : Lexes text tokens) (depth : Nat) :
    Lexes (lineBreak depth ++ text) tokens := by
  have hblanks (n : Nat) : Lexes (List.replicate n ' ' ++ text) tokens := by
    induction n with
    | zero => exact h
    | succ n ih => exact ih.blank ' ' rfl
  exact (hblanks (2 * depth)).blank '\n' rfl

/-- A token in front of a text. -/
theorem Lexes.token {rest : List Char} {tokens : List Token} (h : Lexes rest tokens) (word : List Char)
    {token : Token} (hscan : scanToken? (word ++ rest) = some (token, rest))
    (hword : ∃ c later, word = c :: later ∧ isBlank c = false) : Lexes (word ++ rest) (token :: tokens) := by
  obtain ⟨c, later, rfl, hc⟩ := hword
  intro fuel hfuel
  cases fuel with
  | zero => cases hfuel
  | succ fuel =>
    have hrest := h fuel (by simp at hfuel; omega)
    rw [scanTokens?, List.cons_append, List.dropWhile_cons_of_neg (by simp [hc])]
    rw [List.cons_append] at hscan
    simp only [hscan, hrest, Option.bind_eq_bind, Option.bind_some, Option.pure_def]

/-- A sign in front of a text. -/
theorem Lexes.sign {text : List Char} {tokens : List Token} (h : Lexes text tokens) (c : Char)
    (token : Token) (hscan : scanToken? (c :: text) = some (token, text)) (hc : isBlank c = false) :
    Lexes (c :: text) (token :: tokens) :=
  h.token [c] hscan ⟨c, [], rfl, hc⟩

theorem Lexes.string {rest : List Char} {tokens : List Token} (h : Lexes rest tokens) (text : String) :
    Lexes (stringText (some text) ++ rest) (.string (some text) :: tokens) :=
  h.token (stringText (some text)) (scanToken?_stringText text rest) ⟨'"', _, rfl, rfl⟩

/-- The text of a numeral starts with a sign or a digit. -/
theorem exists_cons_text {numeral : Numeral} (h : Leads numeral.whole) :
    ∃ c later, numeral.text = c :: later ∧ (c = '-' ∨ (Digit.ofChar? c).isSome = true) := by
  obtain ⟨first, rest, hwhole, -⟩ := h
  cases hnegative : numeral.negative with
  | true =>
    rw [Numeral.text, hnegative]
    exact ⟨'-', _, rfl, .inl rfl⟩
  | false =>
    rw [Numeral.text, hnegative, hwhole]
    exact ⟨first.toChar, _, rfl, .inr (by simp)⟩

theorem Lexes.number {numeral : Numeral} {rest : List Char} {tokens : List Token} (h : Lexes rest tokens)
    (hnumeral : Leads numeral.whole) (hrest : Closes rest) :
    Lexes (numeral.text ++ rest) (.number numeral :: tokens) := by
  obtain ⟨c, later, htext, hc⟩ := exists_cons_text hnumeral
  refine h.token numeral.text ?_ ⟨c, later, htext, ?_⟩
  · have hscan := Numeral.scan?_text hnumeral hrest
    rw [htext, List.cons_append] at hscan ⊢
    rw [scanToken?_cons_of_numeric hc, hscan]
    rfl
  · cases hblank : isBlank c with
    | false => rfl
    | true =>
      simp only [isBlank, Bool.or_eq_true, decide_eq_true_eq] at hblank
      rcases hblank with ((rfl | rfl) | rfl) | rfl <;> exact absurd hc (by decide)

mutual

/-- The tokens of a value. -/
def tokensOf : Json → List Token
  | .null => [.null]
  | .bool value => [.bool value]
  | .number numeral => [.number numeral]
  | .string text => [.string text]
  | .array [] => [.openBracket, .closeBracket]
  | .array (element :: elements) =>
    .openBracket :: (tokensOf element ++ tokensOfElements elements ++ [.closeBracket])
  | .object [] => [.openBrace, .closeBrace]
  | .object ((name, value) :: members) =>
    .openBrace :: .string name :: .colon ::
      (tokensOf value ++ tokensOfMembers members ++ [.closeBrace])

/-- The tokens of the elements behind the first one. -/
def tokensOfElements : List Json → List Token
  | [] => []
  | element :: elements => .comma :: (tokensOf element ++ tokensOfElements elements)

/-- The tokens of the members behind the first one. -/
def tokensOfMembers : List (Option String × Json) → List Token
  | [] => []
  | (name, value) :: members =>
    .comma :: .string name :: .colon :: (tokensOf value ++ tokensOfMembers members)

end

mutual

/-- Whether all strings in a value are texts of characters and all numerals in it have proper digits
before the point. -/
def IsProper : Json → Prop
  | .null => True
  | .bool _ => True
  | .number numeral => Leads numeral.whole
  | .string text => text.isSome = true
  | .array elements => AreProper elements
  | .object members => AreProperlyNamed members

/-- Whether all elements are proper. -/
def AreProper : List Json → Prop
  | [] => True
  | element :: elements => element.IsProper ∧ AreProper elements

/-- Whether all members and their names are proper. -/
def AreProperlyNamed : List (Option String × Json) → Prop
  | [] => True
  | (name, value) :: members => name.isSome = true ∧ value.IsProper ∧ AreProperlyNamed members

end

theorem closes_lineBreak (depth : Nat) (text : List Char) : Closes (lineBreak depth ++ text) := by
  rintro c hc
  cases hc
  decide

theorem closes_layoutElements (depth : Nat) (elements : List Json) {rest : List Char} (h : Closes rest) :
    Closes (layoutElements depth elements ++ rest) := by
  cases elements with
  | nil => rwa [layoutElements]
  | cons element elements =>
    rw [layoutElements]
    rintro c hc
    cases hc
    decide

theorem closes_layoutMembers (depth : Nat) (members : List (Option String × Json)) {rest : List Char}
    (h : Closes rest) : Closes (layoutMembers depth members ++ rest) := by
  cases members with
  | nil => rwa [layoutMembers]
  | cons member members =>
    rw [layoutMembers]
    rintro c hc
    cases hc
    decide

mutual

/-- The layout of a value at any depth has the tokens of the value. -/
theorem lexes_layout (depth : Nat) (value : Json) (hvalue : value.IsProper) {rest : List Char}
    {tokens : List Token} (hrest : Closes rest) (h : Lexes rest tokens) :
    Lexes (layout depth value ++ rest) (tokensOf value ++ tokens) := by
  match value with
  | .null => exact h.token ['n', 'u', 'l', 'l'] rfl ⟨_, _, rfl, rfl⟩
  | .bool true => exact h.token ['t', 'r', 'u', 'e'] rfl ⟨_, _, rfl, rfl⟩
  | .bool false => exact h.token ['f', 'a', 'l', 's', 'e'] rfl ⟨_, _, rfl, rfl⟩
  | .number numeral => exact h.number hvalue hrest
  | .string (some text) => exact h.string text
  | .string none => cases hvalue
  | .array [] => exact (h.sign ']' .closeBracket rfl rfl).sign '[' .openBracket rfl rfl
  | .object [] => exact (h.sign '}' .closeBrace rfl rfl).sign '{' .openBrace rfl rfl
  | .array (element :: elements) =>
    have hclose := (h.sign ']' .closeBracket rfl rfl).lineBreak depth
    have helements := lexes_layoutElements (depth + 1) elements hvalue.2 (closes_lineBreak depth _) hclose
    have helement := lexes_layout (depth + 1) element hvalue.1
      (closes_layoutElements (depth + 1) elements (closes_lineBreak depth _)) helements
    have hopen := (helement.lineBreak (depth + 1)).sign '[' .openBracket rfl rfl
    simpa [layout, tokensOf] using hopen
  | .object ((none, value) :: members) => cases hvalue.1
  | .object ((some name, value) :: members) =>
    have hclose := (h.sign '}' .closeBrace rfl rfl).lineBreak depth
    have hmembers := lexes_layoutMembers (depth + 1) members hvalue.2.2 (closes_lineBreak depth _) hclose
    have hmember := lexes_layout (depth + 1) value hvalue.2.1
      (closes_layoutMembers (depth + 1) members (closes_lineBreak depth _)) hmembers
    have hname := ((hmember.blank ' ' rfl).sign ':' .colon rfl rfl).string name
    have hopen := (hname.lineBreak (depth + 1)).sign '{' .openBrace rfl rfl
    simpa [layout, tokensOf] using hopen

theorem lexes_layoutElements (depth : Nat) (elements : List Json) (helements : AreProper elements)
    {rest : List Char} {tokens : List Token} (hrest : Closes rest) (h : Lexes rest tokens) :
    Lexes (layoutElements depth elements ++ rest) (tokensOfElements elements ++ tokens) := by
  match elements with
  | [] => exact h
  | element :: elements =>
    have hlater := lexes_layoutElements depth elements helements.2 hrest h
    have helement := lexes_layout depth element helements.1 (closes_layoutElements depth elements hrest)
      hlater
    have hcomma := (helement.lineBreak depth).sign ',' .comma rfl rfl
    simpa [layoutElements, tokensOfElements] using hcomma

theorem lexes_layoutMembers (depth : Nat) (members : List (Option String × Json))
    (hmembers : AreProperlyNamed members) {rest : List Char} {tokens : List Token} (hrest : Closes rest)
    (h : Lexes rest tokens) :
    Lexes (layoutMembers depth members ++ rest) (tokensOfMembers members ++ tokens) := by
  match members with
  | [] => exact h
  | (none, value) :: members => cases hmembers.1
  | (some name, value) :: members =>
    have hlater := lexes_layoutMembers depth members hmembers.2.2 hrest h
    have hvalue := lexes_layout depth value hmembers.2.1 (closes_layoutMembers depth members hrest) hlater
    have hname := ((hvalue.blank ' ' rfl).sign ':' .colon rfl rfl).string name
    have hcomma := (hname.lineBreak depth).sign ',' .comma rfl rfl
    simpa [layoutMembers, tokensOfMembers] using hcomma

end

/-! ## Values -/

theorem length_tokensOf_pos (value : Json) : 0 < (tokensOf value).length := by
  match value with
  | .null | .bool _ | .number _ | .string _ | .array [] | .object [] => simp [tokensOf]
  | .array (_ :: _) | .object ((_, _) :: _) => simp [tokensOf]

/-- A value does not start with the end of an array. -/
theorem tokensOf_ne_closeBracket (value : Json) (tokens later : List Token) :
    tokensOf value ++ tokens ≠ .closeBracket :: later := by
  match value with
  | .null | .bool _ | .number _ | .string _ | .array [] | .object [] => simp [tokensOf]
  | .array (_ :: _) | .object ((_, _) :: _) => simp [tokensOf]

mutual

/-- The tokens of a value are read as that value. -/
theorem readValue?_tokensOf (value : Json) (fuel : Nat) (hfuel : 2 * (tokensOf value).length ≤ fuel)
    (tokens : List Token) : readValue? fuel (tokensOf value ++ tokens) = some (value, tokens) := by
  have hpos := length_tokensOf_pos value
  obtain ⟨fuel, rfl⟩ : ∃ fuel', fuel = fuel' + 1 := ⟨fuel - 1, by omega⟩
  match value with
  | .null | .bool _ | .number _ | .string _ | .array [] | .object [] => rfl
  | .array (element :: elements) =>
    have hall := readElements?_tokensOf (element :: elements) (List.cons_ne_nil _ _) fuel (by
      simp [tokensOf, tokensOfElements] at hfuel ⊢
      omega) tokens
    have htokens : tokensOf (.array (element :: elements)) ++ tokens =
        .openBracket :: ((tokensOfElements (element :: elements)).tail ++ .closeBracket :: tokens) := by
      simp [tokensOf, tokensOfElements]
    rw [htokens, readValue?, hall]
    · rfl
    · rintro rest heq
      rw [tokensOfElements, List.tail_cons, List.append_assoc] at heq
      exact tokensOf_ne_closeBracket element _ rest heq
  | .object ((name, value) :: members) =>
    have hall := readMembers?_tokensOf ((name, value) :: members) (List.cons_ne_nil _ _) fuel (by
      simp [tokensOf, tokensOfMembers] at hfuel ⊢
      omega) tokens
    have htokens : tokensOf (.object ((name, value) :: members)) ++ tokens =
        .openBrace :: ((tokensOfMembers ((name, value) :: members)).tail ++ .closeBrace :: tokens) := by
      simp [tokensOf, tokensOfMembers]
    rw [htokens, readValue?, hall]
    · rfl
    · rintro rest heq
      cases heq

/-- The tokens of one or more elements, without the comma in front, are read as these elements. -/
theorem readElements?_tokensOf (elements : List Json) (hne : elements ≠ []) (fuel : Nat)
    (hfuel : 2 * (tokensOfElements elements).length ≤ fuel + 1) (tokens : List Token) :
    readElements? fuel ((tokensOfElements elements).tail ++ .closeBracket :: tokens) =
      some (elements, tokens) := by
  match elements with
  | [] => exact absurd rfl hne
  | element :: elements =>
    have hpos := length_tokensOf_pos element
    simp only [tokensOfElements, List.length_cons, List.length_append] at hfuel
    obtain ⟨fuel, rfl⟩ : ∃ fuel', fuel = fuel' + 1 := ⟨fuel - 1, by omega⟩
    have hvalue := readValue?_tokensOf element fuel (by omega)
    rw [tokensOfElements, List.tail_cons, List.append_assoc, readElements?, hvalue]
    match elements with
    | [] => rfl
    | next :: later =>
      have hlater := readElements?_tokensOf (next :: later) (List.cons_ne_nil _ _) fuel (by omega) tokens
      rw [tokensOfElements, List.tail_cons] at hlater
      simp only [tokensOfElements, List.cons_append, Option.bind_eq_bind, Option.bind_some, hlater]
      rfl

/-- The tokens of one or more members, without the comma in front, are read as these members. -/
theorem readMembers?_tokensOf (members : List (Option String × Json)) (hne : members ≠ []) (fuel : Nat)
    (hfuel : 2 * (tokensOfMembers members).length ≤ fuel + 1) (tokens : List Token) :
    readMembers? fuel ((tokensOfMembers members).tail ++ .closeBrace :: tokens) =
      some (members, tokens) := by
  match members with
  | [] => exact absurd rfl hne
  | (name, value) :: members =>
    have hpos := length_tokensOf_pos value
    simp only [tokensOfMembers, List.length_cons, List.length_append] at hfuel
    obtain ⟨fuel, rfl⟩ : ∃ fuel', fuel = fuel' + 1 := ⟨fuel - 1, by omega⟩
    have hvalue := readValue?_tokensOf value fuel (by omega)
    rw [tokensOfMembers, List.tail_cons, List.cons_append, List.cons_append, List.append_assoc, readMembers?,
      hvalue]
    match members with
    | [] => rfl
    | (nextName, next) :: later =>
      have hlater := readMembers?_tokensOf ((nextName, next) :: later) (List.cons_ne_nil _ _) fuel
        (by omega) tokens
      rw [tokensOfMembers, List.tail_cons] at hlater
      simp only [tokensOfMembers, List.cons_append, Option.bind_eq_bind, Option.bind_some] at hlater ⊢
      simp only [hlater]
      rfl

end

/-- A proper value survives being written and read. -/
theorem read?_text {value : Json} (h : value.IsProper) : read? value.text = some value := by
  have hlexes : Lexes (layout 0 value ++ []) (tokensOf value ++ []) :=
    lexes_layout 0 value h (by simp [Closes]) lexes_nil
  rw [List.append_nil, List.append_nil] at hlexes
  have htokens : tokens? value.text = some (tokensOf value) := by
    rw [tokens?, text, String.toList_ofList]
    exact hlexes _ (Nat.le_refl _)
  have hvalue := readValue?_tokensOf value (2 * (tokensOf value).length + 2) (by omega) []
  rw [List.append_nil] at hvalue
  simp only [read?, htokens, Option.bind_eq_bind, Option.bind_some, hvalue]
  rfl

end RadioAccess.Json
