import RadioAccess.Json.Numeral
import RadioAccess.Proofs.Decimal

/-!
# The Text of Numerals

What is written as a numeral is read as that numeral, if its digits before the point are a zero alone or
do not start with one.  The numerals of counts and of doubles are such numerals, and the numeral of a count
means that count.  What the numeral of a double means is not said here: it need not be that double.
-/

namespace RadioAccess

namespace Digit

/-! ## Digits -/

@[simp]
theorem ofChar?_toChar (digit : Digit) : ofChar? digit.toChar = some digit := by
  revert digit
  decide

theorem ofChar?_digitChar {n : Nat} (h : n < 10) : ofChar? n.digitChar = some ⟨n, h⟩ := by
  have hnat := Nat.toNat_digitChar_of_lt_ten h
  rw [ofChar?, dif_pos (by omega)]
  congr
  omega

theorem toChar_eq_digitChar (digit : Digit) : digit.toChar = digit.val.digitChar := by
  revert digit
  decide

/-- Digits are induced over by dropping the last one. -/
theorem digits_induction {P : Nat → Prop} (few : ∀ n < 10, P n)
    (more : ∀ n, 10 ≤ n → P (n / 10) → P n) (n : Nat) : P n := by
  induction n using Nat.strongRecOn with
  | ind n ih =>
    rcases Nat.lt_or_ge n 10 with hfew | hmore
    · exact few n hfew
    · exact more n hmore (ih (n / 10) (by omega))

theorem listOf_of_lt {n : Nat} (h : n < 10) : listOf n = [⟨n, h⟩] := by
  rw [listOf, Nat.toDigits_of_lt_base h, List.filterMap_cons_some (ofChar?_digitChar h)]
  rfl

theorem listOf_of_le {n : Nat} (h : 10 ≤ n) :
    listOf n = listOf (n / 10) ++ [⟨n % 10, Nat.mod_lt n (by decide)⟩] := by
  rw [listOf, Nat.toDigits_of_base_le (by decide) h, List.filterMap_append,
    List.filterMap_cons_some (ofChar?_digitChar (Nat.mod_lt n (by decide)))]
  rfl

/-- The digits of a count are written as its decimal text. -/
theorem map_toChar_listOf (n : Nat) : (listOf n).map toChar = Nat.toDigits 10 n := by
  induction n using digits_induction with
  | few n h => rw [listOf_of_lt h, Nat.toDigits_of_lt_base h, List.map_singleton, toChar_eq_digitChar]
  | more n h ih =>
    rw [listOf_of_le h, Nat.toDigits_of_base_le (by decide) h, List.map_append, ih, List.map_singleton,
      toChar_eq_digitChar]

theorem value_concat (digits : List Digit) (digit : Digit) :
    value (digits ++ [digit]) = 10 * value digits + digit.val := by
  simp [value]

@[simp]
theorem value_listOf (n : Nat) : value (listOf n) = n := by
  induction n using digits_induction with
  | few n h => simp [listOf_of_lt h, value]
  | more n h ih =>
    rw [listOf_of_le h, value_concat, ih]
    exact Nat.div_add_mod n 10

/-- Digits as they may stand before a point: at least one, and no zero in front of others. -/
def Leads (digits : List Digit) : Prop :=
  ∃ first later, digits = first :: later ∧ (first.val = 0 → later = [])

theorem Leads.append {digits : List Digit} (h : Leads digits) (hvalue : value digits ≠ 0)
    (more : List Digit) : Leads (digits ++ more) := by
  obtain ⟨first, later, rfl, hfirst⟩ := h
  refine ⟨first, later ++ more, rfl, fun hzero ↦ absurd ?_ hvalue⟩
  rw [hfirst hzero]
  simp [value, hzero]

theorem Leads.take {digits : List Digit} (h : Leads digits) (n : Nat) : Leads (digits.take (n + 1)) := by
  obtain ⟨first, later, rfl, hfirst⟩ := h
  exact ⟨first, later.take n, rfl, fun hzero ↦ by rw [hfirst hzero, List.take_nil]⟩

theorem leads_listOf (n : Nat) : Leads (listOf n) := by
  induction n using digits_induction with
  | few n h =>
    rw [listOf_of_lt h]
    exact ⟨⟨n, h⟩, [], rfl, fun _ ↦ rfl⟩
  | more n h ih =>
    rw [listOf_of_le h]
    refine ih.append ?_ _
    rw [value_listOf]
    omega

/-! ## Scanning -/

/-- A text that does not go on with a digit. -/
def Ends (text : List Char) : Prop := ∀ c ∈ text.head?, ofChar? c = none

theorem scan_append (digits : List Digit) {rest : List Char} (h : Ends rest) :
    scan (digits.map toChar ++ rest) = (digits, rest) := by
  induction digits with
  | nil =>
    cases rest with
    | nil => rfl
    | cons c rest =>
      rw [List.map_nil, List.nil_append, scan, h c rfl]
  | cons digit digits ih => simp [scan, ih]

theorem scan?_append {digits : List Digit} (hne : digits ≠ []) {rest : List Char} (h : Ends rest) :
    scan? (digits.map toChar ++ rest) = some (digits, rest) := by
  obtain ⟨digit, digits, rfl⟩ := List.exists_cons_of_ne_nil hne
  rw [scan?, scan_append _ h]

end Digit

namespace Numeral

open Digit (Ends Leads listOf)

/-- A text that does not go on with a part of a numeral. -/
def Closes (text : List Char) : Prop :=
  ∀ c ∈ text.head?, Digit.ofChar? c = none ∧ c ≠ '.' ∧ c ≠ 'e' ∧ c ≠ 'E'

theorem Closes.ends {text : List Char} (h : Closes text) : Ends text := fun c hc ↦ (h c hc).1

theorem scanWhole?_append {digits : List Digit} (hdigits : Leads digits) {rest : List Char}
    (h : Ends rest) : scanWhole? (digits.map Digit.toChar ++ rest) = some (digits, rest) := by
  obtain ⟨first, later, rfl, hfirst⟩ := hdigits
  by_cases hzero : first.val = 0
  · obtain rfl : first = 0 := Fin.ext hzero
    rw [hfirst hzero]
    rfl
  have hchar : first.toChar ≠ '0' := fun hchar ↦ hzero (by
    have hdigit := congrArg Digit.ofChar? hchar
    rw [Digit.ofChar?_toChar] at hdigit
    rw [Option.some.inj hdigit]
    rfl)
  rw [List.map_cons, List.cons_append, scanWhole?]
  · exact Digit.scan?_append (List.cons_ne_nil first later) h
  · rintro text htext
    exact hchar (List.cons.inj htext).1

/-- The text of the digits after the point. -/
def fractionText (digits : List Digit) : List Char :=
  if digits.isEmpty then [] else '.' :: digits.map Digit.toChar

theorem scanFraction?_append (digits : List Digit) {rest : List Char} (h : Ends rest)
    (hpoint : ∀ c ∈ rest.head?, c ≠ '.') :
    scanFraction? (fractionText digits ++ rest) = some (digits, rest) := by
  cases digits with
  | nil =>
    cases rest with
    | nil => rfl
    | cons c rest =>
      show scanFraction? (c :: rest) = _
      rw [scanFraction?]
      rintro text htext
      exact hpoint c rfl (List.cons.inj htext).1
  | cons digit digits => exact Digit.scan?_append (List.cons_ne_nil digit digits) h

theorem scanExponent?_append (exponent : Option Int) {rest : List Char} (h : Closes rest) :
    scanExponent? (exponentText exponent ++ rest) = some (exponent, rest) := by
  cases exponent with
  | none =>
    cases rest with
    | nil => rfl
    | cons c rest =>
      obtain ⟨-, -, hsmall, hlarge⟩ := h c rfl
      rw [exponentText, List.nil_append, scanExponent?]
      · rintro text htext
        exact hsmall (List.cons.inj htext).1
      · rintro text htext
        exact hlarge (List.cons.inj htext).1
  | some exponent =>
    have hdigits : Digit.scan? (Nat.toDigits 10 exponent.natAbs ++ rest) =
        some (listOf exponent.natAbs, rest) := by
      rw [← Digit.map_toChar_listOf]
      refine Digit.scan?_append (fun hnil ↦ ?_) h.ends
      obtain ⟨first, later, hcons, -⟩ := Digit.leads_listOf exponent.natAbs
      rw [hnil] at hcons
      cases hcons
    rcases Int.lt_or_le exponent 0 with hneg | hpos
    · have hvalue : -Int.ofNat (Digit.value (listOf exponent.natAbs)) = exponent := by
        rw [Digit.value_listOf, Int.ofNat_eq_natCast, Int.ofNat_natAbs_of_nonpos (Int.le_of_lt hneg),
          Int.neg_neg]
      simp only [exponentText, if_pos hneg, List.cons_append, scanExponent?, scanSignedExponent?, hdigits,
        Option.map_some, hvalue]
    · have hvalue : Int.ofNat (Digit.value (listOf exponent.natAbs)) = exponent := by
        rw [Digit.value_listOf, Int.ofNat_eq_natCast, Int.natAbs_of_nonneg hpos]
      simp only [exponentText, if_neg (Int.not_lt.2 hpos), List.cons_append, scanExponent?,
        scanSignedExponent?, hdigits, Option.map_some, hvalue]

/-! ## Reading back -/

/-- Behind the digits of a numeral stands no further digit, and no point behind those after the point. -/
theorem ends_exponentText (exponent : Option Int) {rest : List Char} (h : Closes rest) :
    ∀ c ∈ (exponentText exponent ++ rest).head?, Digit.ofChar? c = none ∧ c ≠ '.' := by
  cases exponent with
  | none =>
    intro c hc
    exact ⟨(h c hc).1, (h c hc).2.1⟩
  | some exponent =>
    rintro c hc
    cases hc
    decide

theorem ends_fractionText (digits : List Digit) {rest : List Char} (h : Ends rest) :
    Ends (fractionText digits ++ rest) := by
  cases digits with
  | nil => exact h
  | cons digit digits =>
    rintro c hc
    cases hc
    decide

theorem text_append (numeral : Numeral) (rest : List Char) :
    numeral.text ++ rest = (if numeral.negative then ['-'] else []) ++
      (numeral.whole.map Digit.toChar ++
        (fractionText numeral.fraction ++ (exponentText numeral.exponent ++ rest))) := by
  simp only [text, fractionText, List.append_assoc]

/-- A digit is no sign. -/
theorem toChar_ne_minus (digit : Digit) : digit.toChar ≠ '-' := by
  revert digit
  decide

/-- What is written as a numeral with proper digits before the point is read as that numeral. -/
theorem scan?_text {numeral : Numeral} (hwhole : Leads numeral.whole) {rest : List Char}
    (h : Closes rest) : scan? (numeral.text ++ rest) = some (numeral, rest) := by
  have hend := ends_exponentText numeral.exponent h
  have hends : Ends (exponentText numeral.exponent ++ rest) := fun c hc ↦ (hend c hc).1
  have hscan := scanWhole?_append hwhole (ends_fractionText numeral.fraction hends)
  have hfraction := scanFraction?_append numeral.fraction hends fun c hc ↦ (hend c hc).2
  have hexponent := scanExponent?_append numeral.exponent h
  rw [text_append]
  generalize fractionText numeral.fraction ++ (exponentText numeral.exponent ++ rest) = behind at *
  cases hnegative : numeral.negative with
  | true =>
    simp only [scan?, if_true, List.cons_append, List.nil_append, hscan, hfraction, hexponent,
      Option.bind_eq_bind, Option.bind_some, Option.pure_def, ← hnegative]
  | false =>
    have hplain : ∀ text, numeral.whole.map Digit.toChar ++ behind ≠ '-' :: text := by
      intro text htext
      obtain ⟨first, later, hcons, -⟩ := hwhole
      rw [hcons] at htext
      exact toChar_ne_minus first (List.cons.inj htext).1
    rw [if_neg Bool.false_ne_true, List.nil_append]
    generalize numeral.whole.map Digit.toChar ++ behind = text at *
    unfold scan?
    split
    rename_i hsign
    split at hsign
    · exact absurd rfl (hplain _)
    · cases hsign
      simp only [hscan, hfraction, hexponent, Option.bind_eq_bind, Option.bind_some, Option.pure_def,
        ← hnegative]

/-! ## The numerals of counts and doubles -/

theorem leads_ofNat (n : Nat) : Leads (ofNat n).whole := Digit.leads_listOf n

/-- The numeral of a count means that count. -/
theorem toNatBelow?_ofNat {bound n : Nat} (h : n < bound) : (ofNat n).toNatBelow? bound = some n := by
  simp [toNatBelow?, ofNat, h]

theorem leads_ofScaled (negative : Bool) {value : Decimal.Scaled}
    (h : value.digits ≠ 0 ∨ value.exponent = 0) : Leads (ofScaled negative value).whole := by
  have hdigits := Digit.leads_listOf value.digits
  unfold ofScaled
  dsimp only
  split
  · exact hdigits.take 0
  split
  · show Leads (listOf value.digits ++ List.replicate value.exponent.toNat 0)
    rcases h with hdigits' | hexponent
    · exact hdigits.append (by rwa [Digit.value_listOf]) _
    · rwa [hexponent, Int.toNat_zero, List.replicate_zero, List.append_nil]
  split
  · exact hdigits.take _
  · exact ⟨0, [], rfl, fun _ ↦ rfl⟩

theorem leads_ofFloat? {x : Float} {numeral : Numeral} (h : ofFloat? x = some numeral) :
    Leads numeral.whole := by
  unfold ofFloat? at h
  split at h
  · cases h
  · cases h
  split at h
  · cases h
    exact ⟨0, [], rfl, fun _ ↦ rfl⟩
  · cases h
    exact leads_ofScaled _ (Decimal.digits_shortest _ _ _)

/-- Exactly the finite doubles have numerals. -/
theorem isSome_ofFloat?_iff (x : Float) : (ofFloat? x).isSome = true ↔ x.isFinite = true := by
  rw [← Decimal.Shape.ofFloat_eq_finite_iff, ofFloat?]
  split
  · rename_i hshape
    simp [hshape]
  · rename_i negative hshape
    simp [hshape]
  · rename_i negative significand exponent hshape
    refine iff_of_true ?_ ⟨negative, significand, exponent, hshape⟩
    split <;> rfl

end Numeral

end RadioAccess
