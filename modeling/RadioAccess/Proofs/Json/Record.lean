import RadioAccess.Json.Record
import RadioAccess.Proofs.Json.Text

/-!
# Records Read Back

A record that is written with all of its fields, each under a name of its own, is read with these fields.
Counts are read as themselves.  A double is read as itself or not, which is a property of the double and of
the format of doubles (`ReadsBack`); one that is not finite is written as null and cannot be read at all.
-/

namespace RadioAccess

/-! ## Doubles -/

/-- A format with a proper numeral for each finite double, in which null is written for the others.  Nothing
is said of what the numerals are read as. -/
class DoubleFormat.Lawful (format : DoubleFormat) : Prop where
  leads : ∀ x numeral, format.write x = some numeral → Digit.Leads numeral.whole
  isSome_write_iff : ∀ x, (format.write x).isSome = true ↔ x.isFinite = true

namespace DoubleFormat

instance : standard.Lawful where
  leads _ _ := Numeral.leads_ofFloat?
  isSome_write_iff := Numeral.isSome_ofFloat?_iff

variable (format : DoubleFormat)

@[simp]
theorem isProper_toJson [format.Lawful] (x : Float) : (format.toJson x).IsProper := by
  unfold toJson
  split
  · exact Lawful.leads x _ ‹_›
  · trivial

/-- Whether a double is read as another one after it was written. -/
def ReadsAs (x y : Float) : Prop := format.ofJson? (format.toJson x) = some y

/-- Whether a double is read as itself after it was written. -/
def ReadsBack (x : Float) : Prop := format.ReadsAs x x

instance (x : Float) : Decidable (format.ReadsBack x) := inferInstanceAs (Decidable (_ = _))

/-- Whether the finite ones among doubles are read as themselves. -/
def IsExactOn (doubles : List Float) : Prop := ∀ x ∈ doubles, x.isFinite = true → format.ReadsBack x

instance (doubles : List Float) : Decidable (format.IsExactOn doubles) :=
  inferInstanceAs (Decidable (∀ x ∈ doubles, x.isFinite = true → format.ReadsBack x))

variable {format}

/-- What is not finite is written as null, which is no double. -/
theorem ReadsAs.isFinite [format.Lawful] {x y : Float} (h : format.ReadsAs x y) : x.isFinite = true := by
  suffices hwritten : (format.write x).isSome = true from (Lawful.isSome_write_iff x).1 hwritten
  unfold ReadsAs toJson at h
  split at h
  · rename_i numeral hnumeral
    rw [hnumeral]
    rfl
  · cases h

end DoubleFormat

namespace Json

/-! ## What is written is proper -/

@[simp]
theorem isProper_ofNat (n : Nat) : (ofNat n).IsProper := Numeral.leads_ofNat n

@[simp]
theorem isProper_bool (value : Bool) : (bool value).IsProper := trivial

@[simp]
theorem isProper_ofString (text : String) : (ofString text).IsProper := rfl

@[simp]
theorem isProper_ofMembers_iff (members : List (String × Json)) :
    (ofMembers members).IsProper ↔ ∀ member ∈ members, member.2.IsProper := by
  show AreProperlyNamed _ ↔ _
  induction members with
  | nil => simp [AreProperlyNamed]
  | cons member members ih => simp [AreProperlyNamed, ih]

@[simp]
theorem isProper_array_iff (elements : List Json) :
    (array elements).IsProper ↔ ∀ element ∈ elements, element.IsProper := by
  show AreProper _ ↔ _
  induction elements with
  | nil => simp [AreProper]
  | cons element elements ih => simp [AreProper, ih]

/-! ## Fields -/

@[simp]
theorem toUInt8?_ofNat (word : UInt8) : (ofNat word.toNat).toUInt8? = some word := by
  simp [toUInt8?, toNatBelow?, ofNat, Numeral.toNatBelow?_ofNat word.toNat_lt_size]

@[simp]
theorem toUInt32?_ofNat (word : UInt32) : (ofNat word.toNat).toUInt32? = some word := by
  simp [toUInt32?, toNatBelow?, ofNat, Numeral.toNatBelow?_ofNat word.toNat_lt_size]

@[simp]
theorem toUInt64?_ofNat (word : UInt64) : (ofNat word.toNat).toUInt64? = some word := by
  simp [toUInt64?, toNatBelow?, ofNat, Numeral.toNatBelow?_ofNat word.toNat_lt_size]

@[simp]
theorem toBool?_bool (value : Bool) : (bool value).toBool? = some value := rfl

/-! ## Records -/

theorem recordOfMembers?_of_nodup {names : List String} {members : List (String × Json)}
    (hnames : ∀ member ∈ members, member.1 ∈ names) (hnodup : (members.map (·.1)).Nodup) :
    recordOfMembers? names (members.map fun (name, value) ↦ (some name, value)) = some members := by
  induction members with
  | nil => rfl
  | cons member members ih =>
    obtain ⟨name, value⟩ := member
    rw [List.map_cons, List.nodup_cons] at hnodup
    have hname := hnames (name, value) List.mem_cons_self
    have habsent : members.lookup name = none := by
      rw [List.lookup_eq_none_iff]
      rintro other hother
      exact bne_iff_ne.2 fun heq ↦ hnodup.1 (List.mem_map.2 ⟨other, hother, heq.symm⟩)
    have hrest := ih (fun member hmember ↦ hnames member (List.mem_cons_of_mem _ hmember)) hnodup.2
    simp [recordOfMembers?, hrest, habsent, hname]

/-- A record that is written with the given fields is read with these fields. -/
theorem record?_ofMembers {names : List String} {members : List (String × Json)}
    (hnames : members.map (·.1) = names) (hnodup : names.Nodup) :
    (ofMembers members).record? names = some members := by
  subst hnames
  exact recordOfMembers?_of_nodup (fun member hmember ↦ List.mem_map_of_mem hmember) hnodup

namespace Record

variable {α : Type} {name other : String} (value : Json) (record : Record) (decode : Json → Option α)

@[simp]
theorem field?_cons_self (absent : α) :
    field? ((name, value) :: record) name decode absent = decode value := by
  simp [field?]

@[simp]
theorem field?_cons_of_ne (h : name ≠ other) (absent : α) :
    field? ((other, value) :: record) name decode absent = record.field? name decode absent := by
  simp [field?, List.lookup_cons, beq_false_of_ne h]

@[simp]
theorem required?_cons_self : required? ((name, value) :: record) name decode = decode value := by
  simp [required?]

@[simp]
theorem required?_cons_of_ne (h : name ≠ other) :
    required? ((other, value) :: record) name decode = record.required? name decode := by
  simp [required?, List.lookup_cons, beq_false_of_ne h]

end Record

/-- An alternative that is written with its payload is read with that payload. -/
theorem alternative?_ofMembers (name : String) (payload : Json) :
    (ofMembers [(name, payload)]).alternative? = some (name, payload) := rfl

/-! ## Faithful formats -/

/-- A way to write and read values of which each holds some doubles in this format.  What is written is
proper.  A value is read as itself if its doubles are, and what it is read as holds what its doubles are read
as. -/
structure Faithful {α : Type} (format : DoubleFormat) (encode : α → Json) (decode : Json → Option α)
    (doubles : α → List Float) : Prop where
  proper : ∀ a, (encode a).IsProper
  exact : ∀ a, (∀ x ∈ doubles a, format.ReadsBack x) → decode (encode a) = some a
  reads : ∀ a b, decode (encode a) = some b → List.Forall₂ format.ReadsAs (doubles a) (doubles b)

variable {α : Type} {format : DoubleFormat} {encode : α → Json} {decode : Json → Option α}
  {doubles : α → List Float}

/-- Only values whose doubles are read as themselves are. -/
theorem Faithful.eq_some_iff (h : Faithful format encode decode doubles) (a : α) :
    decode (encode a) = some a ↔ ∀ x ∈ doubles a, format.ReadsBack x := by
  refine ⟨fun hread ↦ ?_, h.exact a⟩
  have hsame : ∀ x ∈ doubles a, format.ReadsAs x x := List.forall₂_same.1 (h.reads a a hread)
  exact hsame

/-- A value with a double that is not finite cannot be read. -/
theorem Faithful.eq_none_of_not_finite [format.Lawful] (h : Faithful format encode decode doubles) {a : α}
    {x : Float} (hx : x ∈ doubles a) (hfinite : x.isFinite = false) : decode (encode a) = none := by
  cases hread : decode (encode a) with
  | none => rfl
  | some b =>
    have hall : List.Forall₂ (fun x y ↦ x.isFinite = true ∧ format.ReadsAs x y) (doubles a) (doubles b) :=
      (h.reads a b hread).imp fun x y hxy ↦ ⟨hxy.isFinite, hxy⟩
    rw [((List.forall₂_and_left _ _).1 hall).1 x hx] at hfinite
    cases hfinite

theorem Faithful.list (h : Faithful format encode decode doubles) :
    Faithful format (fun values ↦ .array (values.map encode)) (toList? decode) (·.flatMap doubles) := by
  refine ⟨fun values ↦ ?_, fun values hdoubles ↦ ?_, fun values others hread ↦ ?_⟩
  · rw [isProper_array_iff, List.forall_mem_map]
    exact fun value _ ↦ h.proper value
  · show (values.map encode).mapM decode = some values
    induction values with
    | nil => rfl
    | cons value values ih =>
      rw [List.flatMap_cons, List.forall_mem_append] at hdoubles
      rw [List.map_cons, List.mapM_cons, h.exact value hdoubles.1, Option.bind_eq_bind, Option.bind_some,
        ih hdoubles.2]
      rfl
  · change (values.map encode).mapM decode = some others at hread
    induction values generalizing others with
    | nil =>
      cases hread
      exact .nil
    | cons value values ih =>
      simp only [List.map_cons, List.mapM_cons, Option.bind_eq_bind, Option.bind_eq_some_iff,
        Option.pure_def, Option.some.injEq] at hread
      obtain ⟨other, hother, rest, hrest, rfl⟩ := hread
      exact List.rel_append (h.reads value other hother) (ih rest hrest)

end Json

end RadioAccess
