import RadioAccess.Link.ErrorRate
import RadioAccess.Proofs.Blocks

/-!
# The Layout of Error Tables

A table is written by five nested loops and read by one formula.  Both number the places of the table in
mixed radix, one digit for each coordinate.  So a link reads the rate that was generated for its own
coordinates, whatever they are (`ErrorTable.lookup_finds_generated`).
-/

namespace RadioAccess

namespace ErrorTable

/-! ## Places -/

/-- The coordinates of an error rate. -/
structure Place where
  modulation : Nat
  group : Nat
  layer : Nat
  scheme : Nat
  bucket : Nat
deriving DecidableEq

/-- The place for a link at a scheme and a signal strength. -/
def placeOf (profile : LinkProfile) (mcs : UInt8) (sinr : Float) : Place :=
  { modulation := modulationIndex profile.modulation, group := groupClass profile.groupSize
    layer := layerIndex profile.layers, scheme := schemeIndex mcs, bucket := bucketOf sinr }

namespace Place

/-- Whether the table has the place. -/
structure IsWithin (place : Place) : Prop where
  modulation : place.modulation < modulations
  group : place.group < groupClasses
  layer : place.layer < layerLimit
  scheme : place.scheme < schemes
  bucket : place.bucket < buckets

/-- Where the rate of the place stands in a table. -/
def offset (place : Place) : Nat :=
  ErrorTable.offset place.modulation place.group place.layer place.scheme place.bucket

/-- The rate that is generated for the place. -/
def rate (exponential : Float → Float) (place : Place) : Float :=
  ErrorTable.rate exponential place.modulation place.group place.layer place.scheme place.bucket

end Place

theorem bucketOf_lt (sinr : Float) : bucketOf sinr < buckets := by
  unfold bucketOf
  split
  · split <;> decide
  · exact Nat.lt_of_le_of_lt (Nat.min_le_right _ _) (by decide)

theorem groupClass_lt (groupSize : UInt32) : groupClass groupSize < groupClasses := by
  unfold groupClass
  repeat' split
  all_goals decide

theorem isWithin_placeOf (profile : LinkProfile) (mcs : UInt8) (sinr : Float) :
    (placeOf profile mcs sinr).IsWithin where
  modulation := by
    show modulationIndex profile.modulation < modulations
    cases profile.modulation <;> decide
  group := groupClass_lt profile.groupSize
  layer := by
    show min (max profile.layers.toNat 1) layerLimit - 1 < layerLimit
    have : layerLimit = 4 := rfl
    omega
  scheme := Nat.lt_of_le_of_lt (Nat.min_le_right _ _) (by decide)
  bucket := bucketOf_lt sinr

/-! ## What is generated -/

section

variable (exponential : Float → Float)

/-- The rates of a scheme, bucket by bucket. -/
def ratesOfScheme (modulation group layer scheme : Nat) : List Float :=
  (List.range buckets).map (rate exponential modulation group layer scheme)

/-- The rates of a number of layers, scheme by scheme. -/
def ratesOfLayer (modulation group layer : Nat) : List Float :=
  (List.range schemes).flatMap (ratesOfScheme exponential modulation group layer)

/-- The rates of a size class. -/
def ratesOfGroup (modulation group : Nat) : List Float :=
  (List.range layerLimit).flatMap (ratesOfLayer exponential modulation group)

/-- The rates of a modulation. -/
def ratesOfModulation (modulation : Nat) : List Float :=
  (List.range groupClasses).flatMap (ratesOfGroup exponential modulation)

theorem toList_generate :
    (generate exponential).toList = (List.range modulations).flatMap (ratesOfModulation exponential) :=
  List.toList_toArray

theorem length_ratesOfScheme (modulation group layer scheme : Nat) :
    (ratesOfScheme exponential modulation group layer scheme).length = buckets := by
  rw [ratesOfScheme, List.length_map, List.length_range]

theorem length_ratesOfLayer (modulation group layer : Nat) :
    (ratesOfLayer exponential modulation group layer).length = schemes * buckets :=
  length_flatMap_range (length_ratesOfScheme exponential modulation group layer) schemes

theorem length_ratesOfGroup (modulation group : Nat) :
    (ratesOfGroup exponential modulation group).length = layerLimit * (schemes * buckets) :=
  length_flatMap_range (length_ratesOfLayer exponential modulation group) layerLimit

theorem length_ratesOfModulation (modulation : Nat) :
    (ratesOfModulation exponential modulation).length = groupClasses * (layerLimit * (schemes * buckets)) :=
  length_flatMap_range (length_ratesOfGroup exponential modulation) groupClasses

/-- The table has one rate for each combination of coordinates. -/
theorem size_generate : (generate exponential).size =
    modulations * (groupClasses * (layerLimit * (schemes * buckets))) := by
  rw [← Array.length_toList, toList_generate]
  exact length_flatMap_range (length_ratesOfModulation exponential) modulations

end

/-! ## Offsets -/

namespace Place

/-- The offset is a number whose digits are the coordinates, each in its own radix. -/
theorem offset_eq (place : Place) : place.offset =
    place.modulation * (groupClasses * (layerLimit * (schemes * buckets))) +
      (place.group * (layerLimit * (schemes * buckets)) +
        (place.layer * (schemes * buckets) + (place.scheme * buckets + place.bucket))) := by
  simp only [offset, ErrorTable.offset, Nat.add_mul, Nat.mul_assoc, Nat.add_assoc]

theorem digit_lt {digit radix rest size : Nat} (hdigit : digit < radix) (hrest : rest < size) :
    digit * size + rest < radix * size := by
  calc
    digit * size + rest < (digit + 1) * size := by rw [Nat.succ_mul]; omega
    _ ≤ radix * size := Nat.mul_le_mul_right size hdigit

theorem digit_inj {digit other rest remainder size : Nat} (hrest : rest < size) (hremainder : remainder < size)
    (h : digit * size + rest = other * size + remainder) : digit = other ∧ rest = remainder := by
  have hpos : 0 < size := by omega
  have hdigit := congrArg (· / size) h
  simp only [Nat.mul_comm _ size, Nat.mul_add_div hpos, Nat.div_eq_of_lt hrest,
    Nat.div_eq_of_lt hremainder, Nat.add_zero] at hdigit
  subst hdigit
  exact ⟨rfl, Nat.add_left_cancel h⟩

variable {place other : Place}

/-- The digits that follow each other from some coordinate on. -/
theorem IsWithin.digits (h : place.IsWithin) :
    place.scheme * buckets + place.bucket < schemes * buckets ∧
      place.layer * (schemes * buckets) + (place.scheme * buckets + place.bucket) <
        layerLimit * (schemes * buckets) ∧
      place.group * (layerLimit * (schemes * buckets)) +
          (place.layer * (schemes * buckets) + (place.scheme * buckets + place.bucket)) <
        groupClasses * (layerLimit * (schemes * buckets)) := by
  have hscheme := digit_lt h.scheme h.bucket
  have hlayer := digit_lt h.layer hscheme
  exact ⟨hscheme, hlayer, digit_lt h.group hlayer⟩

theorem IsWithin.offset_lt (h : place.IsWithin) (exponential : Float → Float) :
    place.offset < (generate exponential).size := by
  rw [offset_eq, size_generate]
  exact digit_lt h.modulation h.digits.2.2

/-- Different places have different offsets. -/
theorem IsWithin.offset_inj (h : place.IsWithin) (hother : other.IsWithin)
    (heq : place.offset = other.offset) : place = other := by
  obtain ⟨hscheme, hlayer, hgroup⟩ := h.digits
  obtain ⟨hscheme', hlayer', hgroup'⟩ := hother.digits
  rw [offset_eq, offset_eq] at heq
  obtain ⟨hmodulations, heq⟩ := digit_inj hgroup hgroup' heq
  obtain ⟨hgroups, heq⟩ := digit_inj hlayer hlayer' heq
  obtain ⟨hlayers, heq⟩ := digit_inj hscheme hscheme' heq
  obtain ⟨hschemes, hbuckets⟩ := digit_inj h.bucket hother.bucket heq
  cases place
  cases other
  simp_all

/-- What was generated for a place stands at its offset. -/
theorem IsWithin.getElem?_generate (h : place.IsWithin) (exponential : Float → Float) :
    (generate exponential)[place.offset]? = some (place.rate exponential) := by
  obtain ⟨hscheme, hlayer, hgroup⟩ := h.digits
  rw [← Array.getElem?_toList, toList_generate, offset_eq,
    getElem?_flatMap_range (length_ratesOfModulation exponential) h.modulation hgroup, ratesOfModulation,
    getElem?_flatMap_range (length_ratesOfGroup exponential _) h.group hlayer, ratesOfGroup,
    getElem?_flatMap_range (length_ratesOfLayer exponential _ _) h.layer hscheme, ratesOfLayer,
    getElem?_flatMap_range (length_ratesOfScheme exponential _ _ _) h.scheme h.bucket, ratesOfScheme,
    List.getElem?_map, List.getElem?_range h.bucket]
  rfl

end Place

theorem lookupIn_generate (exponential : Float → Float) (profile : LinkProfile) (mcs : UInt8) (sinr : Float) :
    lookupIn (generate exponential) profile mcs sinr = (placeOf profile mcs sinr).rate exponential := by
  have hfound := (isWithin_placeOf profile mcs sinr).getElem?_generate exponential
  show (generate exponential).getD (placeOf profile mcs sinr).offset 0.0 = _
  rw [Array.getD_eq_getD_getElem?, hfound, Option.getD_some]

/-- **A table is read as it was written.**  Every link, scheme and signal strength, be it a number or not, has
a place in the table; there stands the rate that was generated for the coordinates of this place, and this is
what is looked up.  Different places have different offsets, so no rate stands in for another one.  All this
holds of a table for any exponential function, so of the one that links use. -/
theorem lookup_finds_generated :
    (∀ exponential : Float → Float,
      (generate exponential).size = modulations * groupClasses * layerLimit * schemes * buckets ∧
      ∀ profile mcs sinr, (placeOf profile mcs sinr).IsWithin ∧
        (placeOf profile mcs sinr).offset < (generate exponential).size ∧
        (generate exponential)[(placeOf profile mcs sinr).offset]? =
          some ((placeOf profile mcs sinr).rate exponential) ∧
        lookupIn (generate exponential) profile mcs sinr = (placeOf profile mcs sinr).rate exponential) ∧
    (∀ profile mcs sinr, lookup profile mcs sinr = (placeOf profile mcs sinr).rate Float.exp) ∧
    ∀ place other : Place, place.IsWithin → other.IsWithin → place.offset = other.offset → place = other := by
  refine ⟨fun exponential ↦ ⟨?_, fun profile mcs sinr ↦ ?_⟩, lookupIn_generate Float.exp,
    fun place other hplace hother ↦ hplace.offset_inj hother⟩
  · rw [size_generate]
    simp only [Nat.mul_assoc]
  · have hwithin := isWithin_placeOf profile mcs sinr
    exact ⟨hwithin, hwithin.offset_lt exponential, hwithin.getElem?_generate exponential,
      lookupIn_generate exponential profile mcs sinr⟩

/-- A scheme beyond the table counts as its last one, no layers as one layer, and a signal that is not a number
as the weakest one.  The place before this one has another offset. -/
theorem lookup_finds_generated_beyond_table :
    lookup { modulation := .qam64, layers := 0, groupSize := 5 } 200 (0.0 / 0.0) = rate Float.exp 0 2 0 27 0 ∧
      Place.offset ⟨0, 2, 0, 27, 0⟩ < (generate Float.exp).size ∧
      Place.offset ⟨0, 2, 0, 26, 90⟩ ≠ Place.offset ⟨0, 2, 0, 27, 0⟩ := by
  have hplace : placeOf { modulation := .qam64, layers := 0, groupSize := 5 } 200 (0.0 / 0.0) =
      ⟨0, 2, 0, 27, 0⟩ := by decide +kernel
  obtain ⟨hgenerated, hlookup, hdistinct⟩ := lookup_finds_generated
  obtain ⟨hwithin, hinside, -⟩ :=
    (hgenerated Float.exp).2 { modulation := .qam64, layers := 0, groupSize := 5 } 200 (0.0 / 0.0)
  rw [hplace] at hwithin hinside
  have hbefore : Place.IsWithin ⟨0, 2, 0, 26, 90⟩ := by constructor <;> decide
  refine ⟨?_, hinside, fun h ↦ ?_⟩
  · rw [hlookup, hplace]
    rfl
  · exact absurd (hdistinct _ _ hbefore hwithin h) (by decide)

end ErrorTable

end RadioAccess
