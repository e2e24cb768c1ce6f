import Mathlib.Data.Nat.Count
import RadioAccess.Proofs.Checked
import RadioAccess.Proofs.Grid.Serving

/-!
# Windows of a Repeated Pattern

A symbol cycle counts without looking at symbols.  Here the symbols of a pattern are written down one by one
and repeated for ever, and what a cycle gives is compared with the symbols of that sequence that it passes.
-/

namespace RadioAccess

/-! ## The sequence of symbols -/

namespace DuplexPattern

/-- The symbols of a pattern: full downlink slots, the transition slot and full uplink slots. -/
def symbols (pattern : DuplexPattern) : List SymbolUse :=
  let (downlink, flexible, uplink) := pattern.transitionSymbols
  .replicate (pattern.downlinkSlots.toNat * Carrier.symbolsPerSlot) (.serves .downlink) ++
    (.replicate downlink (.serves .downlink) ++ .replicate flexible .flexible ++
      .replicate uplink (.serves .uplink)) ++
    .replicate (pattern.uplinkSlots.toNat * Carrier.symbolsPerSlot) (.serves .uplink)

variable (pattern : DuplexPattern)

theorem transitionSymbols_mem : pattern.transitionSymbols ∈ transitions := by
  have hless : (if knownTransition pattern.transition then pattern.transition
      else standardTransition).toNat < transitions.length := by
    split
    · rename_i hknown
      rw [knownTransition, Bool.and_eq_true, decide_eq_true_eq, decide_eq_true_eq] at hknown
      exact hknown.2
    · decide
  rw [transitionSymbols, List.getD_eq_getElem _ _ hless]
  exact List.getElem_mem hless

/-- The transition slot is as long as any other slot. -/
theorem transitionSymbols_sum : pattern.transitionSymbols.1 + pattern.transitionSymbols.2.1 +
    pattern.transitionSymbols.2.2 = Carrier.symbolsPerSlot :=
  (by decide : ∀ slot ∈ transitions, slot.1 + slot.2.1 + slot.2.2 = Carrier.symbolsPerSlot) _
    pattern.transitionSymbols_mem

theorem length_symbols : pattern.symbols.length =
    (pattern.downlinkSlots.toNat + 1 + pattern.uplinkSlots.toNat) * Carrier.symbolsPerSlot := by
  have hslot := pattern.transitionSymbols_sum
  simp only [symbols, List.length_append, List.length_replicate, hslot]
  rw [Nat.add_mul, Nat.add_mul, Nat.one_mul]

theorem length_symbols_pos : 0 < pattern.symbols.length := by
  rw [length_symbols]
  exact Nat.mul_pos (by omega) (by decide)

/-- What the symbol at a place is for, the pattern being repeated for ever. -/
def symbolAt (place : Nat) : SymbolUse :=
  pattern.symbols.get ⟨place % pattern.symbols.length, Nat.mod_lt place pattern.length_symbols_pos⟩

theorem getElem?_symbols (place : Nat) :
    pattern.symbols[place % pattern.symbols.length]? = some (pattern.symbolAt place) :=
  List.getElem?_eq_getElem (Nat.mod_lt place pattern.length_symbols_pos)

/-- How many of `count` symbols in a row, the first of them at the place `first`, have a use. -/
def occurrences (use : SymbolUse) (first count : Nat) : Nat :=
  Nat.count (fun i ↦ pattern.symbolAt (first + i) = use) count

theorem symbolAt_mod_add (first i : Nat) :
    pattern.symbolAt (first % pattern.symbols.length + i) = pattern.symbolAt (first + i) := by
  simp only [symbolAt, Nat.mod_add_mod]

theorem occurrences_mod (use : SymbolUse) (first count : Nat) :
    pattern.occurrences use (first % pattern.symbols.length) count = pattern.occurrences use first count := by
  simp only [occurrences, symbolAt_mod_add]

theorem occurrences_add (use : SymbolUse) (first a b : Nat) : pattern.occurrences use first (a + b) =
    pattern.occurrences use first a + pattern.occurrences use (first + a) b := by
  simp only [occurrences, Nat.count_add, Nat.add_assoc]

theorem symbols_eq_map : pattern.symbols = (List.range pattern.symbols.length).map pattern.symbolAt := by
  refine List.ext_getElem (by rw [List.length_map, List.length_range]) fun i hi _ ↦ ?_
  rw [List.getElem_map, List.getElem_range]
  simp only [symbolAt, Nat.mod_eq_of_lt hi, List.get_eq_getElem]

/-- A window as long as the pattern has the symbols of the pattern, wherever it starts. -/
theorem occurrences_length (use : SymbolUse) (first : Nat) :
    pattern.occurrences use first pattern.symbols.length = pattern.symbols.count use := by
  induction first with
  | zero =>
    conv_rhs => rw [symbols_eq_map, List.count, List.countP_map]
    simp only [occurrences, Nat.zero_add, Nat.count]
    rfl
  | succ first ih =>
    -- The window that starts one symbol later gives up a symbol like the one it gains.
    have hone : pattern.occurrences use (first + pattern.symbols.length) 1 =
        pattern.occurrences use first 1 := by
      rw [← occurrences_mod, Nat.add_mod_right, occurrences_mod]
    have hsplit := pattern.occurrences_add use first pattern.symbols.length 1
    rw [Nat.add_comm, occurrences_add, hone] at hsplit
    omega

theorem occurrences_mul_length (use : SymbolUse) (first k : Nat) :
    pattern.occurrences use first (k * pattern.symbols.length) = k * pattern.symbols.count use := by
  induction k with
  | zero =>
    rw [Nat.zero_mul, Nat.zero_mul]
    rfl
  | succ k ih => rw [Nat.succ_mul, occurrences_add, ih, occurrences_length, Nat.succ_mul]

/-- Every symbol serves one direction or none. -/
theorem occurrences_total (first count : Nat) :
    pattern.occurrences (.serves .downlink) first count + pattern.occurrences (.serves .uplink) first count +
      pattern.occurrences .flexible first count = count := by
  induction count with
  | zero => rfl
  | succ count ih =>
    simp only [occurrences, Nat.count_succ] at ih ⊢
    have hone : (if pattern.symbolAt (first + count) = .serves .downlink then 1 else 0) +
        (if pattern.symbolAt (first + count) = .serves .uplink then 1 else 0) +
        (if pattern.symbolAt (first + count) = .flexible then 1 else 0) = 1 := by
      cases pattern.symbolAt (first + count) with
      | serves direction => cases direction <;> rfl
      | flexible => rfl
    omega

end DuplexPattern

/-! ## The runs of a pattern -/

namespace SymbolRuns

variable {pattern : DuplexPattern} {runs : SymbolRuns}

theorem symbols_of_ofPattern (h : ofPattern pattern = .ok runs) :
    pattern.symbols = .replicate runs.downlink (.serves .downlink) ++ .replicate runs.flexible .flexible ++
      .replicate runs.uplink (.serves .uplink) := by
  simp only [ofPattern, bind_eq_ok_iff, pure_eq_ok_iff] at h
  obtain ⟨downlink, hdownlink, uplink, huplink, rfl⟩ := h
  have hdownlinkSlots : downlink.toNat = pattern.downlinkSlots.toNat * Carrier.symbolsPerSlot :=
    Word.toNat_of_mul32_eq_ok hdownlink
  have huplinkSlots : uplink.toNat = pattern.uplinkSlots.toNat * Carrier.symbolsPerSlot :=
    Word.toNat_of_mul32_eq_ok huplink
  simp only [DuplexPattern.symbols, hdownlinkSlots, huplinkSlots, ← List.replicate_append_replicate,
    List.append_assoc]

theorem length_of_ofPattern (h : ofPattern pattern = .ok runs) : runs.length = pattern.symbols.length := by
  simp only [symbols_of_ofPattern h, List.length_append, List.length_replicate, length]

theorem useAt_of_ofPattern (h : ofPattern pattern = .ok runs) (place : Nat) :
    runs.useAt place = pattern.symbolAt place := by
  have hplace : place % runs.length < runs.length :=
    Nat.mod_lt place (length_of_ofPattern h ▸ pattern.length_symbols_pos)
  have hsymbol := pattern.getElem?_symbols place
  rw [← length_of_ofPattern h, symbols_of_ofPattern h] at hsymbol
  rw [useAt]
  generalize place % runs.length = rest at hplace hsymbol
  rw [length] at hplace
  simp only [List.getElem?_append, List.length_append, List.length_replicate,
    List.getElem?_replicate] at hsymbol
  split_ifs at hsymbol with hless hdownlink
  · rw [if_pos hdownlink]
    exact Option.some.inj hsymbol
  · rw [if_neg hdownlink, if_pos hless]
    exact Option.some.inj hsymbol
  · rw [if_neg fun hdownlink ↦ hless (Nat.lt_add_right _ hdownlink), if_neg hless]
    exact Option.some.inj hsymbol

theorem useAt_eq_serves_downlink (place : Nat) :
    runs.useAt place = .serves .downlink ↔ place % runs.length < runs.downlink := by
  simp only [useAt]
  split_ifs with hdownlink hflexible
  · exact iff_of_true rfl hdownlink
  · exact iff_of_false (by simp) hdownlink
  · exact iff_of_false (by simp) hdownlink

theorem useAt_eq_serves_uplink (place : Nat) :
    runs.useAt place = .serves .uplink ↔ runs.downlink + runs.flexible ≤ place % runs.length := by
  simp only [useAt]
  split_ifs with hdownlink hflexible
  · exact iff_of_false (by simp) (by omega)
  · exact iff_of_false (by simp) (by omega)
  · exact iff_of_true rfl (by omega)

/-- The next symbol is counted if it serves the direction. -/
theorem servedWithin_succ (direction : Direction) {count : Nat} (h : count < runs.length) :
    runs.servedWithin direction (count + 1) =
      runs.servedWithin direction count + if runs.useAt count = .serves direction then 1 else 0 := by
  have hplace := Nat.mod_eq_of_lt h
  cases direction with
  | downlink =>
    simp only [useAt_eq_serves_downlink, hplace, servedWithin]
    split <;> omega
  | uplink =>
    simp only [useAt_eq_serves_uplink, hplace, servedWithin]
    split <;> omega

theorem servedWithin_zero (direction : Direction) : runs.servedWithin direction 0 = 0 := by
  cases direction with
  | downlink => exact Nat.zero_min _
  | uplink => exact Nat.zero_sub _

/-- Whole patterns are counted as such, and so is a last one if all of it is passed. -/
theorem servedBefore_mul_add (direction : Direction) (k : Nat) {count : Nat} (hpos : 0 < runs.length)
    (h : count ≤ runs.length) : runs.servedBefore direction (runs.length * k + count) =
      k * runs.servedWithin direction runs.length + runs.servedWithin direction count := by
  rw [servedBefore, Nat.mul_add_div hpos, Nat.mul_add_mod]
  rcases h.lt_or_eq with hless | rfl
  · rw [Nat.div_eq_of_lt hless, Nat.mod_eq_of_lt hless, Nat.add_zero]
  · rw [Nat.div_self hpos, Nat.mod_self, servedWithin_zero, Nat.succ_mul, Nat.add_zero]

/-- What is computed from whole patterns and a rest is what counting symbol by symbol gives. -/
theorem servedBefore_eq_count (direction : Direction) (count : Nat) (hpos : 0 < runs.length) :
    runs.servedBefore direction count = Nat.count (fun place ↦ runs.useAt place = .serves direction) count := by
  induction count with
  | zero => cases direction <;> simp [servedBefore, servedWithin]
  | succ count ih =>
    -- The rest is below the length, so one more symbol may complete the pattern but not go beyond it.
    have hrest := Nat.mod_lt count hpos
    have huse : runs.useAt (count % runs.length) = runs.useAt count := by
      rw [useAt, useAt, Nat.mod_mod]
    rw [Nat.count_succ, ← ih, ← huse, ← Nat.div_add_mod count runs.length, Nat.add_assoc,
      servedBefore_mul_add direction _ hpos hrest, servedBefore_mul_add direction _ hpos hrest.le,
      servedWithin_succ direction hrest, Nat.add_assoc, Nat.div_add_mod]

end SymbolRuns

/-! ## Rows -/

/-- Rows of slots and rows of subframes make the same time. -/
theorem GridLayout.rows_mul_symbolsPerRow {direction : Direction} {config : GridConfig} {layout : GridLayout}
    (h : ofConfig direction config = .ok (.ok layout)) : ∃ slots,
      Carrier.slotsPerSubframe (Carrier.numerologyOf config.numerology) = .ok slots ∧
        layout.rows * layout.symbolsPerRow = Carrier.symbolsPerSlot * slots := by
  simp only [ofConfig, bind_eq_ok_iff] at h
  obtain ⟨slots, hslots, spacing, -, h⟩ := h
  split at h
  · cases h
  · cases h
    refine ⟨slots, hslots, ?_⟩
    cases GridConfig.rowSpanOf config.scheduling with
    | slot => exact Nat.mul_comm _ _
    | subframe => exact Nat.one_mul _

/-- The symbols that the rows of a pass have together. -/
def Grid.symbolsOfPass (layout : GridLayout) (cycle : Option SymbolCycle) : Nat :=
  ((List.range layout.rows).map (symbolsOfRow layout.symbolsPerRow cycle)).sum

/-! ## Cycles -/

namespace SymbolCycle

variable {pattern : DuplexPattern} {direction : Direction} {place : Nat} {cycle : SymbolCycle}

/-- A cycle of a pattern whose next symbol is at a place of the repeated pattern. -/
structure Reads (pattern : DuplexPattern) (direction : Direction) (place : Nat) (cycle : SymbolCycle) :
    Prop where
  runs : SymbolRuns.ofPattern pattern = .ok cycle.runs
  direction : cycle.direction = direction
  cursor : cycle.cursor = place % pattern.symbols.length

theorem reads_of_start (h : start pattern direction = .ok cycle) : Reads pattern direction 0 cycle := by
  simp only [start, bind_eq_ok_iff, pure_eq_ok_iff] at h
  obtain ⟨runs, hruns, rfl⟩ := h
  exact ⟨hruns, rfl, (Nat.zero_mod _).symm⟩

theorem Reads.advance (h : Reads pattern direction place cycle) (count : Nat) :
    Reads pattern direction (place + count) (cycle.advance count) := by
  refine ⟨h.runs, h.direction, ?_⟩
  rw [SymbolCycle.advance, h.cursor, SymbolRuns.length_of_ofPattern h.runs, Nat.mod_add_mod]

theorem Reads.available_eq (h : Reads pattern direction place cycle) (count : Nat) :
    cycle.available count = pattern.occurrences (.serves direction) place count := by
  have hpos : 0 < cycle.runs.length :=
    SymbolRuns.length_of_ofPattern h.runs ▸ pattern.length_symbols_pos
  rw [available, SymbolRuns.servedBefore_eq_count _ _ hpos, SymbolRuns.servedBefore_eq_count _ _ hpos,
    Nat.count_add, Nat.add_sub_cancel_left, ← pattern.occurrences_mod, ← h.cursor, h.direction]
  simp only [SymbolRuns.useAt_of_ofPattern h.runs, DuplexPattern.occurrences]

theorem advance_advance (cycle : SymbolCycle) (a b : Nat) :
    (cycle.advance a).advance b = cycle.advance (a + b) := by
  simp only [advance, Nat.mod_add_mod, Nat.add_assoc]

theorem Reads.take_take (h : Reads pattern direction place cycle) (a b : Nat) :
    (cycle.take a).1 + ((cycle.take a).2.take b).1 = (cycle.take (a + b)).1 ∧
      ((cycle.take a).2.take b).2 = (cycle.take (a + b)).2 := by
  refine ⟨?_, cycle.advance_advance a b⟩
  show cycle.available a + (cycle.advance a).available b = cycle.available (a + b)
  rw [h.available_eq, (h.advance a).available_eq, h.available_eq, pattern.occurrences_add]

theorem Reads.advance_mul_length (h : Reads pattern direction place cycle) (k : Nat) :
    cycle.advance (k * pattern.symbols.length) = cycle := by
  have hcursor : (cycle.cursor + k * pattern.symbols.length) % cycle.runs.length = cycle.cursor := by
    rw [SymbolRuns.length_of_ofPattern h.runs, Nat.add_mul_mod_self_right, h.cursor, Nat.mod_mod]
  rw [SymbolCycle.advance, hcursor]

/-- Cycles at the same place share the symbols that are not flexible. -/
theorem Reads.available_add_available {uplink : SymbolCycle} {other : Nat}
    (h : Reads pattern .downlink place cycle) (huplink : Reads pattern .uplink other uplink)
    (hcursor : cycle.cursor = uplink.cursor) (count : Nat) :
    cycle.available count + uplink.available count + pattern.occurrences .flexible place count = count := by
  rw [h.cursor, huplink.cursor] at hcursor
  rw [h.available_eq, huplink.available_eq, ← pattern.occurrences_mod _ other, ← hcursor,
    pattern.occurrences_mod, pattern.occurrences_total]

/-! ## Rows of a grid -/

/-- What is taken row by row is what would be taken at once. -/
theorem Reads.rows (h : Reads pattern direction place cycle) (symbolsPerRow rows : Nat) :
    ((List.range rows).map (Grid.symbolsOfRow symbolsPerRow (some cycle))).sum =
        cycle.available (rows * symbolsPerRow) ∧
      Grid.cycleAfter symbolsPerRow (some cycle) rows = some (cycle.advance (rows * symbolsPerRow)) := by
  induction rows with
  | zero =>
    -- To go no further leaves the cycle as it is because its cursor is below the length.
    have hback := h.advance_mul_length 0
    rw [Nat.zero_mul] at hback ⊢
    rw [hback, h.available_eq]
    exact ⟨rfl, rfl⟩
  | succ rows ih =>
    obtain ⟨hsum, hafter⟩ := ih
    have hnext : Grid.cycleAfter symbolsPerRow (some cycle) (rows + 1) =
        (Grid.takeSymbols symbolsPerRow (Grid.cycleAfter symbolsPerRow (some cycle) rows)).2 :=
      (congrArg Prod.snd (Grid.takeSymbols_cycleAfter ..)).symm
    obtain ⟨hsplit, hsame⟩ := h.take_take (rows * symbolsPerRow) symbolsPerRow
    rw [List.range_succ, List.map_append, List.sum_append, hsum, List.map_singleton, List.sum_singleton,
      hnext, Grid.symbolsOfRow, hafter, Nat.succ_mul]
    exact ⟨hsplit, congrArg some hsame⟩

/-! ## Calls -/

/-- A call of a cycle. -/
inductive Call where
  | available (count : Nat)
  | advance (count : Nat)
  | take (count : Nat)

/-- The symbols that a call passes over. -/
def Call.passed : Call → Nat
  | available _ => 0
  | advance count => count
  | take count => count

/-- The cycle after a call. -/
def act (cycle : SymbolCycle) : Call → SymbolCycle
  | .available _ => cycle
  | .advance count => cycle.advance count
  | .take count => (cycle.take count).2

/-- The cycles of both directions after some calls, each of which is made of one of them. -/
def run (cycles : PerDirection SymbolCycle) (calls : List (Direction × Call)) : PerDirection SymbolCycle :=
  calls.foldl (fun cycles call ↦ cycles.set ((cycles.get call.1).act call.2) call.1) cycles

/-- The symbols that the cycle of a direction has passed over in some calls. -/
def passedIn (direction : Direction) (calls : List (Direction × Call)) : Nat :=
  ((calls.filter fun call ↦ call.1 = direction).map fun call ↦ call.2.passed).sum

theorem Reads.act (h : Reads pattern direction place cycle) (call : Call) :
    Reads pattern direction (place + call.passed) (cycle.act call) := by
  cases call with
  | available count => exact h
  | advance count => exact h.advance count
  | take count => exact h.advance count

/-- A call moves the cycle of its direction, and no other. -/
theorem reads_of_run {cycles : PerDirection SymbolCycle} {place : Direction → Nat}
    (h : ∀ direction, Reads pattern direction (place direction) (cycles.get direction))
    (calls : List (Direction × Call)) (direction : Direction) :
    Reads pattern direction (place direction + passedIn direction calls)
      ((run cycles calls).get direction) := by
  induction calls generalizing cycles place with
  | nil => exact h direction
  | cons call calls ih =>
    obtain ⟨called, call⟩ := call
    have hnext (d : Direction) : Reads pattern d (place d + if called = d then call.passed else 0)
        ((cycles.set ((cycles.get called).act call) called).get d) := by
      by_cases hd : called = d
      · rw [if_pos hd, ← hd, PerDirection.get_set_self]
        exact (h called).act call
      · rw [if_neg hd, PerDirection.get_set_of_ne _ _ hd]
        exact h d
    have hpassed : passedIn direction ((called, call) :: calls) =
        (if called = direction then call.passed else 0) + passedIn direction calls := by
      by_cases hd : called = direction
      · simp [passedIn, hd]
      · simp [passedIn, hd]
    rw [hpassed, ← Nat.add_assoc]
    exact ih hnext

/-! ## What is read -/

/-- What a cycle gives whose next symbol is at a place of the repeated pattern. -/
structure Follows (pattern : DuplexPattern) (direction : Direction) (place : Nat) (cycle : SymbolCycle) :
    Prop where
  cursor : cycle.cursor = place % pattern.symbols.length
  available : ∀ count, cycle.available count = pattern.occurrences (.serves direction) place count
  take : ∀ count, (cycle.take count).1 = pattern.occurrences (.serves direction) place count
  /-- Taking symbols in two parts is taking them at once. -/
  parts : ∀ a b, (cycle.take a).1 + ((cycle.take a).2.take b).1 = (cycle.take (a + b)).1 ∧
    ((cycle.take a).2.take b).2 = (cycle.take (a + b)).2
  /-- A carrier gets the same symbols in a subframe whatever its rows are. -/
  rows : ∀ config scheduling layout other, GridLayout.ofConfig direction config = .ok (.ok layout) →
    GridLayout.ofConfig direction { config with scheduling } = .ok (.ok other) →
      Grid.symbolsOfPass layout (some cycle) = Grid.symbolsOfPass other (some cycle) ∧
        Grid.cycleAfter layout.symbolsPerRow (some cycle) layout.rows =
          Grid.cycleAfter other.symbolsPerRow (some cycle) other.rows
  /-- Whole patterns have the symbols of the pattern, and lead back to the same place. -/
  wholes : ∀ k, cycle.take (k * pattern.symbols.length) =
    (k * pattern.symbols.count (.serves direction), cycle)

theorem Reads.follows (h : Reads pattern direction place cycle) : Follows pattern direction place cycle where
  cursor := h.cursor
  available := h.available_eq
  take := h.available_eq
  parts := h.take_take
  rows config scheduling layout other hlayout hother := by
    obtain ⟨slots, hslots, hrows⟩ := GridLayout.rows_mul_symbolsPerRow hlayout
    obtain ⟨_, hsame, hother⟩ := GridLayout.rows_mul_symbolsPerRow hother
    cases hslots.symm.trans hsame
    obtain ⟨hsum, hafter⟩ := h.rows layout.symbolsPerRow layout.rows
    obtain ⟨hsum', hafter'⟩ := h.rows other.symbolsPerRow other.rows
    rw [Grid.symbolsOfPass, Grid.symbolsOfPass, hsum, hsum', hafter, hafter', hrows, hother]
    exact ⟨rfl, rfl⟩
  wholes k := by
    rw [take, h.available_eq, pattern.occurrences_mul_length, h.advance_mul_length]

/-- Both cycles of a pattern read the sequence that repeats it for ever.  Whatever was called of them, each of
them stands where its own calls have moved it and counts the symbols from there on that serve its direction.
Where they stand at the same place, every symbol serves one of them, or none. -/
theorem follows_repeated_pattern {pattern : DuplexPattern} {cycles : PerDirection SymbolCycle}
    (hstart : ∀ direction, start pattern direction = .ok (cycles.get direction))
    (calls : List (Direction × Call)) :
    (∀ direction,
      Follows pattern direction (passedIn direction calls) ((run cycles calls).get direction)) ∧
    ((run cycles calls).downlink.cursor = (run cycles calls).uplink.cursor → ∀ count,
      (run cycles calls).downlink.available count + (run cycles calls).uplink.available count +
        pattern.occurrences .flexible (passedIn .downlink calls) count = count) := by
  have hreads (direction : Direction) :
      Reads pattern direction (passedIn direction calls) ((run cycles calls).get direction) := by
    have hrun := reads_of_run (fun direction ↦ reads_of_start (hstart direction)) calls direction
    rwa [Nat.zero_add] at hrun
  exact ⟨fun direction ↦ (hreads direction).follows,
    (hreads .downlink).available_add_available (hreads .uplink)⟩

/-- Thirty symbols from the transition slot on, of a pattern of three slots, reach into the slot that follows
the pattern. -/
theorem follows_repeated_pattern_of_three_slots :
    ∃ (pattern : DuplexPattern) (cycles : PerDirection SymbolCycle),
      (∀ direction, start pattern direction = .ok (cycles.get direction)) ∧
      ((run cycles [(.uplink, .take 14), (.downlink, .advance 98), (.uplink, .available 7)]).uplink.take
        30).1 = 16 ∧
      pattern.occurrences (.serves .uplink) 14 30 = 16 ∧ pattern.occurrences .flexible 98 30 = 2 := by
  have hstart (direction : Direction) :
      start { downlinkSlots := 1, uplinkSlots := 1, transition := 1 } direction =
        .ok ((PerDirection.ofDirection fun direction ↦
          { runs := { downlink := 24, flexible := 2, uplink := 16 }, direction, cursor := 0 }).get
            direction) := by
    cases direction <;> rfl
  obtain ⟨hfollows, hshared⟩ := follows_repeated_pattern hstart
    [(.uplink, .take 14), (.downlink, .advance 98), (.uplink, .available 7)]
  have hall := hshared rfl 30
  exact ⟨_, _, hstart, rfl, ((hfollows .uplink).take 30).symm, Nat.add_left_cancel hall⟩

end SymbolCycle

end RadioAccess
