import RadioAccess.Proofs.Blocks
import RadioAccess.Proofs.Grid.Serving
import RadioAccess.Proofs.Grid.SetUp
import RadioAccess.Proofs.Grid.Simulation

/-!
# What a Pass Covers

The cells of a grid are written row after row, and a pass visits each of them once in this order, whatever the
directory answers and however its state changes.  That each grant is one call of the directory is seen from a
directory that keeps a journal of its calls: a pass does the same with it as without
(`Directory.simulates_journaled`), and the journal grows by one entry exactly where a visit has a delivery.
-/

namespace RadioAccess

namespace Grid

/-! ## Cells -/

/-- The cells of a grid, written row after row: each has the place that its number says, and the cells of a row
are a slice of them. -/
structure Numbered (grid : Grid) : Prop where
  length : grid.rows.flatten.length = grid.layout.cells
  entry : ∀ row < grid.layout.rows, ∀ group < grid.layout.groups,
    grid.rows.flatten[row * grid.layout.groups + group]? = some (.vacant row group grid.layout.direction)
  slice : ∀ row < grid.layout.rows, (row + 1) * grid.layout.groups ≤ grid.layout.cells ∧
    grid.rows[row]? = some ((grid.rows.flatten.drop (row * grid.layout.groups)).take grid.layout.groups)

theorem length_vacantRow (layout : GridLayout) (row : Nat) : (vacantRow layout row).length = layout.groups := by
  rw [vacantRow, List.length_map, List.length_range]

theorem flatten_vacantRows (layout : GridLayout) :
    (vacantRows layout).flatten = (List.range layout.rows).flatMap (vacantRow layout) := rfl

theorem numbered_of_rows_eq {grid : Grid} (h : grid.rows = vacantRows grid.layout) : grid.Numbered := by
  have hsize := length_vacantRow grid.layout
  constructor
  case length => rw [h, flatten_vacantRows, length_flatMap_range hsize, GridLayout.cells]
  case entry =>
    intro row hrow group hgroup
    rw [h, flatten_vacantRows, getElem?_flatMap_range hsize hrow hgroup, vacantRow, List.getElem?_map,
      List.getElem?_range hgroup, Option.map_some]
  case slice =>
    intro row hrow
    refine ⟨Nat.mul_le_mul_right _ hrow, ?_⟩
    rw [h, flatten_vacantRows, take_drop_flatMap_range hsize hrow, vacantRows, List.getElem?_map,
      List.getElem?_range hrow, Option.map_some, vacantRow]

end Grid

/-! ## Journals -/

variable {σ : Type}

/-- A directory that keeps a journal of the grants that it handed out, each with the state that it was handed
out in. -/
def Directory.journaled (directory : Directory σ) : Directory (σ × List (σ × Grant)) where
  users pair := directory.users pair.1
  candidate pair := directory.candidate pair.1
  deliver pair grant := do
    let (delivered, after) ← directory.deliver pair.1 grant
    return (delivered, after, pair.2 ++ [(pair.1, grant)])

/-- The journal changes nothing. -/
theorem Directory.simulates_journaled (directory : Directory σ) :
    directory.Simulates directory.journaled fun state pair ↦ pair.1 = state := by
  constructor
  case users =>
    rintro state pair rfl
    rfl
  case candidate =>
    rintro state pair rfl
    rfl
  case deliver =>
    rintro _ pair grant delivered after rfl hdeliver
    refine ⟨(after, pair.2 ++ [(pair.1, grant)]), ?_, rfl⟩
    simp only [journaled, hdeliver, ok_bind]
    rfl

namespace Grid

/-- The grants of some visits. -/
def grantsOf (visits : List Visit) : List Grant := visits.filterMap fun visit ↦ visit.delivery.map Delivery.grant

/-- The calls by which the grants of some visits were handed out: one for each grant, in the same order, for the
group of a visited cell and to one of the users that there were. -/
structure CallsOf (directory : Directory σ) (visits : List Visit) (calls : List (σ × Grant)) : Prop where
  grants : calls.map Prod.snd = grantsOf visits
  group : ∀ call ∈ calls, ∃ visit ∈ visits, visit.group = call.2.group
  user : ∀ call ∈ calls, call.2.user < directory.users call.1

variable {directory : Directory σ} {now : Float} {direction : Direction}

theorem callsOf_nil (visits : List Visit) (h : grantsOf visits = []) : CallsOf directory visits [] where
  grants := h.symm
  group _ h := nomatch h
  user _ h := nomatch h

theorem CallsOf.append {visits further : List Visit} {calls later : List (σ × Grant)}
    (h : CallsOf directory visits calls) (hlater : CallsOf directory further later) :
    CallsOf directory (visits ++ further) (calls ++ later) where
  grants := by rw [List.map_append, h.grants, hlater.grants, grantsOf, grantsOf, grantsOf, List.filterMap_append]
  group call hcall := by
    rcases List.mem_append.1 hcall with hfirst | hsecond
    · obtain ⟨visit, hvisit, hgroup⟩ := h.group call hfirst
      exact ⟨visit, List.mem_append_left _ hvisit, hgroup⟩
    · obtain ⟨visit, hvisit, hgroup⟩ := hlater.group call hsecond
      exact ⟨visit, List.mem_append_right _ hvisit, hgroup⟩
  user call hcall := (List.mem_append.1 hcall).elim (h.user call) (hlater.user call)

/-- One visit adds what it hands out to the journal. -/
theorem Serves.exists_calls {progress next : Progress (σ × List (σ × Grant))} {serving : Serving}
    (h : Serves directory.journaled now direction progress serving next) : ∃ calls,
      next.state.2 = progress.state.2 ++ calls ∧ CallsOf directory [serving.visit] calls := by
  cases h with
  | silent => exact ⟨[], (List.append_nil _).symm, callsOf_nil _ rfl⟩
  | idle => exact ⟨[], (List.append_nil _).symm, callsOf_nil _ rfl⟩
  | @granted row group symbols _ bids scorer bid grant delivered after hsymbols hask hbest hgrant hdeliver =>
    simp only [Directory.journaled, bind_eq_ok_iff, pure_eq_ok_iff] at hdeliver
    obtain ⟨⟨_, changed⟩, -, heq⟩ := hdeliver
    cases heq
    have huser : bid.user < directory.users progress.state.1 := by
      have hbids : bids = (askAll directory.journaled progress.state now group progress.scorer).1 :=
        (congrArg Prod.fst hask).symm
      have hmem := List.mem_map_of_mem (f := Bid.user) hbest.mem
      rw [hbids, askAll, map_user_ask] at hmem
      exact List.mem_range.1 hmem
    subst hgrant
    refine ⟨_, rfl, rfl, fun call hcall ↦ ?_, fun call hcall ↦ ?_⟩
    · rw [List.mem_singleton.1 hcall]
      exact ⟨_, List.mem_singleton_self _, rfl⟩
    · rw [List.mem_singleton.1 hcall]
      exact huser

/-- The journal grows by the calls of all visits. -/
theorem ServesAll.exists_calls {progress last : Progress (σ × List (σ × Grant))} {servings : List Serving}
    (h : ServesAll directory.journaled now direction progress servings last) : ∃ calls,
      last.state.2 = progress.state.2 ++ calls ∧ CallsOf directory (servings.map Serving.visit) calls := by
  induction h with
  | nil => exact ⟨[], (List.append_nil _).symm, callsOf_nil _ rfl⟩
  | cons hserves _ ih =>
    obtain ⟨calls, hmiddle, hcalls⟩ := hserves.exists_calls
    obtain ⟨later, hlast, hlater⟩ := ih
    refine ⟨calls ++ later, ?_, hcalls.append hlater⟩
    rw [hlast, hmiddle, List.append_assoc]

/-! ## Reports -/

theorem foldl_add_counts (visits : List Visit) (report : PassReport) :
    (visits.foldl PassReport.add report).grants = report.grants + (grantsOf visits).length ∧
      (visits.foldl PassReport.add report).grants + (visits.foldl PassReport.add report).idle =
        report.grants + report.idle + visits.length := by
  induction visits generalizing report with
  | nil => exact ⟨rfl, rfl⟩
  | cons visit visits ih =>
    obtain ⟨hgrants, hall⟩ := ih (report.add visit)
    rw [List.foldl_cons, hall, hgrants, grantsOf, grantsOf, PassReport.add]
    cases hdelivery : visit.delivery with
    | none =>
      simp only [List.filterMap_cons, hdelivery, Option.map_none, List.length_cons]
      exact ⟨trivial, by omega⟩
    | some delivery =>
      simp only [List.filterMap_cons, hdelivery, Option.map_some, List.length_cons]
      constructor <;> omega

/-- A report counts the grants, and with the idle cells all visits. -/
theorem ofVisits_counts (visits : List Visit) :
    (PassReport.ofVisits visits).grants = (grantsOf visits).length ∧
      (PassReport.ofVisits visits).grants + (PassReport.ofVisits visits).idle = visits.length := by
  obtain ⟨hgrants, hall⟩ := foldl_add_counts visits .empty
  exact ⟨hgrants.trans (Nat.zero_add _), hall.trans (Nat.zero_add _)⟩

/-! ## Passes -/

theorem cycle_of_passRows {symbolsPerRow : Nat} {cycle advanced : Option SymbolCycle} {progress next : Progress σ}
    {rows emptied : List (List Cell)} {visits : List Visit}
    (h : passRows directory now symbolsPerRow cycle progress rows = .ok (visits, emptied, advanced, next)) :
    advanced = cycleAfter symbolsPerRow cycle rows.length := by
  induction rows generalizing cycle progress visits emptied with
  | nil =>
    cases h
    rfl
  | cons row rows ih =>
    simp only [passRows, bind_eq_ok_iff, pure_eq_ok_iff] at h
    obtain ⟨_, -, ⟨_, _, _, _⟩, hrest, heq⟩ := h
    cases heq
    exact ih hrest

theorem cycle_of_pass {grid passed : Grid} {visits : List Visit} {state after : σ}
    (h : grid.pass directory now state = .ok (visits, passed, after)) :
    passed.cycle = cycleAfter grid.layout.symbolsPerRow grid.cycle grid.rows.length := by
  simp only [pass, bind_eq_ok_iff, pure_eq_ok_iff] at h
  obtain ⟨_, hrows, heq⟩ := h
  cases heq
  exact cycle_of_passRows hrows

/-- The cells of a row with its symbols. -/
def placesOfRow (grid : Grid) (row : Nat) : List (Nat × Nat × Nat) :=
  (List.range grid.layout.groups).map fun group ↦
    (row, group, symbolsOfRow grid.layout.symbolsPerRow grid.cycle row)

theorem length_placesOfRow (grid : Grid) (row : Nat) : (grid.placesOfRow row).length = grid.layout.groups := by
  rw [placesOfRow, List.length_map, List.length_range]

theorem itinerary_eq (grid : Grid) : grid.itinerary = (List.range grid.layout.rows).flatMap grid.placesOfRow := by
  rw [itinerary, placesFrom, ← List.range_eq_range']
  rfl

theorem length_itinerary (grid : Grid) : grid.itinerary.length = grid.layout.cells := by
  rw [itinerary_eq, length_flatMap_range grid.length_placesOfRow, GridLayout.cells]

theorem getElem?_itinerary {grid : Grid} {row group : Nat} (hrow : row < grid.layout.rows)
    (hgroup : group < grid.layout.groups) : grid.itinerary[row * grid.layout.groups + group]? =
      some (row, group, symbolsOfRow grid.layout.symbolsPerRow grid.cycle row) := by
  rw [itinerary_eq, getElem?_flatMap_range grid.length_placesOfRow hrow hgroup, placesOfRow, List.getElem?_map,
    List.getElem?_range hgroup, Option.map_some]

theorem group_lt_of_mem_itinerary {grid : Grid} {place : Nat × Nat × Nat} (h : place ∈ grid.itinerary) :
    place.2.1 < grid.layout.groups := by
  rw [itinerary_eq] at h
  obtain ⟨row, -, hplace⟩ := List.mem_flatMap.1 h
  obtain ⟨group, hgroup, rfl⟩ := List.mem_map.1 hplace
  exact List.mem_range.1 hgroup

/-- What a pass over a grid has done whose deliveries were these calls. -/
structure Sweeps (directory : Directory σ) (grid passed : Grid) (visits : List Visit)
    (calls : List (σ × Grant)) : Prop where
  /-- There are no other visits than those of `order`. -/
  once : visits.length = grid.layout.cells
  /-- Each cell is visited in its turn, with the symbols that its row takes from the cycle. -/
  order : ∀ row < grid.layout.rows, ∀ group < grid.layout.groups,
    visits[row * grid.layout.groups + group]?.map placeOf =
      some (row, group, symbolsOfRow grid.layout.symbolsPerRow grid.cycle row)
  /-- The cycle has moved on once for each row. -/
  cycle : passed.cycle = cycleAfter grid.layout.symbolsPerRow grid.cycle grid.layout.rows
  handedOut : calls.map Prod.snd = grantsOf visits
  grants : (PassReport.ofVisits visits).grants = calls.length
  balance : (PassReport.ofVisits visits).grants + (PassReport.ofVisits visits).idle = grid.layout.cells
  known : ∀ call ∈ calls, call.2.group < grid.layout.groups ∧ call.2.user < directory.users call.1

theorem exists_sweeps {grid passed : Grid} {visits : List Visit} {state after : σ}
    (hrows : grid.rows = vacantRows grid.layout)
    (hpass : grid.pass directory now state = .ok (visits, passed, after)) : ∃ calls,
      grid.pass directory.journaled now (state, []) = .ok (visits, passed, (after, calls)) ∧
        Sweeps directory grid passed visits calls := by
  have hempty : (state, ([] : List (σ × Grant))).1 = state := rfl
  obtain ⟨⟨_, calls⟩, hjournaled, rfl⟩ := directory.simulates_journaled.pass hempty hpass
  obtain ⟨-, hplaces, servings, rfl, hserves⟩ := serves_of_pass hrows hjournaled
  obtain ⟨_, hall, hcalls⟩ := hserves.exists_calls
  obtain rfl := hall.trans (List.nil_append _)
  obtain ⟨hgrants, htotal⟩ := ofVisits_counts (servings.map Serving.visit)
  have hlength : (servings.map Serving.visit).length = grid.layout.cells := by
    rw [← length_itinerary, ← hplaces, List.length_map placeOf]
  have hcount : (grantsOf (servings.map Serving.visit)).length = calls.length := by
    rw [← hcalls.grants, List.length_map]
  refine ⟨calls, hjournaled, ?_⟩
  constructor
  case once => exact hlength
  case order =>
    intro row hrow group hgroup
    rw [← List.getElem?_map, hplaces, getElem?_itinerary hrow hgroup]
  case cycle =>
    rw [cycle_of_pass hpass, hrows, vacantRows, List.length_map, List.length_range]
  case handedOut => exact hcalls.grants
  case grants => rw [hgrants, hcount]
  case balance => rw [htotal, hlength]
  case known =>
    intro call hcall
    obtain ⟨visit, hvisit, hgroup⟩ := hcalls.group call hcall
    have hplace := hplaces ▸ List.mem_map_of_mem (f := placeOf) hvisit
    exact ⟨hgroup ▸ group_lt_of_mem_itinerary hplace, hcalls.user call hcall⟩

/-- **A grid covers its carrier, and a pass visits every cell once.**  Setting up refuses exactly the bands that
hold fewer than twenty resource blocks, and it has a fault exactly where the band is wide enough but the symbols
of the pattern cannot be counted.  A grid that is set up divides its carrier completely, as far as whole groups
fit, and keeps its cells in order however often it is passed over.  A pass has no other fault than that of a
delivery, and otherwise it visits each cell in its turn, moves the cycle on once for each row, and reports as
many grants as it handed out, each for a group of the grid and to one of its users.  Every pass continues the
run of those before it. -/
theorem pass_visits_every_cell_once (direction : Direction) (config : GridConfig) :
    ((∃ reason, (setUp direction config).2 = .ok (.error reason)) ↔ ¬config.IsWide) ∧
    (∀ reason, (setUp direction config).2 = .ok (.error reason) → ∃ blocks < Carrier.leastBlocks,
      reason = .tooNarrow (GridLayout.bandOf config) (Carrier.numerologyOf config.numerology) blocks) ∧
    (∀ fault, (setUp direction config).2 = .error fault ↔
      fault = .multiplyOverflow ∧ config.IsWide ∧ config.IsUncountable) ∧
    ∀ start, (setUp direction config).2 = .ok (.ok start) →
      start.layout.Covers direction config ∧
      ∀ served grid, Run start served grid → grid.layout = start.layout ∧ grid.Numbered ∧
        ∀ (σ : Type) (directory : Directory σ) (now : Float) (state : σ),
          (∀ fault, grid.pass directory now state = .error fault →
            ∃ reached grant, directory.deliver reached grant = .error fault) ∧
          ∀ visits passed after, grid.pass directory now state = .ok (visits, passed, after) →
            (∃ servings, servings.map Serving.visit = visits ∧ Run start (served ++ servings) passed) ∧
            ∃ calls,
              grid.pass directory.journaled now (state, []) = .ok (visits, passed, (after, calls)) ∧
                Sweeps directory grid passed visits calls := by
  obtain ⟨hnarrow, blocks, hfew, hresult⟩ | ⟨hwide, hmany, hresult⟩ |
    ⟨hwide, hcountable, layout, cycle, hcovers, hresult⟩ := setUp_cases direction config <;> rw [hresult]
  case inl =>
    refine ⟨iff_of_true ⟨_, rfl⟩ hnarrow, fun reason hreason ↦ ?_, fun fault ↦ iff_of_false nofun fun h ↦ ?_,
      fun start hstart ↦ (nomatch hstart)⟩
    · cases hreason
      exact ⟨blocks, hfew, rfl⟩
    · exact hnarrow h.2.1
  case inr.inl =>
    refine ⟨iff_of_false nofun (not_not.2 hwide), fun reason hreason ↦ (nomatch hreason),
      fun fault ↦ ⟨fun h ↦ ?_, fun h ↦ ?_⟩, fun start hstart ↦ (nomatch hstart)⟩
    · cases h
      exact ⟨rfl, hwide, hmany⟩
    · rw [h.1]
  case inr.inr =>
    refine ⟨iff_of_false nofun (not_not.2 hwide), fun reason hreason ↦ (nomatch hreason),
      fun fault ↦ iff_of_false nofun fun h ↦ hcountable h.2.2, fun start hstart ↦ ?_⟩
    cases hstart
    refine ⟨hcovers, fun served grid hrun ↦ ?_⟩
    obtain ⟨hrows, hlayout⟩ := hrun.rows_eq rfl
    refine ⟨hlayout, numbered_of_rows_eq hrows, fun σ directory now state ↦ ⟨fun fault hfault ↦ ?_, ?_⟩⟩
    · simp only [pass, bind_eq_error_iff, pure_ne_error, and_false, exists_false, or_false] at hfault
      exact exists_fault_of_passRows hfault
    · intro visits passed after hpass
      obtain ⟨servings, hvisits, -, hfurther⟩ := hrun.extend rfl hpass
      exact ⟨⟨servings, hvisits, hfurther⟩, exists_sweeps hrows hpass⟩

/-- The standard carrier in rows of slots: one for the downlink, a transition slot and one for the uplink. -/
def threeSlots : GridConfig :=
  { GridConfig.standard with
    scheduling := 0, pattern := { downlinkSlots := 1, uplinkSlots := 1, transition := 1 } }

/-- The second pass over two rows of thirteen cells begins in the uplink slot, so half of the cells are idle. -/
theorem pass_visits_every_cell_once_of_two_passes : ∃ start,
    (setUp .downlink threeSlots).2 = .ok (.ok start) ∧ start.layout.Covers .downlink threeSlots ∧
      ∃ first, start.pass pair 0.0 1 = .ok first ∧
        ∃ second, first.2.1.pass pair 0.0 first.2.2 = .ok second ∧
          (PassReport.ofVisits second.1).grants = 13 ∧ (PassReport.ofVisits second.1).idle = 13 ∧
          ∃ calls, Sweeps pair first.2.1 second.2.1 second.1 calls := by
  have hruns : (setUp .downlink threeSlots).2.toOption.any (fun result ↦ result.toOption.any fun start ↦
      (start.pass pair 0.0 1).toOption.any fun first ↦
        (first.2.1.pass pair 0.0 first.2.2).toOption.any fun second ↦
          (PassReport.ofVisits second.1).grants == 13 && (PassReport.ofVisits second.1).idle == 13) = true := by
    decide +kernel
  obtain ⟨result, hsetup, hgrid⟩ := exists_ok_of_any _ hruns fun _ _ h ↦ h
  obtain ⟨start, rfl, hpasses⟩ := exists_ok_of_any _ hgrid fun _ _ h ↦ h
  obtain ⟨first, hfirst, hnext⟩ := exists_ok_of_any _ hpasses fun _ _ h ↦ h
  obtain ⟨second, hsecond, hcounts⟩ := exists_ok_of_any _ hnext fun _ _ h ↦ h
  rw [Bool.and_eq_true, beq_iff_eq, beq_iff_eq] at hcounts
  obtain ⟨hcovers, hruns⟩ := (pass_visits_every_cell_once .downlink threeSlots).2.2.2 start hsetup
  obtain ⟨-, -, honce⟩ := hruns [] start .start
  obtain ⟨⟨servings, -, hrun⟩, -⟩ := (honce Nat pair 0.0 1).2 first.1 first.2.1 first.2.2 hfirst
  obtain ⟨-, -, htwice⟩ := hruns _ first.2.1 hrun
  obtain ⟨-, calls, -, hsweeps⟩ := (htwice Nat pair 0.0 first.2.2).2 second.1 second.2.1 second.2.2 hsecond
  exact ⟨start, hsetup, hcovers, first, hfirst, second, hsecond, hcounts.1, hcounts.2, calls, hsweeps⟩

/-- The standard carrier with more downlink slots than their symbols can be counted. -/
def manySlots : GridConfig :=
  { GridConfig.standard with pattern := { DuplexPattern.standard with downlinkSlots := 306783379 } }

/-- A band that holds fifty-five resource blocks is wide enough, and yet there is no grid. -/
theorem no_grid_though_wide :
    GridLayout.blocksIn (GridLayout.bandOf manySlots) 1 30000.0 = 55 ∧ manySlots.IsWide ∧
      (setUp .downlink manySlots).2 = .error .multiplyOverflow := by
  refine ⟨by decide +kernel, ?_, eq_error_of_map_eq_error (f := fun _ ↦ ()) (by decide +kernel)⟩
  show Carrier.leastBand 1 ≤ 20e6
  decide +kernel

end Grid

end RadioAccess
