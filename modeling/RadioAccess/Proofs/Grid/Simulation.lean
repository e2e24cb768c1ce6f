import RadioAccess.Grid.Pass
import RadioAccess.Proofs.Checked

/-!
# Passes over Related States

A pass learns of the state behind its directory only what the directory answers.  If two directories
answer alike on related states and keep them related when they hand out a grant, then a pass over a grid
visits its cells in the same way whichever of the two stands behind it (`Directory.Simulates.pass`).
-/

namespace RadioAccess

variable {σ τ : Type} {directory : Directory σ} {other : Directory τ} {related : σ → τ → Prop}

/-- Two directories answer alike on related states, and a grant that one of them hands out is handed
out by the other one to the same effect. -/
structure Directory.Simulates (directory : Directory σ) (other : Directory τ) (related : σ → τ → Prop) :
    Prop where
  users : ∀ {state mirror}, related state mirror → other.users mirror = directory.users state
  candidate : ∀ {state mirror}, related state mirror →
    other.candidate mirror = directory.candidate state
  deliver : ∀ {state mirror grant delivered after}, related state mirror →
    directory.deliver state grant = .ok (delivered, after) →
    ∃ reflected, other.deliver mirror grant = .ok (delivered, reflected) ∧ related after reflected

namespace Directory.Simulates

variable {state after : σ} {mirror : τ} {now : Float}

theorem estimate (h : directory.Simulates other related) (hrelated : related state mirror)
    (symbols : Nat) (cell : Cell) (scorer : Scorer) :
    cell.estimate other mirror now symbols scorer =
      cell.estimate directory state now symbols scorer := by
  simp only [Cell.estimate, Cell.question, h.users hrelated, h.candidate hrelated]

theorem handOut (h : directory.Simulates other related) (hrelated : related state mirror)
    {symbols : Nat} {cell vacated : Cell} {delivery : Option Delivery}
    (hout : cell.handOut directory state symbols = .ok (delivery, vacated, after)) :
    ∃ reflected, cell.handOut other mirror symbols = .ok (delivery, vacated, reflected) ∧
      related after reflected := by
  rw [Cell.handOut] at hout ⊢
  cases hgrant : cell.grant? symbols with
  | none =>
    rw [hgrant] at hout
    cases hout
    exact ⟨mirror, rfl, hrelated⟩
  | some grant =>
    rw [hgrant] at hout
    simp only [bind_eq_ok_iff, pure_eq_ok_iff] at hout
    obtain ⟨⟨delivered, next⟩, hdeliver, heq⟩ := hout
    cases heq
    obtain ⟨reflected, hreflected, hafter⟩ := h.deliver hrelated hdeliver
    refine ⟨reflected, ?_, hafter⟩
    simp only [hreflected, ok_bind]
    rfl

theorem visit (h : directory.Simulates other related) (hrelated : related state mirror)
    {symbols : Nat} {scorer next : Scorer} {cell vacated : Cell} {visited : Visit}
    (hvisit : Grid.visit directory now symbols { scorer, state } cell =
      .ok (visited, vacated, { scorer := next, state := after })) :
    ∃ reflected, Grid.visit other now symbols { scorer, state := mirror } cell =
        .ok (visited, vacated, { scorer := next, state := reflected }) ∧
      related after reflected := by
  simp only [Grid.visit, bind_eq_ok_iff, pure_eq_ok_iff] at hvisit
  obtain ⟨⟨delivery, emptied, _⟩, hout, heq⟩ := hvisit
  cases heq
  obtain ⟨reflected, hreflected, hafter⟩ := h.handOut hrelated hout
  refine ⟨reflected, ?_, hafter⟩
  simp only [Grid.visit, h.estimate hrelated, hreflected, ok_bind]
  rfl

theorem passRow (h : directory.Simulates other related) (hrelated : related state mirror)
    {symbols : Nat} {scorer next : Scorer} {cells vacated : List Cell} {visits : List Visit}
    (hpass : Grid.passRow directory now symbols { scorer, state } cells =
      .ok (visits, vacated, { scorer := next, state := after })) :
    ∃ reflected, Grid.passRow other now symbols { scorer, state := mirror } cells =
        .ok (visits, vacated, { scorer := next, state := reflected }) ∧
      related after reflected := by
  induction cells generalizing state mirror scorer visits vacated with
  | nil =>
    cases hpass
    exact ⟨mirror, rfl, hrelated⟩
  | cons cell cells ih =>
    simp only [Grid.passRow, bind_eq_ok_iff, pure_eq_ok_iff] at hpass
    obtain ⟨⟨visited, emptied, ⟨turned, middle⟩⟩, hvisit, ⟨further, rest, _⟩, hrest, heq⟩ := hpass
    cases heq
    obtain ⟨reflected, hreflected, hmiddle⟩ := h.visit hrelated hvisit
    obtain ⟨final, hfinal, hafter⟩ := ih hmiddle hrest
    refine ⟨final, ?_, hafter⟩
    simp only [Grid.passRow, hreflected, hfinal, ok_bind]
    rfl

theorem passRows (h : directory.Simulates other related) (hrelated : related state mirror)
    {symbolsPerRow : Nat} {cycle advanced : Option SymbolCycle} {scorer next : Scorer}
    {rows vacated : List (List Cell)} {visits : List Visit}
    (hpass : Grid.passRows directory now symbolsPerRow cycle { scorer, state } rows =
      .ok (visits, vacated, advanced, { scorer := next, state := after })) :
    ∃ reflected, Grid.passRows other now symbolsPerRow cycle { scorer, state := mirror } rows =
        .ok (visits, vacated, advanced, { scorer := next, state := reflected }) ∧
      related after reflected := by
  induction rows generalizing state mirror cycle scorer visits vacated with
  | nil =>
    cases hpass
    exact ⟨mirror, rfl, hrelated⟩
  | cons row rows ih =>
    simp only [Grid.passRows, bind_eq_ok_iff, pure_eq_ok_iff] at hpass
    obtain ⟨⟨visited, emptied, ⟨turned, middle⟩⟩, hrow, ⟨further, rest, moved, _⟩, hrest, heq⟩ := hpass
    cases heq
    obtain ⟨reflected, hreflected, hmiddle⟩ := h.passRow hrelated hrow
    obtain ⟨final, hfinal, hafter⟩ := ih hmiddle hrest
    refine ⟨final, ?_, hafter⟩
    simp only [Grid.passRows, hreflected, hfinal, ok_bind]
    rfl

/-- A pass does the same on related states, and leaves related states. -/
theorem pass (h : directory.Simulates other related) (hrelated : related state mirror)
    {grid passed : Grid} {visits : List Visit}
    (hpass : grid.pass directory now state = .ok (visits, passed, after)) :
    ∃ reflected, grid.pass other now mirror = .ok (visits, passed, reflected) ∧
      related after reflected := by
  simp only [Grid.pass, bind_eq_ok_iff, pure_eq_ok_iff] at hpass
  obtain ⟨⟨visited, rows, cycle, ⟨next, final⟩⟩, hrows, heq⟩ := hpass
  cases heq
  obtain ⟨reflected, hreflected, hafter⟩ := h.passRows hrelated hrows
  refine ⟨reflected, ?_, hafter⟩
  simp only [Grid.pass, hreflected, ok_bind]
  rfl

end Directory.Simulates

/-- What handing out a grant keeps of the state, a pass keeps. -/
theorem Grid.pass_induction {P : σ → Prop} {now : Float} {grid passed : Grid} {visits : List Visit}
    {state after : σ}
    (hdeliver : ∀ {state grant delivered after}, P state →
      directory.deliver state grant = .ok (delivered, after) → P after)
    (hpass : grid.pass directory now state = .ok (visits, passed, after)) (hstate : P state) : P after := by
  have hsimulates : directory.Simulates directory fun state mirror ↦ state = mirror ∧ P state := by
    constructor
    case users =>
      rintro state _ ⟨rfl, -⟩
      rfl
    case candidate =>
      rintro state _ ⟨rfl, -⟩
      rfl
    case deliver =>
      rintro state _ grant delivered after ⟨rfl, hstate⟩ hafter
      exact ⟨after, hafter, rfl, hdeliver hstate hafter⟩
  obtain ⟨reflected, -, -, hafter⟩ := hsimulates.pass ⟨rfl, hstate⟩ hpass
  exact hafter

/-! ## Passes that have a result -/

namespace Grid

/-- On good states a directory takes every grant, and the states stay good. -/
def Accepts (directory : Directory σ) (P : σ → Prop) : Prop :=
  ∀ state grant, P state → ∃ delivered after, directory.deliver state grant = .ok (delivered, after) ∧ P after

variable {P : σ → Prop} {state : σ}

theorem exists_visit (h : Accepts directory P) (hstate : P state) (now : Float) (symbols : Nat) (scorer : Scorer)
    (cell : Cell) : ∃ visited vacated next after,
      visit directory now symbols { scorer, state } cell =
        .ok (visited, vacated, { scorer := next, state := after }) ∧ P after := by
  unfold visit
  rcases cell.estimate directory state now symbols scorer with ⟨estimated, turned⟩
  simp only [Cell.handOut]
  split
  · exact ⟨_, _, turned, state, rfl, hstate⟩
  · rename_i grant hgrant
    obtain ⟨delivered, after, hdeliver, hafter⟩ := h state grant hstate
    simp only [hdeliver, ok_bind]
    exact ⟨_, _, turned, after, rfl, hafter⟩

theorem exists_passRow (h : Accepts directory P) (hstate : P state) (now : Float) (symbols : Nat) (scorer : Scorer)
    (cells : List Cell) : ∃ visits vacated next after,
      passRow directory now symbols { scorer, state } cells =
        .ok (visits, vacated, { scorer := next, state := after }) ∧ P after := by
  induction cells generalizing state scorer with
  | nil => exact ⟨_, _, scorer, state, rfl, hstate⟩
  | cons cell cells ih =>
    obtain ⟨visited, emptied, turned, middle, hvisit, hmiddle⟩ := exists_visit h hstate now symbols scorer cell
    obtain ⟨visits, vacated, next, after, hrest, hafter⟩ := ih hmiddle turned
    refine ⟨visited :: visits, emptied :: vacated, next, after, ?_, hafter⟩
    simp only [passRow, hvisit, hrest, ok_bind]
    rfl

theorem exists_passRows (h : Accepts directory P) (hstate : P state) (now : Float) (symbolsPerRow : Nat)
    (cycle : Option SymbolCycle) (scorer : Scorer) (rows : List (List Cell)) :
    ∃ visits vacated advanced next after,
      passRows directory now symbolsPerRow cycle { scorer, state } rows =
        .ok (visits, vacated, advanced, { scorer := next, state := after }) ∧ P after := by
  induction rows generalizing state cycle scorer with
  | nil => exact ⟨_, _, cycle, scorer, state, rfl, hstate⟩
  | cons row rows ih =>
    obtain ⟨visited, emptied, turned, middle, hrow, hmiddle⟩ :=
      exists_passRow h hstate now (takeSymbols symbolsPerRow cycle).1 scorer row
    obtain ⟨visits, vacated, advanced, next, after, hrest, hafter⟩ :=
      ih hmiddle (takeSymbols symbolsPerRow cycle).2 turned
    refine ⟨visited ++ visits, emptied :: vacated, advanced, next, after, ?_, hafter⟩
    simp only [passRows, hrow, hrest, ok_bind]
    rfl

/-- A pass has a result if every grant has one. -/
theorem exists_pass (h : Accepts directory P) (hstate : P state) (now : Float) (grid : Grid) :
    ∃ visits passed after, grid.pass directory now state = .ok (visits, passed, after) ∧ P after := by
  obtain ⟨visits, rows, cycle, next, after, hrows, hafter⟩ :=
    exists_passRows h hstate now grid.layout.symbolsPerRow grid.cycle grid.scorer.beginPass grid.rows
  refine ⟨visits, { grid with rows, cycle, scorer := next }, after, ?_, hafter⟩
  simp only [pass, hrows, ok_bind]
  rfl

end Grid

end RadioAccess
