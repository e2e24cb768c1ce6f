import RadioAccess.Grid.Pass
import RadioAccess.Proofs.Checked
import RadioAccess.Proofs.Real64.Order

/-!
# Whom a Pass Serves

A cell keeps the user it has chosen until it hands out its grant, the scorer keeps the turn of the
rotation, and the directory changes with every grant.  What comes of all this together is simple: each
cell with symbols takes one bid from every user, as the users stand after the grants before it, and serves
the best bid (`Grid.every_grant_to_the_best_bid`).  The best bid is the first one among those that score
most, so users with lower numbers win ties.
-/

namespace RadioAccess

/-! ## Bids -/

/-- What a user offers when a cell asks it. -/
structure Bid where
  user : Nat
  candidate : Candidate
  score : Float

namespace Bid

/-- Whether the bid may win: its user has data, its throughput is not known to be nothing, and its score
is a number. -/
def competes (bid : Bid) : Bool := Cell.competes bid.candidate bid.score

/-- The bid as the choice of a cell. -/
def choice (bid : Bid) : Choice :=
  { user := bid.user, bitsPerSymbol := bid.candidate.bitsPerSymbol, score := bid.score }

/-- The bid competes, none that competes scores more, and none of a user with a lower number that
competes scores as much. -/
structure IsBest (bid : Bid) (bids : List Bid) : Prop where
  mem : bid ∈ bids
  competes : bid.competes = true
  most : ∀ rival ∈ bids, rival.competes = true → rival.score ≤ bid.score
  first : ∀ rival ∈ bids, rival.competes = true → rival.user < bid.user → rival.score < bid.score

theorem competes_iff (bid : Bid) : bid.competes = true ↔ bid.candidate.hasData = true ∧
    ¬bid.candidate.bitsPerSymbol ≤ 0.0 ∧ bid.score.isNaN = false := by
  simp only [competes, Cell.competes, Bool.and_eq_true, Bool.not_eq_eq_eq_not, Bool.not_true,
    decide_eq_false_iff_not, and_assoc]

/-- A bid that scores more than the best one before it is the best one. -/
theorem IsBest.overtaken {best bid : Bid} {bids : List Bid} (h : best.IsBest bids)
    (hcompetes : bid.competes = true) (hmore : best.score < bid.score) : bid.IsBest (bids ++ [bid]) := by
  have hnumber := ((competes_iff bid).1 hcompetes).2.2
  have hless (rival : Bid) (hrival : rival ∈ bids) (hcompetes : rival.competes = true) :
      rival.score < bid.score := Real64.lt_of_le_of_lt (h.most rival hrival hcompetes) hmore
  refine ⟨by simp, hcompetes, fun rival hrival hcompetes ↦ ?_, fun rival hrival hcompetes hbefore ↦ ?_⟩
  · rcases List.mem_append.1 hrival with hold | hlast
    · exact Real64.le_of_lt (hless rival hold hcompetes)
    · rw [List.mem_singleton.1 hlast]
      exact Real64.le_refl hnumber
  · rcases List.mem_append.1 hrival with hold | hlast
    · exact hless rival hold hcompetes
    · rw [List.mem_singleton.1 hlast] at hbefore
      exact absurd hbefore (lt_irrefl bid.user)

/-- The best bid stays so before the bid of a user with a higher number, unless that one wins. -/
theorem IsBest.kept {best bid : Bid} {bids : List Bid} (h : best.IsBest bids)
    (hlast : best.user < bid.user) (hless : bid.competes = true → ¬best.score < bid.score) :
    best.IsBest (bids ++ [bid]) := by
  have hnumber := ((competes_iff best).1 h.competes).2.2
  refine ⟨List.mem_append_left _ h.mem, h.competes, fun rival hrival hcompetes ↦ ?_,
    fun rival hrival hcompetes hbefore ↦ ?_⟩
  · rcases List.mem_append.1 hrival with hold | hnew
    · exact h.most rival hold hcompetes
    · obtain rfl := List.mem_singleton.1 hnew
      exact Real64.le_of_not_lt (hless hcompetes) ((competes_iff rival).1 hcompetes).2.2 hnumber
  · rcases List.mem_append.1 hrival with hold | hnew
    · exact h.first rival hold hcompetes hbefore
    · rw [List.mem_singleton.1 hnew] at hbefore
      exact absurd hbefore hlast.asymm

/-- Without another one that competes, a bid that does is the best. -/
theorem isBest_of_alone {bid : Bid} {bids : List Bid} (hnone : ∀ earlier ∈ bids, earlier.competes = false)
    (hcompetes : bid.competes = true) : bid.IsBest (bids ++ [bid]) := by
  have halone (rival : Bid) (hrival : rival ∈ bids ++ [bid]) (hcompetes : rival.competes = true) :
      rival = bid := by
    rcases List.mem_append.1 hrival with hold | hlast
    · rw [hnone rival hold] at hcompetes
      cases hcompetes
    · exact List.mem_singleton.1 hlast
  refine ⟨by simp, hcompetes, fun rival hrival hcompetes ↦ ?_, fun rival hrival hcompetes hbefore ↦ ?_⟩
  · obtain rfl := halone rival hrival hcompetes
    exact Real64.le_refl ((competes_iff rival).1 hcompetes).2.2
  · obtain rfl := halone rival hrival hcompetes
    exact absurd hbefore (lt_irrefl rival.user)

end Bid

/-! ## The choice of a cell -/

/-- A choice is what some bids lead to: the best of them, or nothing if none competes. -/
def Chosen (bids : List Bid) : Option Choice → Prop
  | none => ∀ bid ∈ bids, bid.competes = false
  | some choice => ∃ bid : Bid, bid.IsBest bids ∧ choice = bid.choice

/-- A cell that has weighed some bids weighs the bid of a user with a higher number. -/
theorem Chosen.consider {bids : List Bid} {cell : Cell} (h : Chosen bids cell.choice) {bid : Bid}
    (hlast : ∀ earlier ∈ bids, earlier.user < bid.user) :
    Chosen (bids ++ [bid]) (cell.consider bid.user bid.candidate bid.score).choice := by
  have hcompetes : Cell.competes bid.candidate bid.score = bid.competes := rfl
  rw [Cell.consider, hcompetes]
  cases hchoice : cell.choice with
  | none =>
    rw [hchoice] at h
    rw [Option.all_none, Bool.and_true]
    split
    next hbid => exact ⟨bid, Bid.isBest_of_alone h hbid, rfl⟩
    next hbid =>
      rw [hchoice]
      intro other hother
      rcases List.mem_append.1 hother with hold | hnew
      · exact h other hold
      · rw [List.mem_singleton.1 hnew]
        exact Bool.eq_false_iff.2 hbid
  | some choice =>
    rw [hchoice] at h
    obtain ⟨best, hbest, rfl⟩ := h
    simp only [Option.all_some, Bool.and_eq_true, decide_eq_true_iff]
    split
    next hwins => exact ⟨bid, hbest.overtaken hwins.1 hwins.2, rfl⟩
    next hloses =>
      rw [hchoice]
      exact ⟨best, hbest.kept (hlast best hbest.mem) fun hbid hmore ↦ hloses ⟨hbid, hmore⟩, rfl⟩

namespace Grid

variable {σ : Type}

/-- Asks users for their bids, each one once and one after the other.  Gives the scorer after the last
one. -/
def ask (directory : Directory σ) (state : σ) (now : Float) (group : Nat) (scorer : Scorer) :
    List Nat → List Bid × Scorer
  | [] => ([], scorer)
  | user :: users =>
    let candidate := directory.candidate state user group now
    let (score, next) := scorer.score group user (directory.users state) now candidate.demand
    let (bids, last) := ask directory state now group next users
    ({ user, candidate, score } :: bids, last)

/-- Every user of the directory is asked, in the order of the numbers. -/
def askAll (directory : Directory σ) (state : σ) (now : Float) (group : Nat) (scorer : Scorer) :
    List Bid × Scorer :=
  ask directory state now group scorer (List.range (directory.users state))

theorem map_user_ask (directory : Directory σ) (state : σ) (now : Float) (group : Nat) (scorer : Scorer)
    (users : List Nat) : (ask directory state now group scorer users).1.map Bid.user = users := by
  induction users generalizing scorer with
  | nil => rfl
  | cons user users ih => rw [ask, List.map_cons, ih]

/-- A bid states the standing of its user. -/
theorem candidate_of_mem_ask {directory : Directory σ} {state : σ} {now : Float} {group : Nat}
    {scorer : Scorer} {users : List Nat} {bid : Bid}
    (hbid : bid ∈ (ask directory state now group scorer users).1) :
    bid.candidate = directory.candidate state bid.user group now := by
  induction users generalizing scorer with
  | nil => cases hbid
  | cons user users ih =>
    rw [ask] at hbid
    rcases List.mem_cons.1 hbid with rfl | hrest
    · rfl
    · exact ih hrest

end Grid

namespace Cell

/-- Only the choice of a cell changes when it considers a user. -/
theorem consider_eq (cell : Cell) (user : Nat) (candidate : Candidate) (score : Float) :
    cell.consider user candidate score =
      { cell with choice := (cell.consider user candidate score).choice } := by
  rw [consider]
  split <;> rfl

@[simp]
theorem group_consider (cell : Cell) (user : Nat) (candidate : Candidate) (score : Float) :
    (cell.consider user candidate score).group = cell.group := by
  rw [consider_eq]

/-- Considers the user of a bid. -/
def weigh (cell : Cell) (bid : Bid) : Cell := cell.consider bid.user bid.candidate bid.score

theorem foldl_weigh_eq (cell : Cell) (bids : List Bid) :
    bids.foldl weigh cell = { cell with choice := (bids.foldl weigh cell).choice } := by
  induction bids generalizing cell with
  | nil => rfl
  | cons bid bids ih => rw [List.foldl_cons, ih, weigh, consider_eq]

theorem chosen_foldl_weigh {cell : Cell} {earlier bids : List Bid} (h : Chosen earlier cell.choice)
    (hascending : ((earlier ++ bids).map Bid.user).Pairwise (· < ·)) :
    Chosen (earlier ++ bids) (bids.foldl weigh cell).choice := by
  induction bids generalizing cell earlier with
  | nil => rwa [List.append_nil, List.foldl_nil]
  | cons bid bids ih =>
    rw [List.append_cons] at hascending ⊢
    refine ih (h.consider fun other hother ↦ ?_) hascending
    rw [List.map_append, List.map_append, List.pairwise_append, List.pairwise_append] at hascending
    exact hascending.1.2.2 other.user (List.mem_map_of_mem hother) bid.user (List.mem_map_of_mem (by simp))

variable {σ : Type} (directory : Directory σ) (state : σ) (now : Float)

/-- To question users one by one is to weigh the bids that they are asked for. -/
theorem foldl_question (cell : Cell) (scorer : Scorer) (users : List Nat) :
    users.foldl (fun (cell, scorer) user ↦ question directory state now cell scorer user) (cell, scorer) =
      ((Grid.ask directory state now cell.group scorer users).1.foldl weigh cell,
        (Grid.ask directory state now cell.group scorer users).2) := by
  induction users generalizing cell scorer with
  | nil => rfl
  | cons user users ih =>
    have hgroup : (question directory state now cell scorer user).1.group = cell.group :=
      group_consider cell user _ _
    have hfold := ih (question directory state now cell scorer user).1
      (question directory state now cell scorer user).2
    rw [hgroup] at hfold
    exact hfold

/-- A vacant cell with symbols chooses from the bids of all users. -/
theorem estimate_vacant {symbols : Nat} (hsymbols : symbols ≠ 0) {cell : Cell}
    (hvacant : cell.choice = none) (scorer : Scorer) :
    ∃ choice, Chosen (Grid.askAll directory state now cell.group scorer).1 choice ∧
      cell.estimate directory state now symbols scorer =
        ({ cell with choice }, (Grid.askAll directory state now cell.group scorer).2) := by
  have hchosen : Chosen [] cell.choice := by
    rw [hvacant]
    exact fun bid hbid ↦ by cases hbid
  have hascending : (([] ++ (Grid.askAll directory state now cell.group scorer).1).map Bid.user).Pairwise
      (· < ·) := by
    rw [List.nil_append, Grid.askAll, Grid.map_user_ask]
    exact List.pairwise_lt_range
  refine ⟨_, chosen_foldl_weigh hchosen hascending, ?_⟩
  rw [estimate, if_neg hsymbols, foldl_question, ← Grid.askAll, ← foldl_weigh_eq]

end Cell

/-! ## Serving -/

namespace Grid

variable {σ : Type}

/-- A visit to a cell and the bids that it drew. -/
structure Serving where
  visit : Visit
  bids : List Bid

/-- What may come of a visit to a cell of a grid for one direction, between what the pass carried before and
what it carries afterwards.  A cell without symbols asks nobody. A cell with symbols asks all users once
and serves the best bid, if any bid competes. -/
inductive Serves (directory : Directory σ) (now : Float) (direction : Direction) :
    Progress σ → Serving → Progress σ → Prop
  /-- There are no symbols to grant. -/
  | silent (row group : Nat) (progress : Progress σ) :
      Serves directory now direction progress
        { visit := { row, group, symbols := 0, delivery := none }, bids := [] } progress
  /-- No user competes. -/
  | idle (row : Nat) {group symbols : Nat} {progress : Progress σ} {bids : List Bid} {scorer : Scorer} :
      0 < symbols → askAll directory progress.state now group progress.scorer = (bids, scorer) →
      (∀ bid ∈ bids, bid.competes = false) →
      Serves directory now direction progress
        { visit := { row, group, symbols, delivery := none }, bids } { progress with scorer }
  /-- The best bid is served. -/
  | granted (row : Nat) {group symbols : Nat} {progress : Progress σ} {bids : List Bid} {scorer : Scorer}
      {bid : Bid} {grant : Grant} {delivered : Float} {after : σ} :
      0 < symbols → askAll directory progress.state now group progress.scorer = (bids, scorer) →
      bid.IsBest bids →
      grant = { user := bid.user, direction, group
                bits := bid.candidate.bitsPerSymbol * Float.ofNat symbols } →
      directory.deliver progress.state grant = .ok (delivered, after) →
      Serves directory now direction progress
        { visit := { row, group, symbols, delivery := some { grant, delivered } }, bids }
        { scorer, state := after }

/-- Visits one after the other, each beginning with what the one before it left. -/
inductive ServesAll (directory : Directory σ) (now : Float) (direction : Direction) :
    Progress σ → List Serving → Progress σ → Prop
  | nil (progress : Progress σ) : ServesAll directory now direction progress [] progress
  | cons {progress middle last : Progress σ} {serving : Serving} {servings : List Serving} :
      Serves directory now direction progress serving middle →
      ServesAll directory now direction middle servings last →
      ServesAll directory now direction progress (serving :: servings) last

theorem ServesAll.append {directory : Directory σ} {now : Float} {direction : Direction}
    {progress middle last : Progress σ} {servings further : List Serving}
    (h : ServesAll directory now direction progress servings middle)
    (hfurther : ServesAll directory now direction middle further last) :
    ServesAll directory now direction progress (servings ++ further) last := by
  induction h with
  | nil => exact hfurther
  | cons hserves _ ih => exact .cons hserves (ih hfurther)

/-- The bids of a visit are those of all users, or there are none because there are no symbols. -/
theorem ServesAll.bids_eq {directory : Directory σ} {now : Float} {direction : Direction}
    {progress last : Progress σ} {servings : List Serving}
    (h : ServesAll directory now direction progress servings last) {serving : Serving}
    (hserving : serving ∈ servings) : (serving.visit.symbols = 0 ∧ serving.bids = []) ∨
      ∃ reached scorer, serving.bids = (askAll directory reached now serving.visit.group scorer).1 := by
  induction h with
  | nil => cases hserving
  | cons hserves _ ih =>
    rcases List.mem_cons.1 hserving with rfl | hrest
    · cases hserves with
      | silent => exact .inl ⟨rfl, rfl⟩
      | idle _ _ hask _ => exact .inr ⟨_, _, (congrArg Prod.fst hask).symm⟩
      | granted _ _ hask _ _ _ => exact .inr ⟨_, _, (congrArg Prod.fst hask).symm⟩
    · exact ih hrest

/-! ### One cell -/

variable {directory : Directory σ} {now : Float} {symbols : Nat} {progress next : Progress σ}

/-- Where in the grid a visit was, and with how many symbols. -/
def placeOf (visit : Visit) : Nat × Nat × Nat := (visit.row, visit.group, visit.symbols)

theorem grant?_of_competes (cell : Cell) {bid : Bid} (hcompetes : bid.competes = true)
    (hsymbols : symbols ≠ 0) : { cell with choice := some bid.choice }.grant? symbols =
      some { user := bid.user, direction := cell.direction, group := cell.group
             bits := bid.candidate.bitsPerSymbol * Float.ofNat symbols } := by
  have hbits := ((Bid.competes_iff bid).1 hcompetes).2.1
  rw [Cell.grant?]
  exact if_neg (by simp [Bid.choice, hbits, hsymbols])

/-- A visit to a vacant cell leaves it vacant. -/
theorem serves_of_visit {cell emptied : Cell} {visited : Visit} (hvacant : cell.choice = none)
    (hvisit : visit directory now symbols progress cell = .ok (visited, emptied, next)) :
    emptied = cell ∧ placeOf visited = (cell.row, cell.group, symbols) ∧
      ∃ bids, Serves directory now cell.direction progress { visit := visited, bids } next := by
  obtain ⟨row, group, direction, _⟩ := cell
  cases hvacant
  by_cases hsymbols : symbols = 0
  · subst hsymbols
    cases hvisit
    exact ⟨rfl, rfl, [], .silent row group progress⟩
  · have hempty : ({ row, group, direction, choice := none } : Cell).choice = none := rfl
    obtain ⟨choice, hchosen, hestimate⟩ :=
      Cell.estimate_vacant directory progress.state now hsymbols hempty progress.scorer
    have hpositive : 0 < symbols := Nat.pos_of_ne_zero hsymbols
    simp only [visit, hestimate, bind_eq_ok_iff, pure_eq_ok_iff] at hvisit
    obtain ⟨⟨delivery, _, after⟩, hout, heq⟩ := hvisit
    cases heq
    cases choice with
    | none =>
      cases hout
      exact ⟨rfl, rfl, _, .idle row hpositive rfl hchosen⟩
    | some choice =>
      obtain ⟨bid, hbest, rfl⟩ := hchosen
      have hgrant := grant?_of_competes { row, group, direction, choice := none } hbest.competes hsymbols
      rw [Cell.handOut, hgrant] at hout
      simp only [bind_eq_ok_iff, pure_eq_ok_iff] at hout
      obtain ⟨⟨delivered, _⟩, hdeliver, heq⟩ := hout
      cases heq
      exact ⟨rfl, rfl, _, .granted row hpositive rfl hbest rfl hdeliver⟩

theorem exists_fault_of_visit {cell : Cell} {fault : Fault}
    (hvisit : visit directory now symbols progress cell = .error fault) :
    ∃ reached grant, directory.deliver reached grant = .error fault := by
  simp only [visit, bind_eq_error_iff, pure_ne_error, and_false, exists_false, or_false] at hvisit
  rw [Cell.handOut] at hvisit
  split at hvisit
  · cases hvisit
  · simp only [bind_eq_error_iff, pure_ne_error, and_false, exists_false, or_false] at hvisit
    exact ⟨_, _, hvisit⟩

/-! ### One row -/

/-- The vacant cells of a row. -/
def vacantRow (layout : GridLayout) (row : Nat) : List Cell :=
  (List.range layout.groups).map fun group ↦ .vacant row group layout.direction

theorem serves_of_passRow {direction : Direction} {cells emptied : List Cell} {visits : List Visit}
    (hvacant : ∀ cell ∈ cells, cell.choice = none ∧ cell.direction = direction)
    (hpass : passRow directory now symbols progress cells = .ok (visits, emptied, next)) :
    emptied = cells ∧ visits.map placeOf = cells.map (fun cell ↦ (cell.row, cell.group, symbols)) ∧
      ∃ servings, servings.map Serving.visit = visits ∧
        ServesAll directory now direction progress servings next := by
  induction cells generalizing progress emptied visits with
  | nil =>
    cases hpass
    exact ⟨rfl, rfl, [], rfl, .nil _⟩
  | cons cell cells ih =>
    simp only [passRow, bind_eq_ok_iff, pure_eq_ok_iff] at hpass
    obtain ⟨⟨visited, _, middle⟩, hvisit, ⟨further, _, _⟩, hrest, heq⟩ := hpass
    cases heq
    obtain ⟨hnone, rfl⟩ := hvacant cell List.mem_cons_self
    obtain ⟨rfl, hplace, bids, hserves⟩ := serves_of_visit hnone hvisit
    obtain ⟨rfl, hplaces, servings, rfl, hall⟩ :=
      ih (fun other hother ↦ hvacant other (List.mem_cons_of_mem _ hother)) hrest
    refine ⟨rfl, ?_, _, rfl, .cons hserves hall⟩
    rw [List.map_cons, List.map_cons, hplace, hplaces]

theorem exists_fault_of_passRow {cells : List Cell} {fault : Fault}
    (hpass : passRow directory now symbols progress cells = .error fault) :
    ∃ reached grant, directory.deliver reached grant = .error fault := by
  induction cells generalizing progress with
  | nil => cases hpass
  | cons cell cells ih =>
    simp only [passRow, bind_eq_error_iff, pure_ne_error, and_false, exists_false, or_false] at hpass
    obtain hvisit | ⟨_, -, hrest⟩ := hpass
    · exact exists_fault_of_visit hvisit
    · exact ih hrest

/-! ### All rows -/

/-- The cycle after some rows. -/
def cycleAfter (symbolsPerRow : Nat) (cycle : Option SymbolCycle) (rows : Nat) : Option SymbolCycle :=
  (fun cycle ↦ (takeSymbols symbolsPerRow cycle).2)^[rows] cycle

/-- The symbols of a row, where the rows before it have taken theirs from the cycle. -/
def symbolsOfRow (symbolsPerRow : Nat) (cycle : Option SymbolCycle) (row : Nat) : Nat :=
  (takeSymbols symbolsPerRow (cycleAfter symbolsPerRow cycle row)).1

/-- The cells of some rows with the symbols of their rows. -/
def placesFrom (layout : GridLayout) (cycle : Option SymbolCycle) (first rows : Nat) :
    List (Nat × Nat × Nat) :=
  (List.range' first rows).flatMap fun row ↦
    (List.range layout.groups).map fun group ↦
      (row, group, symbolsOfRow layout.symbolsPerRow cycle row)

/-- The cells that the next pass visits, in order, with their symbols. -/
def itinerary (grid : Grid) : List (Nat × Nat × Nat) :=
  placesFrom grid.layout grid.cycle 0 grid.layout.rows

theorem vacantRows_eq (layout : GridLayout) :
    vacantRows layout = (List.range' 0 layout.rows).map (vacantRow layout) := by
  rw [← List.range_eq_range']
  rfl

theorem takeSymbols_cycleAfter (symbolsPerRow : Nat) (cycle : Option SymbolCycle) (row : Nat) :
    takeSymbols symbolsPerRow (cycleAfter symbolsPerRow cycle row) =
      (symbolsOfRow symbolsPerRow cycle row, cycleAfter symbolsPerRow cycle (row + 1)) := by
  have hnext : cycleAfter symbolsPerRow cycle (row + 1) =
      (takeSymbols symbolsPerRow (cycleAfter symbolsPerRow cycle row)).2 :=
    Function.iterate_succ_apply' _ row cycle
  rw [hnext]
  rfl

theorem serves_of_passRows (cycle : Option SymbolCycle) (first : Nat) {layout : GridLayout}
    {advanced : Option SymbolCycle} {rows : Nat} {emptied : List (List Cell)} {visits : List Visit}
    (hpass : passRows directory now layout.symbolsPerRow (cycleAfter layout.symbolsPerRow cycle first)
      progress ((List.range' first rows).map (vacantRow layout)) =
        .ok (visits, emptied, advanced, next)) :
    emptied = (List.range' first rows).map (vacantRow layout) ∧
      visits.map placeOf = placesFrom layout cycle first rows ∧
      ∃ servings, servings.map Serving.visit = visits ∧
        ServesAll directory now layout.direction progress servings next := by
  induction rows generalizing first progress emptied visits with
  | zero =>
    cases hpass
    exact ⟨rfl, rfl, [], rfl, .nil _⟩
  | succ rows ih =>
    have hvacant : ∀ cell ∈ vacantRow layout first,
        cell.choice = none ∧ cell.direction = layout.direction := by
      intro cell hcell
      obtain ⟨group, -, rfl⟩ := List.mem_map.1 hcell
      exact ⟨rfl, rfl⟩
    simp only [List.range'_succ, List.map_cons, passRows, takeSymbols_cycleAfter, bind_eq_ok_iff,
      pure_eq_ok_iff] at hpass
    obtain ⟨⟨visited, _, middle⟩, hrow, ⟨further, _, _, _⟩, hrest, heq⟩ := hpass
    cases heq
    obtain ⟨rfl, hplaces, served, rfl, hserved⟩ := serves_of_passRow hvacant hrow
    obtain ⟨rfl, hfurther, servings, rfl, hall⟩ := ih (first + 1) hrest
    refine ⟨by rw [List.range'_succ, List.map_cons], ?_, _, List.map_append, hserved.append hall⟩
    rw [List.map_append, hplaces, hfurther, placesFrom, placesFrom, List.range'_succ, List.flatMap_cons,
      vacantRow, List.map_map]
    rfl

theorem exists_fault_of_passRows {symbolsPerRow : Nat} {cycle : Option SymbolCycle}
    {rows : List (List Cell)} {fault : Fault}
    (hpass : passRows directory now symbolsPerRow cycle progress rows = .error fault) :
    ∃ reached grant, directory.deliver reached grant = .error fault := by
  induction rows generalizing progress cycle with
  | nil => cases hpass
  | cons row rows ih =>
    simp only [passRows, bind_eq_error_iff, pure_ne_error, and_false, exists_false, or_false] at hpass
    obtain hrow | ⟨_, -, hrest⟩ := hpass
    · exact exists_fault_of_passRow hrow
    · exact ih hrest

/-! ### The grid -/

/-- Passes over a grid, with any directories, and what they served on the way. -/
inductive Run (start : Grid) : List Serving → Grid → Prop
  | start : Run start [] start
  | pass {τ : Type} {directory : Directory τ} {now : Float} {state after : τ} {grid passed : Grid}
      {served further : List Serving} : Run start served grid →
      grid.pass directory now state = .ok (further.map Serving.visit, passed, after) →
      ServesAll directory now grid.layout.direction { scorer := grid.scorer.beginPass, state } further
        { scorer := passed.scorer, state := after } →
      Run start (served ++ further) passed

theorem serves_of_pass {grid passed : Grid} {visits : List Visit} {state after : σ}
    (hvacant : grid.rows = vacantRows grid.layout)
    (hpass : grid.pass directory now state = .ok (visits, passed, after)) :
    (passed.rows = vacantRows passed.layout ∧ passed.layout = grid.layout) ∧
      visits.map placeOf = grid.itinerary ∧
      ∃ servings, servings.map Serving.visit = visits ∧
        ServesAll directory now grid.layout.direction { scorer := grid.scorer.beginPass, state } servings
          { scorer := passed.scorer, state := after } := by
  simp only [Grid.pass, bind_eq_ok_iff, pure_eq_ok_iff] at hpass
  obtain ⟨⟨_, rows, cycle, progress⟩, hrows, heq⟩ := hpass
  cases heq
  rw [hvacant, vacantRows_eq] at hrows
  obtain ⟨rfl, hplaces, hserves⟩ := serves_of_passRows grid.cycle 0 hrows
  exact ⟨⟨(vacantRows_eq _).symm, rfl⟩, hplaces, hserves⟩

theorem Run.rows_eq {start grid : Grid} {served : List Serving} (h : Run start served grid)
    (hstart : start.rows = vacantRows start.layout) :
    grid.rows = vacantRows grid.layout ∧ grid.layout = start.layout := by
  induction h with
  | start => exact ⟨hstart, rfl⟩
  | pass _ hpass _ ih =>
    obtain ⟨⟨hrows, hlayout⟩, -⟩ := serves_of_pass ih.1 hpass
    exact ⟨hrows, hlayout.trans ih.2⟩

/-- Every further pass continues a run. -/
theorem Run.extend {start grid passed : Grid} {served : List Serving} {state after : σ}
    {visits : List Visit} (h : Run start served grid) (hstart : start.rows = vacantRows start.layout)
    (hpass : grid.pass directory now state = .ok (visits, passed, after)) :
    ∃ servings, servings.map Serving.visit = visits ∧
      ServesAll directory now grid.layout.direction { scorer := grid.scorer.beginPass, state } servings
        { scorer := passed.scorer, state := after } ∧
      Run start (served ++ servings) passed := by
  obtain ⟨-, -, servings, rfl, hserves⟩ := serves_of_pass (h.rows_eq hstart).1 hpass
  exact ⟨servings, rfl, hserves, .pass h hpass hserves⟩

/-- **Each grant goes to the best bid.**  A pass over a grid that any passes have left visits all cells in
their order.  Each visit finds the users as the grants before it have left them.  Where a cell has symbols,
it asks every user once, and it serves the best bid if any bid competes; where it has none, it neither asks
nor serves.  Afterwards no cell holds a choice, and the pass continues the run of those before it.  It has no
other fault than that of a delivery. -/
theorem every_grant_to_the_best_bid {layout : GridLayout} {cycle : Option SymbolCycle}
    {served : List Serving} {grid : Grid} (hrun : Run (.ofLayout layout cycle) served grid)
    (directory : Directory σ) (now : Float) (state : σ) :
    (∀ visits passed after, grid.pass directory now state = .ok (visits, passed, after) →
      visits.map placeOf = grid.itinerary ∧
      (∃ servings, servings.map Serving.visit = visits ∧
        ServesAll directory now grid.layout.direction { scorer := grid.scorer.beginPass, state } servings
          { scorer := passed.scorer, state := after } ∧
        Run (.ofLayout layout cycle) (served ++ servings) passed) ∧
      ∀ row ∈ passed.rows, ∀ cell ∈ row, cell.choice = none) ∧
    ∀ fault, grid.pass directory now state = .error fault →
      ∃ reached grant, directory.deliver reached grant = .error fault := by
  have hvacant := (hrun.rows_eq rfl).1
  refine ⟨fun visits passed after hpass ↦ ?_, fun fault hpass ↦ ?_⟩
  · obtain ⟨⟨hrows, -⟩, hplaces, -⟩ := serves_of_pass hvacant hpass
    refine ⟨hplaces, hrun.extend rfl hpass, fun row hrow cell hcell ↦ ?_⟩
    rw [hrows, vacantRows, List.mem_map] at hrow
    obtain ⟨_, -, rfl⟩ := hrow
    obtain ⟨_, -, rfl⟩ := List.mem_map.1 hcell
    rfl
  · simp only [Grid.pass, bind_eq_error_iff, pure_ne_error, and_false, exists_false, or_false] at hpass
    exact exists_fault_of_passRows hpass

/-- Two users with equal demands, of whom the first one has data for so many grants as the state says. -/
def pair : Directory Nat where
  users _ := 2
  candidate state user _ _ :=
    { hasData := user = 1 || 0 < state, bitsPerSymbol := 1.0
      demand := { since := 0.0, average := 0.0, achievable := 1.0, delay := 0.0, weights := .standard } }
  deliver state grant := .ok (grant.bits, state - 1)

/-- Two cells in one row. -/
def twoCells (metric : Metric) : GridLayout :=
  { direction := .downlink, numerology := 0, layers := 1, rowSpan := .subframe, duplexing := .frequency
    metric, blocks := 2, groupSize := 1, groups := 2, rows := 1, symbolsPerRow := 14, elements := 336 }

/-- Two users score the same.  The first one wins the first cell, has no data afterwards, and leaves the
second cell to the second one. -/
theorem every_grant_to_the_best_bid_of_two : ∃ outcome,
    pass (.ofLayout (twoCells .maxThroughput) none) pair 0.0 1 = .ok outcome ∧
      (outcome.1.map fun visit ↦ visit.delivery.map (·.grant.user)) = [some 0, some 1] ∧
      ∃ servings, servings.map Serving.visit = outcome.1 ∧
        ServesAll pair 0.0 .downlink { scorer := .ofMetric .maxThroughput, state := 1 } servings
          { scorer := outcome.2.1.scorer, state := outcome.2.2 } := by
  refine exists_ok_of_any
    (fun outcome ↦ (outcome.1.map fun visit ↦ visit.delivery.map (·.grant.user)) == [some 0, some 1])
    (by decide +kernel) fun outcome hpass husers ↦ ⟨beq_iff_eq.1 husers, ?_⟩
  have hstart : Run (.ofLayout (twoCells .maxThroughput) none) [] (.ofLayout (twoCells .maxThroughput) none) :=
    .start
  have hbest := every_grant_to_the_best_bid hstart pair 0.0 1
  obtain ⟨-, ⟨servings, hvisits, hserves, -⟩, -⟩ := hbest.1 outcome.1 outcome.2.1 outcome.2.2 hpass
  exact ⟨servings, hvisits, hserves⟩

end Grid

end RadioAccess
