import RadioAccess.Grid.Cell
import RadioAccess.Grid.Layout

/-!
# Scheduling Passes

Once in every interval the grid of a direction is passed over: row after row, and in each row cell after
cell, a cell chooses a user and hands out its grant before the next cell is asked.  So each cell sees
what the grants before it left.  How many symbols a row has is read from the symbol cycle once for each
row; without a cycle all symbols of a row serve the direction.

A pass leaves a record of every cell it visited.  Its report is read off that record.
-/

namespace RadioAccess

structure Grid where
  layout : GridLayout
  /-- The cells, row by row. -/
  rows : List (List Cell)
  scorer : Scorer
  cycle : Option SymbolCycle

/-- A cell as a pass has left it. -/
structure Visit where
  row : Nat
  group : Nat
  symbols : Nat
  delivery : Option Delivery

/-- What a pass amounts to. -/
structure PassReport where
  /-- Bits that were granted. -/
  granted : Float
  /-- Bits that were transmitted. -/
  delivered : Float
  /-- Cells that handed out a grant. -/
  grants : Nat
  /-- Cells that did not. -/
  idle : Nat

namespace PassReport

def empty : PassReport := { granted := 0.0, delivered := 0.0, grants := 0, idle := 0 }

def add (report : PassReport) (visit : Visit) : PassReport :=
  match visit.delivery with
  | some delivery =>
    { report with
      granted := report.granted + delivery.grant.bits
      delivered := report.delivered + delivery.delivered
      grants := report.grants + 1 }
  | none => { report with idle := report.idle + 1 }

def ofVisits (visits : List Visit) : PassReport := visits.foldl add empty

end PassReport

namespace Grid

/-! ## Setting up -/

def vacantRows (layout : GridLayout) : List (List Cell) :=
  (List.range layout.rows).map fun row ↦
    (List.range layout.groups).map fun group ↦ .vacant row group layout.direction

/-- A grid over which no pass was made. -/
def ofLayout (layout : GridLayout) (cycle : Option SymbolCycle) : Grid :=
  { layout, rows := vacantRows layout, scorer := .ofMetric layout.metric, cycle }

/-- Sets up a grid.  Gives the notices on the way. -/
def setUp (direction : Direction) (config : GridConfig) :
    List Notice × Except Fault (Except GridError Grid) :=
  let replaced := config.replacements
  match GridLayout.ofConfig direction config with
  | .error fault => (replaced, .error fault)
  | .ok (.error reason) => (replaced, .ok (.error reason))
  | .ok (.ok layout) =>
    match layout.duplexing with
    | .frequency => (replaced ++ [layout.notice], .ok (.ok (ofLayout layout none)))
    | .time =>
      let replaced := replaced ++ GridConfig.transitionReplacement config.pattern
      match SymbolCycle.start config.pattern direction with
      | .error fault => (replaced, .error fault)
      | .ok cycle => (replaced ++ [layout.notice], .ok (.ok (ofLayout layout (some cycle))))

/-! ## Passing -/

/-- What a pass carries from cell to cell: the turn of the rotation and the state behind the
directory. -/
structure Progress (σ : Type) where
  scorer : Scorer
  state : σ

variable {σ : Type}

def visit (directory : Directory σ) (now : Float) (symbols : Nat) (progress : Progress σ)
    (cell : Cell) : Except Fault (Visit × Cell × Progress σ) := do
  let (cell, scorer) := cell.estimate directory progress.state now symbols progress.scorer
  let (delivery, cell, state) ← cell.handOut directory progress.state symbols
  return ({ row := cell.row, group := cell.group, symbols, delivery }, cell, { scorer, state })

def passRow (directory : Directory σ) (now : Float) (symbols : Nat) (progress : Progress σ) :
    List Cell → Except Fault (List Visit × List Cell × Progress σ)
  | [] => .ok ([], [], progress)
  | cell :: cells => do
    let (visited, cell, progress) ← visit directory now symbols progress cell
    let (visits, cells, progress) ← passRow directory now symbols progress cells
    return (visited :: visits, cell :: cells, progress)

/-- The symbols of the next row, and the cycle after it. -/
def takeSymbols (symbolsPerRow : Nat) : Option SymbolCycle → Nat × Option SymbolCycle
  | none => (symbolsPerRow, none)
  | some cycle => ((cycle.take symbolsPerRow).1, some (cycle.take symbolsPerRow).2)

def passRows (directory : Directory σ) (now : Float) (symbolsPerRow : Nat)
    (cycle : Option SymbolCycle) (progress : Progress σ) :
    List (List Cell) →
      Except Fault (List Visit × List (List Cell) × Option SymbolCycle × Progress σ)
  | [] => .ok ([], [], cycle, progress)
  | row :: rows => do
    let (symbols, cycle) := takeSymbols symbolsPerRow cycle
    let (visits, row, progress) ← passRow directory now symbols progress row
    let (further, rows, cycle, progress) ←
      passRows directory now symbolsPerRow cycle progress rows
    return (visits ++ further, row :: rows, cycle, progress)

/-- Passes over the grid once.  Gives the visits in their order. -/
def pass (grid : Grid) (directory : Directory σ) (now : Float) (state : σ) :
    Except Fault (List Visit × Grid × σ) := do
  let (visits, rows, cycle, progress) ←
    passRows directory now grid.layout.symbolsPerRow grid.cycle
      { scorer := grid.scorer.beginPass, state } grid.rows
  return (visits, { grid with rows, cycle, scorer := progress.scorer }, progress.state)

end Grid

end RadioAccess
