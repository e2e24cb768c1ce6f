import RadioAccess.Direction
import RadioAccess.Fault
import RadioAccess.Rotation

/-!
# Cells

A cell of the resource grid is one frequency group in one time row.  It asks every user what it demands
on the group, chooses the best one, and hands the chosen one a grant: a number of bits to transmit.

Users are known to the cell by a directory only: how many there are, what each demands, and what comes of
a grant.  The state behind the directory is arbitrary; a grant may change it, a question may not.
-/

namespace RadioAccess

/-- The standing of a user on a frequency group. -/
structure Candidate where
  /-- Whether something waits for a grant. -/
  hasData : Bool
  /-- Bits that a symbol on the group can carry. -/
  bitsPerSymbol : Float
  demand : Demand

structure Grant where
  user : Nat
  direction : Direction
  group : Nat
  bits : Float

/-- The users of a grid, as a state of type `σ` and what can be asked of it. -/
structure Directory (σ : Type) where
  users : σ → Nat
  /-- The standing of a user on a frequency group at a time. -/
  candidate : σ → Nat → Nat → Float → Candidate
  /-- Hands out a grant.  Gives the bits that were transmitted. -/
  deliver : σ → Grant → Except Fault (Float × σ)

structure Choice where
  user : Nat
  bitsPerSymbol : Float
  score : Float

/-- A grant and what was transmitted on it. -/
structure Delivery where
  grant : Grant
  delivered : Float

/-- One frequency group in one time row. -/
structure Cell where
  row : Nat
  group : Nat
  direction : Direction
  choice : Option Choice

namespace Cell

def vacant (row group : Nat) (direction : Direction) : Cell :=
  { row, group, direction, choice := none }

/-- Whether a user with this score may be chosen. -/
def competes (candidate : Candidate) (score : Float) : Bool :=
  candidate.hasData && !(candidate.bitsPerSymbol <= 0.0) && !score.isNaN

/-- Chooses a user if it competes and scores more than the one chosen so far. -/
def consider (cell : Cell) (user : Nat) (candidate : Candidate) (score : Float) : Cell :=
  if competes candidate score && cell.choice.all (score > ·.score) then
    { cell with choice := some { user, bitsPerSymbol := candidate.bitsPerSymbol, score } }
  else cell

variable {σ : Type}

/-- Scores one user and considers it. -/
def question (directory : Directory σ) (state : σ) (now : Float) (cell : Cell) (scorer : Scorer)
    (user : Nat) : Cell × Scorer :=
  let candidate := directory.candidate state user cell.group now
  let (score, scorer) := scorer.score cell.group user (directory.users state) now candidate.demand
  (cell.consider user candidate score, scorer)

/-- Chooses among all users, asked in the order of their numbers.  A cell without symbols asks
nobody. -/
def estimate (directory : Directory σ) (state : σ) (now : Float) (symbols : Nat) (cell : Cell)
    (scorer : Scorer) : Cell × Scorer :=
  if symbols = 0 then (cell, scorer)
  else (List.range (directory.users state)).foldl
    (fun (cell, scorer) user ↦ question directory state now cell scorer user) (cell, scorer)

def grant? (cell : Cell) (symbols : Nat) : Option Grant :=
  match cell.choice with
  | none => none
  | some choice =>
    if choice.bitsPerSymbol <= 0.0 || symbols = 0 then none
    else some { user := choice.user, direction := cell.direction, group := cell.group
                bits := choice.bitsPerSymbol * Float.ofNat symbols }

def vacate (cell : Cell) : Cell := { cell with choice := none }

/-- Hands the chosen user its grant, if there is one, and forgets it. -/
def handOut (directory : Directory σ) (state : σ) (symbols : Nat) (cell : Cell) :
    Except Fault (Option Delivery × Cell × σ) :=
  match cell.grant? symbols with
  | none => .ok (none, cell.vacate, state)
  | some grant => do
    let (delivered, state) ← directory.deliver state grant
    return (some { grant, delivered }, cell.vacate, state)

end Cell

end RadioAccess
