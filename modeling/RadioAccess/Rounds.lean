import RadioAccess.Fault

/-!
# Rounds of Jobs

Work is done in rounds: a list of jobs that all have ended before the round is over.  A job changes a
state that all jobs share, and may end with a fault instead of its proper end.

Without workers the caller runs the jobs one after the other, and a fault ends the round.  With workers
every job is run whatever becomes of the others, and the faults are reported when the round is over.
Which worker runs which job, and when, is the business of `Pool`: jobs that run at the same time have to
be independent of each other, so here they run in the order of the list.
-/

namespace RadioAccess

/-- Bytes that a worker takes in the list of all workers. -/
def workerSize : Nat := 24

def takeOn (workers : Nat) : Except Fault Unit := makeRoom workers workerSize

structure RoundResult (σ : Type) where
  state : σ
  /-- The faults of jobs in the order in which the jobs ended. -/
  faults : List Fault

namespace RoundResult

variable {σ ι : Type}

def untilFault (execute : ι → σ → Option Fault × σ) : List ι → σ → RoundResult σ
  | [], state => { state, faults := [] }
  | job :: jobs, state =>
    match execute job state with
    | (none, state) => untilFault execute jobs state
    | (some fault, state) => { state, faults := [fault] }

def exhaustive (execute : ι → σ → Option Fault × σ) : List ι → σ → RoundResult σ
  | [], state => { state, faults := [] }
  | job :: jobs, state =>
    let (fault, state) := execute job state
    let result := exhaustive execute jobs state
    { result with faults := fault.toList ++ result.faults }

/-- A round with so many workers. -/
def ofRound (workers : Nat) (execute : ι → σ → Option Fault × σ) (jobs : List ι) (state : σ) :
    RoundResult σ :=
  if workers = 0 then untilFault execute jobs state else exhaustive execute jobs state

/-- The fault that the caller of a round sees. -/
def fault? (result : RoundResult σ) : Option Fault := result.faults.head?

end RoundResult

end RadioAccess
