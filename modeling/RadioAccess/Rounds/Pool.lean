import RadioAccess.Rounds

/-!
# A Pool of Workers

How a round comes about when there are workers.  The pool holds the jobs of the open round.  An idle
worker picks the next one, does it, and reports how it ended; the caller, which has opened the round,
waits until all its jobs have ended.  Each event is one access to the pool, which nobody else can
interrupt; between two accesses of a worker the others may have any number of theirs, which is how jobs
are done side by side.

Only which jobs are run, and when, is covered here.  What they do to a state is the business of
`RoundResult`.
-/

namespace RadioAccess

inductive PoolEvent (ι : Type) where
  /-- The caller opens a round. -/
  | opened (jobs : List ι)
  /-- A worker picks a job. -/
  | picked (worker : Nat)
  /-- A worker reports the end of its job. -/
  | finished (worker : Nat) (fault : Option Fault)
  /-- The caller is woken, for whatever reason, and looks whether the round is over. -/
  | woken

structure Pool (ι : Type) where
  /-- The jobs of the open round. -/
  jobs : List ι
  /-- The place of the job to be picked next. -/
  next : Nat
  /-- How many jobs of the round have not ended. -/
  remaining : Nat
  /-- The fault that was reported first. -/
  fault : Option Fault
  /-- The place of the job that each worker does, unless it is idle. -/
  workers : List (Option Nat)
  /-- Whether the caller waits for the end of a round. -/
  waiting : Bool

namespace Pool

variable {ι : Type}

def idle (workers : Nat) : Pool ι :=
  { jobs := [], next := 0, remaining := 0, fault := none, workers := List.replicate workers none
    waiting := false }

/-- The caller opens a round, unless it still waits for one.  A round without jobs is over at once. -/
def begin? (pool : Pool ι) (jobs : List ι) : Option (Pool ι) :=
  if pool.waiting then none
  else if jobs.isEmpty then some pool
  else some { pool with jobs, next := 0, remaining := jobs.length, waiting := true }

/-- A worker picks the next job, if it is idle and there is one. -/
def pick? (pool : Pool ι) (worker : Nat) : Option (Pool ι) :=
  match pool.workers[worker]? with
  | some none =>
    if pool.next < pool.jobs.length then
      some { pool with next := pool.next + 1, workers := pool.workers.set worker (some pool.next) }
    else none
  | _ => none

/-- A worker reports the end of the job that it does.  Only the first fault of a round is kept. -/
def finish? (pool : Pool ι) (worker : Nat) (fault : Option Fault) : Option (Pool ι) :=
  match pool.workers[worker]? with
  | some (some _) =>
    some { pool with
      remaining := pool.remaining - 1, fault := pool.fault.or fault
      workers := pool.workers.set worker none }
  | _ => none

/-- The caller looks whether its round is over, and goes on waiting if it is not.  At the end it takes
the fault with it. -/
def wake? (pool : Pool ι) : Option (Pool ι) :=
  if !pool.waiting then none
  else if 0 < pool.remaining then some pool
  else some { pool with jobs := [], fault := none, waiting := false }

/-- The pool after an event, if the event can happen. -/
def step? (pool : Pool ι) : PoolEvent ι → Option (Pool ι)
  | .opened jobs => pool.begin? jobs
  | .picked worker => pool.pick? worker
  | .finished worker fault => pool.finish? worker fault
  | .woken => pool.wake?

/-- What the caller of a round gets back when it is woken at its end: the fault that was reported first,
if there was one. -/
def returned? (pool : Pool ι) : Option (Option Fault) :=
  if pool.waiting && pool.remaining = 0 then some pool.fault else none

end Pool

end RadioAccess
