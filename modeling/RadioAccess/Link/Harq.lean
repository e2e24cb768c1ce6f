import RadioAccess.Link.ErrorRate
import RadioAccess.Ring
import RadioAccess.TransportBlock

/-!
# Hybrid Automatic Repeat Request

A block whose transmission failed waits until the negative acknowledgement is due and is then
transmitted again, up to a number of repetitions.  The acknowledgement takes the way to the user and
back at the speed of light, the acknowledgement period and the processing time, the last two each
with a uniform jitter if one is configured.

Waiting blocks are kept in the order of their due times; of equal ones the first scheduled leaves
first (`items_insertByDue`).  A block that is scheduled while the time is no number is never due.  It
goes to the front, holds up the others, and leaves the queue without an order, so that the place of
what comes later is the one at which a bisection of the ring ends.

What becomes of a block that may not be repeated again is decided by the caller.
-/

namespace RadioAccess

def speedOfLight : Float := 299792458.0

/-- The shortest time until an acknowledgement is due. -/
def leastAckDelay : Float := 1e-9

/-- Timing of acknowledgements, in seconds, and the bound on repetitions. -/
structure HarqConfig where
  maxRetransmissions : UInt32
  ackPeriod : Float
  ackSpread : Float
  processing : Float
  processingSpread : Float
deriving BEq

/-- Four repetitions, each five milliseconds after the last attempt. -/
def HarqConfig.standard : HarqConfig :=
  { maxRetransmissions := 4, ackPeriod := 0.004, ackSpread := 0.0, processing := 0.001,
    processingSpread := 0.0 }

/-- What becomes of a block after a failed attempt. -/
inductive Repetition where
  | scheduled
  /-- The block was repeated as often as it may. -/
  | exhausted (block : TransportBlock)

/-- The blocks of a link that wait for their repetition. -/
structure Harq where
  config : HarqConfig
  profile : LinkProfile
  model : ErrorModel
  stream : Random
  /-- Waiting blocks, the earliest due first. -/
  queue : Ring TransportBlock
  /-- Bits of all scheduled repetitions. -/
  retransmittedBits : UInt64
  now : Float

namespace Harq

def idle (config : HarqConfig) (profile : LinkProfile) (model : ErrorModel) (stream : Random) :
    Harq :=
  { config, profile, model, stream, queue := .empty, retransmittedBits := 0, now := 0.0 }

def step (harq : Harq) (now : Float) : Harq := { harq with now }

def attemptFails (harq : Harq) (mcs : UInt8) (sinr : Float) (attempt : UInt32) :
    Except Fault (Bool × Harq) := do
  let probability ← harq.model.failureProbability harq.profile mcs sinr attempt
  let (u, stream) := harq.stream.uniform
  return (u < probability, { harq with stream })

/-! ## Scheduling -/

/-- Adds a jitter of half-width `spread`, drawn only if there is a spread. -/
def jittered (time spread : Float) (stream : Random) : Float × Random :=
  if spread != 0.0 then
    let (u, stream) := stream.symmetric
    (time + spread * u, stream)
  else (time, stream)

/-- The time until the acknowledgement of a transmission over `distance` metres is due. -/
def ackDelay (config : HarqConfig) (distance : Float) (stream : Random) : Float × Random :=
  let flight := 2.0 * distance / speedOfLight
  let (time, stream) := jittered (flight + config.ackPeriod) config.ackSpread stream
  let (time, stream) := jittered (time + config.processing) config.processingSpread stream
  (Real64.larger time leastAckDelay, stream)

/-- Inserts a block behind those that are due no later. -/
def insertByDue (block : TransportBlock) (queue : Ring TransportBlock) : Ring TransportBlock :=
  queue.insert (queue.changePoint fun queued ↦ queued.dueAt <= block.dueAt) block

def schedule (harq : Harq) (block : TransportBlock) (distance : Float) : Except Fault Harq := do
  let retransmittedBits ← Word.add64 harq.retransmittedBits block.bits
  let (delay, stream) := ackDelay harq.config distance harq.stream
  let block := { block with distance, dueAt := harq.now + delay }
  return { harq with retransmittedBits, stream, queue := insertByDue block harq.queue }

def firstFailed (harq : Harq) (block : TransportBlock) : Except Fault (Repetition × Harq) :=
  if harq.config.maxRetransmissions = 0 then .ok (.exhausted block, harq)
  else do return (.scheduled, ← harq.schedule block block.distance)

def repetitionFailed (harq : Harq) (block : TransportBlock) (distance : Float) :
    Except Fault (Repetition × Harq) := do
  let block ← block.repeated
  if block.retransmissions ≥ harq.config.maxRetransmissions then return (.exhausted block, harq)
  else return (.scheduled, ← harq.schedule block distance)

/-! ## Readings -/

def isReady (harq : Harq) : Bool :=
  harq.queue.head?.any fun block ↦ block.dueAt <= harq.now

/-- Removes the block in front if it is due. -/
def takeReady? (harq : Harq) : Option TransportBlock × Harq :=
  match harq.queue.dequeue? with
  | none => (none, harq)
  | some (block, queue) =>
    if block.dueAt <= harq.now then (some block, { harq with queue }) else (none, harq)

/-- When the block in front was created, or the current time if none waits. -/
def oldestTimestamp (harq : Harq) : Float :=
  match harq.queue.head? with
  | none => harq.now
  | some block => block.createdAt

def retransmittedMegabits (harq : Harq) : Float := harq.retransmittedBits.toFloat * 1e-6

/-! ## The order of the queue -/

/-- If the blocks due no later stand in front of the others, the block goes between the two. -/
theorem items_insertByDue {block : TransportBlock} {queue : Ring TransportBlock}
    {front back : List TransportBlock} (hitems : queue.items = front ++ back)
    (hfront : ∀ queued ∈ front, queued.dueAt <= block.dueAt)
    (hback : ∀ queued ∈ back, ¬ queued.dueAt <= block.dueAt) :
    (insertByDue block queue).items = front ++ block :: back := by
  rw [insertByDue, Ring.items_insert,
    Ring.changePoint_eq hitems (fun a ha ↦ decide_eq_true (hfront a ha))
      (fun a ha ↦ decide_eq_false (hback a ha)), hitems]
  clear hitems hfront hback
  induction front with
  | nil => simp
  | cons a front ih => simpa [List.insertIdx_succ_cons] using ih

end Harq

end RadioAccess
