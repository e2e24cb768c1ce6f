import RadioAccess.Link.Reassembly
import RadioAccess.RunningMean
import RadioAccess.TransportBlock

/-!
# The Far End of a Link

Blocks that were understood travel on behind the radio link and leave when their delay is over, either
block by block or, after reassembly, packet by packet.  Only packets have a fate that can be reported;
a link that releases whole blocks forgets what it loses.

Released bits are a sample per interval, while the two delays are a sample per release that released
something.
-/

namespace RadioAccess

inductive EgressMode where
  | blocks
  | reassembly (strict : Bool)
deriving DecidableEq

/-- Packets in one unbroken stream. -/
def EgressMode.standard : EgressMode := .reassembly true

/-- A block on its way, and when it may leave. -/
structure DueBlock where
  releaseAt : Float
  block : TransportBlock

inductive Waiting where
  /-- Blocks in the order of their arrival. -/
  | blocks (blocks : Array DueBlock)
  | packets (assembly : Reassembly)

structure Egress where
  waiting : Waiting
  stream : Random
  now : Float
  /-- Released bits. -/
  throughput : RunningMean Float
  /-- Seconds from creation to release. -/
  delay : RunningMean Float
  /-- Seconds from ingress to release. -/
  ingressDelay : RunningMean Float

structure Departure where
  /-- Bits of whole packets, or of blocks. -/
  bits : UInt64
  settled : List Settled

/-- Sums over what one release lets go. -/
structure DepartureTally where
  bits : UInt64
  delay : Float
  ingressDelay : Float
  count : Nat

def DepartureTally.empty : DepartureTally :=
  { bits := 0, delay := 0.0, ingressDelay := 0.0, count := 0 }

def DepartureTally.add (tally : DepartureTally) (now : Float) (bits : UInt64)
    (createdAt ingressAt : Float) : Except Fault DepartureTally := do
  return { bits := ← Word.add64 tally.bits bits
           delay := tally.delay + (now - createdAt)
           ingressDelay := tally.ingressDelay + (now - ingressAt)
           count := tally.count + 1 }

namespace Egress

def empty (mode : EgressMode) (stream : Random) : Egress :=
  { waiting :=
      match mode with
      | .blocks => .blocks #[]
      | .reassembly strict => .packets (.empty strict)
    stream, now := 0.0, throughput := .empty, delay := .empty, ingressDelay := .empty }

def mode (egress : Egress) : EgressMode :=
  match egress.waiting with
  | .blocks _ => .blocks
  | .packets assembly => .reassembly assembly.strict

def step (egress : Egress) (now : Float) : Egress :=
  { egress with throughput := egress.throughput.step, now }

/-! ## Arrival -/

def arrive (egress : Egress) (block : TransportBlock) : Except Fault Egress := do
  let (releaseAt, stream) := block.backhaul.arrival block.dueAt egress.stream
  match egress.waiting with
  | .blocks blocks => return { egress with stream, waiting := .blocks (blocks.push { releaseAt, block }) }
  | .packets assembly =>
    let assembly ← block.packets.toList.foldlM (fun assembly packet ↦ assembly.arrive releaseAt packet)
      assembly
    return { egress with stream, waiting := .packets assembly }

/-- A packet or a part of one is lost. -/
def losePacket (egress : Egress) (packet : Packet) : Except Fault Egress :=
  match egress.waiting with
  | .blocks _ => .ok egress
  | .packets assembly => do return { egress with waiting := .packets (← assembly.lose packet) }

def loseBlock (egress : Egress) (block : TransportBlock) : Except Fault Egress :=
  block.packets.toList.foldlM losePacket egress

/-! ## Departure -/

/-- Lets go what may leave, without a record of it. -/
def letGo (now : Float) : Waiting → Except Fault (DepartureTally × List Settled × Waiting)
  | .blocks blocks => do
    let due := blocks.filter (·.releaseAt <= now)
    let tally ← due.foldlM (fun tally entry ↦
      tally.add now entry.block.bits entry.block.createdAt entry.block.oldestIngress) .empty
    return (tally, [], .blocks (blocks.filter fun entry ↦ !(entry.releaseAt <= now)))
  | .packets assembly => do
    let (settled, assembly) := assembly.depart now
    let delivered := settled.filter (·.fate = .delivered)
    let tally ← delivered.foldlM (fun tally entry ↦
      tally.add now entry.packet.length entry.packet.createdAt entry.packet.ingressAt) .empty
    return (tally, settled, .packets assembly)

def record (egress : Egress) (tally : DepartureTally) : Egress :=
  let egress := { egress with throughput := egress.throughput.add tally.bits.toFloat }
  if tally.count = 0 then egress
  else { egress with
    delay := (egress.delay.add (tally.delay / Float.ofNat tally.count)).step
    ingressDelay := (egress.ingressDelay.add (tally.ingressDelay / Float.ofNat tally.count)).step }

def release (egress : Egress) : Except Fault (Departure × Egress) := do
  let (tally, settled, waiting) ← letGo egress.now egress.waiting
  return ({ bits := tally.bits, settled }, { egress with waiting }.record tally)

/-! ## Readings -/

/-- Blocks or packets that wait. -/
def backlog (egress : Egress) : Nat :=
  match egress.waiting with
  | .blocks blocks => blocks.size
  | .packets assembly => assembly.length

/-- The number of the packet that was the last to leave, stale ones apart. -/
def cursor (egress : Egress) : Option UInt32 :=
  match egress.waiting with
  | .blocks _ => none
  | .packets assembly => assembly.cursor

/-- The mean of released bits per interval since the start. -/
def averageBits (egress : Egress) : Float := egress.throughput.total

def throughputRate (egress : Egress) (window : Window) : Float × Egress :=
  let (bits, throughput) := egress.throughput.read window
  (megabitsPerSecond bits, { egress with throughput })

def meanDelay (egress : Egress) (window : Window) : Float × Egress :=
  let (seconds, delay) := egress.delay.read window
  (seconds, { egress with delay })

def meanIngressDelay (egress : Egress) (window : Window) : Float × Egress :=
  let (seconds, ingressDelay) := egress.ingressDelay.read window
  (seconds, { egress with ingressDelay })

end Egress

end RadioAccess
