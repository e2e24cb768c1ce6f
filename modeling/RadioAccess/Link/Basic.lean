import RadioAccess.Direction
import RadioAccess.Link.Egress
import RadioAccess.Link.Harq
import RadioAccess.TransmitBuffer

/-!
# Links

A link carries the data of one user in one direction.  Data waits in a transmit buffer; a grant moves
some of it into a block and transmits the block; a block that was not understood waits for its
repetition, and one that was understood, or given up, goes to the far end.

There is one transmission process: while a repetition is due, a grant is spent on it whatever it is
worth, and no fresh block is made.
-/

namespace RadioAccess

structure LinkConfig where
  harq : HarqConfig
  /-- The delay behind the radio link. -/
  backhaul : Backhaul
  egress : EgressMode
  /-- Bits that may wait for a grant. -/
  capacity : UInt64
deriving BEq

/-- Packets in one stream, five milliseconds behind the radio link. -/
def LinkConfig.standard : LinkConfig :=
  { harq := .standard, backhaul := { mean := 0.005, spread := 0.001 }, egress := .standard
    capacity := standardCapacity }

structure LinkConditions where
  mcs : UInt8
  /-- Ratio of signal to interference and noise in decibels. -/
  sinr : Float
  /-- Distance in metres. -/
  distance : Float

/-- The statistics of a link: traffic in megabits per second, delays in seconds. -/
structure LinkStatistics where
  generated : Float
  lost : Float
  throughput : Float
  delay : Float
  ingressDelay : Float
  /-- Megabits of all repetitions. -/
  retransmitted : Float

structure Link where
  direction : Direction
  buffer : TransmitBuffer
  harq : Harq
  egress : Egress
  backhaul : Backhaul
  /-- Where captured packets come from and their verdicts go. -/
  bridge : Option Bridge
  nextBlock : UInt64
  now : Float

namespace Link

/-- A link that has carried nothing.  Its two random streams are seeded from `seed`. -/
def idle (direction : Direction) (config : LinkConfig) (profile : LinkProfile) (model : ErrorModel)
    (seed : UInt64) : Link :=
  { direction
    buffer := .empty config.capacity
    harq := .idle config.harq profile model (.ofSeed (Random.seedFor seed 0))
    egress := .empty config.egress (.ofSeed (Random.seedFor seed 1))
    backhaul := config.backhaul, bridge := none, nextBlock := 0, now := 0.0 }

def step (link : Link) (now : Float) : Link :=
  { link with
    now, buffer := link.buffer.step now, harq := link.harq.step now
    egress := link.egress.step now }

/-! ## Captured packets -/

/-- Attaches a fresh bridge.  Gives the bridge that it replaces, cut off from the link. -/
def attach (link : Link) : Except CaptureError (Option Bridge × Link) :=
  if link.egress.mode = .blocks then .error .blockRelease
  else .ok (link.bridge.map Bridge.dropLink, { link with bridge := some .fresh })

def packetOf (captured : CapturedPacket) (backhaul : Backhaul) : Packet :=
  .whole captured.number captured.predecessor (captured.bytes.toUInt64 * 8) captured.arrival backhaul

/-- Takes one captured packet, which is lost if it does not fit.  Gives whether it fits. -/
def ingestPacket (link : Link) (captured : CapturedPacket) : Except Fault (Bool × Link) := do
  let packet := packetOf captured link.backhaul
  match ← link.buffer.accept packet with
  | (.ok (), buffer) => return (true, { link with buffer })
  | (.error _, buffer) => return (false, { link with buffer, egress := ← link.egress.losePacket packet })

def ingestAll (link : Link) : List CapturedPacket → Except Fault (Nat × Link)
  | [] => .ok (0, link)
  | captured :: waiting => do
    let (fits, link) ← link.ingestPacket captured
    let (admitted, link) ← link.ingestAll waiting
    return (fits.toNat + admitted, link)

/-- Takes all packets that wait on the bridge.  Gives how many of them fit. -/
def ingest (link : Link) : Except Fault (Nat × Link) :=
  match link.bridge with
  | none => .ok (0, link)
  | some bridge =>
    let (waiting, bridge) := bridge.takePackets
    { link with bridge := some bridge }.ingestAll waiting

/-! ## Traffic -/

/-- Admits `bits` bits in packets of `size` bits.  Gives the number of packets. -/
def generate (link : Link) (bits size : UInt64) :
    Except Fault (Except AdmissionError Nat × Link) := do
  let (result, buffer) ← link.buffer.generate bits size link.now link.backhaul
  return (result, { link with buffer })

/-! ## Grants -/

/-- Gives a block up if it may not be repeated again. -/
def settleFailure (link : Link) : Repetition → Except Fault Link
  | .scheduled => .ok link
  | .exhausted block => do
    return { link with
      buffer := link.buffer.recordLoss block.bits, egress := ← link.egress.loseBlock block }

def succeed (link : Link) (block : TransportBlock) : Except Fault Link := do
  return { link with egress := ← link.egress.arrive block }

/-- Repeats a block.  Gives the bits that were understood. -/
def retransmit (link : Link) (block : TransportBlock) (conditions : LinkConditions) :
    Except Fault (UInt64 × Link) := do
  let attempt ← Word.add32 block.retransmissions 1
  let (failed, harq) ← link.harq.attemptFails block.mcs conditions.sinr attempt
  if failed then
    let (outcome, harq) ← harq.repetitionFailed block conditions.distance
    return (0, ← { link with harq }.settleFailure outcome)
  else return (block.bits, ← { link with harq }.succeed block)

/-- Transmits up to `bits` waiting bits in a fresh block.  Gives the bits that were understood. -/
def transmit (link : Link) (bits : UInt64) (conditions : LinkConditions) :
    Except Fault (UInt64 × Link) := do
  let block := TransportBlock.empty link.nextBlock link.now conditions.mcs conditions.distance
    link.backhaul
  let nextBlock ← Word.add64 link.nextBlock 1
  let (moved, buffer, block) ← link.buffer.drain bits block
  let (failed, harq) ← link.harq.attemptFails conditions.mcs conditions.sinr 0
  let link := { link with nextBlock, buffer }
  if failed then
    let (outcome, harq) ← harq.firstFailed block
    return (0, ← { link with harq }.settleFailure outcome)
  else return (moved, ← { link with harq }.succeed block)

/-- Spends a grant of `bits` bits.  Gives the bits that were understood. -/
def spend (link : Link) (bits : UInt64) (conditions : LinkConditions) :
    Except Fault (UInt64 × Link) :=
  match link.harq.takeReady? with
  | (some block, harq) => { link with harq }.retransmit block conditions
  | (none, _) =>
    if bits = 0 || !link.buffer.hasData then .ok (0, link) else link.transmit bits conditions

/-! ## Release -/

def report (link : Link) (settled : List Settled) : Link :=
  { link with
    bridge := link.bridge.map fun bridge ↦
      settled.foldl (fun bridge entry ↦ bridge.report entry.verdict) bridge }

def release (link : Link) : Except Fault (Departure × Link) := do
  let (departure, egress) ← link.egress.release
  return (departure, { link with egress }.report departure.settled)

/-! ## Readings -/

/-- Whether fresh data waits or a repetition is due. -/
def hasData (link : Link) : Bool := link.buffer.hasData || link.harq.isReady

/-- When the data that the next grant is spent on was created, or the current time if there is
none. -/
def oldestTimestamp (link : Link) : Float :=
  if link.harq.isReady then link.harq.oldestTimestamp
  else if link.buffer.hasData then link.buffer.oldestTimestamp
  else link.now

/-- The mean of released bits per interval since the start. -/
def averageThroughput (link : Link) : Float := link.egress.averageBits

def statistics (link : Link) (window : Window) : LinkStatistics × Link :=
  let (generated, buffer) := link.buffer.generatedRate window
  let (lost, buffer) := buffer.lostRate window
  let (throughput, egress) := link.egress.throughputRate window
  let (delay, egress) := egress.meanDelay window
  let (ingressDelay, egress) := egress.meanIngressDelay window
  ({ generated, lost, throughput, delay, ingressDelay
     retransmitted := link.harq.retransmittedMegabits }, { link with buffer, egress })

end Link

end RadioAccess
