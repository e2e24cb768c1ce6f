import RadioAccess.Fifo
import RadioAccess.RunningMean
import RadioAccess.TransportBlock

/-!
# The Transmit Buffer

Packets wait here for a grant.  Admission is all or nothing against a capacity in bits, and what is
refused counts as lost.  A grant drains the buffer in the order of admission; the packet that does
not fit is cut, and its remainder stays in front.

Packets generated here are numbered one after the other modulo `2 ^ 32`, each naming the number
before its own; number zero names none.
-/

namespace RadioAccess

/-- The capacity of a buffer unless another is configured: twenty largest packets of 65500 bytes. -/
def standardCapacity : UInt64 := 65500 * 8 * 20

inductive AdmissionError where
  | overflow (requested buffered capacity : UInt64)
  | emptyPackets
deriving DecidableEq

def AdmissionError.message : AdmissionError → String
  | overflow requested buffered capacity =>
    "admitting " ++ toString requested.toNat ++ " bits would exceed capacity (" ++
      toString buffered.toNat ++ "/" ++ toString capacity.toNat ++ " bits buffered)"
  | emptyPackets => "packet size must be positive"

/-- Packets waiting for a grant. -/
structure TransmitBuffer where
  packets : Fifo Packet
  capacity : UInt64
  /-- Bits carried by all waiting packets. -/
  buffered : UInt64
  /-- The number of the next generated packet. -/
  nextNumber : UInt32
  now : Float
  generated : RunningMean Float
  lost : RunningMean Float

namespace TransmitBuffer

def empty (capacity : UInt64) : TransmitBuffer :=
  { packets := .empty, capacity, buffered := 0, nextNumber := 0, now := 0.0, generated := .empty,
    lost := .empty }

/-- Closes the samples of the last interval and moves to `now`. -/
def step (buffer : TransmitBuffer) (now : Float) : TransmitBuffer :=
  { buffer with generated := buffer.generated.step, lost := buffer.lost.step, now }

def recordLoss (buffer : TransmitBuffer) (bits : UInt64) : TransmitBuffer :=
  { buffer with lost := buffer.lost.add bits.toFloat }

/-! ## Admission -/

/-- The number before `number`, if there is one. -/
def predecessorOf (number : UInt32) : Option UInt32 :=
  if number = 0 then none else some (number - 1)

/-- How many packets of `size` bits carry `bits` bits, the last one possibly being shorter. -/
def packetCount (bits size : UInt64) : Nat := (bits.toNat + size.toNat - 1) / size.toNat

/-- `count` packets of `size` bits, numbered from `number` on; the last holds what is left of
`bits`. -/
def segments (size : UInt64) (time : Float) (backhaul : Backhaul) :
    Nat → UInt64 → UInt32 → List Packet
  | 0, _, _ => []
  | count + 1, bits, number =>
    let here := if bits < size then bits else size
    .whole number (predecessorOf number) here time backhaul ::
      segments size time backhaul count (bits - here) (number + 1)

/-- Whether `bits` more bits fit; if not, they are counted as lost. -/
def reserve (buffer : TransmitBuffer) (bits : UInt64) :
    Except Fault (Except AdmissionError Unit × TransmitBuffer) := do
  if (← Word.add64 buffer.buffered bits) > buffer.capacity then
    return (.error (.overflow bits buffer.buffered buffer.capacity), buffer.recordLoss bits)
  else return (.ok (), buffer)

/-- Admits `bits` bits as packets of `size` bits.  Gives the number of packets. -/
def generate (buffer : TransmitBuffer) (bits size : UInt64) (time : Float) (backhaul : Backhaul) :
    Except Fault (Except AdmissionError Nat × TransmitBuffer) := do
  if size = 0 then return (.error .emptyPackets, buffer)
  else if bits = 0 then return (.ok 0, buffer)
  else
    match ← buffer.reserve bits with
    | (.error reason, buffer) => return (.error reason, buffer)
    | (.ok (), buffer) =>
      let count := packetCount bits size
      let arrivals := segments size time backhaul count bits buffer.nextNumber
      return (.ok count, { buffer with
        packets := arrivals.foldl Fifo.enqueue buffer.packets
        nextNumber := buffer.nextNumber + count.toUInt32
        buffered := ← Word.add64 buffer.buffered bits
        generated := buffer.generated.add bits.toFloat })

def accept (buffer : TransmitBuffer) (packet : Packet) :
    Except Fault (Except AdmissionError Unit × TransmitBuffer) := do
  match ← buffer.reserve packet.carried with
  | (.error reason, buffer) => return (.error reason, buffer)
  | (.ok (), buffer) =>
    return (.ok (), { buffer with
      packets := buffer.packets.enqueue packet
      buffered := ← Word.add64 buffer.buffered packet.carried
      generated := buffer.generated.add packet.carried.toFloat })

/-! ## Draining -/

/-- Moves packets into a block until `bits` bits were moved or none waits.  Gives the bits that were
not moved. -/
def fill (bits : UInt64) (packets : Fifo Packet) (block : TransportBlock) :
    Except Fault (UInt64 × Fifo Packet × TransportBlock) :=
  if bits = 0 then .ok (0, packets, block)
  else
    match _ : packets.dequeue? with
    | none => .ok (bits, packets, block)
    | some (first, rest) =>
      if first.carried ≤ bits then
        block.push first >>= fun block ↦ fill (bits - first.carried) rest block
      else do
        let (part, remainder) ← first.cut bits
        return (0, rest.putBack remainder, ← block.push part)
termination_by packets.length
decreasing_by
  have := Fifo.length_of_dequeue? ‹packets.dequeue? = some (first, rest)›
  omega

/-- Moves up to `bits` bits into a block.  Gives the bits moved, which are fewer only when the buffer
runs dry. -/
def drain (buffer : TransmitBuffer) (bits : UInt64) (block : TransportBlock) :
    Except Fault (UInt64 × TransmitBuffer × TransportBlock) := do
  let (left, packets, block) ← fill bits buffer.packets block
  let moved ← Word.sub64 bits left
  return (moved, { buffer with packets, buffered := ← Word.sub64 buffer.buffered moved }, block)

/-! ## Readings -/

def hasData (buffer : TransmitBuffer) : Bool := !buffer.packets.isEmpty

/-- When the packet in front was created, or the current time if none waits. -/
def oldestTimestamp (buffer : TransmitBuffer) : Float :=
  (buffer.packets.head?.map (·.createdAt)).getD buffer.now

def generatedRate (buffer : TransmitBuffer) (window : Window) : Float × TransmitBuffer :=
  let (bits, generated) := buffer.generated.read window
  (megabitsPerSecond bits, { buffer with generated })

def lostRate (buffer : TransmitBuffer) (window : Window) : Float × TransmitBuffer :=
  let (bits, lost) := buffer.lost.read window
  (megabitsPerSecond bits, { buffer with lost })

end TransmitBuffer

end RadioAccess
