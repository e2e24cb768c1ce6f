import RadioAccess.Packet

/-!
# Transport Blocks

A transport block holds the packets and parts of packets that fill one grant.  It is transmitted,
acknowledged and repeated as a whole.
-/

namespace RadioAccess

/-- What one transmission carries. -/
structure TransportBlock where
  number : UInt64
  packets : Array Packet
  /-- Bits carried by all packets together. -/
  bits : UInt64
  /-- How often a repetition of the block has been scheduled. -/
  retransmissions : UInt32
  /-- The modulation and coding scheme of the first transmission. -/
  mcs : UInt8
  /-- Distance between user and base station in metres. -/
  distance : Float
  createdAt : Float
  /-- The earliest ingress among the packets, or the creation time of an empty block. -/
  oldestIngress : Float
  /-- When the fate of the last transmission is known. -/
  dueAt : Float
  backhaul : Backhaul

namespace TransportBlock

def empty (number : UInt64) (time : Float) (mcs : UInt8) (distance : Float)
    (backhaul : Backhaul) : TransportBlock :=
  { number, packets := #[], bits := 0, retransmissions := 0, mcs, distance, createdAt := time,
    oldestIngress := time, dueAt := time, backhaul }

def isEmpty (block : TransportBlock) : Bool := block.packets.isEmpty

def noteIngress (block : TransportBlock) (packet : Packet) : TransportBlock :=
  if block.isEmpty || packet.ingressAt < block.oldestIngress then
    { block with oldestIngress := packet.ingressAt }
  else block

/-- Appends a packet, whose ingress is noted first. -/
def push (block : TransportBlock) (packet : Packet) : Except Fault TransportBlock := do
  let block := block.noteIngress packet
  return { block with
    bits := ← Word.add64 block.bits packet.carried, packets := block.packets.push packet }

/-- The block with one more repetition scheduled. -/
def repeated (block : TransportBlock) : Except Fault TransportBlock := do
  return { block with retransmissions := ← Word.add32 block.retransmissions 1 }

end TransportBlock

end RadioAccess
