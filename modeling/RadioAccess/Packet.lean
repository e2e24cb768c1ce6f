import RadioAccess.Fault
import RadioAccess.Random

/-!
# Packets

A packet of user data on its way through a link.  A grant that is too small for a packet carries a
part of it, and a part keeps everything of its packet but the number of bits it carries; so parts
can be put together again at the far end by number alone.

Packets are numbered modulo `2 ^ 32` and name the packet that was numbered before them, which is
how a release in order notices gaps.
-/

namespace RadioAccess

/-- The time that data spends behind the radio link: a mean and the half-width of a uniform jitter,
both in seconds. -/
structure Backhaul where
  mean : Float
  spread : Float
deriving BEq

def Backhaul.none : Backhaul := { mean := 0.0, spread := 0.0 }

/-- The arrival time of what leaves the link at `time`; one draw for the jitter. -/
def Backhaul.arrival (delay : Backhaul) (time : Float) (stream : Random) : Float × Random :=
  let (jitter, stream) := stream.symmetric
  (time + delay.mean + jitter * delay.spread, stream)

/-- Most bits by which a packet may differ from its length and still count as complete. -/
def completionSlack : Nat := 10

/-- A packet, or the part of one that is carried. -/
structure Packet where
  number : UInt32
  /-- The number of the packet before this one, if there is one. -/
  predecessor : Option UInt32
  /-- Bits carried. -/
  carried : UInt64
  /-- Bits of the whole packet. -/
  length : UInt64
  createdAt : Float
  /-- When the packet entered the system, which for captured packets is before their creation. -/
  ingressAt : Float
  /-- When the packet may leave at the far end. -/
  releaseAt : Float
  /-- Whether a part of the packet is known to be lost. -/
  erased : Bool
  backhaul : Backhaul

namespace Packet

/-- A whole packet, entering the system as it is created. -/
def whole (number : UInt32) (predecessor : Option UInt32) (bits : UInt64) (time : Float)
    (backhaul : Backhaul) : Packet :=
  { number, predecessor, carried := bits, length := bits, createdAt := time, ingressAt := time,
    releaseAt := time, erased := false, backhaul }

def isPart (packet : Packet) : Bool := packet.carried != packet.length

/-- Whether the carried bits are those of the whole packet but for the slack, in either
direction. -/
def isComplete (packet : Packet) : Bool :=
  packet.carried.toNat ≤ packet.length.toNat + completionSlack &&
    packet.length.toNat ≤ packet.carried.toNat + completionSlack

/-- Cuts `bits` bits off: the part cut off and the remainder. -/
def cut (packet : Packet) (bits : UInt64) : Except Fault (Packet × Packet) :=
  if bits ≤ packet.carried then
    .ok ({ packet with carried := bits }, { packet with carried := packet.carried - bits })
  else .error .cutBeyondCarried

/-- Joins `bits` further bits of the same packet. -/
def absorb (packet : Packet) (bits : UInt64) : Except Fault Packet := do
  return { packet with carried := ← Word.add64 packet.carried bits }

/-- Cutting loses nothing. -/
theorem carried_add_carried_of_cut {packet head rest : Packet} {bits : UInt64}
    (h : packet.cut bits = .ok (head, rest)) :
    head.carried.toNat + rest.carried.toNat = packet.carried.toNat := by
  unfold cut at h
  split at h
  · rename_i hle
    cases h
    have := UInt64.toNat_sub_of_le _ _ hle
    have := UInt64.le_iff_toNat_le.mp hle
    simp only
    omega
  · cases h

end Packet

end RadioAccess
