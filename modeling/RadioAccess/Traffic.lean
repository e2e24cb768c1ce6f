import RadioAccess.Direction
import RadioAccess.Random
import RadioAccess.Real64

/-!
# Synthetic Traffic

How many bits a user offers in an interval: at a constant rate with uniform relative noise, in
Poisson distributed packets, or not at all.
-/

namespace RadioAccess

/-- A law by which a user offers traffic.  Rates of the constant law are in megabits per second, those
of the Poisson law in packets per interval. -/
inductive TrafficModel where
  | constant (rates : PerDirection Float) (variation : Float)
  | poisson (rates : PerDirection Float)
  | silent
deriving BEq

/-- A traffic law and the size of the packets that carry the traffic. -/
structure TrafficConfig where
  model : TrafficModel
  packetBits : UInt64
deriving BEq

def TrafficConfig.standard : TrafficConfig :=
  { model := .constant { downlink := 50.0, uplink := 10.0 } 0.5, packetBits := 500 }

structure TrafficSource where
  config : TrafficConfig
  stream : Random

namespace TrafficSource

/-- A source whose noise has the given seed. -/
def ofSeed (config : TrafficConfig) (seed : UInt64) : TrafficSource :=
  { config, stream := .ofSeed seed }

/-- The bits offered in a direction over an interval of `seconds`. -/
def offer (source : TrafficSource) (direction : Direction) (seconds : Float) :
    Except Fault (UInt64 × TrafficSource) :=
  match source.config.model with
  | .constant rates variation =>
    let bits (noise : Float) : UInt64 :=
      Real64.nearestCount (rates.get direction * 1e6 * seconds * (1.0 + noise))
    if variation != 0.0 then
      let (u, stream) := source.stream.symmetric
      .ok (bits (variation * u), { source with stream })
    else .ok (bits 0.0, source)
  | .poisson rates => do
    let (packets, stream) ← source.stream.poisson (rates.get direction)
    return (← Word.mul64 packets source.config.packetBits, { source with stream })
  | .silent => .ok (0, source)

end TrafficSource

end RadioAccess
