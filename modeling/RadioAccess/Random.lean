import RadioAccess.Fault

/-!
# Random Streams

A stream of pseudo-random words with 64 bits of state: three shifts and exclusive ors move the
state, a multiplication scrambles the word that is given out.  Equal seeds give equal streams.
Streams of different users and purposes are seeded through `Random.seedFor`, never from a clock,
so a run does not depend on the order in which independent parts of it are computed.

Each operation returns what it drew together with the stream after the draw.
-/

namespace RadioAccess

/-- A stream of pseudo-random words, given by its state. -/
structure Random where
  state : UInt64

namespace Random

/-- A stream from a seed.  Seed zero stands for seed one, as zero is the one state that the stream
cannot leave. -/
def ofSeed (seed : UInt64) : Random := { state := if seed = 0 then 1 else seed }

def following (x : UInt64) : UInt64 :=
  let x := x ^^^ (x >>> 12)
  let x := x ^^^ (x <<< 25)
  x ^^^ (x >>> 27)

/-- The word given out when the stream arrives in state `x`. -/
def scramble (x : UInt64) : UInt64 := x * 0x2545F4914F6CDD1D

def word (stream : Random) : UInt64 × Random :=
  let state := following stream.state
  (scramble state, { state := state })

/-- The number over `2 ^ 53` that a word stands for: its upper 53 bits. -/
def numerator (word : UInt64) : UInt64 := word >>> 11

/-- The distance between neighbouring uniform draws, `2 ^ -53`. -/
def resolution : Float := 1.0 / (9007199254740992 : UInt64).toFloat

def uniform (stream : Random) : Float × Random :=
  let (word, stream) := stream.word
  ((numerator word).toFloat * resolution, stream)

/-- A uniform draw from `[-1, 1)`, with which delays and rates are jittered. -/
def symmetric (stream : Random) : Float × Random :=
  let (u, stream) := stream.uniform
  (2.0 * u - 1.0, stream)

/-- Uniform draws are multiplied onto `product` until it is not above `limit`; each draw but the
last adds one to `count`. -/
def poissonFrom (limit : Float) (count : UInt64) (product : Float) (stream : Random) :
    Except Fault (UInt64 × Random) :=
  let (u, stream) := stream.uniform
  if product * u <= limit then .ok (count, stream)
  else if count.toNat + 1 < UInt64.size then poissonFrom limit (count + 1) (product * u) stream
  else .error .addOverflow
termination_by UInt64.size - count.toNat
decreasing_by
  rw [UInt64.toNat_add, show (1 : UInt64).toNat = 1 from rfl, Nat.mod_eq_of_lt (by assumption)]
  omega

/-- A Poisson distributed count with the given mean.  A mean that is not positive gives zero and
draws nothing. -/
def poisson (mean : Float) (stream : Random) : Except Fault (UInt64 × Random) :=
  if mean <= 0.0 then .ok (0, stream) else poissonFrom (Float.exp (-mean)) 0 1.0 stream

/-- The seed of a numbered stream under a master seed: the stream's place on an additive sequence
of the golden ratio, mixed by two multiplications. -/
def seedFor (master index : UInt64) : UInt64 :=
  let z := master + (index + 1) * 0x9E3779B97F4A7C15
  let z := (z ^^^ (z >>> 30)) * 0xBF58476D1CE4E5B9
  let z := (z ^^^ (z >>> 27)) * 0x94D049BB133111EB
  z ^^^ (z >>> 31)

end Random

end RadioAccess
