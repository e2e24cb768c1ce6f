import RadioAccess.Grid.Layout
import RadioAccess.Proofs.Real64.Arithmetic

/-!
# How Wide a Band Has to Be

A carrier has a grid if its band holds twenty resource blocks.  How many it holds is a rounded quotient without
its fraction, so rounding might let a narrower band pass.  It does not: twenty block widths and the number before
them are adjacent, and the quotient of the smaller one stays below twenty.
-/

namespace RadioAccess

namespace Real64

theorem standsFor_leastBlocks : StandsFor (Float.ofNat Carrier.leastBlocks) Carrier.leastBlocks := by
  have hbits : Float.ofNat Carrier.leastBlocks = Float.ofBits 0x4034000000000000 := by decide +kernel
  have hunpack : (Float.ofNat Carrier.leastBlocks).toModel.unpack =
      .finite .positive (5 * 2 ^ 50) (-48) (by decide) := by
    rw [hbits]
    rfl
  have hvalue : (((5 * 2 ^ 50 : Nat) : ℚ) * 2 ^ (-48 : Int)) = (20 : Nat) := by norm_num
  rw [StandsFor, hunpack, Carrier.leastBlocks, ← hvalue]
  exact .finite _ ⟨by decide, by decide, .inr (by decide)⟩ (by decide)

end Real64

namespace Carrier

open Real64

/-- The width of a resource block in hertz. -/
def blockWidth (numerology : UInt8) : Float :=
  15000.0 * Float.ofNat (2 ^ numerology.toNat) * Float.ofNat subcarriersPerBlock

/-- The narrowest band that holds the fewest resource blocks of a carrier, in hertz. -/
def leastBand (numerology : UInt8) : Float :=
  Float.ofNat (leastBlocks * (subcarriersPerBlock * (15000 * 2 ^ numerology.toNat)))

/-- The next narrower band. -/
def bandBelow (numerology : UInt8) : Float := Float.ofBits ((leastBand numerology).toBits - 1)

/-- Of the band that is claimed to be the narrowest and the next narrower one, only the first holds the fewest
resource blocks. -/
structure Separates (numerology : UInt8) : Prop where
  width : 0.0 < blockWidth numerology ∧ (blockWidth numerology).isFinite = true
  below : 0.0 < bandBelow numerology ∧ (bandBelow numerology).isFinite = true
  least : 0.0 < leastBand numerology ∧ (leastBand numerology).isFinite = true
  adjacent : adjacent (bandBelow numerology) (leastBand numerology) = true
  misses : bandBelow numerology / blockWidth numerology < Float.ofNat leastBlocks
  reaches : Float.ofNat leastBlocks ≤ leastBand numerology / blockWidth numerology
  allowed : leastBlocks ≤ blockLimits.getD numerology.toNat 0

theorem separates {numerology : UInt8} (h : numerology ≤ numerologyLimit) : Separates numerology := by
  have hcheck : ∀ number < 6,
      (0.0 < blockWidth (.ofNat number) ∧ (blockWidth (.ofNat number)).isFinite = true) ∧
      (0.0 < bandBelow (.ofNat number) ∧ (bandBelow (.ofNat number)).isFinite = true) ∧
      (0.0 < leastBand (.ofNat number) ∧ (leastBand (.ofNat number)).isFinite = true) ∧
      Real64.adjacent (bandBelow (.ofNat number)) (leastBand (.ofNat number)) = true ∧
      bandBelow (.ofNat number) / blockWidth (.ofNat number) < Float.ofNat leastBlocks ∧
      Float.ofNat leastBlocks ≤ leastBand (.ofNat number) / blockWidth (.ofNat number) ∧
      leastBlocks ≤ blockLimits.getD (UInt8.ofNat number).toNat 0 := by
    decide +kernel
  have hless : numerology.toNat < 6 := Nat.lt_succ_of_le (UInt8.le_iff_toNat_le.1 h)
  obtain ⟨width, below, least, adjacent, misses, reaches, allowed⟩ := hcheck numerology.toNat hless
  rw [UInt8.ofNat_toNat] at *
  exact { width, below, least, adjacent, misses, reaches, allowed }

theorem slotsPerSubframe_eq {numerology : UInt8} (h : numerology ≤ numerologyLimit) :
    slotsPerSubframe numerology = .ok (2 ^ numerology.toNat) :=
  if_pos (UInt8.lt_of_le_of_lt h (by decide))

theorem subcarrierSpacing_eq {numerology : UInt8} (h : numerology ≤ numerologyLimit) :
    subcarrierSpacing numerology = .ok (15000.0 * Float.ofNat (2 ^ numerology.toNat)) := by
  rw [subcarrierSpacing, slotsPerSubframe_eq h]
  rfl

/-- A band holds the fewest resource blocks of a carrier exactly if it is not narrower than so many block
widths.  What is not a number is no band. -/
theorem leastBlocks_le_blocksIn_iff {numerology : UInt8} (h : numerology ≤ numerologyLimit) (band : Float) :
    leastBlocks ≤ GridLayout.blocksIn band numerology (15000.0 * Float.ofNat (2 ^ numerology.toNat)) ↔
      leastBand numerology ≤ band := by
  obtain ⟨width, below, least, hadjacent, hmisses, hreaches, hallowed⟩ := separates h
  obtain ⟨w, hw, hwidth⟩ := exists_standsFor width.1 width.2
  obtain ⟨u, -, hbelow⟩ := exists_standsFor below.1 below.2
  obtain ⟨v, -, hleast⟩ := exists_standsFor least.1 least.2
  have hcount : leastBlocks ≤ (band / blockWidth numerology).toUInt32.toNat ↔
      Float.ofNat leastBlocks ≤ band / blockWidth numerology :=
    standsFor_leastBlocks.le_toUInt32_iff (by decide) (by decide) _
  rw [GridLayout.blocksIn, ← blockWidth, Nat.le_min, and_iff_left hallowed, hcount]
  exact le_div_iff_of_adjacent standsFor_leastBlocks (by decide) hwidth hw hbelow hleast hadjacent hmisses
    hreaches band

end Carrier

end RadioAccess
