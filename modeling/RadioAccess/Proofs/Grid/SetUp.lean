import RadioAccess.Grid.Pass
import RadioAccess.Proofs.Checked
import RadioAccess.Proofs.Grid.Band
import RadioAccess.Proofs.Grid.SymbolCycle

/-!
# How a Grid is Set Up

A grid is set up for every band that is wide enough, with one exception: a pattern whose symbols cannot be counted
ends in a fault (`Grid.setUp_cases`).  What is set up divides the carrier completely, as far as whole groups fit
(`GridLayout.covers_of_ofConfig`).
-/

namespace RadioAccess

/-- Whether the symbols of the full slots of a pattern can be counted by 32-bit words. -/
def DuplexPattern.IsCountable (pattern : DuplexPattern) : Prop :=
  pattern.downlinkSlots.toNat * Carrier.symbolsPerSlot < UInt32.size ∧
    pattern.uplinkSlots.toNat * Carrier.symbolsPerSlot < UInt32.size

/-- Whether a carrier is shared in time by a pattern of which the symbols cannot be counted. -/
def GridConfig.IsUncountable (config : GridConfig) : Prop :=
  duplexingOf config.duplexing = .time ∧ ¬config.pattern.IsCountable

/-- Whether the band of a carrier holds the fewest resource blocks that a carrier may have. -/
def GridConfig.IsWide (config : GridConfig) : Prop :=
  Carrier.leastBand (Carrier.numerologyOf config.numerology) ≤ GridLayout.bandOf config

/-! ## Layouts -/

theorem Carrier.groupSize_le (blocks : Nat) (column : UInt8) : groupSize blocks column ≤ 16 := by
  unfold groupSize groupSizes
  repeat' split
  all_goals decide

namespace GridLayout

/-- A layout divides a carrier for one direction: the band into groups, with fewer blocks left over than a
group has, and the subframe into rows. -/
structure Covers (direction : Direction) (config : GridConfig) (layout : GridLayout) : Prop where
  direction : layout.direction = direction
  numerology : layout.numerology = Carrier.numerologyOf config.numerology
  fewest : Carrier.leastBlocks ≤ layout.blocks
  most : ∃ limit, Carrier.blockLimits[layout.numerology.toNat]? = some limit ∧ layout.blocks ≤ limit
  groupSize : 1 ≤ layout.groupSize
  groups : 1 ≤ layout.groups
  grouped : layout.groups * layout.groupSize ≤ layout.blocks
  left : layout.blocks < (layout.groups + 1) * layout.groupSize
  symbols : layout.rows * layout.symbolsPerRow = Carrier.symbolsPerSlot * 2 ^ layout.numerology.toNat

theorem exists_blockLimit {numerology : UInt8} (h : numerology ≤ Carrier.numerologyLimit) (band spacing : Float) :
    ∃ limit, Carrier.blockLimits[numerology.toNat]? = some limit ∧ blocksIn band numerology spacing ≤ limit := by
  have hless : numerology.toNat < Carrier.blockLimits.length := Nat.lt_succ_of_le (UInt8.le_iff_toNat_le.1 h)
  refine ⟨_, List.getElem?_eq_getElem hless, ?_⟩
  rw [blocksIn, List.getD_eq_getElem _ _ hless]
  exact Nat.min_le_right _ _

theorem covers_of_ofConfig {direction : Direction} {config : GridConfig} {layout : GridLayout}
    (h : ofConfig direction config = .ok (.ok layout)) : layout.Covers direction config := by
  have hnumerology := Carrier.numerologyOf_le config.numerology
  obtain ⟨slots, hslots, hsymbols⟩ := rows_mul_symbolsPerRow h
  obtain rfl := Except.ok.inj ((Carrier.slotsPerSubframe_eq hnumerology).symm.trans hslots)
  have hparts : layout.direction = direction ∧ layout.numerology = Carrier.numerologyOf config.numerology ∧
      Carrier.leastBlocks ≤ layout.blocks ∧
      (∃ limit, Carrier.blockLimits[layout.numerology.toNat]? = some limit ∧ layout.blocks ≤ limit) ∧
      (1 ≤ layout.groupSize ∧ layout.groupSize ≤ 16) ∧ layout.groups = layout.blocks / layout.groupSize := by
    simp only [ofConfig, bind_eq_ok_iff] at h
    obtain ⟨_, -, spacing, -, h⟩ := h
    split at h
    next => cases h
    next henough =>
      cases h
      refine ⟨rfl, rfl, Nat.not_lt.1 henough, exists_blockLimit hnumerology _ _, ?_, rfl⟩
      cases GridConfig.groupingOf config.grouping config.groupingColumn with
      | table column => exact ⟨Carrier.groupSize_pos _ column, Carrier.groupSize_le _ column⟩
      | single => exact ⟨le_rfl, Nat.le_of_ble_eq_true rfl⟩
  obtain ⟨hdirection, hsame, hfewest, hmost, ⟨hpositive, hsmall⟩, hgroups⟩ := hparts
  have hfits : layout.groupSize ≤ layout.blocks := by
    rw [Carrier.leastBlocks] at hfewest
    omega
  exact
    { direction := hdirection, numerology := hsame, fewest := hfewest, most := hmost, groupSize := hpositive
      groups := hgroups ▸ Nat.div_pos hfits hpositive
      grouped := hgroups ▸ Nat.div_mul_le_self layout.blocks layout.groupSize
      left := by
        rw [hgroups, Nat.mul_comm]
        exact Nat.lt_mul_div_succ layout.blocks hpositive
      symbols := hsame ▸ hsymbols }

theorem duplexing_of_ofConfig {direction : Direction} {config : GridConfig}
    {layout : GridLayout} (h : ofConfig direction config = .ok (.ok layout)) :
    layout.duplexing = GridConfig.duplexingOf config.duplexing := by
  simp only [ofConfig, bind_eq_ok_iff] at h
  obtain ⟨slots, -, spacing, -, h⟩ := h
  split at h
  · cases h
  · cases h
    rfl

theorem ofConfig_cases (direction : Direction) (config : GridConfig) :
    (config.IsWide ∧ ∃ layout, ofConfig direction config = .ok (.ok layout)) ∨
      ¬config.IsWide ∧ ∃ blocks < Carrier.leastBlocks, ofConfig direction config =
        .ok (.error (.tooNarrow (bandOf config) (Carrier.numerologyOf config.numerology) blocks)) := by
  have hnumerology := Carrier.numerologyOf_le config.numerology
  have hwide := Carrier.leastBlocks_le_blocksIn_iff hnumerology (bandOf config)
  simp only [ofConfig, Carrier.slotsPerSubframe_eq hnumerology, Carrier.subcarrierSpacing_eq hnumerology, ok_bind]
  split
  next hfew => exact .inr ⟨fun h ↦ Nat.not_le.2 hfew (hwide.2 h), _, hfew, rfl⟩
  next hmany => exact .inl ⟨hwide.1 (Nat.not_lt.1 hmany), _, rfl⟩

end GridLayout

/-! ## Setting up -/

theorem SymbolRuns.fault_of_ofPattern {pattern : DuplexPattern} {fault : Fault}
    (h : ofPattern pattern = .error fault) : fault = .multiplyOverflow ∧ ¬pattern.IsCountable := by
  simp only [ofPattern, bind_eq_error_iff, pure_ne_error, and_false, exists_false, or_false] at h
  obtain hdownlink | ⟨_, -, huplink⟩ := h
  · obtain ⟨rfl, hmany⟩ := Word.fault_of_mul32 hdownlink
    exact ⟨rfl, fun hcountable ↦ hmany hcountable.1⟩
  · obtain ⟨rfl, hmany⟩ := Word.fault_of_mul32 huplink
    exact ⟨rfl, fun hcountable ↦ hmany hcountable.2⟩

theorem SymbolRuns.ofPattern_cases (pattern : DuplexPattern) :
    (pattern.IsCountable ∧ ∃ runs, ofPattern pattern = .ok runs) ∨
      ¬pattern.IsCountable ∧ ofPattern pattern = .error .multiplyOverflow := by
  cases hruns : ofPattern pattern with
  | error fault =>
    obtain ⟨rfl, hmany⟩ := fault_of_ofPattern hruns
    exact .inr ⟨hmany, rfl⟩
  | ok runs =>
    refine .inl ⟨?_, runs, rfl⟩
    simp only [ofPattern, bind_eq_ok_iff] at hruns
    obtain ⟨downlink, hdownlink, uplink, huplink, -⟩ := hruns
    have hcount {slots count : UInt32} (h : Word.mul32 slots Carrier.symbolsPerSlot.toUInt32 = .ok count) :
        slots.toNat * Carrier.symbolsPerSlot < UInt32.size := Word.toNat_of_mul32_eq_ok h ▸ count.toNat_lt
    exact ⟨hcount hdownlink, hcount huplink⟩

namespace Grid

/-- A band that is too narrow is refused, and symbols that cannot be counted are a fault.  Everything else is
set up. -/
theorem setUp_cases (direction : Direction) (config : GridConfig) :
    (¬config.IsWide ∧ ∃ blocks < Carrier.leastBlocks, (setUp direction config).2 = .ok (.error
        (.tooNarrow (GridLayout.bandOf config) (Carrier.numerologyOf config.numerology) blocks))) ∨
      (config.IsWide ∧ config.IsUncountable ∧ (setUp direction config).2 = .error .multiplyOverflow) ∨
      config.IsWide ∧ ¬config.IsUncountable ∧ ∃ layout cycle, layout.Covers direction config ∧
        (setUp direction config).2 = .ok (.ok (.ofLayout layout cycle)) := by
  obtain ⟨hwide, layout, hlayout⟩ | ⟨hnarrow, blocks, hfew, hlayout⟩ := GridLayout.ofConfig_cases direction config
  · right
    have hcovers := GridLayout.covers_of_ofConfig hlayout
    have hduplexing := GridLayout.duplexing_of_ofConfig hlayout
    unfold setUp
    simp only [hlayout]
    cases hshared : layout.duplexing with
    | frequency =>
      refine .inr ⟨hwide, fun huncountable ↦ ?_, layout, none, hcovers, rfl⟩
      have htime := huncountable.1
      rw [← hduplexing, hshared] at htime
      cases htime
    | time =>
      have htime := hduplexing.symm.trans hshared
      obtain ⟨hcountable, runs, hruns⟩ | ⟨hmany, hruns⟩ := SymbolRuns.ofPattern_cases config.pattern
      · simp only [SymbolCycle.start, hruns]
        exact .inr ⟨hwide, fun huncountable ↦ huncountable.2 hcountable, layout, _, hcovers, rfl⟩
      · simp only [SymbolCycle.start, hruns]
        exact .inl ⟨hwide, ⟨htime, hmany⟩, rfl⟩
  · left
    refine ⟨hnarrow, blocks, hfew, ?_⟩
    unfold setUp
    simp only [hlayout]

/-- Nothing but the pattern can end the setting up of a grid with a fault. -/
theorem fault_of_setUp {direction : Direction} {config : GridConfig} {fault : Fault}
    (h : (setUp direction config).2 = .error fault) :
    fault = .multiplyOverflow ∧ config.IsUncountable := by
  obtain ⟨-, _, -, hnarrow⟩ | ⟨-, hmany, hfault⟩ | ⟨-, -, _, _, -, hgrid⟩ := setUp_cases direction config
  · cases hnarrow.symm.trans h
  · cases hfault.symm.trans h
    exact ⟨rfl, hmany⟩
  · cases hgrid.symm.trans h

end Grid

end RadioAccess
