import RadioAccess.Emulator.Basic
import RadioAccess.Proofs.Grid.SetUp

/-!
# How Setting Up Ends

A configuration without flaws is set up, or its band is too narrow; nothing else can happen as long as its
workers can be taken on and the symbols of its pattern can be counted.  The check for flaws does not look at
the pattern, so the last condition is one that it misses.
-/

namespace RadioAccess

namespace Emulator

theorem fault_of_setUpGrids {config : GridConfig} {fault : Fault}
    (h : (setUpGrids config).2 = .error fault) :
    fault = .multiplyOverflow ∧ config.IsUncountable := by
  unfold setUpGrids at h
  split at h
  · rename_i hdownlink
    cases h
    exact Grid.fault_of_setUp (congrArg Prod.snd hdownlink)
  · cases h
  · split at h
    · rename_i huplink
      cases h
      exact Grid.fault_of_setUp (congrArg Prod.snd huplink)
    · cases h
    · cases h

/-- A configuration without flaws is set up, or its band is too narrow, unless its symbols cannot be
counted. -/
theorem setUp_of_flaw?_eq_none {config : Config} (channel : Channel) (hvalid : config.flaw? = none)
    (hworkers : takeOn config.workers.toNat = .ok ()) :
    (∃ emulator, (setUp config channel).2 = .ok (.ok emulator)) ∨
      (∃ reason, (setUp config channel).2 = .ok (.error (.grid reason))) ∨
      config.grid.IsUncountable ∧ (setUp config channel).2 = .error .multiplyOverflow := by
  unfold setUp
  simp only [hvalid]
  split
  · rename_i hgrids
    obtain ⟨rfl, hmany⟩ := fault_of_setUpGrids (congrArg Prod.snd hgrids)
    exact .inr (.inr ⟨hmany, rfl⟩)
  · exact .inr (.inl ⟨_, rfl⟩)
  · simp only [hworkers, ok_bind]
    exact .inl ⟨_, rfl⟩

end Emulator

end RadioAccess
