import RadioAccess.Proofs.Emulator.Balance
import RadioAccess.Proofs.Emulator.Demand
import RadioAccess.Proofs.Emulator.SetUp

/-!
# Runs that Have a Result

A configuration without flaws is no promise of a run without faults.  Its pattern may have more symbols than
can be counted, and its users may offer more bits than can be counted.  These are the only obstacles: if the
symbols can be counted, the configuration is set up or its band is too narrow, and an emulation runs for any
number of intervals in which the users offer no more than can be counted.
-/

namespace RadioAccess

namespace Network

variable {configs : PerDirection LinkConfig} {budgets : Nat → PerDirection Nat} {count : Nat}
  {network : Network} {users : Array User} {now : Float}

/-- Whether all users keep within their budgets for so many more intervals. -/
def AreFunded (configs : PerDirection LinkConfig) (budgets : Nat → PerDirection Nat) (count : Nat)
    (users : Array User) : Prop :=
  ∀ (i : Nat) (user : User), users[i]? = some user → user.Funded configs (budgets i) count

/-! ## Rounds -/

theorem exists_stepUser {i : Nat} (h : ∀ user, network.users[i]? = some user → ∃ next, user.step now = .ok next) :
    ∃ after, network.stepUser i now = .ok after := by
  unfold stepUser
  split
  · exact ⟨network, rfl⟩
  · rename_i user huser
    obtain ⟨next, hstep⟩ := h user huser
    rw [hstep]
    exact ⟨_, rfl⟩

/-- A round for users has a result if each of them can move on. -/
theorem exists_foldlM_stepUser {indices : List Nat} (hnodup : indices.Nodup)
    (h : ∀ i ∈ indices, ∀ user, network.users[i]? = some user → ∃ next, user.step now = .ok next) :
    ∃ after, (indices.map Job.user).foldlM (execute · now) network = .ok after := by
  induction indices generalizing network with
  | nil => exact ⟨network, rfl⟩
  | cons i indices ih =>
    obtain ⟨hfresh, hnodup⟩ := List.nodup_cons.1 hnodup
    obtain ⟨hfirst, hlater⟩ := List.forall_mem_cons.1 h
    obtain ⟨middle, hstep⟩ := exists_stepUser hfirst
    obtain ⟨after, hafter⟩ := ih hnodup fun j hj user huser ↦ by
      have hne : i ≠ j := fun hsame ↦ hfresh (hsame ▸ hj)
      rw [getElem?_of_stepUser hne hstep] at huser
      exact hlater j hj user huser
    refine ⟨after, ?_⟩
    rw [List.map_cons, List.foldlM_cons, execute, hstep, ok_bind, hafter]

/-- Users who keep within their budgets take every grant. -/
theorem accepts_directory (channel : Channel) (direction : Direction) (now : Float) :
    Grid.Accepts (directory channel direction now) (AreFunded configs budgets count) := by
  intro users grant husers
  show ∃ delivered after, deliver channel direction now users grant = .ok (delivered, after) ∧ _
  unfold deliver
  split
  · exact ⟨0.0, users, rfl, husers⟩
  · rename_i user huser
    obtain ⟨value, link, hspend, hfunded⟩ := (husers grant.user user huser).exists_spend direction
      grant.bits.toUInt64 (conditionsOf channel grant now)
    simp only [hspend, ok_bind]
    refine ⟨_, _, rfl, fun i other hother ↦ ?_⟩
    by_cases hsame : grant.user = i
    · subst hsame
      obtain ⟨hlt, -⟩ := Array.getElem?_eq_some_iff.1 huser
      rw [Array.getElem?_setIfInBounds_self_of_lt hlt] at hother
      cases hother
      exact hfunded
    · rw [Array.getElem?_setIfInBounds_ne hsame] at hother
      exact husers i other hother

theorem exists_stepGrid (h : AreFunded configs budgets count network.users) (direction : Direction)
    (now : Float) :
    ∃ after, network.stepGrid direction now = .ok after ∧ AreFunded configs budgets count after.users := by
  obtain ⟨visits, passed, users, hpass, husers⟩ :=
    Grid.exists_pass (accepts_directory network.channel direction now) h now (network.grids.get direction)
  simp only [stepGrid, hpass, ok_bind]
  exact ⟨_, rfl, husers⟩

end Network

/-! ## Totals -/

namespace DirectionTick

/-- Whether no total exceeds a limit. -/
structure IsWithin (limit : Nat) (sum : DirectionTick) : Prop where
  generated : sum.generated.toNat ≤ limit
  rejected : sum.rejected.toNat ≤ limit
  released : sum.released.toNat ≤ limit

theorem exists_add {sum : DirectionTick} {tick : LinkTick} {done limit : Nat} (hsum : sum.IsWithin done)
    (htick : tick.IsWithin limit) (hfits : done + limit < 2 ^ 64) :
    ∃ next, sum.add tick = .ok next ∧ next.IsWithin (done + limit) := by
  obtain ⟨hgenerated, hrejected, hreleased⟩ := hsum
  obtain ⟨hgenerates, hrejects, hreleases⟩ := htick
  have hword {a b : UInt64} (ha : a.toNat ≤ done) (hb : b.toNat ≤ limit) :
      Word.add64 a b = .ok (a + b) ∧ (a + b).toNat ≤ done + limit := by
    have hadd : Word.add64 a b = .ok (a + b) :=
      Word.add64_eq_ok ((Nat.add_le_add ha hb).trans_lt hfits)
    exact ⟨hadd, (Word.toNat_of_add64_eq_ok hadd).trans_le (Nat.add_le_add ha hb)⟩
  obtain ⟨hgenerate, hgeneratedTotal⟩ := hword hgenerated hgenerates
  obtain ⟨hreject, hrejectedTotal⟩ := hword hrejected hrejects
  obtain ⟨hrelease, hreleasedTotal⟩ := hword hreleased hreleases
  simp only [add, hgenerate, hreject, hrelease, ok_bind]
  exact ⟨_, rfl, hgeneratedTotal, hrejectedTotal, hreleasedTotal⟩

theorem exists_foldlM_add {ticks : List LinkTick} {limits : List Nat}
    (h : List.Forall₂ LinkTick.IsWithin limits ticks) {sum : DirectionTick} {done : Nat}
    (hsum : sum.IsWithin done) (hfits : done + limits.sum < 2 ^ 64) :
    ∃ total, ticks.foldlM add sum = .ok total := by
  induction h generalizing sum done with
  | nil => exact ⟨sum, rfl⟩
  | @cons limit tick limits ticks htick _ ih =>
    rw [List.sum_cons, ← Nat.add_assoc] at hfits
    obtain ⟨next, hadd, hnext⟩ := exists_add hsum htick (by omega)
    obtain ⟨total, htotal⟩ := ih hnext hfits
    exact ⟨total, by rw [List.foldlM_cons, hadd, ok_bind, htotal]⟩

/-- The totals of a direction fit words if the limits of its links do together. -/
theorem exists_ofNetwork {network : Network} {direction : Direction} {limits : Nat → Nat}
    (hticks : ∀ (i : Nat) (user : User), network.users[i]? = some user →
      (user.ticks.get direction).IsWithin (limits i))
    (hfits : ((List.range network.users.size).map limits).sum < 2 ^ 64) :
    ∃ tick, ofNetwork network direction = .ok tick := by
  refine exists_foldlM_add (List.forall₂_iff_get.2 ⟨?_, fun i hleft hright ↦ ?_⟩)
    ⟨Nat.zero_le _, Nat.zero_le _, Nat.zero_le _⟩ ((Nat.zero_add _).trans_lt hfits)
  · simp
  · simp only [List.get_eq_getElem, List.getElem_map, List.getElem_range, Array.getElem_toList]
    exact hticks i _ (Array.getElem?_eq_getElem _)

end DirectionTick

theorem Clock.exists_advance (clock : Clock) (h : clock.interval.toNat + 1 < 2 ^ 64) :
    ∃ next, clock.advance = .ok next ∧ next.interval.toNat = clock.interval.toNat + 1 := by
  have hnext : Word.add64 clock.interval 1 = .ok (clock.interval + 1) := Word.add64_eq_ok h
  simp only [advance, hnext, ok_bind]
  exact ⟨_, rfl, Word.toNat_of_add64_eq_ok hnext⟩

namespace Emulator

variable {configs : PerDirection LinkConfig} {budgets : Nat → PerDirection Nat} {count : Nat}
  {emulator : Emulator}

/-! ## Intervals -/

theorem exists_round_users {network : Network}
    (h : Network.AreFunded configs budgets (count + 1) network.users) (workers : Nat) (now : Float) :
    ∃ after, round workers now ((List.range network.users.size).map .user) network = .ok after ∧
      Network.AreFunded configs budgets count after.users := by
  have hsteps : ∀ i ∈ List.range network.users.size, ∀ user, network.users[i]? = some user →
      ∃ next, user.step now = .ok next := by
    intro i _ user huser
    obtain ⟨next, hstep, -⟩ := (h i user huser).exists_step now
    exact ⟨next, hstep⟩
  obtain ⟨after, hafter⟩ := Network.exists_foldlM_stepUser List.nodup_range hsteps
  have hround : round workers now ((List.range network.users.size).map .user) network = .ok after :=
    round_eq_ok_iff.2 hafter
  refine ⟨after, hround, fun i user huser ↦ ?_⟩
  obtain ⟨hlt, -⟩ := Array.getElem?_eq_some_iff.1 huser
  rw [size_users_of_round hround] at hlt
  obtain ⟨stepped, hstepped, hmoved⟩ := Network.exists_step_of_foldlM_stepUser List.nodup_range
    (List.mem_range.2 hlt) hafter (Array.getElem?_eq_getElem hlt)
  obtain ⟨next, hnext, hfunded⟩ := (h i _ (Array.getElem?_eq_getElem hlt)).exists_step now
  rw [hstepped] at hnext
  rw [huser] at hmoved
  cases hnext
  cases hmoved
  exact hfunded

theorem exists_round_grids {network : Network}
    (h : Network.AreFunded configs budgets count network.users) (workers : Nat) (now : Float) :
    ∃ after, round workers now (Direction.all.map .grid) network = .ok after ∧
      Network.AreFunded configs budgets count after.users := by
  obtain ⟨middle, hdownlink, hmiddle⟩ := Network.exists_stepGrid h .downlink now
  obtain ⟨after, huplink, hafter⟩ := Network.exists_stepGrid hmiddle .uplink now
  refine ⟨after, round_eq_ok_iff.2 ?_, hafter⟩
  simp only [Direction.all, List.map_cons, List.map_nil, List.foldlM_cons, List.foldlM_nil,
    Network.execute, hdownlink, huplink, ok_bind]
  rfl

/-- Whether an emulation can go on for so many intervals. -/
structure Funded (configs : PerDirection LinkConfig) (budgets : Nat → PerDirection Nat) (count : Nat)
    (emulator : Emulator) : Prop where
  users : Network.AreFunded configs budgets count emulator.network.users
  totals : ∀ direction,
    ((List.range emulator.network.users.size).map fun i ↦ (budgets i).get direction).sum < 2 ^ 64
  clock : emulator.clock.interval.toNat + count < 2 ^ 64

theorem Funded.exists_tick (h : emulator.Funded configs budgets (count + 1)) :
    ∃ tick next, emulator.tick = .ok (tick, next) ∧ next.Funded configs budgets count := by
  have hsoon := h.clock
  obtain ⟨middle, hround, hmiddle⟩ := exists_round_users h.users emulator.workers emulator.clock.now
  obtain ⟨after, hpasses, hafter⟩ := exists_round_grids hmiddle emulator.workers emulator.clock.now
  have hsize : after.users.size = emulator.network.users.size :=
    (size_users_of_round hpasses).trans (size_users_of_round hround)
  have htotals (direction : Direction) :
      ((List.range after.users.size).map fun i ↦ (budgets i).get direction).sum < 2 ^ 64 := by
    rw [hsize]
    exact h.totals direction
  have hlimits (direction : Direction) := DirectionTick.exists_ofNetwork
    (fun i user huser ↦ (hafter i user huser).ticks direction) (htotals direction)
  obtain ⟨downlink, hdown⟩ := hlimits .downlink
  obtain ⟨uplink, hup⟩ := hlimits .uplink
  obtain ⟨clock, hadvance, hlater⟩ := emulator.clock.exists_advance (by omega)
  have htick : emulator.tick = .ok
      ({ interval := emulator.clock.interval, time := emulator.clock.now, directions := { downlink, uplink } },
        { emulator with network := after, clock }) := by
    simp only [tick, tickInOrder, hround, hpasses, hdown, hup, hadvance, ok_bind]
    rfl
  refine ⟨_, _, htick, hafter, htotals, ?_⟩
  show clock.interval.toNat + count < 2 ^ 64
  omega

theorem Funded.exists_runOnto (h : emulator.Funded configs budgets count) (done : List Tick) :
    ∃ result, emulator.runOnto done count = .ok result := by
  induction count generalizing emulator done with
  | zero => exact ⟨_, rfl⟩
  | succ count ih =>
    obtain ⟨tick, next, htick, hnext⟩ := h.exists_tick
    rw [runOnto, htick, ok_bind]
    exact ih hnext (tick :: done)

/-! ## Emulations that were set up -/

variable {config : Config} {channel : Channel} {demands : Nat → PerDirection Nat}

theorem size_users_of_setUp (h : (setUp config channel).2 = .ok (.ok emulator)) :
    emulator.network.users.size = config.users.length := by
  obtain ⟨profiles, husers⟩ := getElem?_users_of_setUp h
  refine Nat.le_antisymm ?_ ?_
  · have hend := husers config.users.length
    rw [List.getElem?_eq_none (Nat.le_refl _)] at hend
    exact Array.getElem?_eq_none_iff.1 hend
  · have hend := husers emulator.network.users.size
    rw [Array.getElem?_eq_none (Nat.le_refl _)] at hend
    exact List.getElem?_eq_none_iff.1 (Option.map_eq_none_iff.1 hend.symm)

theorem funded_of_setUp (h : (setUp config channel).2 = .ok (.ok emulator)) (hcount : count < 2 ^ 64)
    (hdemands : ∀ (i : Nat) (user : UserConfig), config.users[i]? = some user →
      (TrafficSource.ofSeed user.traffic (userSeeds config.seed i).2).demand count = .ok (demands i) ∧
      ∀ direction, (config.links.get direction).harq.maxRetransmissions.toNat *
        (demands i).get direction < 2 ^ 64)
    (htotals : ∀ direction,
      ((List.range config.users.length).map fun i ↦ (demands i).get direction).sum < 2 ^ 64) :
    emulator.Funded config.links demands count := by
  have hsize := size_users_of_setUp h
  obtain ⟨profiles, husers⟩ := getElem?_users_of_setUp h
  refine ⟨fun i user huser ↦ ?_, by rwa [hsize], ?_⟩
  · obtain ⟨hlt, -⟩ := Array.getElem?_eq_some_iff.1 huser
    rw [hsize] at hlt
    rw [husers] at huser
    obtain ⟨entry, hentry, rfl⟩ := Option.map_eq_some_iff.1 huser
    obtain ⟨hdemand, hrepeated⟩ := hdemands i entry hentry
    refine ⟨fun direction ↦ ⟨?_, hrepeated direction⟩, ⟨demands i, hdemand, fun direction ↦ ⟨0, ?_, ?_⟩⟩,
      fun direction ↦ ?_⟩
    · refine (List.le_sum_of_mem (List.mem_map.2 ⟨i, ?_, rfl⟩)).trans_lt (htotals direction)
      exact List.mem_range.2 hlt
    · cases direction with
      | downlink => exact .idle _ _ _ _ _
      | uplink => exact .idle _ _ _ _ _
    · exact (Nat.zero_add _).le
    · cases direction with
      | downlink => exact LinkTick.isWithin_none _
      | uplink => exact LinkTick.isWithin_none _
  · obtain ⟨grids, rfl⟩ := eq_ofGrids_of_setUp h
    exact (Nat.zero_add _).trans_lt hcount

/-- A configuration without flaws whose workers can be taken on is set up, or its band is too narrow, unless
its symbols cannot be counted.  An emulation that was set up runs for any number of intervals that the clock can
count, as long as the bits that its users offer in them, also if each block is repeated as often as it may be,
can be counted. -/
theorem no_fault_while_countable {config : Config} (hvalid : config.flaw? = none) (channel : Channel) :
    (takeOn config.workers.toNat = .ok () →
      (∃ emulator, (setUp config channel).2 = .ok (.ok emulator)) ∨
        (∃ reason, (setUp config channel).2 = .ok (.error (.grid reason))) ∨
        config.grid.IsUncountable ∧ (setUp config channel).2 = .error .multiplyOverflow) ∧
    ∀ (emulator : Emulator) (count : Nat) (demands : Nat → PerDirection Nat),
      (setUp config channel).2 = .ok (.ok emulator) → count < 2 ^ 64 →
      (∀ (i : Nat) (user : UserConfig), config.users[i]? = some user →
        (TrafficSource.ofSeed user.traffic (userSeeds config.seed i).2).demand count = .ok (demands i) ∧
        ∀ direction, (config.links.get direction).harq.maxRetransmissions.toNat *
          (demands i).get direction < 2 ^ 64) →
      (∀ direction,
        ((List.range config.users.length).map fun i ↦ (demands i).get direction).sum < 2 ^ 64) →
      ∃ result, emulator.runOnto [] count = .ok result := by
  refine ⟨setUp_of_flaw?_eq_none channel hvalid, ?_⟩
  intro emulator count demands hsetup hcount hdemands htotals
  exact (funded_of_setUp hsetup hcount hdemands htotals).exists_runOnto []

/-- Two users with the same traffic, on a carrier that is shared in frequency. -/
def pairOf (traffic : TrafficConfig) : Config :=
  { Config.standard with
    workers := 1, grid := { GridConfig.standard with metric := 4, duplexing := 1 }
    users := List.replicate 2 { UserConfig.standard with traffic } }

/-- Two users with the standard traffic are set up, and served over two intervals. -/
theorem no_fault_while_countable_of_two :
    ∃ emulator, (ofConfig (pairOf .standard)).2 = .ok (.ok emulator) ∧
      ∃ result, emulator.runOnto [] 2 = .ok result := by
  have hvalid : (pairOf .standard).flaw? = none := Option.isNone_iff_eq_none.1 (by decide +kernel)
  obtain ⟨hsetup, hrun⟩ := no_fault_while_countable hvalid (channelOf (pairOf .standard)).toChannel
  have hwide : (ofConfig (pairOf .standard)).2.toOption.any (·.isOk) = true := by decide +kernel
  have hmost (direction : Direction) :
      ((pairOf .standard).links.get direction).harq.maxRetransmissions.toNat = 4 := by
    cases direction <;> rfl
  have hdemand : ∀ i < 2, ∃ demand,
      (TrafficSource.ofSeed .standard (userSeeds Config.standard.seed i).2).demand 2 = .ok demand ∧
        ∀ direction, demand.get direction < 2 ^ 32 := by
    have hsmall : ∀ i < 2, ((TrafficSource.ofSeed .standard (userSeeds Config.standard.seed i).2).demand
        2).toOption.any (fun demand ↦ Direction.all.all (demand.get · < 2 ^ 32)) = true := by
      decide +kernel
    intro i hi
    refine exists_ok_of_any _ (hsmall i hi) fun demand _ hfits direction ↦ ?_
    have hmem : direction ∈ Direction.all := by cases direction <;> decide
    exact of_decide_eq_true (List.all_eq_true.1 hfits direction hmem)
  obtain ⟨first, hfirst, hfew⟩ := hdemand 0 (by decide)
  obtain ⟨second, hsecond, hlittle⟩ := hdemand 1 (by decide)
  obtain ⟨emulator, hbuilt⟩ | ⟨reason, hnarrow⟩ | ⟨-, hfault⟩ := hsetup rfl
  · refine ⟨emulator, hbuilt, hrun _ 2 (fun i ↦ if i = 0 then first else second) hbuilt (by decide)
      (fun i user huser ↦ ?_) fun direction ↦ ?_⟩
    · match i with
      | 0 =>
        cases huser
        refine ⟨hfirst, fun direction ↦ ?_⟩
        have hfits := hfew direction
        rw [hmost, if_pos rfl]
        omega
      | 1 =>
        cases huser
        refine ⟨hsecond, fun direction ↦ ?_⟩
        have hfits := hlittle direction
        rw [hmost, if_neg (by decide)]
        omega
      | i + 2 => cases huser
    · have hsum : first.get direction + (second.get direction + 0) < 2 ^ 64 := by
        have hfits := hfew direction
        have hfitted := hlittle direction
        omega
      exact hsum
  · rw [ofConfig, hnarrow] at hwide
    cases hwide
  · rw [ofConfig, hfault] at hwide
    cases hwide

/-- The check for flaws lets a pattern pass whose symbols cannot be counted, and rates at which two users offer
more than can be counted. -/
theorem fault_without_flaw :
    ({ Config.standard with grid := { GridConfig.standard with
        pattern := { DuplexPattern.standard with downlinkSlots := 306783379 } } } : Config).flaw? = none ∧
    (ofConfig { Config.standard with grid := { GridConfig.standard with
        pattern := { DuplexPattern.standard with downlinkSlots := 306783379 } } }).2 =
      .error .multiplyOverflow ∧
    (pairOf { model := .constant ⟨1e17, 1e17⟩ 0.0, packetBits := 500 }).flaw? = none ∧
    ∃ built, (ofConfig (pairOf { model := .constant ⟨1e17, 1e17⟩ 0.0, packetBits := 500 })).2 = .ok built ∧
      ∃ emulator, built = .ok emulator ∧ emulator.tick.mapError (·.fault) = .error .addOverflow := by
  refine ⟨Option.isNone_iff_eq_none.1 (by decide +kernel), ?_,
    Option.isNone_iff_eq_none.1 (by decide +kernel), ?_⟩
  · exact eq_error_of_map_eq_error (f := fun _ ↦ ()) (by decide +kernel)
  · refine exists_ok_of_any (fun built ↦ built.toOption.any fun emulator ↦
      (emulator.tick.mapError (·.fault)).map (fun _ ↦ ()) = .error .addOverflow)
      (by decide +kernel) fun built _ hbuilt ↦ ?_
    obtain ⟨emulator, rfl, hfault⟩ := exists_ok_of_any _ hbuilt fun _ _ hfault ↦ hfault
    exact ⟨emulator, rfl, eq_error_of_map_eq_error (of_decide_eq_true hfault)⟩

end Emulator

end RadioAccess
