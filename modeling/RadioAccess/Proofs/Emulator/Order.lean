import RadioAccess.Emulator.Basic
import RadioAccess.Proofs.Emulator.Independence

/-!
# Orders of Jobs

The order of the jobs within a round is free, as is the number of workers who do them.  A round that ends
without a fault has done its jobs one after the other, and any two of them can change places, so it ends
in the same way in every other order.
-/

namespace RadioAccess

/-- The jobs of an interval in the order in which they are done. -/
structure Schedule where
  users : List Nat
  directions : List Direction

namespace Schedule

/-- Whether the same jobs are done in another order. -/
structure Reorders (schedule other : Schedule) : Prop where
  users : schedule.users.Perm other.users
  directions : schedule.directions.Perm other.directions

theorem Reorders.symm {schedule other : Schedule} (h : schedule.Reorders other) :
    other.Reorders schedule :=
  ⟨h.users.symm, h.directions.symm⟩

/-- The order of an emulation with so many users. -/
def inOrder (users : Nat) : Schedule := { users := List.range users, directions := Direction.all }

end Schedule

namespace Emulator

variable {workers others : Nat} {now : Float} {network after : Network} {jobs : List Network.Job}

/-! ## Rounds -/

theorem untilFault_iff :
    (RoundResult.untilFault (Network.attempt now) jobs network).faults = [] ∧
        (RoundResult.untilFault (Network.attempt now) jobs network).state = after ↔
      jobs.foldlM (Network.execute · now) network = .ok after := by
  induction jobs generalizing network with
  | nil => simp [RoundResult.untilFault, pure_eq_ok_iff]
  | cons job jobs ih =>
    rw [List.foldlM_cons, RoundResult.untilFault, Network.attempt]
    cases network.execute now job with
    | error fault => simp [bind, Except.bind]
    | ok next => exact ih

theorem exhaustive_iff :
    (RoundResult.exhaustive (Network.attempt now) jobs network).faults = [] ∧
        (RoundResult.exhaustive (Network.attempt now) jobs network).state = after ↔
      jobs.foldlM (Network.execute · now) network = .ok after := by
  induction jobs generalizing network with
  | nil => simp [RoundResult.exhaustive, pure_eq_ok_iff]
  | cons job jobs ih =>
    rw [List.foldlM_cons, RoundResult.exhaustive, Network.attempt]
    cases network.execute now job with
    | error fault => simp [bind, Except.bind]
    | ok next => exact ih

/-- A round ends without a fault if its jobs, done one after the other, do. -/
theorem round_eq_ok_iff :
    round workers now jobs network = .ok after ↔
      jobs.foldlM (Network.execute · now) network = .ok after := by
  have hresult : (RoundResult.ofRound workers (Network.attempt now) jobs network).faults = [] ∧
      (RoundResult.ofRound workers (Network.attempt now) jobs network).state = after ↔
        jobs.foldlM (Network.execute · now) network = .ok after := by
    rw [RoundResult.ofRound]
    split
    · exact untilFault_iff
    · exact exhaustive_iff
  rw [← hresult, round, RoundResult.fault?]
  cases (RoundResult.ofRound workers (Network.attempt now) jobs network).faults with
  | nil => simp
  | cons fault faults => simp

/-- If any two jobs of a kind can change places, their order does not matter. -/
theorem round_of_perm {ι : Type} (job : ι → Network.Job)
    (hcomm : ∀ {network middle after : Network} {i j : ι},
      network.execute now (job i) = .ok middle → middle.execute now (job j) = .ok after →
        ∃ swapped, network.execute now (job j) = .ok swapped ∧
          swapped.execute now (job i) = .ok after)
    {items order : List ι} (hperm : items.Perm order)
    (h : round workers now (items.map job) network = .ok after) :
    round others now (order.map job) network = .ok after := by
  rw [round_eq_ok_iff, List.foldlM_map] at h ⊢
  apply foldlM_eq_ok_of_perm _ hperm h
  intro state first middle second last hfirst hsecond
  exact hcomm hfirst hsecond

theorem round_users_of_perm {users order : List Nat} (hperm : users.Perm order)
    (h : round workers now (users.map .user) network = .ok after) :
    round others now (order.map .user) network = .ok after :=
  round_of_perm .user Network.stepUser_comm hperm h

theorem round_grids_of_perm {directions order : List Direction} (hperm : directions.Perm order)
    (h : round workers now (directions.map .grid) network = .ok after) :
    round others now (order.map .grid) network = .ok after :=
  round_of_perm .grid Network.stepGrid_comm hperm h

theorem size_users_of_round (h : round workers now jobs network = .ok after) :
    after.users.size = network.users.size := by
  refine foldlM_eq_ok_induction (fun _ state ↦ state.users.size = network.users.size) ?_
    (round_eq_ok_iff.mp h) rfl
  intro done state job next hsize hnext
  exact (Network.size_users_of_execute hnext).trans hsize

/-! ## Intervals -/

/-- Does the jobs of an interval: a round for the users, and then one for the grids. -/
def rounds (workers : Nat) (now : Float) (schedule : Schedule) (network : Network) :
    Except TickFailure Network := do
  round workers now (schedule.directions.map .grid)
    (← round workers now (schedule.users.map .user) network)

/-- Moves on by one interval for each schedule, `done` holding the intervals before in reverse order. -/
def runScheduled (done : List Tick) (emulator : Emulator) :
    List Schedule → Except TickFailure (List Tick × Emulator)
  | [] => .ok (done.reverse, emulator)
  | schedule :: schedules => do
    let (tick, emulator) ← emulator.tickInOrder schedule.users schedule.directions
    emulator.runScheduled (tick :: done) schedules

variable {emulator next : Emulator} {schedule order : Schedule} {tick : Tick}

theorem rounds_of_reorders (horder : schedule.Reorders order)
    (h : rounds workers now schedule network = .ok after) :
    rounds others now order network = .ok after := by
  rw [rounds, bind_eq_ok_iff] at h ⊢
  obtain ⟨middle, husers, hgrids⟩ := h
  exact ⟨middle, round_users_of_perm horder.users husers, round_grids_of_perm horder.directions hgrids⟩

theorem size_users_of_rounds (h : rounds workers now schedule network = .ok after) :
    after.users.size = network.users.size := by
  rw [rounds, bind_eq_ok_iff] at h
  obtain ⟨middle, husers, hgrids⟩ := h
  exact (size_users_of_round hgrids).trans (size_users_of_round husers)

/-- An interval whose jobs end without a fault does not depend on their order. -/
theorem tickInOrder_of_reorders (horder : schedule.Reorders order)
    (h : rounds emulator.workers emulator.clock.now schedule emulator.network = .ok after) :
    emulator.tickInOrder order.users order.directions =
      emulator.tickInOrder schedule.users schedule.directions := by
  rw [rounds, bind_eq_ok_iff] at h
  obtain ⟨middle, husers, hgrids⟩ := h
  have husers' : round emulator.workers emulator.clock.now (order.users.map .user) emulator.network =
      .ok middle := round_users_of_perm horder.users husers
  have hgrids' : round emulator.workers emulator.clock.now (order.directions.map .grid) middle =
      .ok after := round_grids_of_perm horder.directions hgrids
  simp only [tickInOrder, husers, hgrids, husers', hgrids', ok_bind]

theorem rounds_of_tickInOrder
    (h : emulator.tickInOrder schedule.users schedule.directions = .ok (tick, next)) :
    rounds emulator.workers emulator.clock.now schedule emulator.network = .ok next.network := by
  simp only [tickInOrder, bind_eq_ok_iff] at h
  obtain ⟨middle, husers, after, hgrids, h⟩ := h
  rw [rounds, bind_eq_ok_iff]
  refine ⟨middle, husers, ?_⟩
  split at h
  next result hended =>
    simp only [bind_eq_ok_iff, pure_eq_ok_iff] at hended h
    obtain ⟨_, _, _, _, _, _, rfl⟩ := hended
    cases h
    exact hgrids
  next => cases h

theorem tickInOrder_eq_ok_iff (horder : schedule.Reorders order) :
    emulator.tickInOrder schedule.users schedule.directions = .ok (tick, next) ↔
      emulator.tickInOrder order.users order.directions = .ok (tick, next) := by
  constructor
  · intro h
    rw [tickInOrder_of_reorders horder (rounds_of_tickInOrder h), h]
  · intro h
    rw [tickInOrder_of_reorders horder.symm (rounds_of_tickInOrder h), h]

/-! ## Runs -/

/-- A run in any orders is the run. -/
theorem runScheduled_eq_ok_iff {done : List Tick} {schedules : List Schedule}
    {result : List Tick × Emulator}
    (horders : ∀ schedule ∈ schedules, schedule.Reorders (.inOrder emulator.network.users.size)) :
    emulator.runScheduled done schedules = .ok result ↔
      emulator.runOnto done schedules.length = .ok result := by
  induction schedules generalizing done emulator with
  | nil => rfl
  | cons schedule schedules ih =>
    have hhere : schedule.Reorders (.inOrder emulator.network.users.size) :=
      horders schedule List.mem_cons_self
    have hlater {tick : Tick} {next : Emulator}
        (htick : emulator.tickInOrder schedule.users schedule.directions = .ok (tick, next)) :
        next.runScheduled (tick :: done) schedules = .ok result ↔
          next.runOnto (tick :: done) schedules.length = .ok result := by
      apply ih
      intro later hmem
      rw [size_users_of_rounds (rounds_of_tickInOrder htick)]
      exact horders later (List.mem_cons_of_mem _ hmem)
    simp only [runScheduled, List.length_cons, runOnto, tick, bind_eq_ok_iff, Prod.exists]
    constructor
    · rintro ⟨tick, next, htick, hrest⟩
      exact ⟨tick, next, (tickInOrder_eq_ok_iff hhere).mp htick, (hlater htick).mp hrest⟩
    · rintro ⟨tick, next, htick, hrest⟩
      have htick := (tickInOrder_eq_ok_iff hhere).mpr htick
      exact ⟨tick, next, htick, (hlater htick).mpr hrest⟩

/-- Nothing depends on the order in which the jobs of a round are done.  At any time and with any numbers
of workers, the jobs of an interval leave the network alike in all orders if they end without a fault in
one; an interval then brings the same and leaves the same emulation, and so does a run of any length. -/
theorem jobs_in_any_order (emulator : Emulator) :
    (∀ {schedule order : Schedule}, schedule.Reorders order →
      ∀ (workers others : Nat) (now : Float) (after : Network),
        rounds workers now schedule emulator.network = .ok after →
          rounds others now order emulator.network = .ok after) ∧
    (∀ {schedule order : Schedule}, schedule.Reorders order →
      (∃ after, rounds emulator.workers emulator.clock.now schedule emulator.network = .ok after) →
        emulator.tickInOrder order.users order.directions =
          emulator.tickInOrder schedule.users schedule.directions) ∧
    ∀ schedules : List Schedule,
      (∀ schedule ∈ schedules, schedule.Reorders (.inOrder emulator.network.users.size)) →
        ∀ result, emulator.runScheduled [] schedules = .ok result ↔
          emulator.runOnto [] schedules.length = .ok result := by
  refine ⟨?_, ?_, ?_⟩
  · intro schedule order horder workers others now after h
    exact rounds_of_reorders horder h
  · rintro schedule order horder ⟨after, h⟩
    exact tickInOrder_of_reorders horder h
  · intro schedules horders result
    exact runScheduled_eq_ok_iff horders

/-- Two users whose jobs are done backwards, by one worker or by none. -/
theorem jobs_in_any_order_backwards :
    ∃ built, (ofConfig { Config.standard with
        workers := 1, grid := { GridConfig.standard with metric := 4, duplexing := 1 }
        users := List.replicate 2 { UserConfig.standard with
          traffic := { TrafficConfig.standard with packetBits := 8000 } } }).2 = .ok built ∧
      ∃ emulator after result, built = .ok emulator ∧
        rounds emulator.workers emulator.clock.now (.inOrder 2) emulator.network = .ok after ∧
        rounds 0 emulator.clock.now ⟨[1, 0], [.uplink, .downlink]⟩ emulator.network = .ok after ∧
        emulator.tickInOrder [1, 0] [.uplink, .downlink] =
          emulator.tickInOrder [0, 1] [.downlink, .uplink] ∧
        emulator.runOnto [] 2 = .ok result ∧
        emulator.runScheduled [] (List.replicate 2 ⟨[1, 0], [.uplink, .downlink]⟩) = .ok result := by
  refine exists_ok_of_any (fun built ↦ built.toOption.any fun emulator ↦
    emulator.network.users.size == 2 && (emulator.runOnto [] 2).isOk &&
      (rounds emulator.workers emulator.clock.now (.inOrder 2) emulator.network).isOk)
    (by decide +kernel) fun built _ hbuilt ↦ ?_
  obtain ⟨emulator, rfl, hemulator⟩ := exists_ok_of_any _ hbuilt fun _ _ hgood ↦ hgood
  simp only [Bool.and_eq_true, beq_iff_eq] at hemulator
  obtain ⟨⟨hsize, hrun⟩, hrounds⟩ := hemulator
  obtain ⟨result, hresult, -⟩ := exists_ok_of_isOk hrun fun _ _ ↦ trivial
  obtain ⟨after, hafter, -⟩ := exists_ok_of_isOk hrounds fun _ _ ↦ trivial
  have hbackwards : (Schedule.inOrder 2).Reorders ⟨[1, 0], [.uplink, .downlink]⟩ :=
    ⟨by decide, by decide⟩
  obtain ⟨hnetwork, htick, hruns⟩ := jobs_in_any_order emulator
  refine ⟨emulator, after, result, rfl, hafter, hnetwork hbackwards _ _ _ _ hafter,
    htick hbackwards ⟨after, hafter⟩, hresult, (hruns _ ?_ result).mpr hresult⟩
  intro schedule hmem
  rw [List.eq_of_mem_replicate hmem, hsize]
  exact hbackwards.symm

end Emulator

end RadioAccess
