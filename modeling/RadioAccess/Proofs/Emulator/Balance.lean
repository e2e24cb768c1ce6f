import RadioAccess.Proofs.Emulator.Interval

/-!
# The Balance of an Emulation

A link that is not tapped never releases more than it admitted, in whatever order blocks are repeated,
given up and put together.  So neither does a direction of an emulation without taps, as its totals are
sums over links.
-/

namespace RadioAccess.Emulator

open Link (Carries admitted releasedBits)
open Packet (totalBits)
open TransmitBuffer (packetCount)

/-! ## Setting up -/

theorem getElem?_usersOf (config : Config) (profiles : PerDirection LinkProfile) (users : List UserConfig)
    (index i : Nat) :
    (usersOf config profiles index users)[i]? = users[i]?.map (userOf config profiles (index + i)) := by
  induction users generalizing index i with
  | nil => rfl
  | cons user users ih =>
    cases i with
    | zero => rfl
    | succ i =>
      rw [usersOf, List.getElem?_cons_succ, List.getElem?_cons_succ, ih, Nat.add_right_comm, Nat.add_assoc]

theorem eq_ofGrids_of_setUp {config : Config} {channel : Channel} {emulator : Emulator}
    (h : (setUp config channel).2 = .ok (.ok emulator)) :
    ∃ grids, emulator = ofGrids config channel grids := by
  unfold setUp at h
  split at h
  · cases h
  · split at h
    · cases h
    · cases h
    · simp only [bind_eq_ok_iff, pure_eq_ok_iff, Except.ok.injEq] at h
      obtain ⟨-, -, rfl⟩ := h
      exact ⟨_, rfl⟩

/-- The users of an emulation that was set up are those of its configuration. -/
theorem getElem?_users_of_setUp {config : Config} {channel : Channel} {emulator : Emulator}
    (h : (setUp config channel).2 = .ok (.ok emulator)) :
    ∃ profiles, ∀ i : Nat, emulator.network.users[i]? = config.users[i]?.map (userOf config profiles i) := by
  obtain ⟨grids, rfl⟩ := eq_ofGrids_of_setUp h
  refine ⟨.ofDirection fun direction ↦ profileOf config.modulation (grids.get direction).layout, fun i ↦ ?_⟩
  simp only [ofGrids, List.getElem?_toArray, getElem?_usersOf, Nat.zero_add]

/-- A user of an emulation that was set up has idle links. -/
theorem exists_user_of_setUp {config : Config} {channel : Channel} {emulator : Emulator}
    (h : (setUp config channel).2 = .ok (.ok emulator)) {i : Nat} {user : User}
    (huser : emulator.network.users[i]? = some user) :
    ∃ entry, config.users[i]? = some entry ∧ user.source.config = entry.traffic ∧
      ∀ direction, ∃ profile seed, user.links.get direction =
        .idle direction (config.links.get direction) profile config.errorModel seed := by
  obtain ⟨profiles, husers⟩ := getElem?_users_of_setUp h
  rw [husers] at huser
  obtain ⟨entry, hentry, rfl⟩ := Option.map_eq_some_iff.1 huser
  refine ⟨entry, hentry, rfl, fun direction ↦ ?_⟩
  cases direction with
  | downlink => exact ⟨_, _, rfl⟩
  | uplink => exact ⟨_, _, rfl⟩

theorem isUntapped_of_setUp {config : Config} {channel : Channel} {emulator : Emulator}
    (h : (setUp config channel).2 = .ok (.ok emulator)) :
    ∀ user ∈ emulator.network.users, user.IsUntapped := by
  intro user huser direction
  obtain ⟨i, hi⟩ := Array.mem_iff_getElem?.1 huser
  obtain ⟨entry, -, -, hlinks⟩ := exists_user_of_setUp h hi
  obtain ⟨profile, seed, hidle⟩ := hlinks direction
  rw [hidle]
  rfl

/-! ## Records of links -/

/-- What so many intervals bring to a link of a user. -/
def linkTicks (emulator : Emulator) (user : Nat) (direction : Direction) : Nat → List LinkTick
  | 0 => []
  | count + 1 =>
    match emulator.tick with
    | .ok (_, next) =>
      (next.network.users[user]?.map (·.ticks.get direction)).toList ++ next.linkTicks user direction count
    | .error _ => []

/-- Bits that a link released in some intervals. -/
def releasedOf (ticks : List LinkTick) : Nat := (ticks.map (·.released.toNat)).sum

/-- Bits that a link admitted in some intervals. -/
def generatedOf (ticks : List LinkTick) : Nat := (ticks.map (·.generated.toNat)).sum

/-- Packets of a given size that a link admitted in some intervals. -/
def packetsOf (size : UInt64) (ticks : List LinkTick) : Nat :=
  (ticks.map fun tick ↦ packetCount tick.generated size).sum

variable {emulator after : Emulator} {done ticks : List Tick} {count : Nat} {direction : Direction}

/-- A link does in a run what the records of its intervals say. -/
theorem exists_carries_of_runOnto (huntapped : ∀ user ∈ emulator.network.users, user.IsUntapped)
    (h : emulator.runOnto done count = .ok (ticks, after)) {i : Nat} {user : User}
    (huser : emulator.network.users[i]? = some user) (direction : Direction) :
    ∃ journal link, (user.links.get direction).Carries journal link ∧
      releasedBits journal = releasedOf (emulator.linkTicks i direction count) ∧
      totalBits (admitted journal) = generatedOf (emulator.linkTicks i direction count) ∧
      (admitted journal).length =
        packetsOf user.source.config.packetBits (emulator.linkTicks i direction count) := by
  induction count generalizing emulator done user with
  | zero => exact ⟨[], _, .refl _, rfl, rfl, rfl⟩
  | succ count ih =>
    rw [runOnto, bind_eq_ok_iff] at h
    obtain ⟨⟨tick, next⟩, htick, hrest⟩ := h
    obtain ⟨hadvance, -⟩ := advance_of_tick huntapped htick
    obtain ⟨moved, hmoved, hadvances⟩ := hadvance.each huser
    obtain ⟨journal, hcarries, hrecords⟩ := hadvances.links direction
    obtain ⟨later, link, hlater, hreleased, hgenerated, hpackets⟩ :=
      ih (hadvance.isUntapped huntapped) hrest hmoved
    have hticks : emulator.linkTicks i direction (count + 1) =
        moved.ticks.get direction :: next.linkTicks i direction count := by
      simp [linkTicks, htick, hmoved]
    refine ⟨journal ++ later, link, hcarries.trans hlater, ?_, ?_, ?_⟩
    · rw [hticks, Link.releasedBits_append, hrecords.released, hreleased]
      rfl
    · rw [hticks, Link.admitted_append, Packet.totalBits_append, hrecords.generated, hgenerated]
      rfl
    · rw [hticks, Link.admitted_append, List.length_append, hrecords.packets, hpackets, hadvances.config]
      rfl

/-! ## Totals -/

theorem sum_map_toList (users : Array User) (f : User → Nat) :
    (users.toList.map f).sum = ((List.range users.size).map fun i ↦ (users[i]?.map f).toList.sum).sum := by
  congr 1
  refine List.ext_getElem (by simp) fun i hleft hright ↦ ?_
  rw [List.length_map, Array.length_toList] at hleft
  simp [hleft]

/-- If the total of an interval is the sum of a reading over the links of the direction, then so is the
total of a run. -/
theorem sum_of_runOnto (whole : DirectionTick → Nat) (reading : LinkTick → Nat) (direction : Direction)
    (hwhole : ∀ {network : Network} {tick : DirectionTick},
      DirectionTick.ofNetwork network direction = .ok tick →
        whole tick = (network.users.toList.map fun user ↦ reading (user.ticks.get direction)).sum)
    (huntapped : ∀ user ∈ emulator.network.users, user.IsUntapped)
    (h : emulator.runOnto done count = .ok (ticks, after)) :
    ∃ later, ticks = done.reverse ++ later ∧
      (later.map fun tick ↦ whole (tick.directions.get direction)).sum =
        ((List.range emulator.network.users.size).map fun i ↦
          ((emulator.linkTicks i direction count).map reading).sum).sum := by
  induction count generalizing emulator done with
  | zero =>
    cases h
    exact ⟨[], (List.append_nil _).symm, by simp [linkTicks]⟩
  | succ count ih =>
    rw [runOnto, bind_eq_ok_iff] at h
    obtain ⟨⟨tick, next⟩, htick, hrest⟩ := h
    obtain ⟨hadvance, htotals⟩ := advance_of_tick huntapped htick
    obtain ⟨later, rfl, hlater⟩ := ih (hadvance.isUntapped huntapped) hrest
    have hfirst := hwhole (htotals direction)
    rw [sum_map_toList, hadvance.size] at hfirst
    have hticks (i : Nat) : ((emulator.linkTicks i direction (count + 1)).map reading).sum =
        (next.network.users[i]?.map fun user ↦ reading (user.ticks.get direction)).toList.sum +
          ((next.linkTicks i direction count).map reading).sum := by
      simp only [linkTicks, htick, List.map_append, List.sum_append]
      cases next.network.users[i]? <;> rfl
    refine ⟨tick :: later, by simp, ?_⟩
    calc
      ((tick :: later).map fun tick ↦ whole (tick.directions.get direction)).sum =
          whole (tick.directions.get direction) +
            (later.map fun tick ↦ whole (tick.directions.get direction)).sum := rfl
      _ = ((List.range emulator.network.users.size).map fun i ↦
            (next.network.users[i]?.map fun user ↦ reading (user.ticks.get direction)).toList.sum +
              ((next.linkTicks i direction count).map reading).sum).sum := by
        rw [hfirst, hlater, hadvance.size, List.sum_map_add]
      _ = ((List.range emulator.network.users.size).map fun i ↦
            ((emulator.linkTicks i direction (count + 1)).map reading).sum).sum := by
        simp only [hticks]

/-- A link without taps never releases more bits than it admitted, as long as the numbers of packets that
may leave in any order do not come round; and in a run of an emulation no direction ever does. -/
theorem never_releases_more_than_admitted :
    (∀ (direction : Direction) (config : LinkConfig) (profile : LinkProfile) (model : ErrorModel)
        (seed : UInt64) (calls : List Link.Call) (journal : List Link.Event) (after : Link),
      (∀ call ∈ calls, call.attaches = false) →
      (Link.idle direction config profile model seed).run calls = .ok (journal, after) →
      (config.egress = .reassembly false → (admitted journal).length < 2 ^ 32) →
      releasedBits journal ≤ (Link.idle direction config profile model seed).generatedBits calls) ∧
    ∀ (config : Config) (channel : Channel) (emulator after : Emulator) (count : Nat) (ticks : List Tick)
        (direction : Direction),
      (setUp config channel).2 = .ok (.ok emulator) →
      emulator.runOnto [] count = .ok (ticks, after) →
      ((config.links.get direction).egress = .reassembly false →
        ∀ (i : Nat) (user : UserConfig), config.users[i]? = some user →
          packetsOf user.traffic.packetBits (emulator.linkTicks i direction count) < 2 ^ 32) →
      (ticks.map fun tick ↦ (tick.directions.get direction).released.toNat).sum ≤
        (ticks.map fun tick ↦ (tick.directions.get direction).generated.toNat).sum := by
  refine ⟨?_, ?_⟩
  · intro direction config profile model seed calls journal after hcalls hrun hfew
    exact Link.releasedBits_le_generatedBits hcalls hfew hrun
  · intro config channel emulator after count ticks direction hsetup hrun hfew
    have huntapped := isUntapped_of_setUp hsetup
    obtain ⟨later, hlater, hreleased⟩ := sum_of_runOnto (·.released.toNat) (·.released.toNat) direction
      (fun hnetwork ↦ (DirectionTick.toNat_of_ofNetwork hnetwork).2) huntapped hrun
    obtain ⟨same, hsame, hgenerated⟩ := sum_of_runOnto (·.generated.toNat) (·.generated.toNat) direction
      (fun hnetwork ↦ (DirectionTick.toNat_of_ofNetwork hnetwork).1) huntapped hrun
    rw [List.reverse_nil, List.nil_append] at hlater hsame
    rw [← hlater] at hreleased
    rw [← hsame] at hgenerated
    rw [hreleased, hgenerated]
    refine List.sum_le_sum fun i hi ↦ ?_
    have hlt := List.mem_range.1 hi
    have huser : emulator.network.users[i]? = some emulator.network.users[i] := Array.getElem?_eq_getElem hlt
    obtain ⟨entry, hentry, hconfig, hlinks⟩ := exists_user_of_setUp hsetup huser
    obtain ⟨profile, seed, hidle⟩ := hlinks direction
    obtain ⟨journal, link, hcarries, hjournal, hadmitted, hpackets⟩ :=
      exists_carries_of_runOnto huntapped hrun huser direction
    rw [hidle] at hcarries
    have hle := hcarries.releasedBits_le fun hmode ↦ by
      rw [hpackets, hconfig]
      exact hfew hmode i entry hentry
    rwa [hjournal, hadmitted] at hle

/-- A packet is released with its full length though its first crumb is thrown away, and two users are served
over two intervals. -/
theorem never_releases_more_than_admitted_despite_crumbs :
    (∃ state,
      (Link.idle .downlink { LinkConfig.standard with backhaul := .none, egress := .reassembly false } .standard
          (.flat 0.0) 7).run
        [.step 0.0, .generate 40 40, .ingest, .grant 5 ⟨10, 20.0, 100.0⟩, .grant 35 ⟨10, 20.0, 100.0⟩,
          .release] = .ok state ∧
      releasedBits state.1 = 40 ∧
      releasedBits state.1 ≤
        (Link.idle .downlink { LinkConfig.standard with backhaul := .none, egress := .reassembly false } .standard
          (.flat 0.0) 7).generatedBits
        [.step 0.0, .generate 40 40, .ingest, .grant 5 ⟨10, 20.0, 100.0⟩, .grant 35 ⟨10, 20.0, 100.0⟩,
          .release]) ∧
    ∃ built, (ofConfig { Config.standard with
        workers := 1, grid := { GridConfig.standard with metric := 4, duplexing := 1 }
        links := .ofDirection fun _ ↦
          { LinkConfig.standard with backhaul := .none, egress := .reassembly false }
        users := List.replicate 2 { UserConfig.standard with
          traffic := { TrafficConfig.standard with packetBits := 8000 } } }).2 = .ok built ∧
      ∃ emulator result, built = .ok emulator ∧ emulator.runOnto [] 2 = .ok result ∧
        0 < (result.1.map fun tick ↦ tick.directions.downlink.released.toNat).sum ∧
        (result.1.map fun tick ↦ tick.directions.downlink.released.toNat).sum ≤
          (result.1.map fun tick ↦ tick.directions.downlink.generated.toNat).sum := by
  obtain ⟨hlink, hemulation⟩ := never_releases_more_than_admitted
  constructor
  · refine exists_ok_of_any (fun state ↦ (admitted state.1).length < 2 ^ 32 && releasedBits state.1 == 40)
      (by decide +kernel) fun state hrun hstate ↦ ?_
    rw [Bool.and_eq_true, decide_eq_true_eq, beq_iff_eq] at hstate
    exact ⟨hstate.2, hlink _ _ _ _ _ _ _ _ (by decide) hrun fun _ ↦ hstate.1⟩
  · refine exists_ok_of_any (fun built ↦ built.toOption.any fun emulator ↦
      (emulator.runOnto [] 2).toOption.any fun result ↦
        0 < (result.1.map fun tick ↦ tick.directions.downlink.released.toNat).sum &&
          packetsOf 8000 (emulator.linkTicks 0 .downlink 2) < 2 ^ 32 &&
            packetsOf 8000 (emulator.linkTicks 1 .downlink 2) < 2 ^ 32)
      (by decide +kernel) fun built hbuilt hgood ↦ ?_
    obtain ⟨emulator, rfl, hemulator⟩ := exists_ok_of_any _ hgood fun _ _ hgood ↦ hgood
    obtain ⟨result, hresult, hfew⟩ := exists_ok_of_any _ hemulator fun _ _ hgood ↦ hgood
    simp only [Bool.and_eq_true, decide_eq_true_eq] at hfew
    refine ⟨emulator, result, rfl, hresult, hfew.1.1, ?_⟩
    refine hemulation _ _ _ _ 2 _ .downlink hbuilt hresult fun _ i user huser ↦ ?_
    obtain ⟨⟨-, hfirst⟩, hsecond⟩ := hfew
    match i with
    | 0 =>
      cases huser
      exact hfirst
    | 1 =>
      cases huser
      exact hsecond
    | i + 2 => cases huser

end RadioAccess.Emulator
