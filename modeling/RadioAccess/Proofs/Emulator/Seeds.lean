import RadioAccess.Proofs.Emulator.Balance
import RadioAccess.Proofs.Random.Seeds

/-!
# Seeds of an Emulation

The streams of an emulation are numbered one after the other, three for each user.  As long as a word can
count them, no two of them have the same number, and so no two of them have the same seed.
-/

namespace RadioAccess.Emulator

/-- The seeds of a user: of its downlink, of its uplink and of its traffic. -/
def seedsOf (master : UInt64) (user : Nat) : List UInt64 :=
  [(userSeeds master user).1.downlink, (userSeeds master user).1.uplink, (userSeeds master user).2]

/-- The seeds of the first `users` users. -/
def seedsOfAll (master : UInt64) (users : Nat) : List UInt64 :=
  (List.range users).flatMap (seedsOf master)

/-- The streams of a user have three numbers in a row. -/
theorem seedsOf_eq (master : UInt64) (user : Nat) :
    seedsOf master user = (List.range' (3 * user) 3).map fun stream ↦ Random.seedFor master stream.toUInt64 := by
  have hbase : (3 * user).toUInt64 = user.toUInt64 * streamsPerUser := by
    rw [Nat.mul_comm]
    exact UInt64.ofNat_mul user 3
  have hnumber (stream : Nat) : (3 * user + stream).toUInt64 =
      user.toUInt64 * streamsPerUser + stream.toUInt64 := by
    rw [← hbase]
    exact UInt64.ofNat_add _ _
  simp only [List.range'_succ, List.range'_zero, List.map_cons, List.map_nil, Nat.add_assoc, hnumber, hbase]
  simp [seedsOf, userSeeds, PerDirection.ofDirection, Direction.index]

theorem seedsOfAll_eq (master : UInt64) (users : Nat) : seedsOfAll master users =
    (List.range (3 * users)).map fun stream ↦ Random.seedFor master stream.toUInt64 := by
  induction users with
  | zero => rfl
  | succ users ih =>
    rw [seedsOfAll, List.range_succ, List.flatMap_append, ← seedsOfAll, ih, List.flatMap_singleton, seedsOf_eq,
      ← List.map_append]
    congr 1
    rw [List.range_eq_range', List.range_eq_range', Nat.mul_succ, ← List.range'_append_1, Nat.zero_add]

/-- A user whose streams have the seeds of its number. -/
structure Seeded (master : UInt64) (number : Nat) (user : User) : Prop where
  traffic : user.source.stream = .ofSeed (userSeeds master number).2
  repetitions : ∀ direction, (user.links.get direction).harq.stream =
    .ofSeed (Random.seedFor ((userSeeds master number).1.get direction) 0)
  delays : ∀ direction, (user.links.get direction).egress.stream =
    .ofSeed (Random.seedFor ((userSeeds master number).1.get direction) 1)

theorem seeded_of_setUp {config : Config} {channel : Channel} {emulator : Emulator}
    (h : (setUp config channel).2 = .ok (.ok emulator)) {number : Nat} {user : User}
    (huser : emulator.network.users[number]? = some user) : Seeded config.seed number user := by
  obtain ⟨profiles, husers⟩ := getElem?_users_of_setUp h
  rw [husers] at huser
  obtain ⟨entry, -, rfl⟩ := Option.map_eq_some_iff.1 huser
  exact ⟨rfl, fun direction ↦ by cases direction <;> rfl, fun direction ↦ by cases direction <;> rfl⟩

/-- **No two streams are seeded alike.**  Seeding is one-to-one in the number of a stream, and in the master
seed.  Therefore the links and the traffic of all users of an emulation have different seeds as long as a word
can count them, and the two streams of a link, one for its repetitions and one for its delays, have different
seeds. -/
theorem seeds_pairwise_distinct :
    (∀ master, Function.Injective (Random.seedFor master)) ∧
    (∀ index, Function.Injective fun master ↦ Random.seedFor master index) ∧
    (∀ master users, 3 * users < 2 ^ 64 → (seedsOfAll master users).Nodup) ∧
    (∀ seed, Random.seedFor seed 0 ≠ Random.seedFor seed 1) ∧
    ∀ config channel emulator, (setUp config channel).2 = .ok (.ok emulator) →
      ∀ number user, emulator.network.users[number]? = some user → Seeded config.seed number user := by
  refine ⟨Random.seedFor_injective, Random.seedFor_master_injective, fun master users hcount ↦ ?_,
    fun seed h ↦ ?_, fun config channel emulator h number user huser ↦ seeded_of_setUp h huser⟩
  · rw [seedsOfAll_eq]
    refine List.Nodup.map_on (fun stream hstream other hother h ↦ ?_) List.nodup_range
    have hnumber := congrArg UInt64.toNat (Random.seedFor_injective master h)
    rw [List.mem_range] at hstream hother
    rwa [UInt64.toNat_ofNat_of_lt' (hstream.trans hcount), UInt64.toNat_ofNat_of_lt' (hother.trans hcount)]
      at hnumber
  · exact absurd (Random.seedFor_injective seed h) (by decide)

/-- Two users have six streams, and their links and sources are set up with the seeds of these. -/
theorem seeds_pairwise_distinct_of_two :
    (seedsOfAll 42 2).length = 6 ∧ (seedsOfAll 42 2).Nodup ∧
      ∃ emulator, (ofConfig { Config.standard with seed := 42, users := [.standard, .standard] }).2 =
          .ok (.ok emulator) ∧
        ∀ number user, emulator.network.users[number]? = some user → Seeded 42 number user := by
  obtain ⟨-, -, hdistinct, -, hseeded⟩ := seeds_pairwise_distinct
  refine ⟨rfl, hdistinct 42 2 (by decide), ?_⟩
  obtain ⟨built, hbuilt, emulator, rfl⟩ : ∃ built,
      (ofConfig { Config.standard with seed := 42, users := [.standard, .standard] }).2 = .ok built ∧
        ∃ emulator, built = .ok emulator :=
    exists_ok_of_any (·.isOk) (by decide +kernel) fun built _ hwide ↦ by
      cases built with
      | error reason => cases hwide
      | ok emulator => exact ⟨emulator, rfl⟩
  exact ⟨emulator, hbuilt, hseeded _ _ _ hbuilt⟩

end RadioAccess.Emulator
