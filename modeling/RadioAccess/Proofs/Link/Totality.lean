import RadioAccess.Proofs.Egress.Totality
import RadioAccess.Proofs.Link.Counters

/-!
# Calls that Have a Result on a Link

As long as all that comes to a link, and so many times as much as it may repeat a block, fits a word, and there
is a number for one more block, a grant has a result.  On a link with its own traffic every call that is of use
has one, and no release lets go more than was admitted.  What a link may admit is its only limit: neither the
delays nor the order in which blocks come to the far end matter.
-/

namespace RadioAccess.Link

open Packet (totalBits)
open Reassembly (countable_of_totalBits_lt totalLength)

/-! ## What the far end is told -/

theorem parts_of_ofRepetition {harq next : Harq} {block : TransportBlock} {repetition : Repetition}
    {number : UInt32} {worth : UInt64} (hfailed : harq.Failed block repetition next) {call : Egress.Call}
    (hcall : (Event.attempted { block, number, worth, outcome := .ofRepetition repetition }).farEnd? =
      some call) : call.parts = block.packets.toList := by
  cases hfailed with
  | waits waiting hload hqueue => cases hcall
  | givenUp exhausted hload =>
    cases hcall
    exact congrArg Array.toList hload.packets

/-- An attempt takes its block out of the link and leaves the far end alone, which is then told of that
block, if it is told anything. -/
theorem takes_of_attempt? {link middle : Link} {bits : UInt64} {conditions : LinkConditions}
    {attempt : Attempt} (h : link.attempt? bits conditions = .ok (some attempt, middle)) :
    (∃ held, Takes link.view attempt.block held) ∧ middle.egress = link.egress ∧
      ∀ call, (Event.attempted attempt).farEnd? = some call →
        call.parts = attempt.block.packets.toList := by
  cases attemptStep_of_attempt? h with
  | again htake hagain =>
    cases hagain with
    | understood hnumber hdraw =>
      exact ⟨⟨_, takes_of_takeReady? htake hdraw⟩, rfl, fun call hcall ↦ by cases hcall; rfl⟩
    | failed hnumber hdraw hfailed =>
      exact ⟨⟨_, takes_of_takeReady? htake hdraw⟩, rfl, fun call hcall ↦
        parts_of_ofRepetition (Harq.failed_of_repetitionFailed hfailed) hcall⟩
  | fresh hnone hbits hdata hfresh =>
    cases hfresh with
    | understood hnext hdrain hdraw =>
      exact ⟨⟨_, takes_of_drain hnext hdrain hdraw⟩, rfl, fun call hcall ↦ by cases hcall; rfl⟩
    | failed hnext hdrain hdraw hfailed =>
      exact ⟨⟨_, takes_of_drain hnext hdrain hdraw⟩, rfl, fun call hcall ↦
        parts_of_ofRepetition (Harq.failed_of_firstFailed hfailed) hcall⟩

/-- Nothing is released by an attempt. -/
theorem ne_release {attempt : Attempt} {call : Egress.Call}
    (h : (Event.attempted attempt).farEnd? = some call) : call ≠ .release := by
  obtain ⟨block, number, worth, outcome⟩ := attempt
  cases outcome <;> cases h <;> exact nofun

/-- An attempt can be concluded if the far end takes what it is told. -/
theorem exists_conclude {link : Link} {attempt : Attempt}
    (h : ∀ call, (Event.attempted attempt).farEnd? = some call → ∃ result, link.egress.act call = .ok result) :
    ∃ result, link.conclude (some attempt) = .ok result := by
  obtain ⟨block, number, worth, outcome⟩ := attempt
  cases outcome with
  | waits => exact ⟨_, rfl⟩
  | understood understood =>
    obtain ⟨result, hact⟩ := h _ rfl
    simp only [Egress.act, bind_eq_ok_iff] at hact
    obtain ⟨egress, harrive, -⟩ := hact
    simp only [conclude, succeed, harrive, ok_bind]
    exact ⟨_, rfl⟩
  | givenUp exhausted =>
    obtain ⟨result, hact⟩ := h _ rfl
    simp only [Egress.act, bind_eq_ok_iff] at hact
    obtain ⟨egress, hlose, -⟩ := hact
    simp only [conclude, settleFailure, hlose, ok_bind]
    exact ⟨_, rfl⟩

/-! ## Runs -/

variable {direction : Direction} {config : LinkConfig} {profile : LinkProfile} {model : ErrorModel}
  {seed : UInt64} {calls : List Call} {journal : List Event} {after : Link}

/-- The far end was brought no more than came to the link, together with blocks that are on their way to
it. -/
theorem totalBits_parts_le {waiting : List Packet} {underway queue : List TransportBlock} {nextBlock : Nat}
    (hconserved : Conserved (admitted journal) waiting (underway ++ blocks journal queue) nextBlock) :
    totalBits ((journal.filterMap Event.farEnd?).flatMap Egress.Call.parts ++ cargo underway) ≤
      totalBits (entered journal) := by
  have hparts := Packet.totalBits_eq_of_perm (perm_parts_farEnd journal)
  have hentered := Packet.totalBits_eq_of_perm (perm_entered journal)
  have hcargo := hconserved.totalBits_cargo_le
  simp only [blocks, cargo_append, Packet.totalBits_append] at hparts hentered hcargo
  rw [Packet.totalBits_append]
  omega

/-- The far end takes what it is told of blocks that are on their way to it. -/
theorem exists_act_egress (h : (idle direction config profile model seed).run calls = .ok (journal, after))
    (htotal : totalBits (entered journal) < 2 ^ 64) {waiting : List Packet}
    {underway queue : List TransportBlock} {nextBlock : Nat}
    (hconserved : Conserved (admitted journal) waiting (underway ++ blocks journal queue) nextBlock)
    {call : Egress.Call} (hcall : call.parts = cargo underway)
    (hfits : call = .release → ∃ packets, Egress.CutFrom (journal.filterMap Event.farEnd?) packets ∧
      totalLength packets < 2 ^ 64) : ∃ result, after.egress.act call = .ok result := by
  obtain ⟨record, hfar, -⟩ := exists_farEnd_run h
  refine Egress.exists_act_of_run hfar ?_ hfits
  rw [List.flatMap_append, List.flatMap_singleton, hcall]
  exact countable_of_totalBits_lt ((totalBits_parts_le hconserved).trans_lt htotal)

/-- A grant has a result, also where packets are captured. -/
theorem exists_spend_of_run (h : (idle direction config profile model seed).run calls = .ok (journal, after))
    (htotal : totalBits (entered journal) < 2 ^ 64)
    (hmost : config.harq.maxRetransmissions.toNat * totalBits (admitted journal) < 2 ^ 64)
    (hblocks : after.buffer.hasData = true → after.nextBlock.toNat + 1 < 2 ^ 64) (bits : UInt64)
    (conditions : LinkConditions) : ∃ result, after.spend bits conditions = .ok result := by
  obtain ⟨⟨attempt, middle⟩, hattempt⟩ := (bounded_of_run h).exists_attempt? hmost hblocks bits conditions
  rw [spend_eq, hattempt, ok_bind]
  cases attempt with
  | none => exact ⟨_, rfl⟩
  | some attempt =>
    obtain ⟨⟨held, htakes⟩, hegress, hparts⟩ := takes_of_attempt? hattempt
    have hconserved := htakes.conserved ((reaches_of_run h).conserved conserved_nil)
    refine exists_conclude fun call hcall ↦ ?_
    have hcargo : call.parts = cargo [attempt.block] := (hparts call hcall).trans (List.append_nil _).symm
    rw [hegress]
    exact exists_act_egress h htotal hconserved hcargo fun hrelease ↦ absurd hrelease (ne_release hcall)

/-- All that comes to a link with its own traffic is admitted. -/
theorem totalBits_entered (hcalls : ∀ call ∈ calls, call.isTraffic = true)
    (h : (idle direction config profile model seed).run calls = .ok (journal, after)) :
    totalBits (entered journal) = totalBits (admitted journal) :=
  Packet.totalBits_eq_of_perm (perm_entered_admitted hcalls h)

namespace Carries

theorem within (h : (idle direction config profile model seed).Carries journal after) :
    Within config.harq.maxRetransmissions (totalBits (admitted journal)) after := by
  obtain ⟨calls, hcalls, hrun⟩ := h
  exact within_of_run hcalls hrun

/-- A release has a result. -/
theorem exists_release (h : (idle direction config profile model seed).Carries journal after)
    (htotal : totalBits (admitted journal) < 2 ^ 64) : ∃ result, after.release = .ok result := by
  obtain ⟨calls, hcalls, hrun⟩ := h
  have hconserved := (reaches_of_run hrun).conserved conserved_nil
  have hparts : Egress.Call.release.parts = cargo [] := rfl
  have hentered : totalBits (entered journal) < 2 ^ 64 := by rwa [totalBits_entered hcalls hrun]
  obtain ⟨result, hact⟩ := exists_act_egress hrun hentered hconserved hparts fun _ ↦
    ⟨admitted journal, cutFrom_of_run hcalls hrun, by
      rwa [totalLength_of_generated (numbered_of_run hcalls hrun).generated]⟩
  simp only [Egress.act, bind_eq_ok_iff] at hact
  obtain ⟨⟨departure, egress⟩, hrelease, -⟩ := hact
  simp only [Link.release, hrelease, ok_bind]
  exact ⟨_, rfl⟩

/-- It lets go no more than was admitted. -/
theorem bits_le_of_release (h : (idle direction config profile model seed).Carries journal after)
    {departure : Departure} {next : Link} (hrelease : after.release = .ok (departure, next)) :
    departure.bits.toNat ≤ totalBits (admitted journal) := by
  obtain ⟨calls, hcalls, hrun⟩ := h
  obtain ⟨record, hfar, -⟩ := exists_farEnd_run hrun
  obtain ⟨egress, hegress, -⟩ := view_of_release hrelease
  rw [← totalLength_of_generated (numbered_of_run hcalls hrun).generated]
  exact Egress.bits_le_of_release hfar (cutFrom_of_run hcalls hrun) hegress

/-- A request for traffic has a result as long as what was admitted before it and what it asks for fit a
word together. -/
theorem exists_generate (h : (idle direction config profile model seed).Carries journal after)
    {bits : UInt64} (hfits : totalBits (admitted journal) + bits.toNat < 2 ^ 64) (size : UInt64) :
    ∃ result, after.generate bits size = .ok result := by
  have hblocks := h.within.blocks
  have hcount := h.within.balanced.count
  rw [waitingBits] at hblocks
  have hsum : after.buffer.buffered.toNat + bits.toNat < 2 ^ 64 := by omega
  obtain ⟨result, hgenerate⟩ := after.buffer.exists_generate size after.now after.backhaul hsum
  simp only [Link.generate, hgenerate, ok_bind]
  exact ⟨_, rfl⟩

/-- A grant has a result. -/
theorem exists_spend (h : (idle direction config profile model seed).Carries journal after)
    (htotal : totalBits (admitted journal) < 2 ^ 64)
    (hmost : config.harq.maxRetransmissions.toNat * totalBits (admitted journal) < 2 ^ 64)
    (bits : UInt64) (conditions : LinkConditions) : ∃ result, after.spend bits conditions = .ok result := by
  have hwithin := h.within
  obtain ⟨calls, hcalls, hrun⟩ := h
  refine exists_spend_of_run hrun ?_ hmost (hwithin.exists_block htotal) bits conditions
  rwa [totalBits_entered hcalls hrun]

end Carries

/-! ## Limits -/

/-- Whether a link has had traffic of its own only, and has admitted at most so many bits of it. -/
def HasAdmitted (config : LinkConfig) (limit : Nat) (link : Link) : Prop :=
  ∃ direction profile model seed journal, (idle direction config profile model seed).Carries journal link ∧
    totalBits (admitted journal) ≤ limit

namespace HasAdmitted

variable {limit : Nat} {link next : Link}

theorem idle (direction : Direction) (config : LinkConfig) (profile : LinkProfile) (model : ErrorModel)
    (seed : UInt64) : (Link.idle direction config profile model seed).HasAdmitted config 0 :=
  ⟨direction, profile, model, seed, [], .refl _, Nat.le_refl 0⟩

/-- A call may add to what was admitted. -/
theorem act (h : link.HasAdmitted config limit) {call : Call} {events : List Event}
    (hcall : call.isTraffic = true) (hact : link.act call = .ok (events, next)) {bits : Nat}
    (hbits : totalBits (admitted events) ≤ bits) : next.HasAdmitted config (limit + bits) := by
  obtain ⟨direction, profile, model, seed, journal, hcarries, hlimit⟩ := h
  refine ⟨direction, profile, model, seed, _, hcarries.trans (.of_act call hcall hact), ?_⟩
  rw [admitted_append, Packet.totalBits_append]
  omega

theorem bridge_eq_none (h : link.HasAdmitted config limit) : link.bridge = none := by
  obtain ⟨direction, profile, model, seed, journal, hcarries, -⟩ := h
  exact hcarries.bridge_eq_none rfl

theorem step (h : link.HasAdmitted config limit) (now : Float) :
    (link.step now).HasAdmitted config limit := by
  have hact : link.act (.step now) = .ok ([.stepped now], link.step now) := rfl
  exact h.act rfl hact (Nat.le_refl 0)

theorem exists_release (h : link.HasAdmitted config limit) (hlimit : limit < 2 ^ 64) :
    ∃ departure next, link.release = .ok (departure, next) ∧ departure.bits.toNat ≤ limit ∧
      next.HasAdmitted config limit := by
  obtain ⟨direction, profile, model, seed, journal, hcarries, hjournal⟩ := h
  obtain ⟨⟨departure, next⟩, hrelease⟩ := hcarries.exists_release (hjournal.trans_lt hlimit)
  have hact : link.act .release = .ok ([.released departure], next) := by
    rw [Link.act, hrelease]
    rfl
  refine ⟨departure, next, hrelease, (hcarries.bits_le_of_release hrelease).trans hjournal, ?_⟩
  exact act ⟨direction, profile, model, seed, journal, hcarries, hjournal⟩ rfl hact (Nat.le_refl 0)

theorem exists_generate (h : link.HasAdmitted config limit) {bits : UInt64}
    (hfits : limit + bits.toNat < 2 ^ 64) (size : UInt64) :
    ∃ result next, link.generate bits size = .ok (result, next) ∧
      next.HasAdmitted config (limit + bits.toNat) := by
  obtain ⟨direction, profile, model, seed, journal, hcarries, hjournal⟩ := h
  have hsum : totalBits (admitted journal) + bits.toNat < 2 ^ 64 := by omega
  obtain ⟨⟨result, next⟩, hgenerate⟩ := hcarries.exists_generate hsum size
  have hact : link.act (.generate bits size) = .ok (link.generateEvents bits size result, next) := by
    rw [Link.act, hgenerate]
    rfl
  refine ⟨result, next, hgenerate, ?_⟩
  refine act ⟨direction, profile, model, seed, journal, hcarries, hjournal⟩ rfl hact ?_
  rcases admitted_generateEvents hgenerate with ⟨-, hbits, -⟩ | ⟨-, hnone⟩
  · exact Nat.le_of_eq hbits
  · rw [hnone]
    exact Nat.zero_le _

theorem exists_spend (h : link.HasAdmitted config limit) (hlimit : limit < 2 ^ 64)
    (hrepeated : config.harq.maxRetransmissions.toNat * limit < 2 ^ 64) (bits : UInt64)
    (conditions : LinkConditions) :
    ∃ value next, link.spend bits conditions = .ok (value, next) ∧ next.HasAdmitted config limit := by
  obtain ⟨direction, profile, model, seed, journal, hcarries, hjournal⟩ := h
  have hmost : config.harq.maxRetransmissions.toNat * totalBits (admitted journal) < 2 ^ 64 :=
    (Nat.mul_le_mul_left _ hjournal).trans_lt hrepeated
  obtain ⟨⟨value, next⟩, hspend⟩ := hcarries.exists_spend (hjournal.trans_lt hlimit) hmost bits conditions
  have hact : link.act (.grant bits conditions) = .ok (link.grantEvents bits conditions, next) := by
    rw [Link.act, hspend]
    rfl
  have hnone : totalBits (admitted (link.grantEvents bits conditions)) ≤ 0 := by
    rw [admitted_grantEvents]
    exact Nat.le_refl 0
  exact ⟨value, next, hspend,
    act ⟨direction, profile, model, seed, journal, hcarries, hjournal⟩ rfl hact hnone⟩

end HasAdmitted

end RadioAccess.Link
