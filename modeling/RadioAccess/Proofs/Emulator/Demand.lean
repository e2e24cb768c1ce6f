import RadioAccess.Proofs.Emulator.Interval
import RadioAccess.Proofs.Link.Totality

/-!
# What Users Demand

What a user offers in a run is settled at its start, as a source of traffic needs nothing but its own random
numbers.  A user whose links have admitted no more than their budgets allow, together with what it still
offers, moves on in an interval and takes every grant, and all that the record of the interval counts stays
within the budgets.
-/

namespace RadioAccess

/-- Bits that a source offers in each direction over so many intervals. -/
def TrafficSource.demand (source : TrafficSource) : Nat → Except Fault (PerDirection Nat)
  | 0 => .ok (.ofDirection fun _ ↦ 0)
  | count + 1 => do
    let (downlink, source) ← source.offer .downlink intervalSeconds
    let (uplink, source) ← source.offer .uplink intervalSeconds
    let later ← source.demand count
    return { downlink := downlink.toNat + later.downlink, uplink := uplink.toNat + later.uplink }

/-- Whether a link may admit so many bits: they fit a word, and so do all of them at each repetition. -/
structure LinkConfig.Affords (config : LinkConfig) (budget : Nat) : Prop where
  once : budget < 2 ^ 64
  repeated : config.harq.maxRetransmissions.toNat * budget < 2 ^ 64

/-- Whether no count of a record exceeds a limit. -/
structure LinkTick.IsWithin (limit : Nat) (tick : LinkTick) : Prop where
  generated : tick.generated.toNat ≤ limit
  rejected : tick.rejected.toNat ≤ limit
  released : tick.released.toNat ≤ limit

theorem LinkTick.IsWithin.mono {tick : LinkTick} {limit more : Nat} (h : tick.IsWithin limit)
    (hle : limit ≤ more) : tick.IsWithin more :=
  ⟨h.generated.trans hle, h.rejected.trans hle, h.released.trans hle⟩

theorem LinkTick.isWithin_none (limit : Nat) : LinkTick.none.IsWithin limit :=
  ⟨Nat.zero_le _, Nat.zero_le _, Nat.zero_le _⟩

namespace User

variable {config : LinkConfig} {spent : Nat} {bits : UInt64}

/-! ## One link -/

theorem exists_offerTo {link : Link} (hlink : link.HasAdmitted config spent)
    (hfits : spent + bits.toNat < 2 ^ 64) (size : UInt64) :
    ∃ generated rejected next, offerTo link bits size = .ok ((generated, rejected), next) ∧
      generated.toNat ≤ bits.toNat ∧ rejected.toNat ≤ bits.toNat ∧
      next.HasAdmitted config (spent + bits.toNat) := by
  unfold offerTo
  split
  · rename_i hzero
    rw [hzero]
    exact ⟨0, 0, link, rfl, Nat.le_refl _, Nat.le_refl _, hlink⟩
  · obtain ⟨result, next, hgenerate, hnext⟩ := hlink.exists_generate hfits size
    rw [hgenerate, ok_bind]
    cases result with
    | ok count => exact ⟨bits, 0, next, rfl, Nat.le_refl _, Nat.zero_le _, hnext⟩
    | error reason => exact ⟨0, bits, next, rfl, Nat.zero_le _, Nat.le_refl _, hnext⟩

/-- A link moves on as long as what it has admitted and what it is offered fit a word together. -/
theorem exists_stepLink (user : User) (direction : Direction) (now : Float) {source : TrafficSource}
    (hoffer : user.source.offer direction intervalSeconds = .ok (bits, source))
    (hlink : (user.links.get direction).HasAdmitted config spent)
    (hfits : spent + bits.toNat < 2 ^ 64) :
    ∃ link tick, user.stepLink now direction =
        .ok { user with
          links := user.links.set link direction
          source
          ticks := user.ticks.set tick direction } ∧
      link.HasAdmitted config (spent + bits.toNat) ∧ tick.IsWithin (spent + bits.toNat) := by
  obtain ⟨departure, released, hrelease, hgone, hreleased⟩ :=
    (hlink.step now).exists_release (by omega)
  obtain ⟨generated, rejected, offered, hoffered, hgenerated, hrejected, hadmitted⟩ :=
    exists_offerTo hreleased hfits source.config.packetBits
  have hingest := ingest_of_bridge_eq_none hadmitted.bridge_eq_none
  refine ⟨offered, { generated, rejected, released := departure.bits, captured := 0 }, ?_, hadmitted, ?_⟩
  · simp only [stepLink, hrelease, hoffer, hoffered, hingest, ok_bind]
    rfl
  · exact ⟨hgenerated.trans (Nat.le_add_left _ _), hrejected.trans (Nat.le_add_left _ _),
      hgone.trans (Nat.le_add_right _ _)⟩

/-! ## Budgets -/

/-- Whether a user keeps within its budgets for so many more intervals. -/
structure Funded (configs : PerDirection LinkConfig) (budgets : PerDirection Nat) (count : Nat)
    (user : User) : Prop where
  affords : ∀ direction, (configs.get direction).Affords (budgets.get direction)
  demand : ∃ later, user.source.demand count = .ok later ∧
    ∀ direction, ∃ spent, (user.links.get direction).HasAdmitted (configs.get direction) spent ∧
      spent + later.get direction ≤ budgets.get direction
  ticks : ∀ direction, (user.ticks.get direction).IsWithin (budgets.get direction)

namespace Funded

variable {configs : PerDirection LinkConfig} {budgets : PerDirection Nat} {count : Nat} {user : User}

theorem exists_step (h : user.Funded configs budgets (count + 1)) (now : Float) :
    ∃ next, user.step now = .ok next ∧ next.Funded configs budgets count := by
  obtain ⟨later, hdemand, hlinks⟩ := h.demand
  simp only [TrafficSource.demand, bind_eq_ok_iff, pure_eq_ok_iff] at hdemand
  obtain ⟨⟨downlink, between⟩, hdownlink, ⟨uplink, source⟩, huplink, rest, hrest, rfl⟩ := hdemand
  obtain ⟨spent, hdown, hdownfits⟩ := hlinks .downlink
  obtain ⟨used, hup, hupfits⟩ := hlinks .uplink
  have hdownbudget := (h.affords .downlink).once
  have hupbudget := (h.affords .uplink).once
  simp only [PerDirection.get] at hdownfits hupfits hdownbudget hupbudget
  obtain ⟨link, tick, hfirst, hlink, htick⟩ := exists_stepLink user .downlink now hdownlink hdown (by omega)
  obtain ⟨other, further, hsecond, hother, hfurther⟩ :=
    exists_stepLink
      { user with
        links := user.links.set link .downlink
        source := between
        ticks := user.ticks.set tick .downlink } .uplink now huplink hup (by omega)
  have hstep : user.step now = .ok
      { user with
        links := (user.links.set link .downlink).set other .uplink
        source
        ticks := (user.ticks.set tick .downlink).set further .uplink } := by
    rw [step, hfirst, ok_bind]
    exact hsecond
  refine ⟨_, hstep, h.affords, ⟨rest, hrest, fun direction ↦ ?_⟩, fun direction ↦ ?_⟩
  · cases direction with
    | downlink => exact ⟨spent + downlink.toNat, hlink, by simp only [PerDirection.get]; omega⟩
    | uplink => exact ⟨used + uplink.toNat, hother, by simp only [PerDirection.get]; omega⟩
  · cases direction with
    | downlink => exact htick.mono (by simp only [PerDirection.get]; omega)
    | uplink => exact hfurther.mono (by simp only [PerDirection.get]; omega)

theorem exists_spend (h : user.Funded configs budgets count) (direction : Direction) (bits : UInt64)
    (conditions : LinkConditions) :
    ∃ value link, (user.links.get direction).spend bits conditions = .ok (value, link) ∧
      { user with links := user.links.set link direction }.Funded configs budgets count := by
  obtain ⟨later, hdemand, hlinks⟩ := h.demand
  obtain ⟨spent, hlink, hfits⟩ := hlinks direction
  obtain ⟨honce, hrepeated⟩ := h.affords direction
  have hle : spent ≤ budgets.get direction := by omega
  obtain ⟨value, link, hspend, hnext⟩ := hlink.exists_spend (hle.trans_lt honce)
    ((Nat.mul_le_mul_left _ hle).trans_lt hrepeated) bits conditions
  refine ⟨value, link, hspend, h.affords, ⟨later, hdemand, fun other ↦ ?_⟩, h.ticks⟩
  by_cases hsame : direction = other
  · subst hsame
    refine ⟨spent, ?_, hfits⟩
    rwa [PerDirection.get_set_self]
  · rw [PerDirection.get_set_of_ne _ _ hsame]
    exact hlinks other

end Funded

end User

end RadioAccess
