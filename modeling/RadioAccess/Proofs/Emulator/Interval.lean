import RadioAccess.Proofs.Emulator.Order
import RadioAccess.Proofs.Link.Balance

/-!
# What an Interval Does

In an interval each link of a user that is not tapped makes a few calls: it moves on, lets go what is due,
takes in new traffic, and spends what grants it is handed.  The record of the interval says how many bits
were taken in and let go, and the totals of a direction are the sums of the records of its links.
-/

namespace RadioAccess

open Link (Carries admitted releasedBits)
open Packet (totalBits)
open TransmitBuffer (packetCount)

/-! ## Links -/

/-- Whether the record of an interval tells what happened on a link of which packets have a given size. -/
structure LinkTick.Records (tick : LinkTick) (size : UInt64) (journal : List Link.Event) : Prop where
  released : releasedBits journal = tick.released.toNat
  generated : totalBits (admitted journal) = tick.generated.toNat
  packets : (admitted journal).length = packetCount tick.generated size

/-- What happens without anything being taken in or let go is not recorded. -/
theorem LinkTick.Records.append {tick : LinkTick} {size : UInt64} {journal quiet : List Link.Event}
    (h : tick.Records size journal) (hadmitted : admitted quiet = []) (hreleased : releasedBits quiet = 0) :
    tick.Records size (journal ++ quiet) := by
  have hsame : admitted (journal ++ quiet) = admitted journal := by
    rw [Link.admitted_append, hadmitted, List.append_nil]
  refine ⟨?_, by rw [hsame, h.generated], by rw [hsame, h.packets]⟩
  rw [Link.releasedBits_append, hreleased, Nat.add_zero, h.released]

namespace User

/-- To offer traffic to a link is at most one request. -/
theorem carries_of_offerTo {link next : Link} {bits size generated rejected : UInt64}
    (h : offerTo link bits size = .ok ((generated, rejected), next)) :
    ∃ journal, link.Carries journal next ∧ releasedBits journal = 0 ∧
      totalBits (admitted journal) = generated.toNat ∧
        (admitted journal).length = packetCount generated size := by
  have hzero : totalBits [] = (0 : UInt64).toNat ∧ ([] : List Packet).length = packetCount 0 size :=
    ⟨rfl, (TransmitBuffer.packetCount_zero size).symm⟩
  unfold offerTo at h
  split at h
  · cases h
    exact ⟨[], .refl link, rfl, hzero⟩
  rw [bind_eq_ok_iff] at h
  obtain ⟨⟨result, requested⟩, hgenerate, h⟩ := h
  have hcarries : link.Carries (link.generateEvents bits size result) requested :=
    .of_act (.generate bits size) rfl (by rw [Link.act, hgenerate]; rfl)
  have hreleased := Link.releasedBits_generateEvents link bits size result
  rcases Link.admitted_generateEvents hgenerate with ⟨⟨count, rfl⟩, hadmitted⟩ | ⟨⟨reason, rfl⟩, hnone⟩
  · cases h
    exact ⟨_, hcarries, hreleased, hadmitted⟩
  · cases h
    exact ⟨_, hcarries, hreleased, by rw [hnone]; exact hzero⟩

/-- To offer traffic takes nothing but random numbers. -/
theorem eq_of_offer {source next : TrafficSource} {direction : Direction} {seconds : Float}
    {bits : UInt64} (h : source.offer direction seconds = .ok (bits, next)) :
    ∃ stream, next = { source with stream } := by
  unfold TrafficSource.offer at h
  split at h
  · split at h
    · cases h
      exact ⟨_, rfl⟩
    · cases h
      exact ⟨source.stream, rfl⟩
  · simp only [bind_eq_ok_iff, pure_eq_ok_iff] at h
    obtain ⟨⟨packets, stream⟩, -, product, -, heq⟩ := h
    cases heq
    exact ⟨_, rfl⟩
  · cases h
    exact ⟨source.stream, rfl⟩

theorem ingest_of_bridge_eq_none {link : Link} (h : link.bridge = none) : link.ingest = .ok (0, link) := by
  rw [Link.ingest, h]

/-- A link without a bridge moves on by calls that are of use on a link with its own traffic. -/
theorem eq_of_stepLink {user next : User} {now : Float} {direction : Direction}
    (hbridge : (user.links.get direction).bridge = none) (h : user.stepLink now direction = .ok next) :
    ∃ journal link tick stream, (user.links.get direction).Carries journal link ∧
      tick.Records user.source.config.packetBits journal ∧
      next =
        { user with
          links := user.links.set link direction
          source := { user.source with stream }
          ticks := user.ticks.set tick direction } := by
  simp only [stepLink, bind_eq_ok_iff, pure_eq_ok_iff] at h
  obtain ⟨⟨departure, released⟩, hrelease, ⟨bits, _⟩, hoffer, ⟨⟨generated, rejected⟩, offered⟩, hoffered,
    ⟨captured, ingested⟩, hingest, rfl⟩ := h
  obtain ⟨stream, rfl⟩ := eq_of_offer hoffer
  obtain ⟨journal, hcarries, hquiet, hadmitted, hpackets⟩ := carries_of_offerTo hoffered
  have hstep : (user.links.get direction).Carries [.stepped now] ((user.links.get direction).step now) :=
    .of_act (.step now) rfl rfl
  have hgone : ((user.links.get direction).step now).Carries [.released departure] released :=
    .of_act .release rfl (by rw [Link.act, hrelease]; rfl)
  have hall := (hstep.trans hgone).trans hcarries
  rw [ingest_of_bridge_eq_none (hall.bridge_eq_none hbridge)] at hingest
  cases hingest
  have hsame : admitted ([.stepped now] ++ [.released departure] ++ journal) = admitted journal := rfl
  refine ⟨_, _, _, stream, hall, ⟨?_, ?_, ?_⟩, rfl⟩
  · rw [Link.releasedBits_append, hquiet]
    rfl
  · rw [hsame, hadmitted]
  · rw [hsame, hpackets]

/-- Whether a user has come to another one in an interval: each of its links has moved on as the record of
the interval says. -/
structure Advances (user next : User) : Prop where
  config : next.source.config = user.source.config
  links : ∀ direction, ∃ journal, (user.links.get direction).Carries journal (next.links.get direction) ∧
    (next.ticks.get direction).Records user.source.config.packetBits journal

/-- Whether no link of a user is tapped. -/
def IsUntapped (user : User) : Prop := ∀ direction, (user.links.get direction).bridge = none

theorem Advances.isUntapped {user next : User} (h : user.Advances next) (huser : user.IsUntapped) :
    next.IsUntapped := by
  intro direction
  obtain ⟨journal, hcarries, -⟩ := h.links direction
  exact hcarries.bridge_eq_none (huser direction)

theorem advances_of_step {user next : User} {now : Float} (huser : user.IsUntapped)
    (h : user.step now = .ok next) : user.Advances next := by
  simp only [step, bind_eq_ok_iff] at h
  obtain ⟨middle, hdownlink, huplink⟩ := h
  obtain ⟨journal, link, tick, stream, hcarries, hrecords, rfl⟩ :=
    eq_of_stepLink (huser .downlink) hdownlink
  have hkept : (user.links.set link .downlink).get .uplink = user.links.get .uplink := rfl
  obtain ⟨later, other, further, last, hlater, hfurther, rfl⟩ :=
    eq_of_stepLink (hkept ▸ huser .uplink) huplink
  refine ⟨rfl, fun direction ↦ ?_⟩
  cases direction with
  | downlink => exact ⟨journal, hcarries, hrecords⟩
  | uplink => exact ⟨later, hlater, hfurther⟩

/-- A grant to a link of a user belongs to the interval. -/
theorem Advances.grant {user middle : User} {direction : Direction} {bits value : UInt64}
    {conditions : LinkConditions} {link : Link} (h : user.Advances middle)
    (hspend : (middle.links.get direction).spend bits conditions = .ok (value, link)) :
    user.Advances { middle with links := middle.links.set link direction } := by
  refine ⟨h.config, fun other ↦ ?_⟩
  obtain ⟨journal, hcarries, hrecords⟩ := h.links other
  by_cases hsame : direction = other
  · subst hsame
    have hgrant : (middle.links.get direction).Carries
        ((middle.links.get direction).grantEvents bits conditions) link :=
      .of_act (.grant bits conditions) rfl (by rw [Link.act, hspend]; rfl)
    have hquiet := hrecords.append (Link.admitted_grantEvents (middle.links.get direction) bits conditions)
      (Link.releasedBits_grantEvents _ bits conditions)
    refine ⟨_, ?_, hquiet⟩
    rw [PerDirection.get_set_self]
    exact hcarries.trans hgrant
  · rw [PerDirection.get_set_of_ne _ _ hsame]
    exact ⟨journal, hcarries, hrecords⟩

end User

/-! ## Rounds -/

namespace Network

variable {network after : Network} {now : Float}

theorem getElem?_of_stepUser {i j : Nat} (hne : j ≠ i) (h : network.stepUser j now = .ok after) :
    after.users[i]? = network.users[i]? := by
  rcases stepUser_eq_ok_iff.1 h with ⟨-, rfl⟩ | ⟨other, stepped, -, -, rfl⟩
  · rfl
  · exact Array.getElem?_setIfInBounds_ne hne

theorem exists_step_of_stepUser {i : Nat} {user : User} (h : network.stepUser i now = .ok after)
    (huser : network.users[i]? = some user) :
    ∃ stepped, user.step now = .ok stepped ∧ after.users[i]? = some stepped := by
  rcases stepUser_eq_ok_iff.1 h with ⟨hnone, -⟩ | ⟨other, stepped, hother, hstep, rfl⟩
  · rw [hnone] at huser
    cases huser
  · rw [huser] at hother
    cases hother
    obtain ⟨hlt, -⟩ := Array.getElem?_eq_some_iff.1 huser
    exact ⟨stepped, hstep, Array.getElem?_setIfInBounds_self_of_lt hlt⟩

/-- A round leaves alone the users who are not in it. -/
theorem getElem?_of_foldlM_stepUser {users : List Nat} {i : Nat} (hi : i ∉ users)
    (h : (users.map Job.user).foldlM (execute · now) network = .ok after) :
    after.users[i]? = network.users[i]? := by
  induction users generalizing network with
  | nil =>
    cases h
    rfl
  | cons j users ih =>
    rw [List.map_cons, List.foldlM_cons, bind_eq_ok_iff] at h
    obtain ⟨middle, hstep, hrest⟩ := h
    rw [List.mem_cons, not_or] at hi
    exact (ih hi.2 hrest).trans (getElem?_of_stepUser (Ne.symm hi.1) hstep)

/-- A round moves on each of its users, once. -/
theorem exists_step_of_foldlM_stepUser {users : List Nat} (hnodup : users.Nodup) {i : Nat} (hi : i ∈ users)
    (h : (users.map Job.user).foldlM (execute · now) network = .ok after) {user : User}
    (huser : network.users[i]? = some user) :
    ∃ stepped, user.step now = .ok stepped ∧ after.users[i]? = some stepped := by
  induction users generalizing network with
  | nil => cases hi
  | cons j users ih =>
    rw [List.map_cons, List.foldlM_cons, bind_eq_ok_iff] at h
    obtain ⟨middle, hstep, hrest⟩ := h
    obtain ⟨hfresh, hnodup⟩ := List.nodup_cons.1 hnodup
    by_cases hsame : j = i
    · subst hsame
      obtain ⟨stepped, hstepped, hmiddle⟩ := exists_step_of_stepUser hstep huser
      exact ⟨stepped, hstepped, (getElem?_of_foldlM_stepUser hfresh hrest).trans hmiddle⟩
    · have hrest' : i ∈ users := (List.mem_cons.1 hi).resolve_left (Ne.symm hsame)
      exact ih hnodup hrest' hrest ((getElem?_of_stepUser hsame hstep).trans huser)

/-- Whether users have come to others in an interval. -/
structure Advance (users next : Array User) : Prop where
  size : next.size = users.size
  each : ∀ {i : Nat} {user : User}, users[i]? = some user →
    ∃ moved, next[i]? = some moved ∧ user.Advances moved

variable {users : Array User} {direction : Direction}

/-- A grant belongs to the interval. -/
theorem Advance.deliver {channel : Channel} {middle next : Array User} {grant : Grant} {delivered : Float}
    (h : Advance users middle)
    (hdeliver : deliver channel direction now middle grant = .ok (delivered, next)) :
    Advance users next := by
  unfold Network.deliver at hdeliver
  split at hdeliver
  · cases hdeliver
    exact h
  · rename_i user huser
    simp only [bind_eq_ok_iff, pure_eq_ok_iff] at hdeliver
    obtain ⟨⟨bits, link⟩, hspend, heq⟩ := hdeliver
    cases heq
    refine ⟨Array.size_setIfInBounds.trans h.size, fun {i first} hfirst ↦ ?_⟩
    obtain ⟨moved, hmoved, hadvances⟩ := h.each hfirst
    by_cases hsame : grant.user = i
    · subst hsame
      rw [huser] at hmoved
      cases hmoved
      obtain ⟨hlt, -⟩ := Array.getElem?_eq_some_iff.1 huser
      exact ⟨_, Array.getElem?_setIfInBounds_self_of_lt hlt, hadvances.grant hspend⟩
    · exact ⟨moved, (Array.getElem?_setIfInBounds_ne hsame).trans hmoved, hadvances⟩

theorem Advance.isUntapped {next : Array User} (h : Advance users next)
    (huntapped : ∀ user ∈ users, user.IsUntapped) : ∀ user ∈ next, user.IsUntapped := by
  intro moved hmoved
  obtain ⟨i, hi⟩ := Array.mem_iff_getElem?.1 hmoved
  obtain ⟨hlt, -⟩ := Array.getElem?_eq_some_iff.1 hi
  rw [h.size] at hlt
  have huser : users[i]? = some users[i] := Array.getElem?_eq_getElem hlt
  obtain ⟨other, hother, hadvances⟩ := h.each huser
  rw [hi] at hother
  cases hother
  exact hadvances.isUntapped (huntapped _ (Array.mem_of_getElem? huser))

theorem Advance.stepGrid (h : Advance users network.users)
    (hstep : network.stepGrid direction now = .ok after) : Advance users after.users := by
  simp only [Network.stepGrid, bind_eq_ok_iff, pure_eq_ok_iff] at hstep
  obtain ⟨⟨visits, passed, next⟩, hpass, rfl⟩ := hstep
  exact Grid.pass_induction (fun hmiddle hdeliver ↦ Advance.deliver hmiddle hdeliver) hpass h

end Network

/-! ## Totals -/

/-- The totals of a direction are the sums over its links. -/
theorem DirectionTick.toNat_of_ofNetwork {network : Network} {direction : Direction} {tick : DirectionTick}
    (h : ofNetwork network direction = .ok tick) :
    tick.generated.toNat =
        (network.users.toList.map fun user ↦ (user.ticks.get direction).generated.toNat).sum ∧
      tick.released.toNat =
        (network.users.toList.map fun user ↦ (user.ticks.get direction).released.toNat).sum := by
  have hsums : ∀ ticks : List LinkTick,
      ticks.foldlM add (ofPass direction (network.reports.get direction)) = .ok tick →
        tick.generated.toNat = (ticks.map (·.generated.toNat)).sum ∧
          tick.released.toNat = (ticks.map (·.released.toNat)).sum := by
    intro ticks hticks
    refine foldlM_eq_ok_induction (fun done (sum : DirectionTick) ↦
      sum.generated.toNat = (done.map (·.generated.toNat)).sum ∧
        sum.released.toNat = (done.map (·.released.toNat)).sum) ?_ hticks ⟨rfl, rfl⟩
    rintro done sum link next ⟨hgenerated, hreleased⟩ hnext
    simp only [add, bind_eq_ok_iff, pure_eq_ok_iff] at hnext
    obtain ⟨generated, hgenerates, rejected, -, released, hreleases, rfl⟩ := hnext
    simp only [List.map_append, List.sum_append, List.map_singleton, List.sum_singleton]
    rw [Word.toNat_of_add64_eq_ok hgenerates, Word.toNat_of_add64_eq_ok hreleases, hgenerated, hreleased]
    exact ⟨rfl, rfl⟩
  have hall := hsums _ h
  rwa [List.map_map, List.map_map] at hall

namespace Emulator

/-- A round for the users begins an interval. -/
theorem advance_of_round {workers : Nat} {now : Float} {network after : Network}
    (huntapped : ∀ user ∈ network.users, user.IsUntapped)
    (h : round workers now ((List.range network.users.size).map .user) network = .ok after) :
    Network.Advance network.users after.users := by
  refine ⟨size_users_of_round h, fun {i user} huser ↦ ?_⟩
  obtain ⟨hlt, -⟩ := Array.getElem?_eq_some_iff.1 huser
  obtain ⟨stepped, hstepped, hafter⟩ := Network.exists_step_of_foldlM_stepUser List.nodup_range
    (List.mem_range.2 hlt) (round_eq_ok_iff.1 h) huser
  exact ⟨stepped, hafter, User.advances_of_step (huntapped user (Array.mem_of_getElem? huser)) hstepped⟩

/-- An interval moves the users on, and its totals are those of their links. -/
theorem advance_of_tick {emulator next : Emulator} {tick : Tick}
    (huntapped : ∀ user ∈ emulator.network.users, user.IsUntapped)
    (h : emulator.tick = .ok (tick, next)) :
    Network.Advance emulator.network.users next.network.users ∧
      ∀ direction, DirectionTick.ofNetwork next.network direction = .ok (tick.directions.get direction) := by
  simp only [Emulator.tick, tickInOrder, bind_eq_ok_iff] at h
  obtain ⟨middle, husers, after, hgrids, h⟩ := h
  have hround := advance_of_round huntapped husers
  have hpasses := round_eq_ok_iff.1 hgrids
  simp only [Direction.all, List.map_cons, List.map_nil, List.foldlM_cons, List.foldlM_nil, bind_eq_ok_iff,
    pure_eq_ok_iff] at hpasses
  obtain ⟨between, hdownlink, _, huplink, rfl⟩ := hpasses
  have hadvance := (hround.stepGrid hdownlink).stepGrid huplink
  split at h
  · rename_i result hended
    simp only [bind_eq_ok_iff, pure_eq_ok_iff] at hended h
    obtain ⟨downlink, hdown, uplink, hup, clock, -, rfl⟩ := hended
    cases h
    refine ⟨hadvance, fun direction ↦ ?_⟩
    cases direction with
    | downlink => exact hdown
    | uplink => exact hup
  · cases h

end Emulator

end RadioAccess
