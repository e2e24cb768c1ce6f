import RadioAccess.Proofs.Link.ErrorFree
import RadioAccess.Proofs.Segments

/-!
# Links with Generated Traffic

A link that generates its own traffic numbers its packets from zero on, modulo `2 ^ 32`.  If moreover no
attempt can fail, its journal is without errors.
-/

namespace RadioAccess.Link

open TransmitBuffer (Numbered)

/-- Whether a call is of use on a link that generates its own traffic. -/
def Call.isTraffic : Call → Bool
  | step _ => true
  | generate _ _ => true
  | grant _ _ => true
  | release => true
  | _ => false

/-- What a call of use on a link with its own traffic does. -/
inductive TrafficStep (link : Link) : Call → List Event → Link → Prop where
  | step (now : Float) : TrafficStep link (.step now) [.stepped now] (link.step now)
  | generate {bits size : UInt64} {result : Except AdmissionError Nat} {next : Link}
      (hgenerate : link.generate bits size = .ok (result, next)) :
      TrafficStep link (.generate bits size) (link.generateEvents bits size result) next
  | grant {bits worth : UInt64} {conditions : LinkConditions} {next : Link}
      (hspend : link.spend bits conditions = .ok (worth, next)) :
      TrafficStep link (.grant bits conditions) (link.grantEvents bits conditions) next
  | release {departure : Departure} {egress : Egress}
      (hrelease : link.egress.release = .ok (departure, egress)) :
      TrafficStep link .release [.released departure] ({ link with egress }.report departure.settled)

theorem trafficStep_of_act {link next : Link} {call : Call} {events : List Event}
    (hcall : call.isTraffic = true) (hact : link.act call = .ok (events, next)) :
    link.TrafficStep call events next := by
  cases call with
  | step now =>
    cases hact
    exact .step now
  | generate bits size =>
    simp only [Link.act, bind_eq_ok_iff, pure_eq_ok_iff] at hact
    obtain ⟨⟨result, _⟩, hgenerate, heq⟩ := hact
    cases heq
    exact .generate hgenerate
  | grant bits conditions =>
    simp only [Link.act, bind_eq_ok_iff, pure_eq_ok_iff] at hact
    obtain ⟨⟨worth, _⟩, hspend, heq⟩ := hact
    cases heq
    exact .grant hspend
  | release =>
    simp only [Link.act, Link.release, bind_eq_ok_iff, pure_eq_ok_iff] at hact
    obtain ⟨⟨departure, _⟩, ⟨⟨_, egress⟩, hrelease, heq⟩, hact⟩ := hact
    cases heq
    cases hact
    exact .release hrelease
  | _ => cases hcall

/-! ## Readings -/

theorem times_append (earlier later : List Event) :
    Link.times (earlier ++ later) = Link.times earlier ++ Link.times later := List.filterMap_append

theorem filterMap_grantEvents {α : Type} {f : Event → Option α}
    (hnone : ∀ attempt, f (.attempted attempt) = none) (link : Link) (bits : UInt64)
    (conditions : LinkConditions) : (link.grantEvents bits conditions).filterMap f = [] := by
  rw [grantEvents]
  split
  · rw [List.filterMap_map]
    exact List.filterMap_eq_nil_iff.2 fun attempt _ ↦ hnone attempt
  · rfl

theorem filterMap_generateEvents {α : Type} {f : Event → Option α}
    (hadmitted : ∀ packet, f (.admitted packet) = none) (hrefused : ∀ bits, f (.refused bits) = none)
    (link : Link) (bits size : UInt64) (result : Except AdmissionError Nat) :
    (link.generateEvents bits size result).filterMap f = [] := by
  unfold generateEvents
  split
  · rw [List.filterMap_map]
    exact List.filterMap_eq_nil_iff.2 fun packet _ ↦ hadmitted packet
  · exact List.filterMap_cons_none (hrefused _)
  · rfl

/-- A grant admits nothing. -/
theorem admitted_grantEvents (link : Link) (bits : UInt64) (conditions : LinkConditions) :
    admitted (link.grantEvents bits conditions) = [] :=
  filterMap_grantEvents (fun _ ↦ rfl) link bits conditions

/-! ## Carried traffic -/

/-- Whether a link has come to another one, with this journal, by calls that are of use on a link that
generates its own traffic. -/
def Carries (link : Link) (journal : List Event) (after : Link) : Prop :=
  ∃ calls : List Call, (∀ call ∈ calls, call.isTraffic = true) ∧ link.run calls = .ok (journal, after)

namespace Carries

variable {link middle after : Link} {journal later : List Event}

theorem refl (link : Link) : link.Carries [] link := ⟨[], by simp, rfl⟩

theorem trans (h : link.Carries journal middle) (hlater : middle.Carries later after) :
    link.Carries (journal ++ later) after := by
  obtain ⟨calls, hcalls, hrun⟩ := h
  obtain ⟨more, hmore, hrest⟩ := hlater
  exact ⟨calls ++ more, List.forall_mem_append.2 ⟨hcalls, hmore⟩, run_append hrun hrest⟩

theorem of_act (call : Call) (hcall : call.isTraffic = true)
    (hact : link.act call = .ok (journal, after)) : link.Carries journal after := by
  refine ⟨[call], by simpa using hcall, run_cons_eq_ok_iff.2 ⟨journal, after, [], hact, rfl, ?_⟩⟩
  exact (List.append_nil journal).symm

/-- No bridge is attached on the way. -/
theorem bridge_eq_none (h : link.Carries journal after) (hbridge : link.bridge = none) :
    after.bridge = none := by
  obtain ⟨calls, hcalls, hrun⟩ := h
  refine run_induction_of_forall (fun _ _ reached ↦ reached.bridge = none) ?_ hrun hcalls hbridge
  intro done journal middle call events next hcall hdone hact
  cases trafficStep_of_act hcall hact with
  | step now => exact hdone
  | generate hgenerate =>
    simp only [Link.generate, bind_eq_ok_iff, pure_eq_ok_iff] at hgenerate
    obtain ⟨_, -, heq⟩ := hgenerate
    cases heq
    exact hdone
  | grant hspend =>
    obtain ⟨harq, buffer, egress, nextBlock, rfl, -⟩ := eq_of_spend hspend
    exact hdone
  | release hrelease => exact Option.map_eq_none_iff.2 hdone

end Carries

/-! ## Numbers -/

theorem numbered_of_generate {link next : Link} {packets : List Packet} {bits size : UInt64}
    {result : Except AdmissionError Nat} (h : Numbered packets link.buffer.nextNumber)
    (hgenerate : link.generate bits size = .ok (result, next)) :
    Numbered (packets ++ admitted (link.generateEvents bits size result)) next.buffer.nextNumber := by
  simp only [Link.generate, bind_eq_ok_iff, pure_eq_ok_iff] at hgenerate
  obtain ⟨⟨_, buffer⟩, hbuffer, heq⟩ := hgenerate
  cases heq
  rcases TransmitBuffer.eq_of_generate hbuffer with
    ⟨hsize, rfl, hnumber, -⟩ | ⟨rfl, rfl⟩ | ⟨rfl, rfl⟩
  · rw [hnumber, generateEvents, admitted_map_admitted]
    exact h.enter hsize link.now link.backhaul
  · rwa [generateEvents, admitted, List.filterMap_cons_none rfl, List.filterMap_nil, List.append_nil]
  · rwa [generateEvents, admitted, List.filterMap_nil, List.append_nil]

/-- What a link admits of its own traffic takes the numbers that follow. -/
theorem numbered_of_act {link next : Link} {packets : List Packet} {call : Call} {events : List Event}
    (h : Numbered packets link.buffer.nextNumber) (hcall : call.isTraffic = true)
    (hact : link.act call = .ok (events, next)) :
    Numbered (packets ++ admitted events) next.buffer.nextNumber := by
  have hsame : Numbered (packets ++ []) link.buffer.nextNumber := by
    rwa [List.append_nil]
  cases trafficStep_of_act hcall hact with
  | step now => exact hsame
  | generate hgenerate => exact numbered_of_generate h hgenerate
  | grant hspend =>
    obtain ⟨harq, buffer, egress, nextBlock, rfl, hnumber⟩ := eq_of_spend hspend
    rw [admitted_grantEvents, hnumber]
    exact hsame
  | release hrelease => exact hsame

/-- A run of a link that generates its own traffic. -/
theorem numbered_of_run {direction : Direction} {config : LinkConfig} {profile : LinkProfile}
    {model : ErrorModel} {seed : UInt64} {calls : List Call} {journal : List Event} {after : Link}
    (hcalls : ∀ call ∈ calls, call.isTraffic = true)
    (h : (idle direction config profile model seed).run calls = .ok (journal, after)) :
    Numbered (admitted journal) after.buffer.nextNumber := by
  refine run_induction_of_forall
    (fun _ journal link ↦ Numbered (admitted journal) link.buffer.nextNumber) ?_ h hcalls .nil
  intro done journal link call events next htraffic hdone hact
  rw [admitted_append]
  exact numbered_of_act hdone htraffic hact

/-- The time that a call moves to. -/
def Call.time? : Call → Option Float
  | step now => some now
  | _ => none

/-- What holds of the traffic of a link on which no attempt can fail. -/
structure Regular (calls : List Call) (journal : List Event) (link : Link) : Prop where
  perfect : link.harq.model = .flat 0.0
  numbered : Numbered (admitted journal) link.buffer.nextNumber
  errorFree : ∀ event ∈ journal, event.isErrorFree = true
  times : times journal = calls.filterMap Call.time?

/-! ## Grants -/

theorem againStep_of_perfect {link next : Link} {block : TransportBlock} {conditions : LinkConditions}
    {attempt : Attempt} (hmodel : link.harq.model = .flat 0.0)
    (h : link.AgainStep block conditions attempt next) :
    (Event.attempted attempt).isErrorFree = true ∧ next.harq.model = .flat 0.0 := by
  cases h with
  | understood hnumber hdraw => exact ⟨rfl, (Harq.eq_of_attemptFails hmodel hdraw).2⟩
  | failed hnumber hdraw hfailed => cases (Harq.eq_of_attemptFails hmodel hdraw).1

theorem freshStep_of_perfect {link next : Link} {bits : UInt64} {conditions : LinkConditions}
    {attempt : Attempt} (hmodel : link.harq.model = .flat 0.0)
    (h : link.FreshStep bits conditions attempt next) :
    (Event.attempted attempt).isErrorFree = true ∧ next.harq.model = .flat 0.0 := by
  cases h with
  | understood hnext hdrain hdraw => exact ⟨rfl, (Harq.eq_of_attemptFails hmodel hdraw).2⟩
  | failed hnext hdrain hdraw hfailed => cases (Harq.eq_of_attemptFails hmodel hdraw).1

theorem attemptStep_of_perfect {link next : Link} {bits : UInt64} {conditions : LinkConditions}
    {attempt : Option Attempt} (hmodel : link.harq.model = .flat 0.0)
    (h : link.AttemptStep bits conditions attempt next) :
    (∀ made ∈ attempt, (Event.attempted made).isErrorFree = true) ∧ next.harq.model = .flat 0.0 := by
  cases h with
  | idle hnone => exact ⟨by simp, hmodel⟩
  | again htake hagain =>
    obtain ⟨⟨queue, rfl⟩, -⟩ := Harq.eq_of_takeReady? htake
    have hheld : ({ link with harq := { link.harq with queue } } : Link).harq.model = .flat 0.0 := hmodel
    obtain ⟨herror, hkeeps⟩ := againStep_of_perfect hheld hagain
    exact ⟨by simpa using herror, hkeeps⟩
  | fresh hnone hbits hdata hfresh =>
    obtain ⟨herror, hkeeps⟩ := freshStep_of_perfect hmodel hfresh
    exact ⟨by simpa using herror, hkeeps⟩

theorem spend_of_perfect {link next : Link} {bits worth : UInt64} {conditions : LinkConditions}
    (hmodel : link.harq.model = .flat 0.0) (h : link.spend bits conditions = .ok (worth, next)) :
    (∃ attempt : Option Attempt, link.grantEvents bits conditions = attempt.toList.map .attempted ∧
      ∀ made ∈ attempt, (Event.attempted made).isErrorFree = true) ∧
    next.harq.model = .flat 0.0 := by
  rw [spend_eq, bind_eq_ok_iff] at h
  obtain ⟨⟨attempt, middle⟩, hattempt, hconclude⟩ := h
  obtain ⟨herror, hkept⟩ := attemptStep_of_perfect hmodel (attemptStep_of_attempt? hattempt)
  obtain ⟨lost, egress, rfl⟩ := eq_of_conclude_eq_ok hconclude
  refine ⟨⟨attempt, ?_, herror⟩, hkept⟩
  rw [grantEvents, hattempt]

/-! ## Runs -/

/-- A request for traffic is no error, whatever becomes of it. -/
theorem errorFree_generateEvents (link : Link) (bits size : UInt64) (result : Except AdmissionError Nat) :
    ∀ event ∈ link.generateEvents bits size result, event.isErrorFree = true := by
  match result with
  | .ok count =>
    intro event hevent
    obtain ⟨packet, -, rfl⟩ := List.mem_map.1 hevent
    rfl
  | .error (.overflow requested buffered capacity) => simp [generateEvents, Event.isErrorFree]
  | .error .emptyPackets => simp [generateEvents]

namespace Regular

variable {calls : List Call} {journal : List Event} {link next : Link}

/-- A call that leaves the link without errors. -/
theorem extend (h : Regular calls journal link) {call : Call} {events : List Event}
    (hcall : call.isTraffic = true) (hact : link.act call = .ok (events, next))
    (hmodel : next.harq.model = .flat 0.0) (htimes : Link.times events = call.time?.toList)
    (herror : ∀ event ∈ events, event.isErrorFree = true) :
    Regular (calls ++ [call]) (journal ++ events) next := by
  refine ⟨hmodel, ?_, fun event hevent ↦ ?_, ?_⟩
  · rw [admitted_append]
    exact numbered_of_act h.numbered hcall hact
  · rcases List.mem_append.1 hevent with hearlier | hlater
    · exact h.errorFree event hearlier
    · exact herror event hlater
  · rw [times_append, htimes, h.times, filterMap_concat]

theorem act (h : Regular calls journal link) {call : Call} {events : List Event}
    (hcall : call.isTraffic = true) (hact : link.act call = .ok (events, next)) :
    Regular (calls ++ [call]) (journal ++ events) next := by
  have hextend := h.extend hcall hact
  cases trafficStep_of_act hcall hact with
  | step now => exact hextend h.perfect rfl (by simp [Event.isErrorFree])
  | generate hgenerate =>
    simp only [Link.generate, bind_eq_ok_iff, pure_eq_ok_iff] at hgenerate
    obtain ⟨⟨result, buffer⟩, -, heq⟩ := hgenerate
    cases heq
    exact hextend h.perfect (filterMap_generateEvents (fun _ ↦ rfl) (fun _ ↦ rfl) link _ _ result)
      (errorFree_generateEvents link _ _ result)
  | grant hspend =>
    obtain ⟨⟨attempt, hevents, herror⟩, hmodel⟩ := spend_of_perfect h.perfect hspend
    rw [hevents] at hextend ⊢
    refine hextend hmodel ?_ fun event hevent ↦ ?_
    · cases attempt <;> rfl
    · obtain ⟨made, hmade, rfl⟩ := List.mem_map.1 hevent
      exact herror made (Option.mem_toList.1 hmade)
  | release hrelease => exact hextend h.perfect rfl (by simp [Event.isErrorFree])

end Regular

/-- A run of a link that generates its own traffic and on which no attempt can fail. -/
theorem regular_of_run {direction : Direction} {config : LinkConfig} {profile : LinkProfile}
    {seed : UInt64} {calls : List Call} {journal : List Event} {after : Link}
    (hcalls : ∀ call ∈ calls, call.isTraffic = true)
    (h : (idle direction config profile (.flat 0.0) seed).run calls = .ok (journal, after)) :
    Regular calls journal after :=
  run_induction_of_forall Regular (fun _ _ _ _ _ _ htraffic hdone hact ↦ hdone.act htraffic hact) h hcalls
    ⟨rfl, .nil, by simp, rfl⟩

end RadioAccess.Link
