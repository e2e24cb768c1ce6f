import RadioAccess.Proofs.Egress.Balance
import RadioAccess.Proofs.Link.Delivery
import RadioAccess.Proofs.Link.Verdicts

/-!
# The Balance of a Link

A link without a bridge never releases more than it admitted.  Blocks carry no more than was admitted and
leave with what they carry.  Packets leave with their full lengths even if crumbs of them are missing, but
each of them was admitted with that length, and none of them leaves twice as long as numbers do not come
round.
-/

namespace RadioAccess.Link

open Packet (totalBits)
open Reassembly (label totalLength)
open TransmitBuffer (packetCount segments)

/-! ## What is admitted -/

/-- Bits that a call admits. -/
def admittedBits (link : Link) : Call → Nat
  | .generate bits size =>
    match link.generate bits size with
    | .ok (.ok _, _) => bits.toNat
    | _ => 0
  | _ => 0

/-- Bits of all requests for traffic that succeed in a run. -/
def generatedBits (link : Link) : List Call → Nat
  | [] => 0
  | call :: calls =>
    link.admittedBits call +
      match link.act call with
      | .ok (_, next) => next.generatedBits calls
      | .error _ => 0

/-- A request for traffic admits all of its bits in packets, or none. -/
theorem admitted_generateEvents {link next : Link} {bits size : UInt64}
    {result : Except AdmissionError Nat} (h : link.generate bits size = .ok (result, next)) :
    (∃ count, result = .ok count) ∧
        totalBits (admitted (link.generateEvents bits size result)) = bits.toNat ∧
        (admitted (link.generateEvents bits size result)).length = packetCount bits size ∨
      (∃ reason, result = .error reason) ∧ admitted (link.generateEvents bits size result) = [] := by
  simp only [Link.generate, bind_eq_ok_iff, pure_eq_ok_iff] at h
  obtain ⟨⟨_, buffer⟩, hbuffer, heq⟩ := h
  cases heq
  rcases TransmitBuffer.eq_of_generate hbuffer with ⟨hsize, rfl, -, -⟩ | ⟨rfl, -⟩ | ⟨rfl, -⟩
  · refine .inl ⟨⟨_, rfl⟩, ?_, ?_⟩
    · rw [generateEvents, admitted_map_admitted]
      exact TransmitBuffer.totalBits_segments (TransmitBuffer.le_mul_packetCount hsize)
    · rw [generateEvents, admitted_map_admitted, TransmitBuffer.length_segments]
  · exact .inr ⟨⟨_, rfl⟩, rfl⟩
  · exact .inr ⟨⟨_, rfl⟩, rfl⟩

theorem totalBits_admitted_of_act {link next : Link} {call : Call} {events : List Event}
    (hcall : call.isTraffic = true) (hact : link.act call = .ok (events, next)) :
    totalBits (admitted events) = link.admittedBits call := by
  cases trafficStep_of_act hcall hact with
  | step now => rfl
  | generate hgenerate =>
    rw [admittedBits, hgenerate]
    rcases admitted_generateEvents hgenerate with ⟨⟨count, rfl⟩, hbits, -⟩ | ⟨⟨reason, rfl⟩, hnone⟩
    · exact hbits
    · rw [hnone]
      rfl
  | grant hspend =>
    rw [admitted_grantEvents]
    rfl
  | release hrelease => rfl

/-- The packets that were admitted carry the bits of the requests that succeeded. -/
theorem totalBits_admitted_of_run {link after : Link} {calls : List Call} {journal : List Event}
    (hcalls : ∀ call ∈ calls, call.isTraffic = true) (h : link.run calls = .ok (journal, after)) :
    totalBits (admitted journal) = link.generatedBits calls := by
  induction calls generalizing link journal with
  | nil =>
    cases h
    rfl
  | cons call calls ih =>
    obtain ⟨hcall, hcalls⟩ := List.forall_mem_cons.1 hcalls
    obtain ⟨events, next, later, hact, hlater, rfl⟩ := run_cons_eq_ok_iff.1 h
    rw [admitted_append, Packet.totalBits_append, totalBits_admitted_of_act hcall hact, ih hcalls hlater,
      generatedBits, hact]

/-! ## What is released -/

theorem releasedBits_append (earlier later : List Event) :
    releasedBits (earlier ++ later) = releasedBits earlier + releasedBits later := by
  rw [releasedBits, List.filterMap_append, Egress.releasedBits_append]
  rfl

/-- A request for traffic releases nothing. -/
theorem releasedBits_generateEvents (link : Link) (bits size : UInt64)
    (result : Except AdmissionError Nat) : releasedBits (link.generateEvents bits size result) = 0 :=
  congrArg Egress.releasedBits (filterMap_generateEvents (fun _ ↦ rfl) (fun _ ↦ rfl) link bits size result)

/-- Nor does a grant. -/
theorem releasedBits_grantEvents (link : Link) (bits : UInt64) (conditions : LinkConditions) :
    releasedBits (link.grantEvents bits conditions) = 0 :=
  congrArg Egress.releasedBits (filterMap_grantEvents (fun _ ↦ rfl) link bits conditions)

/-! ## What comes to the far end -/

/-- Calls that are of use on a link with its own traffic turn no captured packet away. -/
theorem turnedAway_of_act {link next : Link} {call : Call} {events : List Event}
    (hcall : call.isTraffic = true) (hact : link.act call = .ok (events, next)) :
    turnedAway events = [] := by
  cases trafficStep_of_act hcall hact with
  | step now => rfl
  | generate hgenerate => exact filterMap_generateEvents (fun _ ↦ rfl) (fun _ ↦ rfl) link _ _ _
  | grant hspend => exact filterMap_grantEvents (fun _ ↦ rfl) link _ _
  | release hrelease => rfl

theorem turnedAway_of_run {link after : Link} {calls : List Call} {journal : List Event}
    (hcalls : ∀ call ∈ calls, call.isTraffic = true) (h : link.run calls = .ok (journal, after)) :
    turnedAway journal = [] := by
  refine run_induction_of_forall (fun _ journal _ ↦ turnedAway journal = []) ?_ h hcalls rfl
  intro done journal middle call events next hcall hdone hact
  rw [turnedAway, List.filterMap_append, ← turnedAway, ← turnedAway, hdone, turnedAway_of_act hcall hact]
  rfl

/-- The far end is brought the bits of the blocks that were understood. -/
theorem broughtBits_farEnd {journal : List Event} (h : ∀ block ∈ understood journal, block.IsTallied) :
    ((journal.filterMap Event.farEnd?).map Egress.Call.broughtBits).sum =
      totalBits (cargo (understood journal)) := by
  induction journal with
  | nil => rfl
  | cons event journal ih =>
    cases event with
    | attempted attempt =>
      obtain ⟨block, number, worth, outcome⟩ := attempt
      cases outcome with
      | understood understood =>
        obtain ⟨htallied, hrest⟩ := List.forall_mem_cons.1 h
        have hbits : understood.bits.toNat = totalBits understood.packets.toList := htallied
        refine Eq.trans ?_ (Packet.totalBits_append _ _).symm
        exact congrArg₂ (· + ·) hbits (ih hrest)
      | waits => exact ih h
      | givenUp exhausted => exact (Nat.zero_add _).trans (ih h)
    | stepped now => exact (Nat.zero_add _).trans (ih h)
    | turnedAway packet => exact (Nat.zero_add _).trans (ih h)
    | released departure => exact (Nat.zero_add _).trans (ih h)
    | _ => exact ih h

variable {direction : Direction} {config : LinkConfig} {profile : LinkProfile} {model : ErrorModel}
  {seed : UInt64} {calls : List Call} {journal : List Event} {after : Link}

theorem perm_entered_admitted (hcalls : ∀ call ∈ calls, call.isTraffic = true)
    (h : (idle direction config profile model seed).run calls = .ok (journal, after)) :
    (entered journal).Perm (admitted journal) := by
  have hperm := perm_entered journal
  rwa [turnedAway_of_run hcalls h, List.append_nil] at hperm

theorem cargo_append (earlier later : List TransportBlock) :
    cargo (earlier ++ later) = cargo earlier ++ cargo later := List.flatMap_append

/-- Blocks carry no more than was admitted. -/
theorem Conserved.totalBits_cargo_le {admitted waiting : List Packet} {blocks : List TransportBlock}
    {nextBlock : Nat} (h : Conserved admitted waiting blocks nextBlock) :
    totalBits (cargo blocks) ≤ totalBits admitted := by
  have hlength := h.bits.length_eq
  rw [Packet.length_stream, Packet.length_stream, Packet.totalBits_append] at hlength
  omega

/-- What comes to the far end is cut out of the packets that were admitted. -/
theorem cutFrom_of_run (hcalls : ∀ call ∈ calls, call.isTraffic = true)
    (h : (idle direction config profile model seed).run calls = .ok (journal, after)) :
    Egress.CutFrom (journal.filterMap Event.farEnd?) (admitted journal) := by
  have hconserved := (reaches_of_run h).conserved conserved_nil
  refine ⟨fun part hpart ↦ ?_, ?_⟩
  · obtain ⟨packet, hpacket, horigin⟩ := exists_entered_of_mem_parts h hpart
    refine ⟨packet, (perm_entered_admitted hcalls h).mem_iff.1 hpacket, ?_⟩
    exact Prod.ext (congrArg (·.number) horigin.symm) (congrArg (·.length) horigin.symm)
  · have hadmitted := hconserved.totalBits_cargo_le
    simp only [blocks, cargo_append, Packet.totalBits_append] at hadmitted
    calc
      ((journal.filterMap Event.farEnd?).map Egress.Call.broughtBits).sum =
          totalBits (cargo (understood journal)) := broughtBits_farEnd fun block hblock ↦
        hconserved.tallied block <| by
          rw [blocks]
          exact List.mem_append_left _ (List.mem_append_right _ hblock)
      _ ≤ totalBits (admitted journal) := by omega
      _ = totalLength (admitted journal) :=
        (totalLength_of_generated (numbered_of_run hcalls h).generated).symm

/-- The far end has made the run that the journal tells. -/
theorem exists_farEnd_run (h : (idle direction config profile model seed).run calls = .ok (journal, after)) :
    ∃ record, (Egress.empty config.egress (.ofSeed (Random.seedFor seed 1))).run
        (journal.filterMap Event.farEnd?) = .ok (record, after.egress) ∧
      record.departures = journal.filterMap Event.departure? :=
  (reaches_of_run h).exists_record

/-- Parts are measured as long as the numbers of packets do not come round. -/
theorem measured_of_run (hcalls : ∀ call ∈ calls, call.isTraffic = true)
    (hfew : (admitted journal).length < 2 ^ 32)
    (h : (idle direction config profile model seed).run calls = .ok (journal, after)) :
    Reassembly.Measured ((journal.filterMap Event.farEnd?).flatMap Egress.Call.parts) := by
  have hnumbered := numbered_of_run hcalls h
  have hentered := perm_entered_admitted hcalls h
  refine measured_parts h ?_ fun packet hpacket ↦ ?_
  · have hascending := pairwise_map_ofNat (Nat.le_of_lt hfew)
    rw [← hnumbered.numbers] at hascending
    exact ((hentered.map _).nodup_iff).2 (hascending.imp UInt32.ne_of_lt)
  · exact (hnumbered.generated packet (hentered.mem_iff.1 hpacket)).positive

/-- A link releases no more than it admitted, as long as the numbers of packets that leave in any order do
not come round. -/
theorem Carries.releasedBits_le (h : (idle direction config profile model seed).Carries journal after)
    (hfew : config.egress = .reassembly false → (admitted journal).length < 2 ^ 32) :
    releasedBits journal ≤ totalBits (admitted journal) := by
  obtain ⟨calls, hcalls, hrun⟩ := h
  have hcut := cutFrom_of_run hcalls hrun
  obtain ⟨record, hfar, hdepartures⟩ := exists_farEnd_run hrun
  rw [releasedBits, ← hdepartures, ← totalLength_of_generated (numbered_of_run hcalls hrun).generated]
  cases hmode : config.egress with
  | blocks =>
    rw [hmode] at hfar
    exact Egress.releasedBits_le_of_run_blocks hfar hcut
  | reassembly strict =>
    rw [hmode] at hfar
    refine Egress.releasedBits_le_of_run_packets hfar hcut ?_
    cases strict with
    | true => exact .inl rfl
    | false => exact .inr (measured_of_run hcalls (hfew hmode) hrun)

/-! ## Links without a bridge -/

/-- Whether a call attaches a bridge. -/
def Call.attaches : Call → Bool
  | attach => true
  | _ => false

/-- On a link without a bridge other calls than those for traffic do nothing. -/
theorem eq_of_act_of_bridge_eq_none {link next : Link} {call : Call} {events : List Event}
    (hbridge : link.bridge = none) (hattach : call.attaches = false) (hcall : call.isTraffic = false)
    (hact : link.act call = .ok (events, next)) :
    next = link ∧ link.admittedBits call = 0 ∧ admitted events = [] ∧ releasedBits events = 0 := by
  obtain ⟨direction, buffer, harq, egress, backhaul, _, nextBlock, now⟩ := link
  cases hbridge
  cases call with
  | attach => cases hattach
  | step | generate | grant | release => cases hcall
  | _ =>
    cases hact
    exact ⟨rfl, rfl, rfl, rfl⟩

/-- A run without a bridge is the run of its calls for traffic. -/
theorem exists_run_filter {link after : Link} {calls : List Call} {journal : List Event}
    (hbridge : link.bridge = none) (hcalls : ∀ call ∈ calls, call.attaches = false)
    (h : link.run calls = .ok (journal, after)) :
    ∃ kept, link.run (calls.filter Call.isTraffic) = .ok (kept, after) ∧ admitted kept = admitted journal ∧
      releasedBits kept = releasedBits journal ∧
      link.generatedBits (calls.filter Call.isTraffic) = link.generatedBits calls := by
  induction calls generalizing link journal with
  | nil =>
    cases h
    exact ⟨[], rfl, rfl, rfl, rfl⟩
  | cons call calls ih =>
    obtain ⟨hattach, hcalls⟩ := List.forall_mem_cons.1 hcalls
    obtain ⟨events, next, later, hact, hlater, rfl⟩ := run_cons_eq_ok_iff.1 h
    rw [admitted_append, releasedBits_append, generatedBits, hact]
    cases hcall : call.isTraffic with
    | true =>
      have hnone : next.bridge = none := (Carries.of_act call hcall hact).bridge_eq_none hbridge
      obtain ⟨kept, hkept, hadmitted, hreleased, hgenerated⟩ := ih hnone hcalls hlater
      rw [List.filter_cons_of_pos hcall]
      refine ⟨events ++ kept, run_cons_eq_ok_iff.2 ⟨events, next, kept, hact, hkept, rfl⟩, ?_, ?_, ?_⟩
      · rw [admitted_append, hadmitted]
      · rw [releasedBits_append, hreleased]
      · rw [generatedBits, hact]
        exact congrArg _ hgenerated
    | false =>
      obtain ⟨rfl, hbits, hadmitted, hreleased⟩ := eq_of_act_of_bridge_eq_none hbridge hattach hcall hact
      rw [List.filter_cons_of_neg (by rw [hcall]; decide), hbits, hadmitted, hreleased, Nat.zero_add,
        Nat.zero_add, List.nil_append]
      exact ih hbridge hcalls hlater

/-- What is released never exceeds what was generated. -/
theorem releasedBits_le_generatedBits (hcalls : ∀ call ∈ calls, call.attaches = false)
    (hfew : config.egress = .reassembly false → (admitted journal).length < 2 ^ 32)
    (h : (idle direction config profile model seed).run calls = .ok (journal, after)) :
    releasedBits journal ≤ (idle direction config profile model seed).generatedBits calls := by
  obtain ⟨kept, hkept, hadmitted, hreleased, hgenerated⟩ := exists_run_filter rfl hcalls h
  have htraffic : ∀ call ∈ calls.filter Call.isTraffic, call.isTraffic = true :=
    fun call hcall ↦ (List.mem_filter.1 hcall).2
  have hcarries : (idle direction config profile model seed).Carries kept after := ⟨_, htraffic, hkept⟩
  rw [← hgenerated, ← hreleased, ← totalBits_admitted_of_run htraffic hkept]
  exact hcarries.releasedBits_le (by rwa [hadmitted])

end RadioAccess.Link
