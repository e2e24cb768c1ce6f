import RadioAccess.Proofs.Egress.Verdicts
import RadioAccess.Proofs.Link.Conservation
import RadioAccess.Proofs.Reassembly.Transfer

/-!
# Verdicts over a Bridge

What the far end settles is reported over the bridge that is attached at that time.  The far end does not
know where a packet came from, so a collaborator hears of synthetic packets as well as of its own.  On a
link without synthetic traffic the verdicts are about packets that were submitted.  If no two packets
have one number, no packet is named twice.

All of this is said of whole runs, so it holds at any time: what has been read by then is about packets
that have come by then.
-/

namespace RadioAccess.Link

open Packet (bitsUnder)
open Reassembly (Measured exits label)

/-! ## Readings of a journal -/

/-- The packet that comes to a link in an event, whether it fits or not. -/
def Event.entered : Event → List Packet
  | admitted packet => [packet]
  | turnedAway packet => [packet]
  | _ => []

/-- The packet that is submitted in an event. -/
def Event.submissions : Event → List CapturedPacket
  | submitted captured => [captured]
  | _ => []

/-- The verdicts that are read in an event. -/
def Event.heard : Event → List Verdict
  | read verdicts => verdicts
  | _ => []

/-- The verdicts that the far end gives in an event. -/
def Event.reported : Event → List Verdict
  | released departure => departure.settled.map (·.verdict)
  | _ => []

/-- The packets that came to a link. -/
def entered (journal : List Event) : List Packet := journal.flatMap Event.entered

/-- The packets that were submitted over the bridges of a link. -/
def submitted (journal : List Event) : List CapturedPacket := journal.flatMap Event.submissions

/-- The verdicts that were read from the bridges of a link. -/
def heard (journal : List Event) : List Verdict := journal.flatMap Event.heard

/-- The verdicts that the far end gave. -/
def reported (journal : List Event) : List Verdict := journal.flatMap Event.reported

/-- The submitted packets that wait on the bridge. -/
def offered (link : Link) : List CapturedPacket := link.bridge.elim [] (·.packets.toList)

/-- The verdicts that wait on the bridge. -/
def pending (link : Link) : List Verdict := link.bridge.elim [] (·.verdicts.toList)

/-- The number of a submitted packet and its length in bits. -/
def labelOf (captured : CapturedPacket) : UInt32 × UInt64 :=
  (captured.number, captured.bytes.toUInt64 * 8)

/-! ## Passing through -/

/-- If each call passes on, in their order, only things that are held or come in, so does a run. -/
theorem sublist_of_run {α : Type} (outgoing incoming : Event → List α) (held : Link → List α)
    {p : Call → Prop}
    (step : ∀ link call events next, p call → act link call = .ok (events, next) →
      (events.flatMap outgoing ++ held next).Sublist (held link ++ events.flatMap incoming))
    {link after : Link} {calls : List Call} {journal : List Event}
    (h : link.run calls = .ok (journal, after)) (hcalls : ∀ call ∈ calls, p call)
    (hstart : held link = []) :
    (journal.flatMap outgoing ++ held after).Sublist (journal.flatMap incoming) := by
  refine run_induction_of_forall (fun _ journal middle ↦
    (journal.flatMap outgoing ++ held middle).Sublist (journal.flatMap incoming)) ?_ h hcalls ?_
  · intro done journal middle call events next hcall hbefore hact
    rw [List.flatMap_append, List.flatMap_append, List.append_assoc]
    refine ((step middle call events next hcall hact).append_left _).trans ?_
    rw [← List.append_assoc]
    exact hbefore.append_right _
  · rw [hstart]
    exact List.Sublist.refl _

/-! ## The bridge -/

/-- A grant is not heard of over the bridge. -/
theorem flatMap_grantEvents {α : Type} {f : Event → List α} (hnone : ∀ attempt, f (.attempted attempt) = [])
    (link : Link) (bits : UInt64) (conditions : LinkConditions) :
    (link.grantEvents bits conditions).flatMap f = [] := by
  unfold grantEvents
  split
  · rename_i attempt _ _
    cases attempt with
    | none => rfl
    | some attempt => simp [hnone]
  · rfl

theorem bridge_of_ingestPacket {link next : Link} {captured : CapturedPacket} {fits : Bool}
    (h : link.ingestPacket captured = .ok (fits, next)) : next.bridge = link.bridge := by
  simp only [ingestPacket, bind_eq_ok_iff] at h
  obtain ⟨⟨_ | _, buffer⟩, -, h⟩ := h
  · simp only [bind_eq_ok_iff, pure_eq_ok_iff] at h
    obtain ⟨egress, -, heq⟩ := h
    cases heq
    rfl
  · cases h
    rfl

theorem bridge_of_ingestAll {link next : Link} {waiting : List CapturedPacket} {admitted : Nat}
    (h : link.ingestAll waiting = .ok (admitted, next)) : next.bridge = link.bridge := by
  induction waiting generalizing link admitted with
  | nil =>
    cases h
    rfl
  | cons captured waiting ih =>
    simp only [ingestAll, bind_eq_ok_iff, pure_eq_ok_iff] at h
    obtain ⟨⟨fits, middle⟩, hfirst, ⟨later, last⟩, hrest, heq⟩ := h
    cases heq
    exact (ih hrest).trans (bridge_of_ingestPacket hfirst)

/-- What a link takes from the bridge comes to it, and nothing is heard or reported meanwhile. -/
theorem events_of_ingestAll {link next : Link} {waiting : List CapturedPacket} {admitted : Nat}
    (h : link.ingestAll waiting = .ok (admitted, next)) :
    (entered (link.captureEvents waiting)).map label = waiting.map labelOf ∧
      submitted (link.captureEvents waiting) = [] ∧ heard (link.captureEvents waiting) = [] ∧
      reported (link.captureEvents waiting) = [] := by
  induction waiting generalizing link admitted with
  | nil => exact ⟨rfl, rfl, rfl, rfl⟩
  | cons captured waiting ih =>
    simp only [ingestAll, bind_eq_ok_iff, pure_eq_ok_iff] at h
    obtain ⟨⟨fits, middle⟩, hfirst, ⟨later, last⟩, hrest, heq⟩ := h
    cases heq
    obtain ⟨hentered, hsubmitted, hheard, hreported⟩ := ih hrest
    simp only [captureEvents, hfirst]
    cases fits with
    | true => exact ⟨congrArg (labelOf captured :: ·) hentered, hsubmitted, hheard, hreported⟩
    | false => exact ⟨congrArg (labelOf captured :: ·) hentered, hsubmitted, hheard, hreported⟩

/-- A request for traffic is not heard of over the bridge. -/
theorem flatMap_generateEvents {α : Type} {f : Event → List α}
    (hadmitted : ∀ packet, f (.admitted packet) = []) (hrefused : ∀ bits, f (.refused bits) = [])
    (link : Link) (bits size : UInt64) (result : Except AdmissionError Nat) :
    (link.generateEvents bits size result).flatMap f = [] := by
  unfold generateEvents
  split
  · rw [List.flatMap_eq_nil_iff]
    intro event hevent
    obtain ⟨packet, -, rfl⟩ := List.mem_map.1 hevent
    exact hadmitted packet
  · simp [hrefused]
  · rfl

/-! ## Reports -/

theorem pending_foldl_report (bridge : Bridge) (settled : List Settled) :
    (settled.foldl (fun bridge entry ↦ bridge.report entry.verdict) bridge).verdicts.toList.Sublist
      (bridge.verdicts.toList ++ settled.map (·.verdict)) := by
  induction settled generalizing bridge with
  | nil => simp
  | cons entry settled ih =>
    rw [List.foldl_cons, List.map_cons, List.append_cons]
    refine (ih (bridge.report entry.verdict)).trans (List.Sublist.append_right ?_ _)
    unfold Bridge.report
    split
    · rw [Fifo.toList_enqueue]
    · exact List.sublist_append_left _ _

theorem packets_foldl_report (bridge : Bridge) (settled : List Settled) :
    (settled.foldl (fun bridge entry ↦ bridge.report entry.verdict) bridge).packets = bridge.packets := by
  induction settled generalizing bridge with
  | nil => rfl
  | cons entry settled ih =>
    rw [List.foldl_cons, ih, Bridge.report]
    split <;> rfl

/-! ## One call -/

/-- Whether a call asks for no synthetic traffic. -/
def Call.isSilent : Call → Bool
  | generate _ _ => false
  | _ => true

/-- What a call passes on over the bridge: the verdicts that are read were waiting or are given now, and
the packets that a silent call lets in were waiting or are submitted now. -/
structure Relays (link : Link) (call : Call) (events : List Event) (next : Link) : Prop where
  verdicts : (heard events ++ next.pending).Sublist (link.pending ++ reported events)
  packets : call.isSilent = true →
    ((entered events).map label ++ next.offered.map labelOf).Sublist
      (link.offered.map labelOf ++ (submitted events).map labelOf)

/-- A call that leaves the bridge alone passes nothing on. -/
theorem Relays.apart {link next : Link} {call : Call} {events : List Event}
    (hbridge : next.bridge = link.bridge) (hheard : heard events = [])
    (hentered : call.isSilent = true → entered events = []) : Relays link call events next := by
  refine ⟨?_, fun hsilent ↦ ?_⟩
  · rw [hheard, List.nil_append, pending, hbridge, ← pending]
    exact List.sublist_append_left _ _
  · rw [hentered hsilent, List.map_nil, List.nil_append, offered, hbridge, ← offered]
    exact List.sublist_append_left _ _

theorem relays_of_ingest {link next : Link} {admitted : Nat} (h : link.ingest = .ok (admitted, next)) :
    Relays link .ingest link.ingestEvents next := by
  unfold ingest at h
  unfold ingestEvents
  cases hbridge : link.bridge with
  | none =>
    simp only [hbridge] at h
    cases h
    exact .apart rfl rfl fun _ ↦ rfl
  | some bridge =>
    simp only [hbridge] at h
    obtain ⟨hentered, hsubmitted, hheard, hreported⟩ := events_of_ingestAll h
    have hkept := bridge_of_ingestAll h
    refine ⟨?_, fun _ ↦ ?_⟩
    · rw [hheard, hreported, pending, hkept, pending, hbridge]
      simp [Bridge.takePackets]
    · rw [hentered, hsubmitted, offered, hkept, offered, hbridge]
      simp [Bridge.takePackets]

theorem relays_of_release {link next : Link} {departure : Departure}
    (h : link.release = .ok (departure, next)) : Relays link .release [.released departure] next := by
  simp only [release, bind_eq_ok_iff, pure_eq_ok_iff] at h
  obtain ⟨⟨_, egress⟩, -, heq⟩ := h
  cases heq
  cases hbridge : link.bridge with
  | none => exact .apart (by simp [report, hbridge]) rfl fun _ ↦ rfl
  | some bridge =>
    refine ⟨?_, fun _ ↦ ?_⟩
    · simpa [heard, reported, Event.heard, Event.reported, pending, report, hbridge]
        using pending_foldl_report bridge _
    · simp [entered, submitted, Event.entered, Event.submissions, offered, report, hbridge,
        packets_foldl_report]

theorem relays_of_submit {link next : Link} {captured : CapturedPacket}
    (h : link.submit captured = .ok next) : Relays link (.submit captured) [.submitted captured] next := by
  unfold submit at h
  split at h
  · cases h
  · rename_i bridge hbridge
    simp only [Bridge.submit, bind_eq_ok_iff, pure_eq_ok_iff] at h
    obtain ⟨_, hsubmit, rfl⟩ := h
    split at hsubmit <;> cases hsubmit
    refine ⟨?_, fun _ ↦ ?_⟩
    · simp [heard, reported, Event.heard, Event.reported, pending, hbridge]
    · simp [entered, submitted, Event.entered, Event.submissions, offered, hbridge]

theorem relays_of_takeVerdicts (link : Link) :
    Relays link .takeVerdicts [.read link.takeVerdicts.1] link.takeVerdicts.2 := by
  cases hbridge : link.bridge with
  | none =>
    have hnone : link.takeVerdicts = ([], link) := by rw [takeVerdicts, hbridge]
    rw [hnone]
    exact .apart rfl rfl fun _ ↦ rfl
  | some bridge =>
    refine ⟨?_, fun _ ↦ ?_⟩
    · simp [heard, reported, Event.heard, Event.reported, pending, takeVerdicts, hbridge,
        Bridge.takeVerdicts]
    · simp [entered, submitted, Event.entered, Event.submissions, offered, takeVerdicts, hbridge,
        Bridge.takeVerdicts]

/-- A link that is given a new bridge forgets what waited on the old one. -/
theorem relays_of_attach {link next : Link} {severed : Option Bridge}
    (h : link.attach = .ok (severed, next)) : Relays link .attach [.attached] next := by
  unfold attach at h
  split at h <;> cases h
  exact ⟨List.nil_sublist _, fun _ ↦ List.nil_sublist _⟩

theorem relays_of_dropCollaborator (link : Link) :
    Relays link .dropCollaborator [] link.dropCollaborator := by
  cases hbridge : link.bridge with
  | none => exact .apart (by simp [dropCollaborator, hbridge]) rfl fun _ ↦ rfl
  | some bridge =>
    refine ⟨?_, fun _ ↦ ?_⟩
    · simp [heard, reported, pending, dropCollaborator, hbridge, Bridge.dropCollaborator]
    · simp [entered, submitted, offered, dropCollaborator, hbridge, Bridge.dropCollaborator]

theorem relays_of_act {link next : Link} {call : Call} {events : List Event}
    (h : link.act call = .ok (events, next)) : Relays link call events next := by
  cases call with
  | step now =>
    cases h
    exact .apart rfl rfl fun _ ↦ rfl
  | attach =>
    simp only [Link.act] at h
    split at h <;> cases h
    · exact relays_of_attach (by assumption)
    · exact .apart rfl rfl fun _ ↦ rfl
  | submit captured =>
    simp only [Link.act] at h
    split at h <;> cases h
    · exact relays_of_submit (by assumption)
    · exact .apart rfl rfl fun _ ↦ rfl
  | takeVerdicts =>
    cases h
    exact relays_of_takeVerdicts link
  | dropCollaborator =>
    cases h
    exact relays_of_dropCollaborator link
  | ingest =>
    simp only [Link.act, bind_eq_ok_iff, pure_eq_ok_iff] at h
    obtain ⟨⟨admitted, _⟩, hingest, heq⟩ := h
    cases heq
    exact relays_of_ingest hingest
  | generate bits size =>
    simp only [Link.act, generate, bind_eq_ok_iff, pure_eq_ok_iff] at h
    obtain ⟨⟨result, _⟩, ⟨⟨_, buffer⟩, -, heq⟩, hevents⟩ := h
    cases heq
    cases hevents
    refine .apart rfl ?_ fun hsilent ↦ by cases hsilent
    exact flatMap_generateEvents (fun _ ↦ rfl) (fun _ ↦ rfl) link bits size _
  | grant bits conditions =>
    simp only [Link.act, bind_eq_ok_iff, pure_eq_ok_iff] at h
    obtain ⟨⟨value, _⟩, hspend, heq⟩ := h
    cases heq
    obtain ⟨harq, buffer, egress, nextBlock, rfl, -⟩ := eq_of_spend hspend
    exact .apart rfl (flatMap_grantEvents (fun _ ↦ rfl) link bits conditions) fun _ ↦
      flatMap_grantEvents (fun _ ↦ rfl) link bits conditions
  | release =>
    simp only [Link.act, bind_eq_ok_iff, pure_eq_ok_iff] at h
    obtain ⟨⟨departure, _⟩, hrelease, heq⟩ := h
    cases heq
    exact relays_of_release hrelease

/-! ## Whole runs -/

variable {direction : Direction} {config : LinkConfig} {profile : LinkProfile} {model : ErrorModel}
  {seed : UInt64} {calls : List Call} {journal : List Event} {after : Link}

/-- What was read was given by the far end, each verdict once and in the same order. -/
theorem heard_sublist_reported
    (h : (idle direction config profile model seed).run calls = .ok (journal, after)) :
    (heard journal).Sublist (reported journal) :=
  (List.sublist_append_left _ _).trans <|
    sublist_of_run (p := fun _ ↦ True) Event.heard Event.reported pending
      (fun _ _ _ _ _ hact ↦ (relays_of_act hact).verdicts) h (fun _ _ ↦ trivial) rfl

/-- Without synthetic traffic, what came was submitted, each packet once and in the same order. -/
theorem entered_sublist_submitted (hcalls : ∀ call ∈ calls, call.isSilent = true)
    (h : (idle direction config profile model seed).run calls = .ok (journal, after)) :
    ((entered journal).map label).Sublist ((submitted journal).map labelOf) := by
  have hflow := sublist_of_run (fun event ↦ event.entered.map label)
    (fun event ↦ event.submissions.map labelOf) (fun link ↦ link.offered.map labelOf)
    (fun link call events next hsilent hact ↦ ?_) h hcalls rfl
  · rw [entered, submitted, List.map_flatMap, List.map_flatMap]
    exact (List.sublist_append_left _ _).trans hflow
  · have hcall := (relays_of_act hact).packets hsilent
    rwa [entered, submitted, List.map_flatMap, List.map_flatMap] at hcall

/-! ## What the far end gives verdicts on -/

/-- The far end is brought the blocks that were understood or given up, and what was turned away. -/
theorem perm_parts_farEnd (journal : List Event) :
    ((journal.filterMap Event.farEnd?).flatMap Egress.Call.parts).Perm
      (cargo (understood journal) ++ cargo (givenUp journal) ++ turnedAway journal) := by
  induction journal with
  | nil => exact .refl _
  | cons event journal ih =>
    cases event with
    | turnedAway packet => exact (ih.cons packet).trans List.perm_middle.symm
    | attempted attempt =>
      obtain ⟨block, number, worth, outcome⟩ := attempt
      cases outcome with
      | understood understood =>
        have hfront := ih.append_left understood.packets.toList
        rwa [← List.append_assoc, ← List.append_assoc] at hfront
      | waits => exact ih
      | givenUp exhausted =>
        have hfront := ih.append_left exhausted.packets.toList
        refine hfront.trans ?_
        rw [← List.append_assoc]
        refine List.Perm.append_right _ ?_
        rw [← List.append_assoc]
        have hswap : (exhausted.packets.toList ++ cargo (understood journal)).Perm
            (cargo (understood journal) ++ exhausted.packets.toList) := List.perm_append_comm
        have hall := hswap.append_right (cargo (givenUp journal))
        rwa [List.append_assoc (cargo _)] at hall
    | _ => exact ih

theorem perm_entered (journal : List Event) :
    (entered journal).Perm (admitted journal ++ turnedAway journal) := by
  induction journal with
  | nil => exact .refl _
  | cons event journal ih =>
    cases event with
    | admitted packet => exact ih.cons packet
    | turnedAway packet => exact (ih.cons packet).trans List.perm_middle.symm
    | _ => exact ih

theorem carried_of_mem_entered
    (h : (idle direction config profile model seed).run calls = .ok (journal, after)) {packet : Packet}
    (hpacket : packet ∈ entered journal) : packet.carried = packet.length := by
  obtain ⟨event, hevent, hcame⟩ := List.mem_flatMap.1 hpacket
  obtain ⟨before, next, hstep⟩ := (reaches_of_run h).exists_step hevent
  have hwhole : packet.isPart = false := hstep.isPart_eq_false <| by
    cases event with
    | admitted other => exact .inl (congrArg Event.admitted (List.mem_singleton.1 hcame).symm)
    | turnedAway other => exact .inr (congrArg Event.turnedAway (List.mem_singleton.1 hcame).symm)
    | _ => cases hcame
  simpa [Packet.isPart] using hwhole

/-- Each part that the far end is brought is one of a packet that came. -/
theorem exists_entered_of_mem_parts
    (h : (idle direction config profile model seed).run calls = .ok (journal, after)) {part : Packet}
    (hpart : part ∈ (journal.filterMap Event.farEnd?).flatMap Egress.Call.parts) :
    ∃ packet ∈ entered journal, packet.origin = part.origin := by
  have hconserved := (reaches_of_run h).conserved conserved_nil
  rcases List.mem_append.1 ((perm_parts_farEnd journal).mem_iff.1 hpart) with hblocks | hrefused
  · obtain ⟨packet, hpacket, horigin⟩ := hconserved.origins part <| by
      rw [blocks, cargo, List.flatMap_append, List.flatMap_append, ← cargo, ← cargo, List.append_assoc]
      exact List.mem_append_right _ (List.mem_append_right _ hblocks)
    exact ⟨packet, (perm_entered journal).mem_iff.2 (List.mem_append_left _ hpacket), horigin⟩
  · exact ⟨part, (perm_entered journal).mem_iff.2 (List.mem_append_right _ hrefused), rfl⟩

/-- The far end is brought no more bits under a number than came under it. -/
theorem bitsUnder_parts_le
    (h : (idle direction config profile model seed).run calls = .ok (journal, after)) (number : UInt32) :
    bitsUnder number ((journal.filterMap Event.farEnd?).flatMap Egress.Call.parts) ≤
      bitsUnder number (entered journal) := by
  have hconserved := (reaches_of_run h).conserved conserved_nil
  have hadmitted := Packet.bitsUnder_eq_of_perm hconserved.bits number
  rw [Packet.bitsUnder_eq_of_perm ((perm_parts_farEnd journal).flatMap_right _),
    Packet.bitsUnder_eq_of_perm ((perm_entered journal).flatMap_right _)]
  simp only [blocks, cargo, List.flatMap_append, Packet.bitsUnder_append] at hadmitted ⊢
  omega

/-- If no two packets that came have one number, the parts that the far end is brought are measured. -/
theorem measured_parts
    (h : (idle direction config profile model seed).run calls = .ok (journal, after))
    (hnumbers : ((entered journal).map (·.number)).Nodup)
    (hpositive : ∀ packet ∈ entered journal, 0 < packet.length) :
    Measured ((journal.filterMap Event.farEnd?).flatMap Egress.Call.parts) := by
  have hlength {part packet : Packet} (horigin : packet.origin = part.origin) :
      packet.number = part.number ∧ packet.length = part.length :=
    ⟨congrArg (·.number) horigin, congrArg (·.length) horigin⟩
  refine ⟨fun a ha b hb hnumber ↦ ?_, fun part hpart ↦ ?_, fun part hpart ↦ ?_⟩
  · obtain ⟨p, hp, hpa⟩ := exists_entered_of_mem_parts h ha
    obtain ⟨q, hq, hqb⟩ := exists_entered_of_mem_parts h hb
    have hsame : p = q := List.inj_on_of_nodup_map hnumbers hp hq <| by
      rw [(hlength hpa).1, (hlength hqb).1, hnumber]
    rw [← (hlength hpa).2, ← (hlength hqb).2, hsame]
  · obtain ⟨packet, hpacket, horigin⟩ := exists_entered_of_mem_parts h hpart
    rw [← (hlength horigin).2]
    exact hpositive packet hpacket
  · obtain ⟨packet, hpacket, horigin⟩ := exists_entered_of_mem_parts h hpart
    rw [← (hlength horigin).1, ← (hlength horigin).2, ← carried_of_mem_entered h hpacket,
      ← Packet.bitsUnder_of_nodup hnumbers hpacket]
    exact bitsUnder_parts_le h packet.number

theorem reported_eq (journal : List Event) :
    reported journal =
      ((journal.filterMap Event.departure?).flatMap (·.settled)).map (·.verdict) := by
  induction journal with
  | nil => rfl
  | cons event journal ih =>
    rw [reported, List.flatMap_cons, ← reported, ih]
    cases event with
    | released departure => exact List.map_append.symm
    | _ => rfl

/-- What the far end has given verdicts on is what has left it. -/
theorem exists_reaches_of_run {strict : Bool} (hmode : config.egress = .reassembly strict)
    (h : (idle direction config profile model seed).run calls = .ok (journal, after)) :
    ∃ history view, Reassembly.Reaches strict history view ∧
      Reassembly.parts history = (journal.filterMap Event.farEnd?).flatMap Egress.Call.parts ∧
      (reported journal).map (·.number) = (exits history).map (·.number) := by
  obtain ⟨record, hrun, hdepartures⟩ := (reaches_of_run h).exists_record
  have hstart : (idle direction config profile model seed).view.egress =
      .empty (.reassembly strict) (.ofSeed (Random.seedFor seed 1)) := by
    rw [← hmode]
    rfl
  rw [hstart] at hrun
  obtain ⟨assembly, htraced⟩ := Egress.traced_of_run hrun
  refine ⟨record.history, assembly.view, htraced.reaches, htraced.parts, ?_⟩
  rw [reported_eq, ← hdepartures, htraced.settled, List.map_map, List.map_map]
  exact List.map_congr_left fun exit _ ↦ Egress.number_verdict exit.settled

/-- A far end that releases whole blocks gives no verdicts. -/
theorem reported_eq_nil (hmode : config.egress = .blocks)
    (h : (idle direction config profile model seed).run calls = .ok (journal, after)) :
    reported journal = [] := by
  obtain ⟨record, hrun, hdepartures⟩ := (reaches_of_run h).exists_record
  have hstart : (idle direction config profile model seed).view.egress =
      .empty .blocks (.ofSeed (Random.seedFor seed 1)) := by
    rw [← hmode]
    rfl
  rw [hstart] at hrun
  rw [reported_eq, ← hdepartures, List.map_eq_nil_iff, List.flatMap_eq_nil_iff]
  exact Egress.settled_of_run_blocks hrun

/-- A verdict is about a packet that came. -/
theorem exists_entered_of_reported
    (h : (idle direction config profile model seed).run calls = .ok (journal, after)) {verdict : Verdict}
    (hverdict : verdict ∈ reported journal) : ∃ packet ∈ entered journal, packet.number = verdict.number := by
  cases hmode : config.egress with
  | blocks =>
    rw [reported_eq_nil hmode h] at hverdict
    cases hverdict
  | reassembly strict =>
    obtain ⟨history, view, hreaches, hparts, hreported⟩ := exists_reaches_of_run hmode h
    have hmem : verdict.number ∈ (exits history).map (·.number) := by
      rw [← hreported]
      exact List.mem_map_of_mem hverdict
    obtain ⟨exit, hexit, hnumber⟩ := List.mem_map.1 hmem
    obtain ⟨part, hpart, hsame, -⟩ := (hreaches.isStarted_iff exit.number).2 (.inr ⟨exit, hexit, rfl⟩)
    rw [hparts] at hpart
    obtain ⟨packet, hpacket, horigin⟩ := exists_entered_of_mem_parts h hpart
    have hpacketNumber : packet.number = part.number := congrArg (·.number) horigin
    exact ⟨packet, hpacket, (hpacketNumber.trans hsame).trans hnumber⟩

theorem nodup_reported
    (h : (idle direction config profile model seed).run calls = .ok (journal, after))
    (hnumbers : ((entered journal).map (·.number)).Nodup)
    (hpositive : ∀ packet ∈ entered journal, 0 < packet.length) :
    ((reported journal).map (·.number)).Nodup := by
  cases hmode : config.egress with
  | blocks =>
    rw [reported_eq_nil hmode h]
    exact List.nodup_nil
  | reassembly strict =>
    obtain ⟨history, view, hreaches, hparts, hreported⟩ := exists_reaches_of_run hmode h
    have hmeasured := measured_parts h hnumbers hpositive
    rw [← hparts] at hmeasured
    rw [hreported]
    exact List.pairwise_map.2 (hreaches.accounted_of_measured hmeasured).once

/-- The verdicts that are read from the bridge are those of packets that came to the link, whoever they
came from, and no packet is named twice if no two of them have one number.  On a link without synthetic
traffic these are the packets that were submitted. -/
theorem verdicts_of_entered_packets
    (h : (idle direction config profile model seed).run calls = .ok (journal, after)) :
    (heard journal).Sublist (reported journal) ∧
    (∀ verdict ∈ heard journal, ∃ packet ∈ entered journal, packet.number = verdict.number) ∧
    (((entered journal).map (·.number)).Nodup → (∀ packet ∈ entered journal, 0 < packet.length) →
      ((heard journal).map (·.number)).Nodup) ∧
    ((∀ call ∈ calls, call.isSilent = true) →
      (∀ verdict ∈ heard journal, ∃ captured ∈ submitted journal, captured.number = verdict.number) ∧
      (((submitted journal).map (·.number)).Nodup → (∀ captured ∈ submitted journal, 0 < captured.bytes) →
        ((heard journal).map (·.number)).Nodup)) := by
  have hheard := heard_sublist_reported h
  have hentered (verdict : Verdict) (hverdict : verdict ∈ heard journal) :
      ∃ packet ∈ entered journal, packet.number = verdict.number :=
    exists_entered_of_reported h (hheard.subset hverdict)
  have honce (hnumbers : ((entered journal).map (·.number)).Nodup)
      (hpositive : ∀ packet ∈ entered journal, 0 < packet.length) :
      ((heard journal).map (·.number)).Nodup :=
    (nodup_reported h hnumbers hpositive).sublist (hheard.map _)
  refine ⟨hheard, hentered, honce, fun hsilent ↦ ⟨fun verdict hverdict ↦ ?_, fun hnumbers hpositive ↦ ?_⟩⟩
  · obtain ⟨packet, hpacket, hnumber⟩ := hentered verdict hverdict
    have hlabel := (entered_sublist_submitted hsilent h).subset (List.mem_map_of_mem hpacket)
    obtain ⟨captured, hcaptured, hsame⟩ := List.mem_map.1 hlabel
    exact ⟨captured, hcaptured, (congrArg Prod.fst hsame).trans hnumber⟩
  · have hlabels := entered_sublist_submitted hsilent h
    refine honce ?_ fun packet hpacket ↦ ?_
    · have hsub := hlabels.map Prod.fst
      rw [List.map_map, List.map_map] at hsub
      exact hnumbers.sublist hsub
    · obtain ⟨captured, hcaptured, hsame⟩ := List.mem_map.1 (hlabels.subset (List.mem_map_of_mem hpacket))
      have hbytes := UInt32.lt_iff_toNat_lt.1 (hpositive captured hcaptured)
      have hlength : captured.bytes.toUInt64 * 8 = packet.length := congrArg Prod.snd hsame
      rw [← hlength, UInt64.lt_iff_toNat_lt, UInt64.toNat_mul, UInt32.toNat_toUInt64]
      have hsmall := captured.bytes.toNat_lt
      have hfits : captured.bytes.toNat * (8 : UInt64).toNat % 2 ^ 64 = captured.bytes.toNat * 8 :=
        Nat.mod_eq_of_lt (by simp; omega)
      rw [hfits]
      exact Nat.mul_pos hbytes (by decide)

/-- Two packets are submitted; the first one is cut, and both have been delivered when the verdicts are
read. -/
theorem verdicts_of_entered_packets_submitted :
    ∃ state,
      (idle .downlink { LinkConfig.standard with backhaul := .none } .standard (.flat 0.0) 1).run
        [.attach, .submit ⟨0.0, 100, 5, none⟩, .submit ⟨0.0, 50, 6, some 5⟩, .step 0.0, .ingest,
          .grant 700 ⟨10, 20.0, 100.0⟩, .release, .grant 700 ⟨10, 20.0, 100.0⟩, .release, .takeVerdicts] =
        .ok state ∧
      (heard state.1).length = 2 ∧ ((heard state.1).map (·.number)).Nodup ∧
      ∀ verdict ∈ heard state.1, ∃ captured ∈ submitted state.1, captured.number = verdict.number := by
  refine exists_ok_of_any (fun state ↦ (heard state.1).length = 2 &&
    decide (((submitted state.1).map (·.number)).Nodup ∧ ∀ captured ∈ submitted state.1, 0 < captured.bytes))
    (by decide +kernel) fun state hrun hstate ↦ ?_
  rw [Bool.and_eq_true, decide_eq_true_eq, decide_eq_true_eq] at hstate
  obtain ⟨hcount, hnumbers, hpositive⟩ := hstate
  obtain ⟨habout, honce⟩ := (verdicts_of_entered_packets hrun).2.2.2 (by decide)
  exact ⟨hcount, honce hnumbers hpositive, habout⟩

/-- A collaborator that has submitted nothing is told of a synthetic packet, and one whose packet has the
number of a synthetic one is told of it twice. -/
theorem verdicts_of_synthetic_packets :
    (∃ state,
      (idle .downlink { LinkConfig.standard with backhaul := .none } .standard (.flat 0.0) 1).run
        [.attach, .step 0.0, .generate 800 800, .grant 800 ⟨10, 20.0, 100.0⟩, .release, .takeVerdicts] =
        .ok state ∧ submitted state.1 = [] ∧ heard state.1 = [.accept 0]) ∧
    ∃ state,
      (idle .downlink { LinkConfig.standard with backhaul := .none } .standard (.flat 0.0) 1).run
        [.attach, .submit ⟨0.0, 100, 0, none⟩, .step 0.0, .ingest, .generate 800 800,
          .grant 800 ⟨10, 20.0, 100.0⟩, .release, .grant 800 ⟨10, 20.0, 100.0⟩, .release, .takeVerdicts] =
        .ok state ∧ (submitted state.1).map (·.number) = [0] ∧ heard state.1 = [.accept 0, .reject 0] := by
  refine ⟨?_, ?_⟩
  · refine exists_ok_of_any (fun state ↦ (submitted state.1).isEmpty && heard state.1 = [.accept 0])
      (by decide +kernel) fun state _ hstate ↦ ?_
    rwa [Bool.and_eq_true, List.isEmpty_iff, decide_eq_true_eq] at hstate
  · refine exists_ok_of_any (fun state ↦ (submitted state.1).map (·.number) = [0] &&
      heard state.1 = [.accept 0, .reject 0]) (by decide +kernel) fun state _ hstate ↦ ?_
    rwa [Bool.and_eq_true, decide_eq_true_eq, decide_eq_true_eq] at hstate

end RadioAccess.Link
