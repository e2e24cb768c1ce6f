import RadioAccess.Link.Tap
import RadioAccess.Proofs.Harq
import RadioAccess.Proofs.Link.Attempt
import RadioAccess.Proofs.TransmitBuffer

/-!
# Runs of a Link

A run makes calls one after the other, those of the collaborator included, and keeps a journal of what
happened.  `Step` says all that one event of the journal does to the waiting packets, the queue of
repetitions, the far end and the count of lost bits; `reaches_of_run` says that a run is a sequence of
such steps, so that what no step breaks holds after every run.
-/

namespace RadioAccess.Link

open Packet (Split)

/-- A call to a link, or to the bridge that is attached to it. -/
inductive Call where
  | step (now : Float)
  | attach
  | submit (captured : CapturedPacket)
  | takeVerdicts
  | dropCollaborator
  | ingest
  | generate (bits size : UInt64)
  | grant (bits : UInt64) (conditions : LinkConditions)
  | release

/-- What happens on a link. -/
inductive Event where
  | stepped (now : Float)
  | attached
  | submitted (captured : CapturedPacket)
  | read (verdicts : List Verdict)
  | admitted (packet : Packet)
  /-- A request for traffic did not fit. -/
  | refused (bits : UInt64)
  /-- A captured packet did not fit. -/
  | turnedAway (packet : Packet)
  | attempted (attempt : Attempt)
  | released (departure : Departure)

/-! ## Calls -/

/-- What becomes of a captured packet that the link takes. -/
def captureEvent (packet : Packet) (fits : Bool) : Event :=
  if fits then .admitted packet else .turnedAway packet

/-- What taking captured packets does. -/
def captureEvents (link : Link) : List CapturedPacket → List Event
  | [] => []
  | captured :: waiting =>
    match link.ingestPacket captured with
    | .ok (fits, next) =>
      captureEvent (packetOf captured link.backhaul) fits :: next.captureEvents waiting
    | .error _ => []

/-- What taking all packets that wait on the bridge does. -/
def ingestEvents (link : Link) : List Event :=
  match link.bridge with
  | none => []
  | some bridge =>
    let (waiting, bridge) := bridge.takePackets
    { link with bridge := some bridge }.captureEvents waiting

/-- What a request for traffic does. -/
def generateEvents (link : Link) (bits size : UInt64) : Except AdmissionError Nat → List Event
  | .ok count =>
    (TransmitBuffer.segments size link.now link.backhaul count bits link.buffer.nextNumber).map .admitted
  | .error (.overflow _ _ _) => [.refused bits]
  | .error .emptyPackets => []

/-- What a grant does. -/
def grantEvents (link : Link) (bits : UInt64) (conditions : LinkConditions) : List Event :=
  match link.attempt? bits conditions with
  | .ok (attempt, _) => attempt.toList.map .attempted
  | .error _ => []

/-- Makes a call.  Gives what happened. -/
def act (link : Link) : Call → Except Fault (List Event × Link)
  | .step now => .ok ([.stepped now], link.step now)
  | .attach =>
    match link.attach with
    | .ok (_, next) => .ok ([.attached], next)
    | .error _ => .ok ([], link)
  | .submit captured =>
    match link.submit captured with
    | .ok next => .ok ([.submitted captured], next)
    | .error _ => .ok ([], link)
  | .takeVerdicts =>
    let (verdicts, next) := link.takeVerdicts
    .ok ([.read verdicts], next)
  | .dropCollaborator => .ok ([], link.dropCollaborator)
  | .ingest => do
    let (_, next) ← link.ingest
    return (link.ingestEvents, next)
  | .generate bits size => do
    let (result, next) ← link.generate bits size
    return (link.generateEvents bits size result, next)
  | .grant bits conditions => do
    let (_, next) ← link.spend bits conditions
    return (link.grantEvents bits conditions, next)
  | .release => do
    let (departure, next) ← link.release
    return ([.released departure], next)

/-- Makes a call and enters it into the journal. -/
def advance (state : List Event × Link) (call : Call) : Except Fault (List Event × Link) := do
  let (events, link) ← state.2.act call
  return (state.1 ++ events, link)

/-- Makes calls one after the other. -/
def run (link : Link) (calls : List Call) : Except Fault (List Event × Link) :=
  calls.foldlM advance ([], link)

/-! ## Steps -/

/-- What a link holds. -/
structure View where
  now : Float
  backhaul : Backhaul
  /-- Packets that wait for a grant. -/
  waiting : List Packet
  /-- Blocks that wait for their repetition. -/
  queue : List TransportBlock
  nextBlock : Nat
  lost : RunningMean Float
  egress : Egress

/-- What this link holds. -/
def view (link : Link) : View :=
  { now := link.now, backhaul := link.backhaul, waiting := link.buffer.packets.toList
    queue := link.harq.queue.items, nextBlock := link.nextBlock.toNat, lost := link.buffer.lost
    egress := link.egress }

/-- Where the block of an attempt comes from, and what remains there. -/
inductive Takes (before : View) (block : TransportBlock) : View → Prop where
  | fresh {rest : List Packet} (hsplit : Split before.waiting block.packets.toList rest)
      (htallied : block.IsTallied) (hnumber : block.number.toNat = before.nextBlock)
      (hshell : ∃ mcs distance, block.shell =
        (TransportBlock.empty block.number before.now mcs distance before.backhaul).shell) :
      Takes before block { before with waiting := rest, nextBlock := before.nextBlock + 1 }
  | again {later : List TransportBlock} (hqueue : before.queue = block :: later) :
      Takes before block { before with queue := later }

/-- Where the block of an attempt goes. -/
inductive Goes (before : View) (block : TransportBlock) : Outcome → View → Prop where
  | understood {egress : Egress} (harrive : before.egress.arrive block = .ok egress) :
      Goes before block (.understood block) { before with egress }
  | waits {queued : TransportBlock} {queue : List TransportBlock} (hload : queued.SameLoad block)
      (hqueue : queue.Perm (queued :: before.queue)) :
      Goes before block .waits { before with queue }
  | givenUp {exhausted : TransportBlock} {egress : Egress} (hload : exhausted.SameLoad block)
      (hlose : before.egress.loseBlock exhausted = .ok egress) :
      Goes before block (.givenUp exhausted)
        { before with lost := before.lost.add exhausted.bits.toFloat, egress }

/-- What one event does. -/
inductive Step : View → Event → View → Prop where
  | stepped (view : View) (now : Float) :
      Step view (.stepped now)
        { view with now, lost := view.lost.step, egress := view.egress.step now }
  | attached (view : View) : Step view .attached view
  | submitted (view : View) (captured : CapturedPacket) : Step view (.submitted captured) view
  | read (view : View) (verdicts : List Verdict) : Step view (.read verdicts) view
  | admitted (view : View) {packet : Packet} (hwhole : packet.isPart = false) :
      Step view (.admitted packet) { view with waiting := view.waiting ++ [packet] }
  | refused (view : View) (bits : UInt64) :
      Step view (.refused bits) { view with lost := view.lost.add bits.toFloat }
  | turnedAway {view : View} {packet : Packet} {egress : Egress} (hwhole : packet.isPart = false)
      (hlose : view.egress.losePacket packet = .ok egress) :
      Step view (.turnedAway packet)
        { view with lost := view.lost.add packet.carried.toFloat, egress }
  | attempted {before held after : View} {attempt : Attempt} (htakes : Takes before attempt.block held)
      (hgoes : Goes held attempt.block attempt.outcome after) :
      Step before (.attempted attempt) after
  | released {view : View} {departure : Departure} {egress : Egress}
      (hrelease : view.egress.release = .ok (departure, egress)) :
      Step view (.released departure) { view with egress }

/-- What a link that held `start` at first comes to by the events of a journal. -/
inductive Reaches (start : View) : List Event → View → Prop where
  | start : Reaches start [] start
  | next {journal : List Event} {event : Event} {before after : View}
      (hbefore : Reaches start journal before) (hstep : Step before event after) :
      Reaches start (journal ++ [event]) after

/-- Each event of a journal is that of a step. -/
theorem Reaches.exists_step {start after : View} {journal : List Event} (h : Reaches start journal after)
    {event : Event} (hevent : event ∈ journal) : ∃ before next, Step before event next := by
  induction h with
  | start => cases hevent
  | next hbefore hstep ih =>
    rcases List.mem_append.1 hevent with hearlier | hlast
    · exact ih hearlier
    · cases List.mem_singleton.1 hlast
      exact ⟨_, _, hstep⟩

/-- Reaching a view by one event is a step. -/
theorem step_of_reaches {start after : View} {event : Event} (h : Reaches start [event] after) :
    Step start event after := by
  have hnil {view : View} (h : Reaches start [] view) : view = start := by
    generalize hjournal : [] = journal at h
    cases h with
    | start => rfl
    | next => simp at hjournal
  generalize hjournal : [event] = journal at h
  cases h with
  | start => cases hjournal
  | next hbefore hstep =>
    obtain ⟨rfl, hevent⟩ := List.append_eq_singleton_iff.1 hjournal.symm |>.resolve_right (by simp)
    cases hevent
    rw [hnil hbefore] at hstep
    exact hstep

/-! ## Calls as steps -/

variable {start : View} {journal : List Event}

theorem Reaches.enter {view : View} (h : Reaches start journal view) {packets : List Packet}
    (hwhole : ∀ packet ∈ packets, packet.isPart = false) :
    Reaches start (journal ++ packets.map .admitted)
      { view with waiting := view.waiting ++ packets } := by
  induction packets generalizing journal view with
  | nil => simpa using h
  | cons packet packets ih =>
    have hnext := h.next (.admitted view (hwhole packet List.mem_cons_self))
    have hrest := ih hnext fun other hother ↦ hwhole other (List.mem_cons_of_mem _ hother)
    simpa using hrest

theorem isPart_whole (number : UInt32) (predecessor : Option UInt32) (bits : UInt64) (time : Float)
    (backhaul : Backhaul) : (Packet.whole number predecessor bits time backhaul).isPart = false := by
  simp [Packet.isPart, Packet.whole]

theorem isPart_of_mem_segments {size : UInt64} {time : Float} {backhaul : Backhaul} {count : Nat}
    {bits : UInt64} {number : UInt32} {packet : Packet}
    (h : packet ∈ TransmitBuffer.segments size time backhaul count bits number) :
    packet.isPart = false := by
  obtain ⟨number, predecessor, carried, rfl⟩ := TransmitBuffer.exists_whole_of_mem_segments h
  exact isPart_whole _ _ _ _ _

theorem view_eq_of_admitted {link : Link} {buffer : TransmitBuffer} {packets : List Packet}
    (h : link.buffer.Admitted packets buffer) :
    ({ link with buffer } : Link).view =
      { link.view with waiting := link.view.waiting ++ packets } := by
  simp only [view, h.packets, h.lost]

theorem Reaches.generate {link next : Link} {bits size : UInt64} {result : Except AdmissionError Nat}
    (h : Reaches start journal link.view) (hgenerate : link.generate bits size = .ok (result, next)) :
    Reaches start (journal ++ link.generateEvents bits size result) next.view := by
  simp only [Link.generate, bind_eq_ok_iff, pure_eq_ok_iff] at hgenerate
  obtain ⟨⟨_, buffer⟩, hbuffer, heq⟩ := hgenerate
  cases heq
  rcases TransmitBuffer.eq_of_generate hbuffer with ⟨-, rfl, -, hadmitted⟩ | ⟨rfl, rfl⟩ | ⟨rfl, rfl⟩
  · rw [view_eq_of_admitted hadmitted]
    exact h.enter fun packet hpacket ↦ isPart_of_mem_segments hpacket
  · exact h.next (.refused link.view bits)
  · simpa [generateEvents] using h

theorem Reaches.ingestPacket {link next : Link} {captured : CapturedPacket} {fits : Bool}
    (h : Reaches start journal link.view) (hingest : link.ingestPacket captured = .ok (fits, next)) :
    Reaches start (journal ++ [captureEvent (packetOf captured link.backhaul) fits]) next.view := by
  have hwhole : (packetOf captured link.backhaul).isPart = false := isPart_whole _ _ _ _ _
  simp only [Link.ingestPacket, bind_eq_ok_iff] at hingest
  obtain ⟨⟨result, buffer⟩, haccept, hingest⟩ := hingest
  rcases TransmitBuffer.eq_of_accept haccept with ⟨rfl, hadmitted⟩ | ⟨reason, rfl, rfl⟩
  · cases hingest
    rw [view_eq_of_admitted hadmitted]
    exact h.next (.admitted link.view hwhole)
  · simp only [bind_eq_ok_iff, pure_eq_ok_iff] at hingest
    obtain ⟨egress, hlose, heq⟩ := hingest
    cases heq
    exact h.next (.turnedAway hwhole hlose)

theorem Reaches.ingestAll {link next : Link} {waiting : List CapturedPacket} {admitted : Nat}
    (h : Reaches start journal link.view) (hingest : link.ingestAll waiting = .ok (admitted, next)) :
    Reaches start (journal ++ link.captureEvents waiting) next.view := by
  induction waiting generalizing journal link admitted with
  | nil =>
    cases hingest
    simpa [captureEvents] using h
  | cons captured waiting ih =>
    simp only [Link.ingestAll, bind_eq_ok_iff, pure_eq_ok_iff] at hingest
    obtain ⟨⟨fits, middle⟩, hfirst, ⟨later, last⟩, hrest, heq⟩ := hingest
    cases heq
    have hnext := ih (h.ingestPacket hfirst) hrest
    simpa [captureEvents, hfirst] using hnext

theorem Reaches.ingest {link next : Link} {admitted : Nat} (h : Reaches start journal link.view)
    (hingest : link.ingest = .ok (admitted, next)) :
    Reaches start (journal ++ link.ingestEvents) next.view := by
  unfold Link.ingest at hingest
  unfold ingestEvents
  cases hbridge : link.bridge with
  | none =>
    simp only [hbridge] at hingest
    cases hingest
    simpa using h
  | some bridge =>
    simp only [hbridge] at hingest
    have hlink : Reaches start journal
        ({ link with bridge := some bridge.takePackets.2 } : Link).view := h
    exact hlink.ingestAll hingest

/-- A failed attempt leaves its block in the queue, or it is given up. -/
theorem goes_of_failed {link next : Link} {block : TransportBlock} {repetition : Repetition}
    {harq : Harq} {number : UInt32} {worth value : UInt64}
    (hfailed : link.harq.Failed block repetition harq)
    (hconclude : { link with harq }.conclude
      (some { block, number, worth, outcome := .ofRepetition repetition }) = .ok (value, next)) :
    Goes link.view block (.ofRepetition repetition) next.view := by
  cases hfailed with
  | waits waiting hload hqueue =>
    cases hconclude
    exact .waits hload hqueue
  | givenUp exhausted hload =>
    simp only [Outcome.ofRepetition, conclude, settleFailure, bind_eq_ok_iff, pure_eq_ok_iff]
      at hconclude
    obtain ⟨_, ⟨egress, hlose, rfl⟩, heq⟩ := hconclude
    cases heq
    exact .givenUp hload hlose

/-- A block that was understood goes to the far end. -/
theorem goes_of_understood {link next : Link} {block : TransportBlock} {number : UInt32}
    {worth value : UInt64}
    (hconclude : link.conclude (some { block, number, worth, outcome := .understood block }) =
      .ok (value, next)) : Goes link.view block (.understood block) next.view := by
  simp only [conclude, succeed, bind_eq_ok_iff, pure_eq_ok_iff] at hconclude
  obtain ⟨_, ⟨egress, harrive, rfl⟩, heq⟩ := hconclude
  cases heq
  exact .understood harrive

/-- A block that is repeated leaves the queue. -/
theorem takes_of_takeReady? {link : Link} {harq drawn : Harq} {block : TransportBlock} {mcs : UInt8}
    {sinr : Float} {number : UInt32} {failed : Bool} (htake : link.harq.takeReady? = (some block, harq))
    (hdraw : harq.attemptFails mcs sinr number = .ok (failed, drawn)) :
    Takes link.view block ({ link with harq := drawn } : Link).view := by
  have hdrawn : ({ link with harq := drawn } : Link).view =
      { link.view with queue := harq.queue.items } := by
    simp only [view, Harq.queue_of_attemptFails hdraw]
  rw [hdrawn]
  exact .again (Harq.items_of_takeReady? htake)

/-- A fresh block is cut out of the waiting packets. -/
theorem takes_of_drain {link : Link} {nextBlock bits worth : UInt64} {mcs : UInt8} {distance sinr : Float}
    {buffer : TransmitBuffer} {block : TransportBlock} {number : UInt32} {failed : Bool} {drawn : Harq}
    (hnext : Word.add64 link.nextBlock 1 = .ok nextBlock)
    (hdrain : link.buffer.drain bits (.empty link.nextBlock link.now mcs distance link.backhaul) =
      .ok (worth, buffer, block))
    (hdraw : link.harq.attemptFails mcs sinr number = .ok (failed, drawn)) :
    Takes link.view block ({ link with nextBlock, buffer, harq := drawn } : Link).view := by
  obtain ⟨left, parts, hfilled, -, hlost, -⟩ := TransmitBuffer.filled_of_drain hdrain
  have hnumber : block.number = link.nextBlock := congrArg TransportBlock.number hfilled.shell
  have hdrawn : ({ link with nextBlock, buffer, harq := drawn } : Link).view =
      { link.view with waiting := buffer.packets.toList, nextBlock := link.view.nextBlock + 1 } := by
    simp only [view, Harq.queue_of_attemptFails hdraw, hlost, Word.toNat_of_add64_eq_ok hnext]
    rfl
  rw [hdrawn]
  refine .fresh ?_ ?_ (congrArg UInt64.toNat hnumber) ⟨mcs, distance, ?_⟩
  · rw [hfilled.packets]
    exact hfilled.split
  · rw [TransportBlock.IsTallied, hfilled.tally, hfilled.packets]
    exact Nat.zero_add _
  · rw [hnumber]
    exact hfilled.shell

theorem Reaches.again {link middle next : Link} {harq : Harq} {block : TransportBlock}
    {conditions : LinkConditions} {attempt : Attempt} {value : UInt64}
    (h : Reaches start journal link.view) (htake : link.harq.takeReady? = (some block, harq))
    (hagain : { link with harq }.AgainStep block conditions attempt middle)
    (hconclude : middle.conclude (some attempt) = .ok (value, next)) :
    Reaches start (journal ++ [.attempted attempt]) next.view := by
  cases hagain with
  | understood hnumber hdraw =>
    exact h.next (.attempted (takes_of_takeReady? htake hdraw) (goes_of_understood hconclude))
  | failed hnumber hdraw hfailed =>
    refine h.next (.attempted (takes_of_takeReady? htake hdraw) ?_)
    exact goes_of_failed (Harq.failed_of_repetitionFailed hfailed) hconclude

theorem Reaches.fresh {link middle next : Link} {bits : UInt64} {conditions : LinkConditions}
    {attempt : Attempt} {value : UInt64} (h : Reaches start journal link.view)
    (hfresh : link.FreshStep bits conditions attempt middle)
    (hconclude : middle.conclude (some attempt) = .ok (value, next)) :
    Reaches start (journal ++ [.attempted attempt]) next.view := by
  cases hfresh with
  | understood hnext hdrain hdraw =>
    exact h.next (.attempted (takes_of_drain hnext hdrain hdraw) (goes_of_understood hconclude))
  | failed hnext hdrain hdraw hfailed =>
    refine h.next (.attempted (takes_of_drain hnext hdrain hdraw) ?_)
    exact goes_of_failed (Harq.failed_of_firstFailed hfailed) hconclude

theorem Reaches.spend {link next : Link} {bits worth : UInt64} {conditions : LinkConditions}
    (h : Reaches start journal link.view) (hspend : link.spend bits conditions = .ok (worth, next)) :
    Reaches start (journal ++ link.grantEvents bits conditions) next.view := by
  rw [spend_eq, bind_eq_ok_iff] at hspend
  obtain ⟨⟨attempt, middle⟩, hattempt, hconclude⟩ := hspend
  simp only [grantEvents, hattempt]
  cases attemptStep_of_attempt? hattempt with
  | idle hnone =>
    cases hconclude
    simpa using h
  | again htake hagain => exact h.again htake hagain hconclude
  | fresh hnone hbits hdata hfresh => exact h.fresh hfresh hconclude

/-- A grant that is spent on an attempt is one step. -/
theorem step_of_spend {link next : Link} {bits worth : UInt64} {conditions : LinkConditions}
    {attempt : Attempt} (hspend : link.spend bits conditions = .ok (worth, next))
    (hevents : link.grantEvents bits conditions = [.attempted attempt]) :
    Step link.view (.attempted attempt) next.view := by
  have hstart : Reaches link.view [] link.view := .start
  have hreaches := hstart.spend hspend
  rw [hevents] at hreaches
  exact step_of_reaches hreaches

/-! ## The bridge -/

theorem view_of_attach {link next : Link} {replaced : Option Bridge}
    (h : link.attach = .ok (replaced, next)) : next.view = link.view := by
  unfold attach at h
  split at h
  · cases h
  · cases h
    rfl

theorem view_of_submit {link next : Link} {captured : CapturedPacket}
    (h : link.submit captured = .ok next) : next.view = link.view := by
  unfold submit at h
  split at h
  · cases h
  · rw [bind_eq_ok_iff] at h
    obtain ⟨bridge, -, hnext⟩ := h
    cases hnext
    rfl

theorem view_takeVerdicts (link : Link) : link.takeVerdicts.2.view = link.view := by
  unfold takeVerdicts
  split <;> rfl

theorem view_of_release {link next : Link} {departure : Departure}
    (h : link.release = .ok (departure, next)) :
    ∃ egress, link.egress.release = .ok (departure, egress) ∧ next.view = { link.view with egress } := by
  simp only [release, bind_eq_ok_iff, pure_eq_ok_iff] at h
  obtain ⟨⟨_, egress⟩, hrelease, heq⟩ := h
  cases heq
  exact ⟨egress, hrelease, rfl⟩

/-! ## Runs -/

theorem Reaches.act {link next : Link} {call : Call} {events : List Event}
    (h : Reaches start journal link.view) (hact : link.act call = .ok (events, next)) :
    Reaches start (journal ++ events) next.view := by
  cases call with
  | step now =>
    cases hact
    exact h.next (.stepped link.view now)
  | attach =>
    simp only [Link.act] at hact
    split at hact <;> cases hact
    · rename_i hattach
      rw [view_of_attach hattach]
      exact h.next (.attached link.view)
    · simpa using h
  | submit captured =>
    simp only [Link.act] at hact
    split at hact <;> cases hact
    · rename_i hsubmit
      rw [view_of_submit hsubmit]
      exact h.next (.submitted link.view captured)
    · simpa using h
  | takeVerdicts =>
    have hnext : link.takeVerdicts.2 = next ∧ events = [.read link.takeVerdicts.1] := by
      simpa [Link.act, eq_comm, and_comm] using hact
    obtain ⟨rfl, rfl⟩ := hnext
    rw [view_takeVerdicts]
    exact h.next (.read link.view _)
  | dropCollaborator =>
    cases hact
    rw [List.append_nil]
    exact h
  | ingest =>
    simp only [Link.act, bind_eq_ok_iff, pure_eq_ok_iff] at hact
    obtain ⟨⟨admitted, _⟩, hingest, heq⟩ := hact
    cases heq
    exact h.ingest hingest
  | generate bits size =>
    simp only [Link.act, bind_eq_ok_iff, pure_eq_ok_iff] at hact
    obtain ⟨⟨result, _⟩, hgenerate, heq⟩ := hact
    cases heq
    exact h.generate hgenerate
  | grant bits conditions =>
    simp only [Link.act, bind_eq_ok_iff, pure_eq_ok_iff] at hact
    obtain ⟨⟨worth, _⟩, hspend, heq⟩ := hact
    cases heq
    exact h.spend hspend
  | release =>
    simp only [Link.act, bind_eq_ok_iff, pure_eq_ok_iff] at hact
    obtain ⟨⟨departure, _⟩, hrelease, heq⟩ := hact
    cases heq
    obtain ⟨egress, hegress, hview⟩ := view_of_release hrelease
    rw [hview]
    exact h.next (.released hegress)

theorem run_concat {link middle next : Link} {calls : List Call} {call : Call} {events : List Event}
    (hrun : link.run calls = .ok (journal, middle)) (hact : middle.act call = .ok (events, next)) :
    link.run (calls ++ [call]) = .ok (journal ++ events, next) := by
  rw [run, List.foldlM_append, ← run, hrun, ok_bind, List.foldlM_cons, advance, hact]
  rfl

theorem foldlM_advance_cons (link : Link) (call : Call) (calls : List Call) (earlier : List Event) :
    (call :: calls).foldlM advance (earlier, link) =
      link.act call >>= fun (events, next) ↦ calls.foldlM advance (earlier ++ events, next) := by
  rw [List.foldlM_cons, advance, bind_assoc]
  rfl

/-- A run does not depend on what the journal holds before it. -/
theorem foldlM_advance (link : Link) (calls : List Call) (earlier : List Event) :
    calls.foldlM advance (earlier, link) =
      link.run calls >>= fun (later, after) ↦ pure (earlier ++ later, after) := by
  induction calls generalizing earlier link with
  | nil => exact congrArg (fun journal ↦ Except.ok (journal, link)) (List.append_nil earlier).symm
  | cons call calls ih =>
    rw [run, foldlM_advance_cons, foldlM_advance_cons, bind_assoc]
    refine bind_congr fun ⟨events, next⟩ ↦ ?_
    simp only [ih next, bind_assoc, pure_bind, List.nil_append, List.append_assoc]

theorem run_cons_eq_ok_iff {link after : Link} {call : Call} {calls : List Call} :
    link.run (call :: calls) = .ok (journal, after) ↔
      ∃ events next later, link.act call = .ok (events, next) ∧
        next.run calls = .ok (later, after) ∧ journal = events ++ later := by
  rw [run, foldlM_advance_cons]
  simp only [foldlM_advance, List.nil_append, bind_eq_ok_iff, pure_eq_ok_iff, Prod.exists, Prod.mk.injEq]
  constructor
  · rintro ⟨events, next, hact, later, _, hlater, rfl, rfl⟩
    exact ⟨events, next, later, hact, hlater, rfl⟩
  · rintro ⟨events, next, later, hact, hlater, rfl⟩
    exact ⟨events, next, hact, later, after, hlater, rfl, rfl⟩

theorem run_append {link middle after : Link} {calls more : List Call} {later : List Event}
    (hrun : link.run calls = .ok (journal, middle)) (hmore : middle.run more = .ok (later, after)) :
    link.run (calls ++ more) = .ok (journal ++ later, after) := by
  rw [run, List.foldlM_append, ← run, hrun, ok_bind, foldlM_advance, hmore]
  rfl

/-- What each call of a run keeps, the calls that were made and the journal included, holds at its end. -/
theorem run_induction {link after : Link} {calls : List Call} (P : List Call → List Event → Link → Prop)
    (step : ∀ done journal middle call events next, P done journal middle →
      middle.act call = .ok (events, next) → P (done ++ [call]) (journal ++ events) next)
    (h : link.run calls = .ok (journal, after)) (start : P [] [] link) : P calls journal after := by
  refine foldlM_eq_ok_induction (fun done state ↦ P done state.1 state.2) ?_ h start
  rintro done ⟨before, middle⟩ call ⟨_, next⟩ hdone hadvance
  simp only [advance, bind_eq_ok_iff, pure_eq_ok_iff] at hadvance
  obtain ⟨⟨events, next⟩, hact, heq⟩ := hadvance
  cases heq
  exact step done before middle call events next hdone hact

/-- `run_induction` for runs of calls that all have a property. -/
theorem run_induction_of_forall {link after : Link} {calls : List Call} {p : Call → Prop}
    (P : List Call → List Event → Link → Prop)
    (step : ∀ done journal middle call events next, p call → P done journal middle →
      middle.act call = .ok (events, next) → P (done ++ [call]) (journal ++ events) next)
    (h : link.run calls = .ok (journal, after)) (hcalls : ∀ call ∈ calls, p call)
    (start : P [] [] link) : P calls journal after := by
  refine run_induction (fun done journal middle ↦ (∀ call ∈ done, p call) → P done journal middle) ?_ h
    (fun _ ↦ start) hcalls
  intro done journal middle call events next hdone hact hall
  rw [List.forall_mem_append, List.forall_mem_singleton] at hall
  exact step done journal middle call events next hall.2 (hdone hall.1) hact

/-- A run is a sequence of steps. -/
theorem reaches_of_run {link after : Link} {calls : List Call}
    (h : link.run calls = .ok (journal, after)) : Reaches link.view journal after.view :=
  run_induction (fun _ journal middle ↦ Reaches link.view journal middle.view)
    (fun _ _ _ _ _ _ hreaches hact ↦ hreaches.act hact) h .start

end RadioAccess.Link
