import RadioAccess.Link.Egress
import RadioAccess.Proofs.Reassembly.History

/-!
# Runs of the Far End

A run makes calls one after the other and keeps a record: what happened to the reassembly, and what each
release let go.  A far end that reassembles holds after a run what the recorded history leads to
(`traced_of_run`), so that what is proved about histories holds for every order of calls.
-/

namespace RadioAccess.Egress

open Packet (Ascending)
open Reassembly (Event Reaches eq_of_place exits leaving parts)

/-- A call to the far end. -/
inductive Call where
  | step (now : Float)
  | arrive (block : TransportBlock)
  | loseBlock (block : TransportBlock)
  | losePacket (packet : Packet)
  | release

/-- The parts that a call brings. -/
def Call.parts : Call → List Packet
  | step _ => []
  | arrive block => block.packets.toList
  | loseBlock block => block.packets.toList
  | losePacket packet => [packet]
  | release => []

/-- Makes a call.  Gives what it let go. -/
def act (egress : Egress) : Call → Except Fault (Option Departure × Egress)
  | .step now => .ok (none, egress.step now)
  | .arrive block => do return (none, ← egress.arrive block)
  | .loseBlock block => do return (none, ← egress.loseBlock block)
  | .losePacket packet => do return (none, ← egress.losePacket packet)
  | .release => do
    let (departure, egress) ← egress.release
    return (some departure, egress)

/-- What a call does to the reassembly. -/
def events (egress : Egress) : Call → List Event
  | .step _ => []
  | .arrive block =>
    let (releaseAt, _) := block.backhaul.arrival block.dueAt egress.stream
    block.packets.toList.map (.arrived releaseAt)
  | .loseBlock block => block.packets.toList.map .lost
  | .losePacket packet => [.lost packet]
  | .release =>
    match egress.waiting with
    | .blocks _ => []
    | .packets assembly =>
      (leaving assembly.strict egress.now assembly.cursor assembly.entries).map .left

/-- What has happened in a run. -/
structure Record where
  history : List Event
  departures : List Departure

/-- Makes a call and records it. -/
def advance (state : Record × Egress) (call : Call) : Except Fault (Record × Egress) := do
  let (departure, egress) ← state.2.act call
  return ({ history := state.1.history ++ state.2.events call
            departures := state.1.departures ++ departure.toList }, egress)

/-- Makes calls one after the other. -/
def run (egress : Egress) (calls : List Call) : Except Fault (Record × Egress) :=
  calls.foldlM advance ({ history := [], departures := [] }, egress)

theorem run_concat {egress middle next : Egress} {calls : List Call} {call : Call} {record : Record}
    {departure : Option Departure} (hrun : egress.run calls = .ok (record, middle))
    (hact : middle.act call = .ok (departure, next)) :
    egress.run (calls ++ [call]) =
      .ok ({ history := record.history ++ middle.events call
             departures := record.departures ++ departure.toList }, next) := by
  rw [run, List.foldlM_append, ← run, hrun, ok_bind, List.foldlM_cons, advance, hact]
  rfl

/-- All packets that are being put together, the lowest number first. -/
def entries (egress : Egress) : List Packet :=
  match egress.waiting with
  | .blocks _ => []
  | .packets assembly => assembly.entries

/-! ## Calls -/

theorem eq_of_losePacket {egress next : Egress} {assembly : Reassembly} {packet : Packet}
    (hwaiting : egress.waiting = .packets assembly) (h : egress.losePacket packet = .ok next) :
    ∃ after, assembly.lose packet = .ok after ∧ next = { egress with waiting := .packets after } := by
  rw [losePacket, hwaiting] at h
  simp only [bind_eq_ok_iff, pure_eq_ok_iff] at h
  obtain ⟨after, hlose, rfl⟩ := h
  exact ⟨after, hlose, rfl⟩

/-- The packets of a lost block are lost one after the other. -/
theorem eq_of_loseBlock {egress next : Egress} {assembly : Reassembly} {block : TransportBlock}
    (hwaiting : egress.waiting = .packets assembly) (h : egress.loseBlock block = .ok next) :
    ∃ after, block.packets.toList.foldlM Reassembly.lose assembly = .ok after ∧
      next = { egress with waiting := .packets after } := by
  rw [loseBlock] at h
  generalize block.packets.toList = packets at h ⊢
  induction packets generalizing egress assembly with
  | nil =>
    rw [List.foldlM_nil, pure_eq_ok_iff] at h
    subst h
    exact ⟨assembly, rfl, by rw [← hwaiting]⟩
  | cons packet packets ih =>
    rw [List.foldlM_cons, bind_eq_ok_iff] at h
    obtain ⟨middle, hlose, hrest⟩ := h
    obtain ⟨first, hfirst, rfl⟩ := eq_of_losePacket hwaiting hlose
    obtain ⟨after, hafter, rfl⟩ := ih rfl hrest
    refine ⟨after, ?_, rfl⟩
    rw [List.foldlM_cons, hfirst, ok_bind, hafter]

theorem eq_of_arrive {egress next : Egress} {assembly : Reassembly} {block : TransportBlock}
    (hwaiting : egress.waiting = .packets assembly) (h : egress.arrive block = .ok next) :
    ∃ after, block.packets.toList.foldlM
        (fun assembly packet ↦
          assembly.arrive (block.backhaul.arrival block.dueAt egress.stream).1 packet) assembly =
          .ok after ∧
      next = { egress with
        stream := (block.backhaul.arrival block.dueAt egress.stream).2, waiting := .packets after } := by
  simp only [arrive, hwaiting, bind_eq_ok_iff, pure_eq_ok_iff] at h
  obtain ⟨after, hafter, rfl⟩ := h
  exact ⟨after, hafter, rfl⟩

theorem eq_of_release {egress next : Egress} {assembly : Reassembly} {departure : Departure}
    (hwaiting : egress.waiting = .packets assembly) (h : egress.release = .ok (departure, next)) :
    departure.settled = (assembly.depart egress.now).1 ∧
      next.waiting = .packets (assembly.depart egress.now).2 := by
  simp only [release, letGo, hwaiting, bind_eq_ok_iff, pure_eq_ok_iff] at h
  obtain ⟨⟨tally, settled, waiting⟩, ⟨total, htotal, heq⟩, hnext⟩ := h
  cases heq
  cases hnext
  refine ⟨rfl, ?_⟩
  rw [record]
  split <;> rfl

theorem now_of_arrive {egress next : Egress} {block : TransportBlock}
    (h : egress.arrive block = .ok next) : next.now = egress.now := by
  cases hwaiting : egress.waiting with
  | blocks blocks =>
    simp only [arrive, hwaiting, pure_eq_ok_iff] at h
    rw [← h]
  | packets assembly =>
    obtain ⟨after, -, rfl⟩ := eq_of_arrive hwaiting h
    rfl

theorem now_of_release {egress next : Egress} {departure : Departure}
    (h : egress.release = .ok (departure, next)) : next.now = egress.now := by
  simp only [release, bind_eq_ok_iff, pure_eq_ok_iff] at h
  obtain ⟨⟨tally, settled, waiting⟩, -, heq⟩ := h
  cases heq
  rw [record]
  split <;> rfl

/-! ## Runs -/

/-- A record that tells how a far end came to what it puts together. -/
structure Traced (strict : Bool) (calls : List Call) (record : Record) (egress : Egress)
    (assembly : Reassembly) : Prop where
  waiting : egress.waiting = .packets assembly
  strict_eq : assembly.strict = strict
  reaches : Reaches strict record.history assembly.view
  settled : record.departures.flatMap (·.settled) = (exits record.history).map (·.settled)
  ascending : ∀ departure ∈ record.departures, Ascending (departure.settled.map (·.packet))
  parts : parts record.history = calls.flatMap Call.parts

theorem traced_empty (strict : Bool) (stream : Random) :
    Traced strict [] { history := [], departures := [] } (empty (.reassembly strict) stream)
      (.empty strict) := ⟨rfl, rfl, .start, rfl, by simp, rfl⟩

theorem Traced.advance {strict : Bool} {calls : List Call} {record : Record} {egress : Egress}
    {next : Record × Egress} {assembly : Reassembly} {call : Call}
    (h : Traced strict calls record egress assembly)
    (hadvance : Egress.advance (record, egress) call = .ok next) :
    ∃ after, Traced strict (calls ++ [call]) next.1 next.2 after := by
  obtain ⟨hwaiting, rfl, hreaches, hsettled, hascending, hparts⟩ := h
  simp only [Egress.advance, bind_eq_ok_iff, pure_eq_ok_iff] at hadvance
  obtain ⟨⟨departure, after⟩, hact, rfl⟩ := hadvance
  cases call with
  | step now =>
    cases hact
    exact ⟨assembly, hwaiting, rfl, by simpa [events] using hreaches, by simpa [events] using hsettled,
      by simpa using hascending, by simpa [events, Call.parts] using hparts⟩
  | arrive block =>
    simp only [act, bind_eq_ok_iff, pure_eq_ok_iff] at hact
    obtain ⟨middle, harrive, heq⟩ := hact
    cases heq
    obtain ⟨after, hafter, rfl⟩ := eq_of_arrive hwaiting harrive
    obtain ⟨hstrict, hnext⟩ := hreaches.foldlM_place
      (.arrived (block.backhaul.arrival block.dueAt egress.stream).1) (fun part ↦ rfl) hafter
    refine ⟨after, rfl, hstrict, hnext, ?_, by simpa using hascending, ?_⟩
    · simp [events, hsettled]
    · simp [events, hparts, Call.parts]
  | loseBlock block =>
    simp only [act, bind_eq_ok_iff, pure_eq_ok_iff] at hact
    obtain ⟨middle, hlose, heq⟩ := hact
    cases heq
    obtain ⟨after, hafter, rfl⟩ := eq_of_loseBlock hwaiting hlose
    obtain ⟨hstrict, hnext⟩ := hreaches.foldlM_place .lost (fun part ↦ rfl) hafter
    refine ⟨after, rfl, hstrict, hnext, ?_, by simpa using hascending, ?_⟩
    · simp [events, hsettled]
    · simp [events, hparts, Call.parts]
  | losePacket packet =>
    simp only [act, bind_eq_ok_iff, pure_eq_ok_iff] at hact
    obtain ⟨middle, hlose, heq⟩ := hact
    cases heq
    obtain ⟨after, hafter, rfl⟩ := eq_of_losePacket hwaiting hlose
    refine ⟨after, rfl, (eq_of_place hafter).1, hreaches.place rfl hafter, ?_,
      by simpa using hascending, ?_⟩
    · simp [events, hsettled]
    · simp [events, hparts, Call.parts]
  | release =>
    simp only [act, bind_eq_ok_iff, pure_eq_ok_iff] at hact
    obtain ⟨⟨departure, middle⟩, hrelease, heq⟩ := hact
    cases heq
    obtain ⟨hsettles, hafter⟩ := eq_of_release hwaiting hrelease
    refine ⟨(assembly.depart egress.now).2, hafter, rfl, ?_, ?_, ?_, ?_⟩
    · simpa [events, hwaiting] using hreaches.depart egress.now
    · simp [events, hwaiting, Reassembly.map_settled_leaving,
        Reassembly.settle_entries, hsettled, hsettles]
    · intro other hother
      rcases List.mem_append.1 hother with hbefore | hlast
      · exact hascending other hbefore
      · rw [List.mem_singleton.1 hlast, hsettles]
        exact hreaches.ascending_depart egress.now
    · simp [events, hwaiting, hparts, Call.parts]

/-- A far end that reassembles holds what its recorded history leads to. -/
theorem traced_of_run {strict : Bool} {stream : Random} {calls : List Call}
    {record : Record} {after : Egress}
    (h : (empty (.reassembly strict) stream).run calls = .ok (record, after)) :
    ∃ assembly, Traced strict calls record after assembly := by
  refine foldlM_eq_ok_induction
    (fun done state ↦ ∃ assembly, Traced strict done state.1 state.2 assembly) ?_ h
    ⟨_, traced_empty strict stream⟩
  rintro done ⟨record, egress⟩ call next ⟨assembly, htraced⟩ hadvance
  exact htraced.advance hadvance

/-! ## Whole blocks -/

theorem eq_of_losePacket_blocks {egress next : Egress} {blocks : Array DueBlock} {packet : Packet}
    (hwaiting : egress.waiting = .blocks blocks) (h : egress.losePacket packet = .ok next) :
    next = egress := by
  rw [losePacket, hwaiting] at h
  cases h
  rfl

theorem eq_of_loseBlock_blocks {egress next : Egress} {blocks : Array DueBlock} {block : TransportBlock}
    (hwaiting : egress.waiting = .blocks blocks) (h : egress.loseBlock block = .ok next) :
    next = egress := by
  refine foldlM_eq_ok_induction (fun _ state ↦ state = egress) ?_ h rfl
  intro done middle packet after hmiddle hlose
  rw [hmiddle] at hlose
  exact eq_of_losePacket_blocks hwaiting hlose

/-- A far end that releases whole blocks goes on to do so, and settles no packet. -/
theorem settled_of_act_blocks {egress next : Egress} {blocks : Array DueBlock} {call : Call}
    {departure : Option Departure} (hwaiting : egress.waiting = .blocks blocks)
    (h : egress.act call = .ok (departure, next)) :
    (∃ rest, next.waiting = .blocks rest) ∧ ∀ gone ∈ departure, gone.settled = [] := by
  cases call with
  | step now =>
    cases h
    exact ⟨⟨blocks, hwaiting⟩, by simp⟩
  | arrive block =>
    simp only [act, arrive, hwaiting, bind_eq_ok_iff, pure_eq_ok_iff] at h
    obtain ⟨_, rfl, heq⟩ := h
    cases heq
    exact ⟨⟨_, rfl⟩, by simp⟩
  | loseBlock block =>
    simp only [act, bind_eq_ok_iff, pure_eq_ok_iff] at h
    obtain ⟨after, hlose, heq⟩ := h
    cases heq
    exact ⟨⟨blocks, eq_of_loseBlock_blocks hwaiting hlose ▸ hwaiting⟩, by simp⟩
  | losePacket packet =>
    simp only [act, bind_eq_ok_iff, pure_eq_ok_iff] at h
    obtain ⟨after, hlose, heq⟩ := h
    cases heq
    exact ⟨⟨blocks, eq_of_losePacket_blocks hwaiting hlose ▸ hwaiting⟩, by simp⟩
  | release =>
    simp only [act, release, letGo, hwaiting, bind_eq_ok_iff, pure_eq_ok_iff] at h
    obtain ⟨_, ⟨_, ⟨tally, -, rfl⟩, rfl⟩, heq⟩ := h
    cases heq
    refine ⟨?_, by simp⟩
    rw [record]
    split <;> exact ⟨_, rfl⟩

/-- A far end that releases whole blocks never settles a packet. -/
theorem settled_of_run_blocks {stream : Random} {calls : List Call} {record : Record} {after : Egress}
    (h : (empty .blocks stream).run calls = .ok (record, after)) :
    ∀ departure ∈ record.departures, departure.settled = [] := by
  refine (foldlM_eq_ok_induction (fun _ state ↦ (∃ blocks, state.2.waiting = .blocks blocks) ∧
    ∀ departure ∈ state.1.departures, departure.settled = []) ?_ h ⟨⟨_, rfl⟩, by simp⟩).2
  rintro done ⟨record, egress⟩ call next ⟨⟨blocks, hwaiting⟩, hnone⟩ hadvance
  simp only [advance, bind_eq_ok_iff, pure_eq_ok_iff] at hadvance
  obtain ⟨⟨departure, after⟩, hact, rfl⟩ := hadvance
  obtain ⟨hblocks, hgone⟩ := settled_of_act_blocks hwaiting hact
  refine ⟨hblocks, fun other hother ↦ ?_⟩
  rcases List.mem_append.1 hother with hbefore | hlast
  · exact hnone other hbefore
  · exact hgone other (Option.mem_toList.1 hlast)

end RadioAccess.Egress
