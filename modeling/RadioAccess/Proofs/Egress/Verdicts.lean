import RadioAccess.Proofs.Egress.Run
import RadioAccess.Proofs.Reassembly.Sequence
import RadioAccess.Proofs.Reassembly.Settlement

/-!
# Verdicts over Whole Runs

Which verdicts the far end of a link may give, whatever the order of the calls.
-/

namespace RadioAccess.Egress

open Reassembly (Coherent Exit exits inSequence)

theorem Traced.cursor_eq {strict : Bool} {calls : List Call} {record : Record} {egress : Egress}
    {assembly : Reassembly} (h : Traced strict calls record egress assembly) :
    egress.cursor = assembly.view.cursor := by
  rw [cursor, h.waiting]
  rfl

theorem Traced.entries_eq {strict : Bool} {calls : List Call} {record : Record} {egress : Egress}
    {assembly : Reassembly} (h : Traced strict calls record egress assembly) :
    egress.entries = assembly.view.entries := by
  rw [entries, h.waiting]
  rfl

theorem number_verdict (settled : Settled) : settled.verdict.number = settled.packet.number := by
  rw [Settled.verdict]
  split <;> rfl

/-- Without the stale rejections, the verdicts of a strict far end ascend over the whole run, each of
them is about a packet that names no predecessor or the one before it, and the cursor is the last of
them.  No acceptance is stale, and what one release settles ascends as a whole. -/
theorem strict_verdicts_in_order {stream : Random} {calls : List Call} {record : Record}
    {after : Egress} (h : (empty (.reassembly true) stream).run calls = .ok (record, after)) :
    ((inSequence record.history).map (·.settled.verdict.number)).Pairwise (· < ·) ∧
      (inSequence record.history).IsChain (fun earlier later ↦
        later.settled.packet.predecessor = none ∨
          later.settled.packet.predecessor = some earlier.settled.verdict.number) ∧
      (∀ exit ∈ exits record.history, ∀ number,
        exit.settled.verdict = .accept number → exit ∈ inSequence record.history) ∧
      after.cursor = (inSequence record.history).getLast?.map (·.settled.verdict.number) ∧
      record.departures.flatMap (·.settled) = (exits record.history).map (·.settled) ∧
      ∀ departure ∈ record.departures,
        (departure.settled.map (·.verdict.number)).Pairwise (· < ·) := by
  obtain ⟨assembly, htraced⟩ := traced_of_run h
  have hsequenced := htraced.reaches.sequenced
  have hnumber (exit : Exit) : exit.settled.verdict.number = exit.number := number_verdict exit.settled
  simp only [hnumber, number_verdict]
  refine ⟨List.pairwise_map.2 hsequenced.ascending, hsequenced.linked, ?_, ?_, htraced.settled, ?_⟩
  · intro exit hexit number haccept
    rw [inSequence, List.mem_filter, Exit.isStale_eq_false_of_accept haccept]
    exact ⟨hexit, rfl⟩
  · rw [htraced.cursor_eq]
    exact hsequenced.cursor_eq
  · intro departure hdeparture
    have hascending := htraced.ascending departure hdeparture
    rw [Packet.Ascending, List.pairwise_map] at hascending
    exact List.pairwise_map.2 hascending

/-- A stream that starts inside, goes on over a lost packet and leaves an older packet behind. -/
theorem strict_verdicts_in_order_behind_stream :
    ∃ state,
      (empty (.reassembly true) (.ofSeed 1)).run
        [.arrive { TransportBlock.empty 0 0.0 10 100.0 .none with
            packets := #[.whole 1 (some 0) 80 0.0 .none, .whole 2 (some 1) 80 0.0 .none] },
          .release, .losePacket (.whole 3 (some 2) 80 0.0 .none), .release,
          .losePacket (.whole 0 none 80 0.0 .none), .release] = .ok state ∧
      ((inSequence state.1.history).map (·.settled.verdict.number)).Pairwise (· < ·) :=
  exists_ok_of_isOk (by decide +kernel) fun _ h ↦ (strict_verdicts_in_order h).1

/-- If the parts that come under each number are coherent, a packet is settled at most once, nothing is
put together for a packet that was settled, and no entry holds more than its packet. -/
theorem settled_at_most_once {strict : Bool} {stream : Random} {calls : List Call} {record : Record}
    {after : Egress} (hparts : Coherent (calls.flatMap Call.parts))
    (h : (empty (.reassembly strict) stream).run calls = .ok (record, after)) :
    ((record.departures.flatMap (·.settled)).map (·.verdict.number)).Nodup ∧
      (∀ entry ∈ after.entries, ∀ settled ∈ record.departures.flatMap (·.settled),
        settled.verdict.number ≠ entry.number) ∧
      ∀ entry ∈ after.entries, entry.carried ≤ entry.length := by
  obtain ⟨assembly, htraced⟩ := traced_of_run h
  rw [← htraced.parts] at hparts
  have haccounted := htraced.reaches.accounted hparts
  simp only [number_verdict, htraced.settled, htraced.entries_eq]
  refine ⟨?_, ?_, ?_⟩
  · rw [List.map_map]
    exact List.pairwise_map.2 haccounted.once
  · intro entry hentry settled hsettled
    obtain ⟨exit, hexit, rfl⟩ := List.mem_map.1 hsettled
    exact haccounted.apart entry hentry exit hexit
  · intro entry hentry
    exact haccounted.carried_le hparts hentry

/-- A packet of 20 bits is settled when 12 of them are there; its last 8 bits are then lost. -/
theorem settled_at_most_once_late_tail :
    ∃ state,
      (empty (.reassembly false) (.ofSeed 1)).run
        [.arrive { TransportBlock.empty 0 0.0 10 100.0 .none with
            packets := #[{ Packet.whole 0 none 20 0.0 .none with carried := 12 }] },
          .release, .losePacket { Packet.whole 0 none 20 0.0 .none with carried := 8 },
          .release] = .ok state ∧
      ((state.1.departures.flatMap (·.settled)).map (·.verdict.number)).Nodup := by
  refine exists_ok_of_isOk (by decide +kernel) fun state h ↦ (settled_at_most_once ?_ h).1
  refine ⟨?_, by decide, by decide⟩
  simp only [Call.parts, List.flatMap_cons, List.flatMap_nil, List.cons_append, List.nil_append,
    List.mem_cons, List.not_mem_nil, or_false, forall_eq_or_imp, forall_eq]
  exact ⟨⟨fun _ ↦ ⟨rfl, rfl, rfl⟩, fun _ ↦ ⟨rfl, rfl, rfl⟩⟩, fun _ ↦ ⟨rfl, rfl, rfl⟩,
    fun _ ↦ ⟨rfl, rfl, rfl⟩⟩

end RadioAccess.Egress
