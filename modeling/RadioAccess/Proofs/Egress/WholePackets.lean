import RadioAccess.Proofs.Egress.Totality
import RadioAccess.Proofs.Egress.Verdicts
import RadioAccess.Proofs.Reassembly.WholePackets

/-!
# Whole Packets at the Far End

If every packet of a range comes as a whole and once, in whatever order and however it is put into
blocks, nothing is left once all have come and are due: the next release settles what waits, and every
packet gets one verdict.  What can keep a release from its result is only that it lets go more bits than
fit a word.
-/

namespace RadioAccess.Egress

open Reassembly (Consecutive Event arrivals delivered exits inSequence losses parts totalLength)

/-! ## Runs that have a result -/

/-- If each packet comes once, a call is refused only if it is a release that lets go too much. -/
theorem Traced.exists_advance {strict : Bool} {calls : List Call} {record : Record} {egress : Egress}
    {assembly : Reassembly} {call : Call} (h : Traced strict calls record egress assembly)
    (honce : (((calls ++ [call]).flatMap Call.parts).map (·.number)).Nodup)
    (hfits : call = .release → egress.Fits) : ∃ next, Egress.advance (record, egress) call = .ok next := by
  obtain ⟨⟨departure, next⟩, hresult⟩ := h.exists_act (Reassembly.countable_of_nodup honce) hfits
  apply Exists.intro
  rw [Egress.advance, hresult]
  rfl

/-- Whether no release of a run lets go more than fits a word. -/
def EachFits (egress : Egress) (calls : List Call) : Prop :=
  ∀ earlier later record middle, calls = earlier ++ .release :: later →
    egress.run earlier = .ok (record, middle) → middle.Fits

theorem EachFits.left {egress : Egress} {earlier later : List Call}
    (h : egress.EachFits (earlier ++ later)) : egress.EachFits earlier := by
  rintro first rest record middle rfl
  exact h first (rest ++ later) record middle (by rw [List.append_assoc, List.cons_append])

theorem run_append_eq_ok_iff {egress : Egress} {earlier later : List Call} {state : Record × Egress} :
    egress.run (earlier ++ later) = .ok state ↔
      ∃ middle, egress.run earlier = .ok middle ∧ later.foldlM advance middle = .ok state := by
  rw [run, List.foldlM_append, bind_eq_ok_iff]
  rfl

/-- If each packet comes once, a run has a result if and only if each of its releases fits. -/
theorem exists_run_iff {strict : Bool} {stream : Random} {calls : List Call}
    (honce : ((calls.flatMap Call.parts).map (·.number)).Nodup) :
    (∃ state, (empty (.reassembly strict) stream).run calls = .ok state) ↔
      (empty (.reassembly strict) stream).EachFits calls := by
  constructor
  · rintro ⟨state, hrun⟩ earlier later record middle rfl hearlier assembly hwaiting
    obtain ⟨_, heq, hrest⟩ := run_append_eq_ok_iff.1 hrun
    cases hearlier.symm.trans heq
    rw [List.foldlM_cons, bind_eq_ok_iff] at hrest
    obtain ⟨next, hadvance, -⟩ := hrest
    simp only [Egress.advance, act, bind_eq_ok_iff, pure_eq_ok_iff] at hadvance
    obtain ⟨_, ⟨⟨departure, after⟩, hrelease, -⟩, -⟩ := hadvance
    rw [← (eq_of_release hwaiting hrelease).1, ← bits_of_release hwaiting hrelease]
    exact departure.bits.toNat_lt
  · intro hfits
    induction calls using List.reverseRecOn with
    | nil => exact ⟨_, rfl⟩
    | append_singleton calls call ih =>
      have hbefore := honce
      rw [List.flatMap_append, List.map_append, List.nodup_append] at hbefore
      obtain ⟨⟨record, middle⟩, hrun⟩ := ih hbefore.1 hfits.left
      obtain ⟨assembly, htraced⟩ := traced_of_run hrun
      obtain ⟨next, hnext⟩ := htraced.exists_advance honce fun hcall ↦
        hfits calls [] record middle (by rw [hcall]) hrun
      refine ⟨next, run_append_eq_ok_iff.2 ⟨_, hrun, ?_⟩⟩
      rw [List.foldlM_cons, hnext]
      rfl

/-! ## Everything settled -/

/-- A run that ends with a release leaves what does not depart. -/
theorem eq_of_run_release {strict : Bool} {stream : Random} {calls : List Call} {record : Record}
    {final : Egress}
    (h : (empty (.reassembly strict) stream).run (calls ++ [.release]) = .ok (record, final)) :
    ∃ assembly : Reassembly, assembly.strict = strict ∧
      final.waiting = .packets (assembly.depart final.now).2 := by
  obtain ⟨⟨earlier, middle⟩, hrun, hlast⟩ := run_append_eq_ok_iff.1 h
  obtain ⟨assembly, htraced⟩ := traced_of_run hrun
  simp only [List.foldlM_cons, List.foldlM_nil, bind_pure, advance, act, bind_eq_ok_iff,
    pure_eq_ok_iff] at hlast
  obtain ⟨_, ⟨⟨departure, after⟩, hrelease, rfl⟩, heq⟩ := hlast
  cases heq
  rw [now_of_release hrelease]
  exact ⟨assembly, htraced.strict_eq, (eq_of_release htraced.waiting hrelease).2⟩

/-- Unmarked packets of which each comes once and as a whole, under the numbers from `base` on, are all
settled by a release at the end of the run, if what has arrived is due by then and, for a strict far end,
something has arrived or the first packet names no predecessor.  Every packet gets one verdict: a lost
one is rejected, and one that has arrived is accepted unless a strict far end had started its stream
above it.  The run has a result if and only if none of its releases lets go more than fits a word. -/
theorem whole_packets_all_settled {strict : Bool} {stream : Random} {calls : List Call} {base : UInt32}
    (hconsecutive : Consecutive base (calls.flatMap Call.parts))
    (hsound : ∀ part ∈ calls.flatMap Call.parts, part.erased = false) :
    ((∃ state, (empty (.reassembly strict) stream).run (calls ++ [.release]) = .ok state) ↔
      (empty (.reassembly strict) stream).EachFits (calls ++ [.release])) ∧
    ∀ record final, (empty (.reassembly strict) stream).run (calls ++ [.release]) =
        .ok (record, final) →
      (∀ releaseAt part, Event.arrived releaseAt part ∈ record.history → ¬releaseAt > final.now) →
      (strict = true → arrivals record.history ≠ [] ∨
        ∀ part ∈ calls.flatMap Call.parts, part.number = base → part.predecessor = none) →
      final.backlog = 0 ∧
      record.departures.flatMap (·.settled) = (exits record.history).map (·.settled) ∧
      ((exits record.history).map (·.settled.verdict.number)).Perm
        ((calls.flatMap Call.parts).map (·.number)) ∧
      (∀ part ∈ losses record.history,
        .reject part.number ∈ (exits record.history).map (·.settled.verdict)) ∧
      ∀ part ∈ arrivals record.history,
        (if strict && (inSequence record.history).head?.any (part.number < ·.number) then
          Verdict.reject part.number else .accept part.number) ∈
            (exits record.history).map (·.settled.verdict) := by
  have hparts : (calls ++ [Call.release]).flatMap Call.parts = calls.flatMap Call.parts := by
    simp [Call.parts]
  constructor
  · apply exists_run_iff
    rw [hparts]
    exact hconsecutive.nodup_numbers
  intro record final hrun hdue hopens
  obtain ⟨_, htraced⟩ := traced_of_run hrun
  obtain ⟨assembly, hstrict, hwaiting⟩ := eq_of_run_release hrun
  obtain rfl : _ = (assembly.depart final.now).2 := Waiting.packets.inj (htraced.waiting.symm.trans hwaiting)
  rw [← hparts, ← htraced.parts] at hconsecutive hsound hopens ⊢
  have hreaches := htraced.reaches
  have hlinked := hconsecutive.linked
  have harrivals : ∀ part ∈ arrivals record.history, part.erased = false := by
    intro part hpart
    obtain ⟨releaseAt, hevent⟩ := Reassembly.mem_arrivals_iff.1 hpart
    exact hsound part (List.mem_filterMap.2 ⟨_, hevent, rfl⟩)
  have hempty : (assembly.depart final.now).2.entries = [] := by
    apply hreaches.entries_eq_nil hconsecutive harrivals hopens hdue
    rw [← hstrict]
    exact Reassembly.fate?_of_depart_eq_cons assembly final.now
  have hleft {packet : Packet} (hpacket : packet ∈ Reassembly.brought record.history) :=
    hreaches.exists_exit hlinked hempty hpacket
  refine ⟨?_, htraced.settled, ?_, ?_, ?_⟩
  · rw [backlog, hwaiting]
    show (assembly.depart final.now).2.length = 0
    rw [← Reassembly.length_entries, hempty]
    rfl
  · have hperm := hreaches.perm_numbers hlinked
    rw [Reassembly.view, hempty, List.map_nil, List.nil_append] at hperm
    simp only [number_verdict]
    exact hperm
  · intro part hpart
    obtain ⟨exit, hexit, hpacket⟩ := hleft (Reassembly.mem_brought_iff.2 (.inr ⟨part, hpart, rfl⟩))
    have hverdict := hreaches.verdict_of_marked hexit (by rw [hpacket])
    rw [Reassembly.Exit.number, hpacket] at hverdict
    exact List.mem_map.2 ⟨exit, hexit, hverdict⟩
  · intro part hpart
    obtain ⟨releaseAt, hevent⟩ := Reassembly.mem_arrivals_iff.1 hpart
    obtain ⟨exit, hexit, hpacket⟩ :=
      hleft (Reassembly.mem_brought_iff.2 (.inl ⟨releaseAt, part, hevent, rfl⟩))
    have hverdict := hreaches.verdict_of_sound hlinked hexit
      (by rw [hpacket]; exact harrivals part hpart)
    rw [Reassembly.Exit.number, hpacket] at hverdict
    exact List.mem_map.2 ⟨exit, hexit, hverdict⟩

/-- Whether all that has arrived in a history is due. -/
def allDue (history : List Event) (now : Float) : Bool :=
  history.all fun
    | .arrived releaseAt _ => !(releaseAt > now)
    | .lost _ => true
    | .left _ => true

theorem not_lt_of_allDue {history : List Event} {now : Float} (h : allDue history now = true)
    (releaseAt : Float) (part : Packet) (hevent : Event.arrived releaseAt part ∈ history) :
    ¬releaseAt > now := by
  simpa using List.all_eq_true.1 h _ hevent

/-- A stream starts at packet 5; of the packets below, one is lost and one comes too late. -/
theorem whole_packets_all_settled_from_inside :
    ∃ state,
      (empty (.reassembly true) (.ofSeed 1)).run
        ([.step 1.0,
          .arrive { TransportBlock.empty 0 0.0 10 100.0 .none with
            packets := #[.whole 5 (some 4) 80 0.0 .none] },
          .release, .losePacket (.whole 3 (some 2) 80 0.0 .none),
          .arrive { TransportBlock.empty 1 0.5 10 100.0 .none with
            packets := #[.whole 6 (some 5) 0 0.0 .none, .whole 4 (some 3) 80 0.0 .none] }] ++
          [.release]) = .ok state ∧
      (state.1.departures.flatMap (·.settled)).map (·.verdict) =
        [.accept 5, .reject 3, .reject 4, .accept 6] ∧
      state.2.backlog = 0 := by
  refine exists_ok_of_any (fun state ↦
    decide ((state.1.departures.flatMap (·.settled)).map (·.verdict) =
      [.accept 5, .reject 3, .reject 4, .accept 6]) &&
        allDue state.1.history state.2.now && !(arrivals state.1.history).isEmpty)
    (by decide +kernel) fun state hrun hstate ↦ ?_
  simp only [Bool.and_eq_true, decide_eq_true_eq, Bool.not_eq_true', List.isEmpty_eq_false_iff] at hstate
  obtain ⟨⟨hverdicts, hdue⟩, hdata⟩ := hstate
  have hsettled := (whole_packets_all_settled
    (show Consecutive 3 _ from ⟨by decide, by decide, by decide⟩) (by decide)).2 state.1 state.2 hrun
    (not_lt_of_allDue hdue) fun _ ↦ .inl hdata
  exact ⟨hverdicts, hsettled.1⟩

/-- Two packets of `2 ^ 63` bits have come as a whole and are due, but one release cannot count them. -/
theorem not_every_release_settles_whole_packets :
    ∃ packets : List Packet, Consecutive 0 packets ∧ (∀ packet ∈ packets, packet.erased = false) ∧
      ∃ state,
        (empty (.reassembly true) (.ofSeed 1)).run
          (packets.map fun packet ↦
            .arrive { TransportBlock.empty 0 0.0 10 100.0 .none with packets := #[packet] }) =
              .ok state ∧
        arrivals state.1.history ≠ [] ∧
        (∀ releaseAt part, Event.arrived releaseAt part ∈ state.1.history →
          ¬releaseAt > state.2.now) ∧
        state.2.release.isOk = false := by
  refine ⟨[.whole 0 none 0x8000000000000000 0.0 .none, .whole 1 (some 0) 0x8000000000000000 0.0 .none],
    ⟨by decide, by decide, by decide⟩, by decide, ?_⟩
  refine exists_ok_of_any (fun state ↦ !(arrivals state.1.history).isEmpty &&
    allDue state.1.history state.2.now && !state.2.release.isOk) (by decide +kernel)
    fun state hrun hstate ↦ ?_
  simp only [Bool.and_eq_true, Bool.not_eq_true', List.isEmpty_eq_false_iff] at hstate
  obtain ⟨⟨hdata, hdue⟩, hrefused⟩ := hstate
  exact ⟨hdata, not_lt_of_allDue hdue, hrefused⟩

end RadioAccess.Egress
