import RadioAccess.Proofs.Egress.Run
import RadioAccess.Proofs.Reassembly.Transfer

/-!
# Delivery at the Far End

What a release counts is the length of what it delivers, and a release is refused only if that does not
fit a word.  If parts of a transfer have come without loss and without delay, the next release delivers
everything exactly when every packet can be put together.
-/

namespace RadioAccess.Egress

open Packet (bitsUnder)
open Reassembly (Event Lossless Recoverable Transfer delivered exits leaving parts totalLength)

/-! ## Counting -/

section

variable {α : Type} {now : Float} {bits : α → UInt64} {createdAt ingressAt : α → Float} {items : List α}

/-- Takes something that is let go at `now` into account, given how its bits and times are read. -/
def tallied (now : Float) (bits : α → UInt64) (createdAt ingressAt : α → Float) (tally : DepartureTally)
    (item : α) : Except Fault DepartureTally :=
  tally.add now (bits item) (createdAt item) (ingressAt item)

theorem toNat_of_tallied {tally : DepartureTally}
    (h : items.foldlM (tallied now bits createdAt ingressAt) .empty = .ok tally) :
    tally.bits.toNat = (items.map fun item ↦ (bits item).toNat).sum := by
  refine foldlM_eq_ok_induction (fun done (tally : DepartureTally) ↦
    tally.bits.toNat = (done.map fun item ↦ (bits item).toNat).sum) ?_ h rfl
  intro done tally item next hdone hnext
  simp only [tallied, DepartureTally.add, bind_eq_ok_iff, pure_eq_ok_iff] at hnext
  obtain ⟨sum, hsum, rfl⟩ := hnext
  rw [List.map_append, List.sum_append, ← hdone, List.map_singleton, List.sum_singleton]
  exact Word.toNat_of_add64_eq_ok hsum

/-- What fits a word can be counted. -/
theorem exists_tallied (tally : DepartureTally)
    (h : tally.bits.toNat + (items.map fun item ↦ (bits item).toNat).sum < UInt64.size) :
    ∃ total, items.foldlM (tallied now bits createdAt ingressAt) tally = .ok total := by
  induction items generalizing tally with
  | nil => exact ⟨tally, rfl⟩
  | cons item later ih =>
    rw [List.map_cons, List.sum_cons] at h
    have hbits := Word.add64_eq_ok (a := tally.bits) (b := bits item) (by omega)
    have hsum := Word.toNat_of_add64_eq_ok hbits
    rw [List.foldlM_cons, tallied, DepartureTally.add, hbits]
    exact ih _ (by rw [← Nat.add_assoc, ← hsum] at h; exact h)

end

theorem totalLength_map_packet (settled : List Settled) :
    totalLength (settled.map (·.packet)) = (settled.map (·.packet.length.toNat)).sum := by
  rw [totalLength, List.map_map]
  rfl

theorem release_eq {egress : Egress} {assembly : Reassembly}
    (hwaiting : egress.waiting = .packets assembly) :
    egress.release = (do
      let settled := (assembly.depart egress.now).1
      let tally ← (settled.filter (·.fate = .delivered)).foldlM
        (tallied egress.now (·.packet.length) (·.packet.createdAt) (·.packet.ingressAt)) .empty
      return ({ bits := tally.bits, settled },
        { egress with waiting := .packets (assembly.depart egress.now).2 }.record tally)) := by
  rw [release, hwaiting]
  simp only [letGo, bind_assoc, pure_bind]
  rfl

/-- A release counts the lengths of the packets that it delivers. -/
theorem bits_of_release {egress next : Egress} {assembly : Reassembly} {departure : Departure}
    (hwaiting : egress.waiting = .packets assembly) (h : egress.release = .ok (departure, next)) :
    departure.bits.toNat = totalLength (delivered departure.settled) := by
  rw [release_eq hwaiting] at h
  simp only [bind_eq_ok_iff, pure_eq_ok_iff] at h
  obtain ⟨tally, htally, heq⟩ := h
  cases heq
  exact (toNat_of_tallied htally).trans (totalLength_map_packet _).symm

theorem exists_release {egress : Egress} {assembly : Reassembly}
    (hwaiting : egress.waiting = .packets assembly)
    (hfits : totalLength (delivered (assembly.depart egress.now).1) < 2 ^ 64) :
    ∃ departure next, egress.release = .ok (departure, next) := by
  rw [delivered, totalLength_map_packet, ← Nat.zero_add (List.sum _)] at hfits
  obtain ⟨tally, htally⟩ : ∃ tally, ((assembly.depart egress.now).1.filter (·.fate = .delivered)).foldlM
      (tallied egress.now (·.packet.length) (·.packet.createdAt) (·.packet.ingressAt)) .empty = .ok tally :=
    exists_tallied .empty hfits
  rw [release_eq hwaiting]
  simp only [htally, ok_bind]
  exact ⟨_, _, rfl⟩

/-- Bits that were let go. -/
def releasedBits (departures : List Departure) : Nat := (departures.map (·.bits.toNat)).sum

theorem releasedBits_eq {departures : List Departure}
    (h : ∀ departure ∈ departures, departure.bits.toNat = totalLength (delivered departure.settled)) :
    releasedBits departures = totalLength (delivered (departures.flatMap (·.settled))) := by
  induction departures with
  | nil => rfl
  | cons departure later ih =>
    have hlater := ih fun other hother ↦ h other (List.mem_cons_of_mem _ hother)
    rw [List.flatMap_cons, Reassembly.delivered_append, Reassembly.totalLength_append, ← hlater,
      ← h departure List.mem_cons_self]
    rfl

theorem releasedBits_append (earlier later : List Departure) :
    releasedBits (earlier ++ later) = releasedBits earlier + releasedBits later := by
  simp [releasedBits]

/-! ## Runs -/

theorem tallied_of_run {strict : Bool} {stream : Random} {calls : List Call} {record : Record}
    {after : Egress} (h : (empty (.reassembly strict) stream).run calls = .ok (record, after)) :
    ∀ departure ∈ record.departures,
      departure.bits.toNat = totalLength (delivered departure.settled) := by
  have hinvariant := foldlM_eq_ok_induction
    (fun done (state : Record × Egress) ↦ (∃ assembly, Traced strict done state.1 state.2 assembly) ∧
      ∀ departure ∈ state.1.departures,
        departure.bits.toNat = totalLength (delivered departure.settled)) ?_ h
    ⟨⟨_, traced_empty strict stream⟩, by simp⟩
  · exact hinvariant.2
  rintro done ⟨record, egress⟩ call next ⟨⟨assembly, htraced⟩, hbits⟩ hadvance
  refine ⟨htraced.advance hadvance, fun departure hdeparture ↦ ?_⟩
  simp only [advance, bind_eq_ok_iff, pure_eq_ok_iff] at hadvance
  obtain ⟨⟨last, after⟩, hact, rfl⟩ := hadvance
  rcases List.mem_append.1 hdeparture with hearlier | hlast
  · exact hbits departure hearlier
  rw [Option.mem_toList] at hlast
  cases call with
  | release =>
    simp only [act, bind_eq_ok_iff, pure_eq_ok_iff] at hact
    obtain ⟨⟨released, _⟩, hrelease, heq⟩ := hact
    cases heq
    cases hlast
    exact bits_of_release htraced.waiting hrelease
  | step now =>
    cases hact
    cases hlast
  | _ =>
    simp only [act, bind_eq_ok_iff, pure_eq_ok_iff] at hact
    obtain ⟨_, -, heq⟩ := hact
    cases heq
    cases hlast

/-- Every event of a run comes from one of its calls. -/
theorem exists_call_of_mem_history {egress after : Egress} {calls : List Call} {record : Record}
    (h : egress.run calls = .ok (record, after)) :
    ∀ event ∈ record.history, ∃ call ∈ calls, ∃ middle, event ∈ events middle call := by
  refine foldlM_eq_ok_induction (fun done (state : Record × Egress) ↦
    ∀ event ∈ state.1.history, ∃ call ∈ done, ∃ middle, event ∈ events middle call) ?_ h (by simp)
  rintro done ⟨record, egress⟩ call next hdone hadvance event hevent
  simp only [advance, bind_eq_ok_iff, pure_eq_ok_iff] at hadvance
  obtain ⟨⟨last, after⟩, hact, rfl⟩ := hadvance
  rcases List.mem_append.1 hevent with hearlier | hlast
  · obtain ⟨other, hother, hmem⟩ := hdone event hearlier
    exact ⟨other, List.mem_append_left _ hother, hmem⟩
  · exact ⟨call, List.mem_append_right _ (List.mem_singleton_self _), egress, hlast⟩

/-- Whether a call loses nothing. -/
def Call.keeps : Call → Bool
  | loseBlock _ => false
  | losePacket _ => false
  | _ => true

theorem not_lost_of_keeps {egress : Egress} {call : Call} (h : call.keeps = true) (part : Packet) :
    Event.lost part ∉ events egress call := by
  cases call with
  | loseBlock block => cases h
  | losePacket packet => cases h
  | release =>
    rw [events]
    split <;> simp
  | _ => simp [events]

/-- A part arrives with the block that carries it. -/
theorem exists_block_of_arrived {egress : Egress} {call : Call} {releaseAt : Float} {part : Packet}
    (h : Event.arrived releaseAt part ∈ events egress call) :
    ∃ block, call = .arrive block ∧
      releaseAt = (block.backhaul.arrival block.dueAt egress.stream).1 := by
  cases call with
  | arrive block =>
    simp only [events, List.mem_map, Event.arrived.injEq] at h
    obtain ⟨_, -, rfl, -⟩ := h
    exact ⟨block, rfl, rfl⟩
  | release =>
    rw [events] at h
    split at h <;> simp at h
  | _ => simp [events] at h

section Transfers

variable {strict : Bool} {stream : Random} {calls : List Call} {record : Record} {after : Egress}
  {packets : List Packet}

theorem lossless_of_run
    (h : (empty (.reassembly strict) stream).run calls = .ok (record, after))
    (htransfer : Transfer packets (calls.flatMap Call.parts))
    (hkeeps : ∀ call ∈ calls, call.keeps = true) : Lossless record.history := by
  obtain ⟨assembly, htraced⟩ := traced_of_run h
  rw [← htraced.parts] at htransfer
  refine ⟨htransfer.coherent, htransfer.sound, fun part hpart ↦ ?_⟩
  obtain ⟨call, hcall, middle, hmem⟩ := exists_call_of_mem_history h _ hpart
  exact not_lost_of_keeps (hkeeps call hcall) part hmem

/-- What was let go are the packets that were delivered. -/
theorem releasedBits_of_run
    (h : (empty (.reassembly strict) stream).run calls = .ok (record, after)) :
    releasedBits record.departures =
      totalLength (delivered ((exits record.history).map (·.settled))) := by
  obtain ⟨assembly, htraced⟩ := traced_of_run h
  rw [releasedBits_eq (tallied_of_run h), htraced.settled]

/-- If everything has been let go, every packet could be put together. -/
theorem recoverable_of_released
    (h : (empty (.reassembly strict) stream).run calls = .ok (record, after))
    (htransfer : Transfer packets (calls.flatMap Call.parts))
    (hkeeps : ∀ call ∈ calls, call.keeps = true)
    (htotal : releasedBits record.departures = totalLength packets) :
    ∀ packet ∈ packets, Recoverable packet.number (calls.flatMap Call.parts) := by
  obtain ⟨assembly, htraced⟩ := traced_of_run h
  have hrecovered := htraced.reaches.recovered (lossless_of_run h htransfer hkeeps)
  rw [releasedBits_of_run h] at htotal
  rw [← htraced.parts] at htransfer ⊢
  intro packet hpacket
  obtain ⟨exit, hexit, -, hnumber⟩ :=
    (htraced.reaches.totalLength_delivered_iff htransfer).1 htotal packet hpacket
  rw [← hnumber]
  exact (hrecovered.gone exit hexit).2

/-- If every packet can be put together and is due, all of them are delivered by the next release. -/
theorem emptied_of_recoverable
    (h : (empty (.reassembly strict) stream).run calls = .ok (record, after))
    (htransfer : Transfer packets (calls.flatMap Call.parts))
    (hkeeps : ∀ call ∈ calls, call.keeps = true)
    (hdue : ∀ block, Call.arrive block ∈ calls → ∀ stream,
      ¬(block.backhaul.arrival block.dueAt stream).1 > after.now)
    (hrecoverable : ∀ packet ∈ packets, Recoverable packet.number (calls.flatMap Call.parts)) :
    ∃ assembly, after.waiting = .packets assembly ∧ (assembly.depart after.now).2.entries = [] ∧
      releasedBits record.departures + totalLength (delivered (assembly.depart after.now).1) =
        totalLength packets := by
  obtain ⟨assembly, htraced⟩ := traced_of_run h
  have hlossless := lossless_of_run h htransfer hkeeps
  have hreaches := htraced.reaches
  rw [← htraced.parts] at htransfer hrecoverable
  rw [← htraced.strict_eq] at hreaches
  have hemptied := hreaches.emptied hlossless (htransfer.arrived hrecoverable) <| by
    intro releaseAt part hpart
    obtain ⟨call, hcall, middle, hmem⟩ := exists_call_of_mem_history h _ hpart
    obtain ⟨block, rfl, rfl⟩ := exists_block_of_arrived hmem
    exact hdue block hcall middle.stream
  have hdeparted := hreaches.depart after.now
  have hparts : parts (record.history ++ (leaving assembly.strict after.now assembly.cursor
      assembly.entries).map .left) = parts record.history := by simp
  have htotal := (hdeparted.totalLength_delivered_iff (by rwa [hparts])).2 fun packet hpacket ↦ by
    obtain ⟨part, hpart, hnumber⟩ := Transfer.exists_part (hrecoverable packet hpacket)
    obtain ⟨exit, hexit, hsame⟩ := hemptied.gone part (by rwa [hparts])
    exact ⟨exit, hexit, hemptied.delivered exit hexit, hsame.trans hnumber⟩
  refine ⟨assembly, htraced.waiting, hemptied.entries, ?_⟩
  calc
    releasedBits record.departures + totalLength (delivered (assembly.depart after.now).1) =
        totalLength (delivered ((exits record.history).map (·.settled))) +
          totalLength (delivered (assembly.depart after.now).1) := by
      rw [releasedBits_of_run h]
    _ = totalLength (delivered ((exits (record.history ++ (leaving assembly.strict after.now
          assembly.cursor assembly.entries).map .left)).map (·.settled))) := by
      rw [Reassembly.exits_append, List.map_append, Reassembly.exits_map_left,
        Reassembly.map_settled_leaving, Reassembly.settle_entries, Reassembly.delivered_append,
        Reassembly.totalLength_append]
    _ = totalLength packets := htotal

/-- The next release delivers everything if and only if every packet can be put together, provided that
what it delivers fits a word. -/
theorem release_completes_iff
    (h : (empty (.reassembly strict) stream).run calls = .ok (record, after))
    (htransfer : Transfer packets (calls.flatMap Call.parts))
    (hkeeps : ∀ call ∈ calls, call.keeps = true)
    (hdue : ∀ block, Call.arrive block ∈ calls → ∀ stream,
      ¬(block.backhaul.arrival block.dueAt stream).1 > after.now) :
    (∃ departure final, after.release = .ok (departure, final) ∧ final.backlog = 0 ∧
      releasedBits record.departures + departure.bits.toNat = totalLength packets) ↔
    (∀ packet ∈ packets, Recoverable packet.number (calls.flatMap Call.parts)) ∧
      totalLength packets < releasedBits record.departures + 2 ^ 64 := by
  constructor
  · rintro ⟨departure, final, hrelease, -, htotal⟩
    have hbits := departure.bits.toNat_lt
    refine ⟨?_, by omega⟩
    have hact : after.act .release = .ok (some departure, final) := by
      rw [act, hrelease]
      rfl
    have hrun := run_concat h hact
    have hparts : (calls ++ [Call.release]).flatMap Call.parts = calls.flatMap Call.parts := by
      simp [Call.parts]
    rw [← hparts] at htransfer ⊢
    refine recoverable_of_released hrun htransfer (fun call hcall ↦ ?_) ?_
    · rcases List.mem_append.1 hcall with hearlier | hlast
      · exact hkeeps call hearlier
      · rw [List.mem_singleton.1 hlast]
        rfl
    · rw [releasedBits_append]
      exact htotal
  · rintro ⟨hrecoverable, hfits⟩
    obtain ⟨assembly, hwaiting, hentries, htotal⟩ :=
      emptied_of_recoverable h htransfer hkeeps hdue hrecoverable
    obtain ⟨departure, final, hrelease⟩ := exists_release hwaiting (by omega)
    obtain ⟨hsettled, hfinal⟩ := eq_of_release hwaiting hrelease
    refine ⟨departure, final, hrelease, ?_, ?_⟩
    · rw [backlog, hfinal]
      show (assembly.depart after.now).2.length = 0
      rw [← Reassembly.length_entries, hentries]
      rfl
    · rw [bits_of_release hwaiting hrelease, hsettled]
      exact htotal

end Transfers

end RadioAccess.Egress
