import RadioAccess.Proofs.Egress.Verdicts
import RadioAccess.Proofs.Reassembly.Balance
import RadioAccess.Proofs.TransmitBuffer.Balance

/-!
# The Numbers of Generated Packets

A buffer that generates its own traffic numbers its packets from zero on, whatever it refuses and
whatever is drained in between.  The first `2 ^ 32` packets form one ascending chain, in which each packet
names the one before it, and a strict far end to which nothing but such packets came has not reached the
number of a later one.

There are no further numbers: the packet after them is number zero again and names no predecessor, and a
strict far end that has gone past the first packet takes it for an old one.
-/

namespace RadioAccess.Reassembly

/-- A whole packet that starts a stream and is lost leaves at once. -/
theorem exists_lose_of_first {packet : Packet} (hwhole : packet.carried = packet.length)
    (hstart : packet.predecessor = none) :
    ∃ assembly, (empty true).lose packet = .ok assembly ∧ ∀ now,
      (assembly.depart now).1 = [⟨{ packet with erased := true }, .lost⟩] ∧
        (assembly.depart now).2.cursor = some packet.number := by
  let gone : Packet := { packet with erased := true }
  let assembly : Reassembly := { empty true with tree := PacketTree.leaf.put packet.number gone }
  refine ⟨assembly, ?_, fun now ↦ ?_⟩
  · have hstarts : startsEntry packet = true := by
      simp [startsEntry, Packet.isPart, hwhole]
    rw [lose, if_pos hstarts]
    rfl
  · have hfate : fate? true now none gone (fun _ ↦ false) = some .lost := by
      refine fate?_eq_some_iff.2 ⟨?_, .inr ⟨rfl, fun _ ↦ ?_, .inl ⟨rfl, rfl⟩⟩⟩
      · simp [gone, Packet.isComplete, hwhole]
      · simp [gone, continues, hstart]
    have hsettle : settle true now none [gone] = ([⟨gone, .lost⟩], some packet.number, []) := by
      simp only [settle, List.any_nil, hfate]
      rfl
    have hdepart : settle true now none [gone] = _ := settle_entries assembly now
    rw [hsettle, Prod.ext_iff, Prod.ext_iff] at hdepart
    exact ⟨hdepart.1.symm, hdepart.2.1.symm⟩

end RadioAccess.Reassembly

namespace RadioAccess.Egress

open Reassembly (exits inSequence)

/-- The cursor of a strict far end is the number of a part that came to it. -/
theorem exists_part_of_cursor {stream : Random} {calls : List Call} {record : Record} {after : Egress}
    (h : (empty (.reassembly true) stream).run calls = .ok (record, after)) {reached : UInt32}
    (hreached : reached ∈ after.cursor) : ∃ part ∈ calls.flatMap Call.parts, part.number = reached := by
  obtain ⟨assembly, htraced⟩ := traced_of_run h
  rw [htraced.cursor_eq, htraced.reaches.sequenced.cursor_eq, Option.mem_def,
    Option.map_eq_some_iff] at hreached
  obtain ⟨exit, hlast, rfl⟩ := hreached
  have hexit := List.mem_filter.1 (List.mem_of_getLast? hlast)
  obtain ⟨part, hpart, hsame⟩ := htraced.reaches.named.gone exit hexit.1
  rw [htraced.parts] at hpart
  exact ⟨part, hpart, hsame.number.symm⟩

/-- The loss of a whole packet that starts a stream moves the cursor of a strict far end to it. -/
theorem exists_run_of_first (stream : Random) {packet : Packet}
    (hwhole : packet.carried = packet.length) (hstart : packet.predecessor = none) :
    ∃ record after, (empty (.reassembly true) stream).run [.losePacket packet, .release] =
        .ok (record, after) ∧ after.cursor = some packet.number := by
  obtain ⟨assembly, hlose, hdepart⟩ := Reassembly.exists_lose_of_first hwhole hstart
  obtain ⟨hsettled, hcursor⟩ := hdepart 0.0
  let waiting : Egress := { empty (.reassembly true) stream with waiting := .packets assembly }
  have hlost : (empty (.reassembly true) stream).act (.losePacket packet) = .ok (none, waiting) := by
    simp only [act, losePacket, empty, hlose, ok_bind]
    rfl
  have hletGo : letGo 0.0 (.packets assembly) =
      .ok (.empty, [⟨{ packet with erased := true }, .lost⟩], .packets (assembly.depart 0.0).2) := by
    simp only [letGo, hsettled]
    rfl
  have hrelease : waiting.act .release =
      .ok (some ⟨0, [⟨{ packet with erased := true }, .lost⟩]⟩,
        { waiting with waiting := .packets (assembly.depart 0.0).2 }.record .empty) := by
    rw [act, release, show letGo waiting.now waiting.waiting = _ from hletGo]
    rfl
  have hfirst : (empty (.reassembly true) stream).run ([] ++ [.losePacket packet]) = .ok (_, waiting) :=
    run_concat rfl hlost
  exact ⟨_, _, run_concat hfirst hrelease, hcursor⟩

end RadioAccess.Egress

namespace RadioAccess.TransmitBuffer

/-! ## Chains -/

/-- Packets with ascending numbers, of which the first names no predecessor and each later one the packet
before it. -/
structure Chained (packets : List Packet) : Prop where
  ascending : packets.Pairwise (·.number < ·.number)
  start : ∀ first ∈ packets.head?, first.predecessor = none
  linked : packets.IsChain fun earlier later ↦ later.predecessor = some earlier.number

/-- Whatever came to a strict far end of the packets before a packet, in whatever order, in parts, as
arrived or as lost: it has not reached the number of that packet. -/
def NeverBehind (packets : List Packet) : Prop :=
  ∀ earlier packet later, packets = earlier ++ packet :: later →
    ∀ stream calls record after,
      (Egress.empty (.reassembly true) stream).run calls = .ok (record, after) →
      (∀ part ∈ calls.flatMap Egress.Call.parts, ∃ whole ∈ earlier, part.origin = whole.origin) →
      ∀ reached ∈ after.cursor, reached < packet.number

/-! ## Numbering -/

/-- Whether a call admits nothing that was made elsewhere. -/
def Call.isOwn : Call → Bool
  | accept _ => false
  | _ => true

/-- Whatever is admitted is numbered, as long as nothing comes from elsewhere. -/
theorem numbered_of_act {packets : List Packet} {buffer next : TransmitBuffer} {call : Call}
    {record : Record} (hnumbered : Numbered packets buffer.nextNumber) (hcall : call.isOwn = true)
    (h : buffer.act call = .ok (record, next)) :
    Numbered (packets ++ record.admitted) next.nextNumber := by
  have hsame : Numbered (packets ++ []) buffer.nextNumber := by
    rwa [List.append_nil]
  cases call with
  | step now =>
    cases h
    exact hsame
  | recordLoss bits =>
    cases h
    exact hsame
  | generate bits size time backhaul =>
    simp only [act, bind_eq_ok_iff, pure_eq_ok_iff] at h
    obtain ⟨⟨result, after⟩, hgenerate, heq⟩ := h
    cases heq
    obtain ⟨hsize, rfl, hnumber, -⟩ | ⟨rfl, rfl⟩ | ⟨rfl, rfl⟩ := eq_of_generate hgenerate
    · rw [hnumber]
      exact hnumbered.enter hsize time backhaul
    · exact hsame
    · exact hsame
  | accept packet => cases hcall
  | drain bits block =>
    simp only [act, bind_eq_ok_iff, pure_eq_ok_iff] at h
    obtain ⟨⟨moved, after, filled⟩, hdrain, heq⟩ := h
    cases heq
    obtain ⟨left, parts, -, -, -, hnumber⟩ := filled_of_drain hdrain
    rw [hnumber]
    exact hsame

theorem numbered_of_run {capacity : UInt64} {calls : List Call} {record : Record}
    {after : TransmitBuffer} (hcalls : ∀ call ∈ calls, call.isOwn = true)
    (h : (empty capacity).run calls = .ok (record, after)) :
    Numbered record.admitted after.nextNumber := by
  have hall : (∀ call ∈ calls, call.isOwn = true) → Numbered record.admitted after.nextNumber := by
    refine foldlM_eq_ok_induction (fun done state ↦ (∀ call ∈ done, call.isOwn = true) →
      Numbered state.1.admitted state.2.nextNumber) ?_ h
      fun _ ↦ .nil
    rintro done ⟨record, buffer⟩ call next ih hadvance hdone
    simp only [advance, bind_eq_ok_iff, pure_eq_ok_iff] at hadvance
    obtain ⟨⟨later, middle⟩, hact, rfl⟩ := hadvance
    rw [List.forall_mem_append] at hdone
    exact numbered_of_act (ih hdone.1) (hdone.2 call (List.mem_singleton_self call)) hact
  exact hall hcalls

/-! ## The chain -/

namespace Numbered

variable {packets : List Packet} {next : UInt32}

theorem toNat_number_getElem (h : Numbered packets next) {i : Nat} (hi : i < packets.length)
    (hlt : i < 2 ^ 32) : packets[i].number.toNat = i := by
  rw [h.number_getElem hi, UInt32.toNat_ofNat_of_lt' hlt]

/-- The packet after the first `2 ^ 32` is number zero again. -/
theorem number_getElem_all (h : Numbered packets next) (hmany : 2 ^ 32 < packets.length) :
    packets[2 ^ 32].number = 0 := h.number_getElem hmany

theorem chained (h : Numbered packets next) (hfew : packets.length ≤ 2 ^ 32) : Chained packets := by
  refine ⟨List.pairwise_iff_getElem.2 fun i j hi hj hlt ↦ ?_, fun first hfirst ↦ ?_,
    List.isChain_iff_getElem.2 fun i hi ↦ ?_⟩
  · rw [UInt32.lt_iff_toNat_lt, h.toNat_number_getElem hi (by omega),
      h.toNat_number_getElem hj (by omega)]
    exact hlt
  · obtain ⟨later, rfl⟩ := List.head?_eq_some_iff.1 hfirst
    have hnumber : first.number = 0 := h.number_getElem (i := 0) (by simp)
    rw [(h.generated first List.mem_cons_self).predecessor, hnumber]
    rfl
  · have hnumber := h.toNat_number_getElem hi (by omega)
    have hearlier := h.toNat_number_getElem (i := i) (by omega) (by omega)
    rw [(h.generated _ (List.getElem_mem hi)).predecessor, predecessorOf, if_neg ?_]
    · rw [Option.some_inj, ← UInt32.toNat_inj, UInt32.toNat_sub_of_le, hnumber, hearlier]
      · rfl
      · rw [UInt32.le_iff_toNat_le, hnumber]
        exact Nat.succ_pos i
    · rw [← UInt32.toNat_inj, hnumber]
      exact Nat.succ_ne_zero i

theorem not_chained (h : Numbered packets next) (hmany : 2 ^ 32 < packets.length) :
    ¬Chained packets := by
  intro hchained
  have hlt := List.pairwise_iff_getElem.1 hchained.ascending 0 (2 ^ 32) (by omega) hmany (by decide)
  rw [h.number_getElem_all hmany] at hlt
  exact UInt32.not_lt_zero hlt

theorem neverBehind (h : Numbered packets next) (hfew : packets.length ≤ 2 ^ 32) :
    NeverBehind packets := by
  rintro earlier packet later rfl stream calls record after hrun hparts reached hreached
  obtain ⟨part, hpart, rfl⟩ := Egress.exists_part_of_cursor hrun hreached
  obtain ⟨whole, hwhole, horigin⟩ := hparts part hpart
  have hnumber : part.number = whole.number := by
    rw [← Packet.number_origin part, horigin, Packet.number_origin]
  have hascending := (List.pairwise_append.1 (h.chained hfew).ascending).2.2
  rw [hnumber]
  exact hascending whole hwhole packet List.mem_cons_self

/-- When the numbers start again, the first packet is enough to be behind it. -/
theorem not_neverBehind (h : Numbered packets next) (hmany : 2 ^ 32 < packets.length) :
    ¬NeverBehind packets := by
  intro hnever
  have hfirst := h.generated packets[0] (List.getElem_mem (by omega))
  have hnumber := h.number_getElem (i := 0) (by omega)
  obtain ⟨record, after, hrun, hcursor⟩ := Egress.exists_run_of_first (.ofSeed 0) hfirst.whole (by
    rw [hfirst.predecessor, hnumber]
    rfl)
  have hsplit : packets = packets.take (2 ^ 32) ++ packets[2 ^ 32] :: packets.drop (2 ^ 32 + 1) := by
    rw [← List.drop_eq_getElem_cons, List.take_append_drop]
  have hearlier : packets[0] ∈ packets.take (2 ^ 32) := by
    rw [List.mem_take_iff_getElem]
    exact ⟨0, by omega, rfl⟩
  have hlt := hnever _ _ _ hsplit _ _ _ _ hrun (fun part hpart ↦ ?_) _ hcursor
  · rw [h.number_getElem_all hmany] at hlt
    exact UInt32.not_lt_zero hlt
  · have hpart' : part = packets[0] := by simpa [Egress.Call.parts] using hpart
    exact ⟨packets[0], hearlier, by rw [hpart']⟩

end Numbered

/-- Whatever is asked for, refused and drained, the admitted packets are numbered from zero on modulo
`2 ^ 32`, and each names the number before its own.  If and only if there is a number for each of them, they
form one ascending chain, and a strict far end to which nothing but such packets came has not reached the
number of a later one. -/
theorem one_chain_iff {capacity : UInt64} {calls : List Call} {record : Record}
    {after : TransmitBuffer} (hcalls : ∀ call ∈ calls, call.isOwn = true)
    (h : (empty capacity).run calls = .ok (record, after)) :
    (Chained record.admitted ↔ record.admitted.length ≤ 2 ^ 32) ∧
      (NeverBehind record.admitted ↔ record.admitted.length ≤ 2 ^ 32) ∧
      record.admitted.map (·.number) = (List.range record.admitted.length).map UInt32.ofNat ∧
      ∀ packet ∈ record.admitted, packet.predecessor = predecessorOf packet.number := by
  have hnumbered := numbered_of_run hcalls h
  refine ⟨⟨fun hchained ↦ ?_, hnumbered.chained⟩, ⟨fun hnever ↦ ?_, hnumbered.neverBehind⟩,
    hnumbered.numbers, fun packet hpacket ↦ (hnumbered.generated packet hpacket).predecessor⟩
  · exact Nat.not_lt.1 fun hmany ↦ hnumbered.not_chained hmany hchained
  · exact Nat.not_lt.1 fun hmany ↦ hnumbered.not_neverBehind hmany hnever

/-- Two requests that are admitted, with one that is too large, one for nothing, one for packets without
bits and a drain that cuts a packet in between. -/
theorem one_chain_iff_of_two :
    ∃ state,
      (empty 100).run
        [.generate 50 20 0.0 .none, .generate 60 20 0.0 .none, .generate 0 20 0.0 .none,
          .generate 20 0 0.0 .none, .drain 30 (.empty 0 0.0 10 100.0 .none), .step 1.0,
          .generate 70 30 1.0 .none] = .ok state ∧
      Chained state.1.admitted ∧ NeverBehind state.1.admitted ∧ state.1.admitted.length = 6 := by
  refine exists_ok_of_any (fun state ↦ state.1.admitted.length == 6) (by decide +kernel)
    fun state h hlength ↦ ?_
  have hsix := eq_of_beq hlength
  obtain ⟨hchained, hnever, -⟩ := one_chain_iff (by decide) h
  exact ⟨hchained.2 (by omega), hnever.2 (by omega), hsix⟩

/-! ## Beyond the last number -/

/-- The buffer is filled with packets of one bit and drained, so many times. -/
def fillings (rounds : Nat) : List Call :=
  (List.replicate rounds [.generate standardCapacity 1 0.0 .none,
    .drain standardCapacity (.empty 0 0.0 10 100.0 .none)]).flatten

theorem isOwn_fillings (rounds : Nat) : ∀ call ∈ fillings rounds, call.isOwn = true := by
  intro call hcall
  obtain ⟨filling, hfilling, hcall⟩ := List.mem_flatten.1 hcall
  obtain ⟨-, rfl⟩ := List.mem_replicate.1 hfilling
  rcases List.mem_pair.1 hcall with rfl | rfl <;> rfl

theorem run_concat {buffer middle next : TransmitBuffer} {calls : List Call} {call : Call}
    {record later : Record} (hrun : buffer.run calls = .ok (record, middle))
    (hact : middle.act call = .ok (later, next)) :
    buffer.run (calls ++ [call]) = .ok (record.append later, next) := by
  rw [run, List.foldlM_append, ← run, hrun, ok_bind, List.foldlM_cons, advance, hact]
  rfl

/-- What fits is admitted. -/
theorem exists_generate_of_fits (buffer : TransmitBuffer) (bits size : UInt64) (time : Float)
    (backhaul : Backhaul) (hsize : size ≠ 0)
    (hfits : buffer.buffered.toNat + bits.toNat ≤ buffer.capacity.toNat) :
    ∃ next, buffer.generate bits size time backhaul = .ok (.ok (packetCount bits size), next) := by
  have hword : buffer.buffered.toNat + bits.toNat < 2 ^ 64 :=
    Nat.lt_of_le_of_lt hfits buffer.capacity.toNat_lt
  have hsum := Word.add64_eq_ok hword
  have hreserve : buffer.reserve bits = .ok (.ok (), buffer) := by
    rw [reserve, hsum, ok_bind, if_neg]
    · rfl
    · rw [gt_iff_lt, UInt64.lt_iff_toNat_lt, Word.toNat_of_add64_eq_ok hsum]
      exact Nat.not_lt.2 hfits
  rw [generate, if_neg hsize]
  split
  · rename_i hbits
    rw [hbits, packetCount_zero]
    exact ⟨buffer, rfl⟩
  · simp only [hreserve, hsum, ok_bind]
    exact ⟨_, rfl⟩

theorem exists_act_of_generate {buffer next : TransmitBuffer} {bits size : UInt64} {time : Float}
    {backhaul : Backhaul} {count : Nat}
    (h : buffer.generate bits size time backhaul = .ok (.ok count, next)) :
    ∃ record, buffer.act (.generate bits size time backhaul) = .ok (record, next) ∧
      record.admitted.length = count := by
  rw [act, h]
  exact ⟨_, rfl, length_segments size time backhaul count bits buffer.nextNumber⟩

theorem exists_act_of_drain {buffer next : TransmitBuffer} {bits moved : UInt64}
    {block filled : TransportBlock} (h : buffer.drain bits block = .ok (moved, next, filled)) :
    ∃ record, buffer.act (.drain bits block) = .ok (record, next) ∧ record.admitted = [] := by
  rw [act, h]
  exact ⟨_, rfl, rfl⟩

/-- All that is filled in is admitted and drained. -/
theorem exists_run_fillings (rounds : Nat) :
    ∃ record after, (empty standardCapacity).run (fillings rounds) = .ok (record, after) ∧
      record.admitted.length = rounds * standardCapacity.toNat ∧ after.buffered = 0 := by
  induction rounds with
  | zero => exact ⟨.empty, empty standardCapacity, rfl, rfl, rfl⟩
  | succ rounds ih =>
    obtain ⟨record, buffer, hrun, hlength, hempty⟩ := ih
    have hstreams := streams_of_run hrun
    obtain ⟨full, hgenerate⟩ := exists_generate_of_fits buffer standardCapacity 1 0.0 .none
      (by decide) (by rw [hempty, hstreams.capacity_eq]; decide)
    have hfilled := (counts_of_generate hstreams.bounded hgenerate).buffered
    rw [hempty, UInt64.toNat_zero, Nat.zero_add] at hfilled
    obtain ⟨admitted, hact, hadmitted⟩ := exists_act_of_generate hgenerate
    have hrunfull := run_concat hrun hact
    have hcount := (streams_of_run hrunfull).buffered_eq
    obtain ⟨⟨moved, dry, block⟩, hdrain⟩ := (exists_drain_iff hcount standardCapacity
      (.empty 0 0.0 10 100.0 .none)).2 (by rw [hfilled]; decide)
    obtain ⟨drained, hactdrain, hnone⟩ := exists_act_of_drain hdrain
    have hrundry := run_concat hrunfull hactdrain
    have hmoved := toNat_of_drain hcount hdrain
    have hleft := (counts_of_drain hdrain).2
    refine ⟨(record.append admitted).append drained, dry, ?_, ?_, ?_⟩
    · rw [fillings, List.replicate_succ', List.flatten_append, ← fillings]
      simpa using hrundry
    · have hall : packetCount standardCapacity 1 = standardCapacity.toNat := by decide
      simp only [Record.append, List.length_append, hlength, hadmitted, hnone, List.length_nil, hall]
      rw [Nat.succ_mul, Nat.add_zero]
    · rw [← UInt64.toNat_inj, UInt64.toNat_zero]
      omega

/-- Filling a buffer of the standard capacity 410 times takes more packets than there are numbers: a packet
is number zero again and names no predecessor. -/
theorem number_zero_again :
    ∃ record after, (empty standardCapacity).run (fillings 410) = .ok (record, after) ∧
      (record.admitted[2 ^ 32]?.map fun packet ↦ (packet.number, packet.predecessor)) = some (0, none) ∧
      ¬Chained record.admitted ∧ ¬NeverBehind record.admitted := by
  obtain ⟨record, after, hrun, hlength, -⟩ := exists_run_fillings 410
  have hmany : 2 ^ 32 < record.admitted.length := by
    rw [hlength]
    decide
  have hnumbered := numbered_of_run (isOwn_fillings 410) hrun
  refine ⟨record, after, hrun, ?_, hnumbered.not_chained hmany, hnumbered.not_neverBehind hmany⟩
  have hnumber := hnumbered.number_getElem_all hmany
  have hpredecessor := (hnumbered.generated _ (List.getElem_mem hmany)).predecessor
  rw [List.getElem?_eq_getElem hmany, Option.map_some, hpredecessor, hnumber]
  rfl

end RadioAccess.TransmitBuffer
