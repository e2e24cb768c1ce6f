import RadioAccess.Proofs.TransmitBuffer.Balance

/-!
# Faults of the Transmit Buffer

What waits never exceeds the capacity, so nothing that is taken from a count is more than the count, and the
bits of an empty block always have room.  One sum is not guarded: a request is added to what waits before it
is compared with the capacity.  A request that does not fit is therefore refused as long as that sum fits a
word, and is a fault beyond that.
-/

namespace RadioAccess.TransmitBuffer

open Packet (totalBits)

variable {buffer next : TransmitBuffer} {bits size : UInt64} {time : Float} {backhaul : Backhaul}
  {fault : Fault}

/-! ## Requests -/

theorem reserve_of_overflow (h : 2 ^ 64 ≤ buffer.buffered.toNat + bits.toNat) :
    buffer.reserve bits = .error .addOverflow := by
  rw [reserve, Word.add64_eq_error (Nat.not_lt.2 h)]
  rfl

theorem exists_accept (packet : Packet)
    (hfits : buffer.buffered.toNat + packet.carried.toNat < 2 ^ 64) :
    ∃ answer, buffer.accept packet = .ok answer := by
  have hsum := Word.add64_eq_ok hfits
  simp only [accept, reserve, hsum, ok_bind]
  split
  · exact ⟨_, rfl⟩
  · simp only [hsum, pure_bind, ok_bind]
    exact ⟨_, rfl⟩

theorem generate_eq_error_iff : buffer.generate bits size time backhaul = .error fault ↔
    fault = .addOverflow ∧ size ≠ 0 ∧ 2 ^ 64 ≤ buffer.buffered.toNat + bits.toNat := by
  rcases Nat.lt_or_ge (buffer.buffered.toNat + bits.toNat) (2 ^ 64) with hless | hmany
  · obtain ⟨answer, hanswer⟩ := exists_generate buffer size time backhaul hless
    rw [hanswer]
    exact ⟨fun h ↦ (nomatch h), fun h ↦ absurd h.2.2 (Nat.not_le.2 hless)⟩
  · by_cases hsize : size = 0
    · rw [generate, if_pos hsize]
      exact ⟨fun h ↦ (nomatch h), fun h ↦ absurd hsize h.2.1⟩
    · have hbits : bits ≠ 0 := by
        rintro rfl
        exact Nat.not_lt.2 hmany buffer.buffered.toNat_lt
      rw [generate, if_neg hsize, if_neg hbits, reserve_of_overflow hmany]
      exact ⟨fun h ↦ ⟨(Except.error.inj h).symm, hsize, hmany⟩, fun h ↦ by rw [h.1]; rfl⟩

theorem accept_eq_error_iff {packet : Packet} : buffer.accept packet = .error fault ↔
    fault = .addOverflow ∧ 2 ^ 64 ≤ buffer.buffered.toNat + packet.carried.toNat := by
  rcases Nat.lt_or_ge (buffer.buffered.toNat + packet.carried.toNat) (2 ^ 64) with hless | hmany
  · obtain ⟨answer, hanswer⟩ := exists_accept packet hless
    rw [hanswer]
    exact ⟨fun h ↦ (nomatch h), fun h ↦ absurd h.2 (Nat.not_le.2 hless)⟩
  · rw [accept, reserve_of_overflow hmany]
    exact ⟨fun h ↦ ⟨(Except.error.inj h).symm, hmany⟩, fun h ↦ by rw [h.1]; rfl⟩

/-- A request that does not fit is refused if the sum fits a word. -/
theorem generate_of_not_fits (hsize : size ≠ 0) (hbounded : buffer.buffered ≤ buffer.capacity)
    (hmany : ¬buffer.Fits bits) (hword : buffer.buffered.toNat + bits.toNat < 2 ^ 64) (time : Float)
    (backhaul : Backhaul) : buffer.generate bits size time backhaul =
      .ok (.error (.overflow bits buffer.buffered buffer.capacity), buffer.recordLoss bits) := by
  obtain ⟨⟨result, after⟩, hanswer⟩ := exists_generate buffer size time backhaul hword
  rw [hanswer]
  cases answered_of_generate hanswer with
  | senseless hzero => exact absurd hzero hsize
  | nothing _ hbits =>
    rw [hbits] at hmany
    exact absurd (UInt64.le_iff_toNat_le.1 hbounded) hmany
  | admitted _ _ hfits => exact absurd hfits hmany
  | refused => rfl

theorem accept_of_not_fits {packet : Packet} (hmany : ¬buffer.Fits packet.carried)
    (hword : buffer.buffered.toNat + packet.carried.toNat < 2 ^ 64) : buffer.accept packet =
      .ok (.error (.overflow packet.carried buffer.buffered buffer.capacity),
        buffer.recordLoss packet.carried) := by
  obtain ⟨⟨result, after⟩, hanswer⟩ := exists_accept packet hword
  rw [hanswer]
  cases received_of_accept hanswer with
  | admitted hfits => exact absurd hfits hmany
  | refused => rfl

/-! ## Draining -/

/-- A drain into an empty block always has a result, and all of its counts are exact. -/
theorem exists_drain_into_empty (hcount : buffer.buffered.toNat = totalBits buffer.packets.toList)
    (bits : UInt64) {block : TransportBlock} (hblock : block.bits = 0) :
    ∃ moved next filled, buffer.drain bits block = .ok (moved, next, filled) ∧
      moved.toNat = min bits.toNat buffer.buffered.toNat ∧
      next.buffered.toNat = buffer.buffered.toNat - moved.toNat ∧ filled.bits = moved := by
  have hnone : block.bits.toNat = 0 := by
    rw [hblock]
    rfl
  have hroom : block.bits.toNat + min bits.toNat buffer.buffered.toNat < 2 ^ 64 := by
    rw [hnone, Nat.zero_add]
    exact Nat.lt_of_le_of_lt (Nat.min_le_left _ _) bits.toNat_lt
  obtain ⟨⟨moved, next, filled⟩, hdrain⟩ := (exists_drain_iff hcount bits block).2 hroom
  obtain ⟨left, parts, hfilled, hmoved, -, -⟩ := filled_of_drain hdrain
  have hleft := (counts_of_drain hdrain).2
  refine ⟨moved, next, filled, hdrain, toNat_of_drain hcount hdrain, by omega, ?_⟩
  rw [← UInt64.toNat_inj, hfilled.tally, hnone, hmoved, Nat.zero_add]

/-! ## Calls -/

/-- The bits that a call asks to admit.  A request for packets without bits is not looked at. -/
def Call.requested? : Call → Option UInt64
  | generate bits size _ _ => if size = 0 then none else some bits
  | accept packet => some packet.carried
  | _ => none

/-- Whether a call that drains the buffer does so into a block that is empty. -/
def Call.isFresh : Call → Bool
  | drain _ block => block.bits == 0
  | _ => true

/-- Whether what a call asks to admit, and what waits, are more than a word can count. -/
def Call.Overflows (call : Call) (buffer : TransmitBuffer) : Prop :=
  ∃ bits ∈ call.requested?, 2 ^ 64 ≤ buffer.buffered.toNat + bits.toNat

/-- Nothing but that sum can be a fault. -/
theorem act_eq_error_iff (hcount : buffer.buffered.toNat = totalBits buffer.packets.toList) {call : Call}
    (hfresh : call.isFresh = true) :
    buffer.act call = .error fault ↔ fault = .addOverflow ∧ call.Overflows buffer := by
  cases call with
  | step now => simp [act, Call.Overflows, Call.requested?]
  | recordLoss bits => simp [act, Call.Overflows, Call.requested?]
  | generate bits size time backhaul =>
    simp only [act, bind_eq_error_iff, pure_ne_error, and_false, exists_false, or_false,
      generate_eq_error_iff, Call.Overflows, Call.requested?]
    by_cases hsize : size = 0 <;> simp [hsize]
  | accept packet =>
    simp only [act, bind_eq_error_iff, pure_ne_error, and_false, exists_false, or_false,
      accept_eq_error_iff, Call.Overflows, Call.requested?]
    simp
  | drain bits block =>
    obtain ⟨moved, next, filled, hdrain, -⟩ := exists_drain_into_empty hcount bits (eq_of_beq hfresh)
    simp only [act, hdrain, ok_bind, pure_ne_error, Call.Overflows, Call.requested?]
    simp

theorem advance_eq_error_iff {record : Record} {call : Call} :
    advance (record, buffer) call = .error fault ↔ buffer.act call = .error fault := by
  simp only [advance, bind_eq_error_iff, pure_ne_error, and_false, exists_false, or_false]

/-- A run is ended by the first request that is too large to be added. -/
theorem run_eq_error_iff {capacity : UInt64} {calls : List Call}
    (hfresh : ∀ call ∈ calls, call.isFresh = true) :
    (empty capacity).run calls = .error fault ↔ fault = .addOverflow ∧
      ∃ done call rest record after, calls = done ++ call :: rest ∧
        (empty capacity).run done = .ok (record, after) ∧ call.Overflows after := by
  -- The calls before the one in question had a result, so what waits then is counted exactly.
  have hact {done rest : List Call} {call : Call} {record : Record} {after : TransmitBuffer}
      (hcalls : calls = done ++ call :: rest) (hrun : (empty capacity).run done = .ok (record, after)) :
      advance (record, after) call = .error fault ↔ fault = .addOverflow ∧ call.Overflows after := by
    rw [advance_eq_error_iff]
    refine act_eq_error_iff (streams_of_run hrun).buffered_eq (hfresh call ?_)
    rw [hcalls]
    exact List.mem_append_right _ List.mem_cons_self
  rw [run, foldlM_eq_error_iff]
  constructor
  · rintro ⟨done, call, rest, ⟨record, after⟩, hcalls, hrun, hfault⟩
    obtain ⟨rfl, hoverflows⟩ := (hact hcalls hrun).1 hfault
    exact ⟨rfl, done, call, rest, record, after, hcalls, hrun, hoverflows⟩
  · rintro ⟨rfl, done, call, rest, record, after, hcalls, hrun, hoverflows⟩
    exact ⟨done, call, rest, (record, after), hcalls, hrun, (hact hcalls hrun).2 ⟨rfl, hoverflows⟩⟩

/-- The only fault of a buffer that is drained into empty blocks is a request that, added to what waits, does
not fit a word.  Any other request that does not fit is refused and counted as lost, and a drain moves what
is asked for or all that waits.  So nothing is a fault as long as each request fits a word together with the
capacity. -/
theorem faults_iff_sum_overflows {capacity : UInt64} {calls : List Call}
    (hfresh : ∀ call ∈ calls, call.isFresh = true) :
    (∀ fault, (empty capacity).run calls = .error fault ↔ fault = .addOverflow ∧
      ∃ done call rest record after, calls = done ++ call :: rest ∧
        (empty capacity).run done = .ok (record, after) ∧ call.Overflows after) ∧
    (∀ record after, (empty capacity).run calls = .ok (record, after) → after.capacity = capacity ∧
      (∀ bits, ¬after.Fits bits → after.buffered.toNat + bits.toNat < 2 ^ 64 →
        (∀ size time backhaul, size ≠ 0 → after.generate bits size time backhaul =
          .ok (.error (.overflow bits after.buffered capacity), after.recordLoss bits)) ∧
        ∀ packet, packet.carried = bits → after.accept packet =
          .ok (.error (.overflow bits after.buffered capacity), after.recordLoss bits)) ∧
      ∀ bits block, block.bits = 0 → ∃ moved next filled,
        after.drain bits block = .ok (moved, next, filled) ∧
        moved.toNat = min bits.toNat after.buffered.toNat ∧
        next.buffered.toNat = after.buffered.toNat - moved.toNat ∧ filled.bits = moved) ∧
    ((∀ call ∈ calls, ∀ bits ∈ call.requested?, capacity.toNat + bits.toNat < 2 ^ 64) →
      ∃ state, (empty capacity).run calls = .ok state) := by
  refine ⟨fun fault ↦ run_eq_error_iff hfresh, fun record after hrun ↦ ?_, fun hsmall ↦ ?_⟩
  · obtain ⟨rfl, -, hcount, hbounded⟩ := streams_of_run hrun
    refine ⟨rfl, fun bits hmany hword ↦ ⟨fun size time backhaul hsize ↦ ?_, ?_⟩, fun bits block hblock ↦ ?_⟩
    · exact generate_of_not_fits hsize hbounded hmany hword time backhaul
    · rintro packet rfl
      exact accept_of_not_fits hmany hword
    · exact exists_drain_into_empty hcount bits hblock
  · cases hrun : (empty capacity).run calls with
    | ok state => exact ⟨state, rfl⟩
    | error fault =>
      obtain ⟨-, done, call, rest, record, after, rfl, hdone, bits, hbits, hoverflow⟩ :=
        (run_eq_error_iff hfresh).1 hrun
      obtain ⟨hcapacity, -, -, hbounded⟩ := streams_of_run hdone
      have hfits := hsmall call (List.mem_append_right _ List.mem_cons_self) bits hbits
      rw [hcapacity, UInt64.le_iff_toNat_le] at hbounded
      omega

/-- A request that is too large by one bit is refused, and a drain makes room again. -/
theorem faults_iff_sum_overflows_of_four :
    ∃ state,
      (empty 100).run
        [.generate 90 40 0.0 .none, .generate 11 40 0.0 .none, .drain 30 (.empty 0 0.0 10 100.0 .none),
          .accept (.whole 7 none 40 0.0 .none)] = .ok state ∧
      state.2.generate 18446744073709551515 40 0.0 .none =
        .ok (.error (.overflow 18446744073709551515 100 100),
          state.2.recordLoss 18446744073709551515) := by
  refine exists_ok_of_any (fun state ↦ state.2.buffered == 100) (by decide +kernel)
    fun ⟨record, after⟩ h hbuffered ↦ ?_
  obtain ⟨hcapacity, hrefused, -⟩ := (faults_iff_sum_overflows (by decide +kernel)).2.1 record after h
  have hfull : after.buffered = 100 := eq_of_beq hbuffered
  have hmany : ¬after.Fits 18446744073709551515 := by
    rw [Fits, hfull, hcapacity]
    decide
  have hanswer := (hrefused 18446744073709551515 hmany (by rw [hfull]; decide)).1 40 0.0 .none (by decide)
  rwa [hfull] at hanswer

/-- With one bit in the buffer the largest request cannot be added, and there is no answer. -/
theorem fault_of_largest_request :
    (empty standardCapacity).run [.generate 1 1 0.0 .none, .generate 18446744073709551615 1 0.0 .none] =
      .error .addOverflow := rfl

end RadioAccess.TransmitBuffer
