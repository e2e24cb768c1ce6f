import RadioAccess.Proofs.Harq.Repetition
import RadioAccess.Proofs.Real64.Rounding

/-!
# Due Times

A block that is scheduled is due later than now, by the shortest delay at least, whatever the configured
delays, the jitter and the distance are.  The delay is added to the time, however, and the time is rounded:
from `2 ^ 24` seconds on half a unit in its last digit is more than the shortest delay, which is lost then.
-/

namespace RadioAccess.Harq

open Real64 (rank Stored stored_unpack lt_iff_rank_lt)
open Float.Model Float.Model.UnpackedFloat

/-! ## The shortest delay -/

theorem unpack_leastAckDelay :
    leastAckDelay.toModel.unpack = .finite .positive 4835703278458517 (-82) (by decide) := by
  have hbits : leastAckDelay = Float.ofBits 0x3E112E0BE826D695 := by decide +kernel
  rw [hbits]
  rfl

theorem unpack_limit :
    (16777216.0 : Float).toModel.unpack = .finite .positive (2 ^ 52) (-28) (by decide) := by
  have hbits : (16777216.0 : Float) = Float.ofBits 0x4170000000000000 := by decide +kernel
  rw [hbits]
  rfl

/-- The larger of two numbers is no less than the second one, if that is a number. -/
theorem rank_le_larger (a : Float) {b : Float} (hb : b.isNaN = false) :
    (Real64.larger a b).isNaN = false ∧ rank b.toModel.unpack ≤ rank (Real64.larger a b).toModel.unpack := by
  unfold Real64.larger
  split
  · exact ⟨hb, le_rfl⟩
  · rename_i ha
    rw [Bool.not_eq_true] at ha
    split
    · exact ⟨hb, le_rfl⟩
    · rename_i hless
      refine ⟨ha, not_lt.1 fun hlt ↦ hless ?_⟩
      exact (lt_iff_rank_lt a b).2 ⟨ha, hb, hlt⟩

theorem exists_larger (config : HarqConfig) (distance : Float) (stream : Random) :
    ∃ time, (ackDelay config distance stream).1 = Real64.larger time leastAckDelay := ⟨_, rfl⟩

/-- A delay is infinite, or a number with 53 digits that is at least the shortest delay. -/
theorem unpack_ackDelay (config : HarqConfig) (distance : Float) (stream : Random) :
    (ackDelay config distance stream).1.toModel.unpack = .infinity .positive ∨
      ∃ m e, ∃ h : 0 < m, (ackDelay config distance stream).1.toModel.unpack = .finite .positive m e h ∧
        2 ^ 52 ≤ m ∧ (-82 < e ∨ e = -82 ∧ 2 ^ 52 < m) := by
  obtain ⟨time, htime⟩ := exists_larger config distance stream
  have hleast : leastAckDelay.isNaN = false := by
    rw [← Real64.unpack_ne_notANumber_iff, unpack_leastAckDelay]
    simp
  obtain ⟨hnumber, hrank⟩ := rank_le_larger time hleast
  rw [← htime, ← Real64.unpack_ne_notANumber_iff] at hnumber
  rw [← htime, unpack_leastAckDelay] at hrank
  have hstored {m : Nat} {e : Int} {h : 0 < m} :
      (ackDelay config distance stream).1.toModel.unpack = .finite .positive m e h → Stored m e :=
    stored_unpack
  generalize (ackDelay config distance stream).1.toModel.unpack = delay at hnumber hrank hstored
  rcases delay with (_ | _) | _ | sign | ⟨_ | _, m, e, h⟩
  · simp [rank, Prod.Lex.toLex_le_toLex] at hrank
  · exact .inl rfl
  · exact absurd rfl hnumber
  · simp [rank, Prod.Lex.toLex_le_toLex] at hrank
  · simp [rank, Prod.Lex.toLex_le_toLex] at hrank
  · right
    have hfull := (hstored rfl).full
    simp only [rank, Prod.Lex.toLex_le_toLex, lt_self_iff_false, false_or, true_and] at hrank
    refine ⟨m, e, h, rfl, ?_, ?_⟩ <;> omega

/-- A time in the range in which the shortest delay shows. -/
theorem unpack_of_lt_limit {now : Float} (hfrom : 0.0 ≤ now) (hbelow : now < 16777216.0) :
    (∃ sign, now.toModel.unpack = .zero sign) ∨
      ∃ m e, ∃ h : 0 < m, now.toModel.unpack = .finite .positive m e h ∧ e < -28 := by
  rw [lt_iff_rank_lt, ← Real64.unpack_ne_notANumber_iff, unpack_limit] at hbelow
  rw [Real64.le_iff_rank_le, Real64.unpack_zero] at hfrom
  obtain ⟨hnumber, -, hrank⟩ := hbelow
  obtain ⟨-, -, hfrom⟩ := hfrom
  have hstored {m : Nat} {e : Int} {h : 0 < m} :
      now.toModel.unpack = .finite .positive m e h → Stored m e := stored_unpack
  generalize now.toModel.unpack = time at hnumber hrank hfrom hstored
  rcases time with (_ | _) | _ | sign | ⟨_ | _, m, e, h⟩
  · simp [rank, Prod.Lex.toLex_le_toLex] at hfrom
  · simp [rank, Prod.Lex.toLex_lt_toLex] at hrank
  · exact absurd rfl hnumber
  · exact .inl ⟨sign, rfl⟩
  · simp [rank, Prod.Lex.toLex_le_toLex] at hfrom
  · have hfull := (hstored rfl).full
    simp only [rank, Prod.Lex.toLex_lt_toLex, lt_self_iff_false, false_or, true_and] at hrank
    exact .inr ⟨m, e, h, rfl, by omega⟩

/-- Below `2 ^ 24` seconds every delay shows. -/
theorem lt_add_ackDelay {now : Float} (hfrom : 0.0 ≤ now) (hbelow : now < 16777216.0)
    (config : HarqConfig) (distance : Float) (stream : Random) :
    now < now + (ackDelay config distance stream).1 := by
  have hdelay := unpack_ackDelay config distance stream
  generalize (ackDelay config distance stream).1 = delay at hdelay
  have hlarger (hlost : UnpackedFloat.add .binary64 now.toModel.unpack delay.toModel.unpack =
      delay.toModel.unpack) (hless : now < delay) : now < now + delay := by
    rwa [Real64.add_eq_of_unpack hlost]
  rcases unpack_of_lt_limit hfrom hbelow with ⟨sign, hnow⟩ | ⟨m₁, e₁, h₁, hnow, hless⟩ <;>
    rcases hdelay with hdelay | ⟨m₂, e₂, h₂, hdelay, hfull, hmore⟩
  · refine hlarger (by rw [hnow, hdelay]; rfl) ?_
    rw [Real64.lt_iff, hnow, hdelay]
    rfl
  · refine hlarger (by rw [hnow, hdelay]; rfl) ?_
    rw [Real64.lt_iff, hnow, hdelay]
    rfl
  · refine hlarger (by rw [hnow, hdelay]; rfl) ?_
    rw [Real64.lt_iff, hnow, hdelay]
    rfl
  · refine Real64.lt_add_of_half_lt hnow hdelay ?_
    by_cases hfar : (e₁ - e₂).toNat ≤ 52
    · have hle : 2 ^ (e₁ - e₂).toNat ≤ 2 ^ 52 := Nat.pow_le_pow_right (by decide) hfar
      omega
    · have heq : (e₁ - e₂).toNat = 53 := by omega
      rw [heq]
      omega

/-- From `2 ^ 24` seconds on the shortest delay is lost. -/
theorem add_leastAckDelay {now : Float} (h : 16777216.0 ≤ now) : now + leastAckDelay = now := by
  rw [Real64.le_iff_rank_le, ← Real64.unpack_ne_notANumber_iff, ← Real64.unpack_ne_notANumber_iff,
    unpack_limit] at h
  obtain ⟨-, hnumber, hrank⟩ := h
  rcases hnow : now.toModel.unpack with (_ | _) | _ | sign | ⟨_ | _, m, e, hm⟩ <;> rw [hnow] at hnumber hrank
  · simp [rank, Prod.Lex.toLex_le_toLex] at hrank
  · apply Real64.add_eq_of_unpack
    rw [hnow, unpack_leastAckDelay]
    rfl
  · exact absurd rfl hnumber
  · simp [rank, Prod.Lex.toLex_le_toLex] at hrank
  · simp [rank, Prod.Lex.toLex_le_toLex] at hrank
  · simp only [rank, Prod.Lex.toLex_le_toLex, lt_self_iff_false, false_or, true_and] at hrank
    refine Real64.add_eq_self_of_lt_half hnow unpack_leastAckDelay (by omega) ?_
    have hle : 2 ^ 54 ≤ 2 ^ (e - -82).toNat := Nat.pow_le_pow_right (by decide) (by omega)
    omega

/-! ## Scheduling -/

/-- What is scheduled below `2 ^ 24` seconds is due later. -/
theorem later_of_schedule {harq next : Harq} {block : TransportBlock} {distance : Float}
    (hfrom : 0.0 ≤ harq.now) (hbelow : harq.now < 16777216.0)
    (h : harq.schedule block distance = .ok next) :
    ∃ waiting : TransportBlock, waiting.SameLoad block ∧
      next.queue.items.Perm (waiting :: harq.queue.items) ∧ harq.now < waiting.dueAt := by
  obtain ⟨waiting, hload, hdue, hperm⟩ := exists_perm_of_schedule h
  refine ⟨waiting, hload, hperm, ?_⟩
  rw [hdue]
  exact lt_add_ackDelay hfrom hbelow harq.config distance harq.stream

/-- What is scheduled from `2 ^ 24` seconds on is due at once if its delay comes down to the shortest
one. -/
theorem due_of_schedule {harq next : Harq} {block : TransportBlock} {distance : Float}
    (hlate : 16777216.0 ≤ harq.now) (h : harq.schedule block distance = .ok next)
    (hshort : (ackDelay harq.config distance harq.stream).1 = leastAckDelay) :
    ∃ waiting : TransportBlock, waiting.SameLoad block ∧
      next.queue.items.Perm (waiting :: harq.queue.items) ∧ waiting.dueAt = harq.now := by
  obtain ⟨waiting, hload, hdue, hperm⟩ := exists_perm_of_schedule h
  refine ⟨waiting, hload, hperm, ?_⟩
  rw [hdue, hshort]
  exact add_leastAckDelay hlate

theorem later_of_firstFailed {harq next : Harq} {block : TransportBlock} (hfrom : 0.0 ≤ harq.now)
    (hbelow : harq.now < 16777216.0) (h : harq.firstFailed block = .ok (.scheduled, next)) :
    ∃ waiting : TransportBlock, waiting.SameLoad block ∧
      next.queue.items.Perm (waiting :: harq.queue.items) ∧ harq.now < waiting.dueAt := by
  cases decided_of_firstFailed h with
  | waits _ hschedule => exact later_of_schedule hfrom hbelow hschedule

theorem later_of_repetitionFailed {harq next : Harq} {block : TransportBlock} {distance : Float}
    (hfrom : 0.0 ≤ harq.now) (hbelow : harq.now < 16777216.0)
    (h : harq.repetitionFailed block distance = .ok (.scheduled, next)) :
    ∃ waiting : TransportBlock, waiting.SameLoad block ∧
      next.queue.items.Perm (waiting :: harq.queue.items) ∧ harq.now < waiting.dueAt := by
  obtain ⟨repeated, hrepeated, hdecided⟩ := decided_of_repetitionFailed h
  cases hdecided with
  | waits _ hschedule =>
    obtain ⟨waiting, hload, hrest⟩ := later_of_schedule hfrom hbelow hschedule
    exact ⟨waiting, hload.trans (sameLoad_of_repeated hrepeated), hrest⟩

end RadioAccess.Harq
