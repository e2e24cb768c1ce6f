import RadioAccess.Proofs.Harq.Draw
import RadioAccess.Proofs.Harq.Repetition

/-!
# The Ceiling of the Count of Repeated Bits

Every scheduled repetition adds the bits of its block to one count.  A block is scheduled at most as often as
it may be repeated, so the count never rises above the bits of all blocks times that number.  The ceiling is
the count when each waiting block has been scheduled as often as it still may; an attempt on a waiting block
never raises it.

A block that waits was repeated less often than it may be, and under the table not later than a repetition
can fail.  Therefore nothing that an attempt counts overflows.
-/

namespace RadioAccess

/-- Bits by which a block that waits may still raise the count if it may be repeated `most` times: it was
scheduled once already, and once more for each repetition that it has counted. -/
def TransportBlock.outstanding (most : UInt32) (block : TransportBlock) : Nat :=
  block.bits.toNat * (most.toNat - 1 - block.retransmissions.toNat)

namespace Harq

variable {harq next : Harq} {block : TransportBlock} {distance : Float} {repetition : Repetition}

/-- The count when each waiting block has been repeated as often as it may. -/
def ceiling (harq : Harq) : Nat :=
  harq.retransmittedBits.toNat +
    (harq.queue.items.map (·.outstanding harq.config.maxRetransmissions)).sum

theorem retransmittedBits_le_ceiling (harq : Harq) : harq.retransmittedBits.toNat ≤ harq.ceiling :=
  Nat.le_add_right _ _

/-- A block leaves the queue with what it may add. -/
theorem ceiling_of_takeReady? (h : harq.takeReady? = (some block, next)) :
    next.ceiling + block.outstanding harq.config.maxRetransmissions = harq.ceiling := by
  obtain ⟨⟨queue, rfl⟩, hitems, -⟩ := eq_of_takeReady? h
  simp only [ceiling, hitems, List.map_cons, List.sum_cons]
  omega

/-- A block can be scheduled as long as the count fits a word. -/
theorem exists_schedule (harq : Harq) (block : TransportBlock) (distance : Float)
    (h : harq.retransmittedBits.toNat + block.bits.toNat < 2 ^ 64) :
    ∃ next, harq.schedule block distance = .ok next := by
  have hsum := Word.add64_eq_ok h
  apply Exists.intro
  rw [schedule, hsum]
  rfl

/-- The bits of one repetition are among those that may still come. -/
theorem bits_le_of_lt {most : UInt32} (hless : block.retransmissions < most) :
    block.bits.toNat + block.outstanding most =
      block.bits.toNat * (most.toNat - block.retransmissions.toNat) := by
  rw [UInt32.lt_iff_toNat_lt] at hless
  have hcount : most.toNat - block.retransmissions.toNat =
      most.toNat - 1 - block.retransmissions.toNat + 1 := by omega
  rw [TransportBlock.outstanding, hcount, Nat.mul_add_one, Nat.add_comm]

theorem ceiling_of_schedule (h : harq.schedule block distance = .ok next)
    (hless : block.retransmissions < harq.config.maxRetransmissions) :
    next.ceiling = harq.ceiling +
      block.bits.toNat * (harq.config.maxRetransmissions.toNat - block.retransmissions.toNat) := by
  obtain ⟨retransmittedBits, hsum, rfl⟩ := eq_of_schedule h
  rw [← bits_le_of_lt hless]
  have hqueue := ((perm_insertByDue { block with
    distance, dueAt := harq.now + (ackDelay harq.config distance harq.stream).1 } harq.queue).map
      (·.outstanding harq.config.maxRetransmissions)).sum_nat
  rw [ceiling, ceiling, hsum, hqueue, List.map_cons, List.sum_cons]
  show _ + (block.outstanding _ + _) = _
  omega

/-! ## Failed attempts -/

/-- The failure of a fresh block raises the ceiling by at most its bits for each repetition. -/
theorem ceiling_of_firstFailed (hcount : block.retransmissions = 0)
    (h : harq.firstFailed block = .ok (repetition, next)) :
    next.ceiling ≤ harq.ceiling + harq.config.maxRetransmissions.toNat * block.bits.toNat := by
  cases decided_of_firstFailed h with
  | givenUp => exact Nat.le_add_right _ _
  | waits hsome hschedule =>
    have hless : block.retransmissions < harq.config.maxRetransmissions := by
      rw [hcount]
      exact UInt32.pos_iff_ne_zero.2 hsome
    rw [ceiling_of_schedule hschedule hless, hcount, Nat.mul_comm]
    exact Nat.le_refl _

theorem exists_firstFailed (harq : Harq)
    (h : harq.ceiling + harq.config.maxRetransmissions.toNat * block.bits.toNat < 2 ^ 64) :
    ∃ result, harq.firstFailed block = .ok result := by
  unfold firstFailed
  split
  · exact ⟨_, rfl⟩
  · rename_i hsome
    have hpos : 0 < harq.config.maxRetransmissions.toNat := UInt32.lt_iff_toNat_lt.1
      (UInt32.pos_iff_ne_zero.2 hsome)
    have hbits := Nat.le_mul_of_pos_left block.bits.toNat hpos
    have hcount := harq.retransmittedBits_le_ceiling
    obtain ⟨next, hnext⟩ := harq.exists_schedule block block.distance (by omega)
    apply Exists.intro
    rw [hnext]
    rfl

/-- What a block that fails again adds to the count it could have added while it waited. -/
theorem ceiling_of_repetitionFailed (h : harq.repetitionFailed block distance = .ok (repetition, next))
    (hless : block.retransmissions < harq.config.maxRetransmissions) :
    next.ceiling ≤ harq.ceiling + block.outstanding harq.config.maxRetransmissions := by
  obtain ⟨repeated, hrepeated, hbits, hcount⟩ := exists_counted hless
  obtain ⟨counted, hcounted, hdecided⟩ := decided_of_repetitionFailed h
  cases hrepeated.symm.trans hcounted
  cases hdecided with
  | givenUp => exact Nat.le_add_right _ _
  | waits hmore hschedule =>
    rw [ceiling_of_schedule hschedule (UInt32.not_le.1 hmore), hbits, hcount, TransportBlock.outstanding,
      Nat.sub_sub, Nat.add_comm 1]

theorem exists_repetitionFailed (harq : Harq) (distance : Float)
    (hless : block.retransmissions < harq.config.maxRetransmissions)
    (h : harq.ceiling + block.outstanding harq.config.maxRetransmissions < 2 ^ 64) :
    ∃ result, harq.repetitionFailed block distance = .ok result := by
  obtain ⟨repeated, hrepeated, hbits, hcount⟩ := exists_counted hless
  simp only [repetitionFailed, hrepeated, ok_bind]
  split
  · exact ⟨_, rfl⟩
  · rename_i hmore
    have hlater := UInt32.lt_iff_toNat_lt.1 (UInt32.not_le.1 hmore)
    have hcounted := harq.retransmittedBits_le_ceiling
    have honce : block.bits.toNat ≤ block.outstanding harq.config.maxRetransmissions := by
      rw [TransportBlock.outstanding]
      exact Nat.le_mul_of_pos_right _ (by omega)
    obtain ⟨next, hnext⟩ := harq.exists_schedule repeated distance (by rw [hbits]; omega)
    apply Exists.intro
    rw [hnext]
    rfl

/-! ## Limits of waiting blocks -/

/-- A failed attempt changes the random numbers, the queue and the count. -/
theorem Decided.eq {enough : Prop} (h : Decided harq block distance enough repetition next) :
    ∃ stream queue retransmittedBits, next = { harq with stream, queue, retransmittedBits } := by
  cases h with
  | givenUp => exact ⟨_, _, _, rfl⟩
  | waits _ hschedule =>
    obtain ⟨retransmittedBits, -, rfl⟩ := eq_of_schedule hschedule
    exact ⟨_, _, _, rfl⟩

theorem eq_of_firstFailed (h : harq.firstFailed block = .ok (repetition, next)) :
    ∃ stream queue retransmittedBits, next = { harq with stream, queue, retransmittedBits } :=
  (decided_of_firstFailed h).eq

theorem eq_of_repetitionFailed (h : harq.repetitionFailed block distance = .ok (repetition, next)) :
    ∃ stream queue retransmittedBits, next = { harq with stream, queue, retransmittedBits } := by
  obtain ⟨repeated, -, hdecided⟩ := decided_of_repetitionFailed h
  exact hdecided.eq

/-- Whether each waiting block was repeated less often than it may be, and under the table not after the last
repetition that can fail. -/
structure Limited (harq : Harq) : Prop where
  few : ∀ block ∈ harq.queue.items, block.retransmissions < harq.config.maxRetransmissions
  early : harq.model = .table → ∀ block ∈ harq.queue.items,
    block.retransmissions.toNat ≤ ErrorModel.lastFailing

/-- A block that waits after an attempt that could fail is within the limits. -/
theorem Limited.counted {number : UInt32} (h : harq.Limited)
    (hcounted : harq.Counted block number repetition next)
    (heq : ∃ stream queue retransmittedBits, next = { harq with stream, queue, retransmittedBits })
    (hearly : harq.model = .table → number.toNat ≤ ErrorModel.lastFailing) : next.Limited := by
  cases hcounted with
  | givenUp hload hcount hmost => exact h
  | waits hload hcount hless hdue hqueue hconfig hnow =>
    obtain ⟨stream, queue, retransmittedBits, rfl⟩ := heq
    refine ⟨fun other hother ↦ ?_, fun hmodel other hother ↦ ?_⟩
    · rcases List.mem_cons.1 (hqueue.mem_iff.1 hother) with rfl | hold
      · rw [hcount]
        exact hless
      · exact h.few other hold
    · rcases List.mem_cons.1 (hqueue.mem_iff.1 hother) with rfl | hold
      · rw [hcount]
        exact hearly hmodel
      · exact h.early hmodel other hold

/-- The block in front is within the limits, and so are the others. -/
theorem Limited.takeReady? (h : harq.Limited) (htake : harq.takeReady? = (some block, next)) :
    next.Limited ∧ block.retransmissions < harq.config.maxRetransmissions ∧
      (harq.model = .table → block.retransmissions.toNat ≤ ErrorModel.lastFailing) := by
  obtain ⟨⟨queue, rfl⟩, hitems, -⟩ := eq_of_takeReady? htake
  obtain ⟨hfew, hearly⟩ := h
  rw [hitems] at hfew hearly
  obtain ⟨hless, hfew⟩ := List.forall_mem_cons.1 hfew
  refine ⟨⟨hfew, fun hmodel ↦ ?_⟩, hless, fun hmodel ↦ ?_⟩
  · exact (List.forall_mem_cons.1 (hearly hmodel)).2
  · exact (List.forall_mem_cons.1 (hearly hmodel)).1

end Harq

end RadioAccess
