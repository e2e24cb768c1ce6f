import RadioAccess.Proofs.Harq

/-!
# Counting Repetitions

A block counts its repetitions, the one that it waits for excepted.  After a failed attempt the count is
the number of the attempt; it decides whether the block waits for another one, and the block is then due
one acknowledgement later.  A block is taken from the front of the queue only when it is due.
-/

namespace RadioAccess.Harq

/-- What becomes of a block after attempt number `number` failed: it is counted, and it waits or is given
up as the count says. -/
inductive Counted (harq : Harq) (block : TransportBlock) (number : UInt32) : Repetition → Harq → Prop where
  | waits {next : Harq} {waiting : TransportBlock} (hload : waiting.SameLoad block)
      (hcount : waiting.retransmissions = number) (hless : number < harq.config.maxRetransmissions)
      (hdue : ∃ distance stream, waiting.dueAt = harq.now + (ackDelay harq.config distance stream).1)
      (hqueue : next.queue.items.Perm (waiting :: harq.queue.items))
      (hconfig : next.config = harq.config) (hnow : next.now = harq.now) :
      Counted harq block number .scheduled next
  | givenUp {exhausted : TransportBlock} (hload : exhausted.SameLoad block)
      (hcount : exhausted.retransmissions = number) (hmost : harq.config.maxRetransmissions ≤ number) :
      Counted harq block number (.exhausted exhausted) harq

theorem counted_of_schedule {harq next : Harq} {block counted : TransportBlock} {number : UInt32}
    {distance : Float} (hload : counted.SameLoad block) (hcount : counted.retransmissions = number)
    (hless : number < harq.config.maxRetransmissions)
    (h : harq.schedule counted distance = .ok next) : Counted harq block number .scheduled next := by
  obtain ⟨retransmittedBits, -, rfl⟩ := eq_of_schedule h
  have hwaiting (dueAt : Float) : { counted with distance, dueAt }.SameLoad block :=
    ⟨hload.number, hload.packets, hload.bits⟩
  exact .waits (hwaiting _) hcount hless ⟨distance, harq.stream, rfl⟩ (perm_insertByDue _ _) rfl rfl

theorem counted_of_firstFailed {harq next : Harq} {block : TransportBlock} {repetition : Repetition}
    (hcount : block.retransmissions = 0) (h : harq.firstFailed block = .ok (repetition, next)) :
    Counted harq block 0 repetition next := by
  cases decided_of_firstFailed h with
  | givenUp hnone => exact .givenUp ⟨rfl, rfl, rfl⟩ hcount (by rw [hnone]; exact UInt32.le_refl 0)
  | waits hsome hschedule =>
    exact counted_of_schedule ⟨rfl, rfl, rfl⟩ hcount (UInt32.pos_iff_ne_zero.2 hsome) hschedule

theorem counted_of_repetitionFailed {harq next : Harq} {block : TransportBlock} {number : UInt32}
    {distance : Float} {repetition : Repetition}
    (hnumber : number.toNat = block.retransmissions.toNat + 1)
    (h : harq.repetitionFailed block distance = .ok (repetition, next)) :
    Counted harq block number repetition next := by
  obtain ⟨repeated, hrepeated, hdecided⟩ := decided_of_repetitionFailed h
  have hload := sameLoad_of_repeated hrepeated
  have hcount : repeated.retransmissions = number := by
    simp only [TransportBlock.repeated, bind_eq_ok_iff, pure_eq_ok_iff] at hrepeated
    obtain ⟨count, hsum, rfl⟩ := hrepeated
    exact UInt32.toNat_inj.1 ((Word.toNat_of_add32_eq_ok hsum).trans hnumber.symm)
  rw [hcount] at hdecided
  cases hdecided with
  | givenUp hmost => exact .givenUp hload hcount hmost
  | waits hless hschedule => exact counted_of_schedule hload hcount (UInt32.not_le.1 hless) hschedule

/-- A count below a bound has a successor. -/
theorem exists_succ {count most : UInt32} (h : count < most) :
    ∃ sum, Word.add32 count 1 = .ok sum ∧ sum.toNat = count.toNat + 1 := by
  have hlt := UInt32.lt_iff_toNat_lt.1 h
  have hsize := most.toNat_lt
  have hfits : count.toNat + (1 : UInt32).toNat < UInt32.size := by
    rw [UInt32.toNat_one, UInt32.size]
    omega
  have hsum := Word.add32_eq_ok hfits
  exact ⟨count + 1, hsum, Word.toNat_of_add32_eq_ok hsum⟩

/-- A block that was repeated less often than it may counts one repetition more. -/
theorem exists_counted {block : TransportBlock} {most : UInt32} (h : block.retransmissions < most) :
    ∃ repeated, block.repeated = .ok repeated ∧ repeated.bits = block.bits ∧
      repeated.retransmissions.toNat = block.retransmissions.toNat + 1 := by
  obtain ⟨count, hsum, hcount⟩ := exists_succ h
  exact ⟨{ block with retransmissions := count }, by rw [TransportBlock.repeated, hsum]; rfl, rfl, hcount⟩

/-- Which blocks wait does not matter to a draw. -/
theorem attemptFails_of_queue {harq next : Harq} {queue : Ring TransportBlock} {mcs : UInt8}
    {sinr : Float} {attempt : UInt32} {failed : Bool}
    (h : ({ harq with queue } : Harq).attemptFails mcs sinr attempt = .ok (failed, next)) :
    harq.attemptFails mcs sinr attempt = .ok (failed, { next with queue := harq.queue }) := by
  simp only [attemptFails, bind_eq_ok_iff, pure_eq_ok_iff] at h ⊢
  obtain ⟨probability, hprobability, heq⟩ := h
  cases heq
  exact ⟨probability, hprobability, rfl⟩

/-! ## The block in front -/

/-- Nothing is taken exactly if no repetition is due. -/
theorem takeReady?_eq_none_iff (harq : Harq) :
    harq.takeReady? = (none, harq) ↔ harq.isReady = false := by
  unfold takeReady? isReady
  rw [← Ring.head?_items]
  split
  · rename_i hempty
    rw [(Ring.dequeue?_eq_none_iff _).1 hempty]
    exact ⟨fun _ ↦ rfl, fun _ ↦ rfl⟩
  · rename_i block queue hfirst
    rw [Ring.items_of_dequeue? hfirst, List.head?_cons, Option.any_some]
    split
    · rename_i hdue
      simp [hdue]
    · rename_i hlate
      simp [hlate]

end RadioAccess.Harq
