import RadioAccess.Link.Harq
import RadioAccess.Proofs.Checked

/-!
# What the Repetition Queue Does

A failed block joins the queue or is given up, and the queue loses only the block in front.  This holds
for every due time, also for one that is no number, as a bisection always ends inside the queue.
-/

namespace RadioAccess

namespace Bisection

theorem narrow_lt {holds : Nat → Bool} {base size : Nat} (hsize : 0 < size) :
    narrow holds base size < base + size := by
  fun_induction narrow holds base size with
  | case1 base size hone => omega
  | case2 base size hmore ih =>
    have hlt := ih (by omega)
    split at hlt <;> rename_i hholds
    · rw [if_pos hholds]
      omega
    · rw [if_neg hholds]
      omega

/-- A bisection ends at one of the positions or behind the last one. -/
theorem changePoint_le (holds : Nat → Bool) (size : Nat) : changePoint holds size ≤ size := by
  unfold changePoint
  split
  · omega
  · have hlt : narrow holds 0 size < 0 + size := narrow_lt (by omega)
    split <;> omega

end Bisection

namespace Ring

theorem lt_length_of_holdsAt {α : Type} {ring : Ring α} {p : α → Bool} {position : Nat}
    (h : ring.holdsAt p position = true) : position < ring.length := by
  rw [holdsAt, ← getElem?_items] at h
  rcases Nat.lt_or_ge position ring.items.length with hlt | hge
  · rwa [length_items] at hlt
  · rw [List.getElem?_eq_none hge] at h
    cases h

/-- A search ends inside the ring, whatever it searches for. -/
theorem changePoint_le {α : Type} (p : α → Bool) (ring : Ring α) : ring.changePoint p ≤ ring.length := by
  unfold changePoint
  split
  · rename_i hseam
    have hlt := lt_length_of_holdsAt hseam
    have hle := Bisection.changePoint_le (fun i ↦ ring.holdsAt p (ring.seam + i))
      (ring.length - ring.seam)
    omega
  · have hle := Bisection.changePoint_le (ring.holdsAt p) (min ring.seam ring.length)
    omega

end Ring

/-- Two blocks carry the same load under the same number. -/
structure TransportBlock.SameLoad (a b : TransportBlock) : Prop where
  number : a.number = b.number
  packets : a.packets = b.packets
  bits : a.bits = b.bits

theorem TransportBlock.SameLoad.trans {a b c : TransportBlock} (hab : a.SameLoad b) (hbc : b.SameLoad c) :
    a.SameLoad c :=
  ⟨hab.number.trans hbc.number, hab.packets.trans hbc.packets, hab.bits.trans hbc.bits⟩

namespace Harq

/-- A block that is scheduled joins the queue. -/
theorem perm_insertByDue (block : TransportBlock) (queue : Ring TransportBlock) :
    (insertByDue block queue).items.Perm (block :: queue.items) := by
  rw [insertByDue, Ring.items_insert]
  apply List.perm_insertIdx _ _
  rw [Ring.length_items]
  exact Ring.changePoint_le _ _

/-- What is decided about a failed block: it is given up if it was repeated enough, and scheduled otherwise. -/
inductive Decided (harq : Harq) (block : TransportBlock) (distance : Float) (enough : Prop) :
    Repetition → Harq → Prop where
  | givenUp (henough : enough) : Decided harq block distance enough (.exhausted block) harq
  | waits {next : Harq} (hmore : ¬enough) (hschedule : harq.schedule block distance = .ok next) :
      Decided harq block distance enough .scheduled next

theorem decided_of_firstFailed {harq next : Harq} {block : TransportBlock} {repetition : Repetition}
    (h : harq.firstFailed block = .ok (repetition, next)) :
    Decided harq block block.distance (harq.config.maxRetransmissions = 0) repetition next := by
  unfold firstFailed at h
  split at h
  · rename_i henough
    cases h
    exact .givenUp henough
  · rename_i hmore
    simp only [bind_eq_ok_iff, pure_eq_ok_iff] at h
    obtain ⟨scheduled, hschedule, heq⟩ := h
    cases heq
    exact .waits hmore hschedule

/-- A block that fails again counts that first. -/
theorem decided_of_repetitionFailed {harq next : Harq} {block : TransportBlock} {distance : Float}
    {repetition : Repetition} (h : harq.repetitionFailed block distance = .ok (repetition, next)) :
    ∃ repeated, block.repeated = .ok repeated ∧ Decided harq repeated distance
      (harq.config.maxRetransmissions ≤ repeated.retransmissions) repetition next := by
  simp only [repetitionFailed, bind_eq_ok_iff] at h
  obtain ⟨repeated, hrepeated, h⟩ := h
  refine ⟨repeated, hrepeated, ?_⟩
  split at h
  · rename_i henough
    cases h
    exact .givenUp henough
  · rename_i hmore
    simp only [bind_eq_ok_iff, pure_eq_ok_iff] at h
    obtain ⟨scheduled, hschedule, heq⟩ := h
    cases heq
    exact .waits hmore hschedule

/-- What becomes of a failed block: it waits, or it is given up and the queue stays. -/
inductive Failed (harq : Harq) (block : TransportBlock) : Repetition → Harq → Prop where
  | waits {next : Harq} (waiting : TransportBlock) (hload : waiting.SameLoad block)
      (hqueue : next.queue.items.Perm (waiting :: harq.queue.items)) :
      Failed harq block .scheduled next
  | givenUp (exhausted : TransportBlock) (hload : exhausted.SameLoad block) :
      Failed harq block (.exhausted exhausted) harq

theorem eq_of_schedule {harq next : Harq} {block : TransportBlock} {distance : Float}
    (h : harq.schedule block distance = .ok next) :
    ∃ retransmittedBits, retransmittedBits.toNat = harq.retransmittedBits.toNat + block.bits.toNat ∧
      next = { harq with
        retransmittedBits
        stream := (ackDelay harq.config distance harq.stream).2
        queue := insertByDue { block with
          distance, dueAt := harq.now + (ackDelay harq.config distance harq.stream).1 } harq.queue } := by
  simp only [schedule, bind_eq_ok_iff, pure_eq_ok_iff] at h
  obtain ⟨retransmittedBits, hsum, rfl⟩ := h
  exact ⟨retransmittedBits, Word.toNat_of_add64_eq_ok hsum, rfl⟩

/-- A block that is scheduled waits, and is due one acknowledgement from now. -/
theorem exists_perm_of_schedule {harq next : Harq} {block : TransportBlock} {distance : Float}
    (h : harq.schedule block distance = .ok next) :
    ∃ waiting : TransportBlock, waiting.SameLoad block ∧
      waiting.dueAt = harq.now + (ackDelay harq.config distance harq.stream).1 ∧
      next.queue.items.Perm (waiting :: harq.queue.items) := by
  obtain ⟨retransmittedBits, -, rfl⟩ := eq_of_schedule h
  have hload (dueAt : Float) : { block with distance, dueAt }.SameLoad block := ⟨rfl, rfl, rfl⟩
  exact ⟨_, hload _, rfl, perm_insertByDue _ _⟩

theorem Decided.failed {harq next : Harq} {block original : TransportBlock} {distance : Float} {enough : Prop}
    {repetition : Repetition} (h : Decided harq block distance enough repetition next)
    (hsame : block.SameLoad original) : Failed harq original repetition next := by
  cases h with
  | givenUp => exact .givenUp block hsame
  | waits _ hschedule =>
    obtain ⟨waiting, hload, -, hperm⟩ := exists_perm_of_schedule hschedule
    exact .waits waiting (hload.trans hsame) hperm

theorem failed_of_firstFailed {harq next : Harq} {block : TransportBlock} {repetition : Repetition}
    (h : harq.firstFailed block = .ok (repetition, next)) : Failed harq block repetition next :=
  (decided_of_firstFailed h).failed ⟨rfl, rfl, rfl⟩

theorem sameLoad_of_repeated {block repeated : TransportBlock} (h : block.repeated = .ok repeated) :
    repeated.SameLoad block := by
  simp only [TransportBlock.repeated, bind_eq_ok_iff, pure_eq_ok_iff] at h
  obtain ⟨count, -, rfl⟩ := h
  exact ⟨rfl, rfl, rfl⟩

theorem failed_of_repetitionFailed {harq next : Harq} {block : TransportBlock} {distance : Float}
    {repetition : Repetition} (h : harq.repetitionFailed block distance = .ok (repetition, next)) :
    Failed harq block repetition next := by
  obtain ⟨repeated, hrepeated, hdecided⟩ := decided_of_repetitionFailed h
  exact hdecided.failed (sameLoad_of_repeated hrepeated)

theorem exists_stream_of_attemptFails {harq next : Harq} {mcs : UInt8} {sinr : Float} {attempt : UInt32}
    {failed : Bool} (h : harq.attemptFails mcs sinr attempt = .ok (failed, next)) :
    ∃ stream, next = { harq with stream } := by
  simp only [attemptFails, bind_eq_ok_iff, pure_eq_ok_iff] at h
  obtain ⟨probability, -, heq⟩ := h
  cases heq
  exact ⟨_, rfl⟩

/-- Drawing the fate of an attempt leaves the queue alone. -/
theorem queue_of_attemptFails {harq next : Harq} {mcs : UInt8} {sinr : Float} {attempt : UInt32}
    {failed : Bool} (h : harq.attemptFails mcs sinr attempt = .ok (failed, next)) :
    next.queue = harq.queue := by
  obtain ⟨stream, rfl⟩ := exists_stream_of_attemptFails h
  rfl

/-- The block that is taken was the one in front; without one nothing is taken. -/
theorem items_of_takeReady? {harq next : Harq} {taken : Option TransportBlock}
    (h : harq.takeReady? = (taken, next)) : harq.queue.items = taken.toList ++ next.queue.items := by
  unfold takeReady? at h
  split at h
  · cases h
    rfl
  · rename_i block queue hdequeue
    split at h
    · cases h
      exact Ring.items_of_dequeue? hdequeue
    · cases h
      rfl

/-- The block that is taken was in front and is due. -/
theorem eq_of_takeReady? {harq next : Harq} {block : TransportBlock}
    (h : harq.takeReady? = (some block, next)) :
    (∃ queue, next = { harq with queue }) ∧ harq.queue.items = block :: next.queue.items ∧
      block.dueAt ≤ harq.now := by
  have hitems := items_of_takeReady? h
  unfold takeReady? at h
  split at h
  · cases h
  · split at h
    · rename_i hdue
      cases h
      exact ⟨⟨_, rfl⟩, hitems, hdue⟩
    · cases h

theorem eq_of_takeReady?_none {harq next : Harq} (h : harq.takeReady? = (none, next)) : next = harq := by
  unfold takeReady? at h
  split at h
  · exact (Prod.mk.inj h).2.symm
  · split at h
    · cases h
    · exact (Prod.mk.inj h).2.symm

end Harq

end RadioAccess
