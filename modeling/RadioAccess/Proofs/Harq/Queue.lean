import RadioAccess.Proofs.Harq.DueTime

/-!
# The Order of Repetitions

The block that is due first leaves first, and of several that are due at the same time the one that was
scheduled first.  The queue does not know when a block was scheduled.  A run keeps the waiting blocks in that
order beside the queue, and a second queue, which searches them one by one (`leave`), tells what has to leave.

The place of a block is found by bisection, which is sound only where the queue is in order, and the order
rests on due times being numbers.  They are as long as the clock shows finite times, whatever the configured
delays, the jitter and the distances are.
-/

namespace RadioAccess.Harq

open Real64 (rank le_iff_rank_le lt_iff_rank_lt)

/-! ## Due times -/

theorem isNaN_ackDelay (config : HarqConfig) (distance : Float) (stream : Random) :
    (ackDelay config distance stream).1.isNaN = false := by
  obtain ⟨time, htime⟩ := exists_larger config distance stream
  have hleast : leastAckDelay.isNaN = false := by
    rw [← Real64.unpack_ne_notANumber_iff, unpack_leastAckDelay]
    simp
  rw [htime]
  exact (rank_le_larger time hleast).1

/-- Where a block stands in the order of due times. -/
def dueRank (block : TransportBlock) : ℤ ×ₗ ℤ ×ₗ ℤ := rank block.dueAt.toModel.unpack

theorem dueAt_le_iff {block other : TransportBlock} (hblock : block.dueAt.isNaN = false)
    (hother : other.dueAt.isNaN = false) : block.dueAt ≤ other.dueAt ↔ dueRank block ≤ dueRank other := by
  rw [le_iff_rank_le]
  exact ⟨fun h ↦ h.2.2, fun h ↦ ⟨hblock, hother, h⟩⟩

theorem dueAt_lt_iff {block other : TransportBlock} (hblock : block.dueAt.isNaN = false)
    (hother : other.dueAt.isNaN = false) : block.dueAt < other.dueAt ↔ dueRank block < dueRank other := by
  rw [lt_iff_rank_lt]
  exact ⟨fun h ↦ h.2.2, fun h ↦ ⟨hblock, hother, h⟩⟩

/-! ## The order of scheduling -/

/-- Of blocks in the order in which they were scheduled, the first one of those that are due earliest, and
the others. -/
def firstDue? : List TransportBlock → Option (TransportBlock × List TransportBlock)
  | [] => none
  | block :: later =>
    match firstDue? later with
    | none => some (block, later)
    | some (other, rest) =>
      if other.dueAt < block.dueAt then some (other, block :: rest) else some (block, later)

/-- Of blocks in the order in which they were scheduled, the one that leaves at `now`, and what stays. -/
def leave (now : Float) (waiting : List TransportBlock) : Option TransportBlock × List TransportBlock :=
  match firstDue? waiting with
  | none => (none, waiting)
  | some (block, others) => if block.dueAt ≤ now then (some block, others) else (none, waiting)

/-- What leaves at `now`: nothing as long as no block is due, and otherwise a block that is due no later than
any other, and earlier than all that were scheduled before it. -/
inductive Departs (now : Float) (waiting : List TransportBlock) :
    Option TransportBlock → List TransportBlock → Prop where
  | early (h : ∀ block ∈ waiting, ¬block.dueAt ≤ now) : Departs now waiting none waiting
  | due {earlier later : List TransportBlock} {block : TransportBlock}
      (hwaiting : waiting = earlier ++ block :: later) (hdue : block.dueAt ≤ now)
      (hearlier : ∀ other ∈ earlier, block.dueAt < other.dueAt)
      (hlater : ∀ other ∈ later, block.dueAt ≤ other.dueAt) :
      Departs now waiting (some block) (earlier ++ later)

theorem mem_of_firstDue? {waiting others : List TransportBlock} {block : TransportBlock}
    (h : firstDue? waiting = some (block, others)) : block ∈ waiting := by
  induction waiting generalizing block others with
  | nil => cases h
  | cons first later ih =>
    rw [firstDue?] at h
    split at h
    · cases h
      exact List.mem_cons_self
    · rename_i other rest hrest
      split at h
      · cases h
        exact List.mem_cons_of_mem _ (ih hrest)
      · cases h
        exact List.mem_cons_self

theorem firstDue?_append_cons {earlier later : List TransportBlock} {block : TransportBlock}
    (hearlier : ∀ other ∈ earlier, block.dueAt < other.dueAt)
    (hlater : ∀ other ∈ later, ¬other.dueAt < block.dueAt) :
    firstDue? (earlier ++ block :: later) = some (block, earlier ++ later) := by
  induction earlier with
  | nil =>
    rw [List.nil_append, firstDue?]
    split
    · rfl
    · rename_i other rest hrest
      rw [if_neg (hlater other (mem_of_firstDue? hrest))]
      rfl
  | cons first earlier ih =>
    rw [List.forall_mem_cons] at hearlier
    rw [List.cons_append, firstDue?, ih hearlier.2]
    exact if_pos hearlier.1

/-! ## The queue -/

/-- The queue holds the waiting blocks by their due times, which are numbers, and those that are due at the
same time in the order in which they were scheduled. -/
structure Arranges (queue waiting : List TransportBlock) : Prop where
  number : ∀ block ∈ queue, block.dueAt.isNaN = false
  ordered : queue.Pairwise (dueRank · ≤ dueRank ·)
  perm : queue.Perm waiting
  stable : ∀ place, queue.filter (dueRank · = place) = waiting.filter (dueRank · = place)

theorem arranges_nil : Arranges [] [] where
  number := by simp
  ordered := List.Pairwise.nil
  perm := List.Perm.nil
  stable _ := rfl

/-- Blocks in order are parted at any place. -/
theorem exists_parted {queue : List TransportBlock} (h : queue.Pairwise (dueRank · ≤ dueRank ·))
    (place : ℤ ×ₗ ℤ ×ₗ ℤ) :
    ∃ front back, queue = front ++ back ∧ (∀ queued ∈ front, dueRank queued ≤ place) ∧
      ∀ queued ∈ back, place < dueRank queued := by
  induction queue with
  | nil => exact ⟨[], [], rfl, by simp, by simp⟩
  | cons first rest ih =>
    obtain ⟨hfirst, hrest⟩ := List.pairwise_cons.1 h
    obtain ⟨front, back, rfl, hfront, hback⟩ := ih hrest
    rcases le_or_gt (dueRank first) place with hle | hgt
    · exact ⟨first :: front, back, rfl, List.forall_mem_cons.2 ⟨hle, hfront⟩, hback⟩
    · refine ⟨[], first :: (front ++ back), rfl, by simp, List.forall_mem_cons.2 ⟨hgt, ?_⟩⟩
      exact fun queued hqueued ↦ hgt.trans_le (hfirst queued hqueued)

namespace Arranges

variable {waiting : List TransportBlock}

/-- A block that is scheduled goes behind those that are due no later. -/
theorem insert {queue : Ring TransportBlock} (h : Arranges queue.items waiting) {block : TransportBlock}
    (hblock : block.dueAt.isNaN = false) :
    Arranges (insertByDue block queue).items (waiting ++ [block]) := by
  obtain ⟨hnumber, hordered, hperm, hstable⟩ := h
  obtain ⟨front, back, hitems, hfront, hback⟩ := exists_parted hordered (dueRank block)
  rw [hitems] at hnumber hordered hperm hstable
  rw [List.forall_mem_append] at hnumber
  obtain ⟨hinfront, hinback, hbetween⟩ := List.pairwise_append.1 hordered
  have hinserted : (insertByDue block queue).items = front ++ block :: back := by
    refine items_insertByDue hitems (fun queued hqueued ↦ ?_) fun queued hqueued ↦ ?_
    · exact (dueAt_le_iff (hnumber.1 queued hqueued) hblock).2 (hfront queued hqueued)
    · rw [dueAt_le_iff (hnumber.2 queued hqueued) hblock]
      exact not_le.2 (hback queued hqueued)
  rw [hinserted]
  refine ⟨?_, ?_, ?_, fun place ↦ ?_⟩
  · rw [List.forall_mem_append, List.forall_mem_cons]
    exact ⟨hnumber.1, hblock, hnumber.2⟩
  · refine List.pairwise_append.2 ⟨hinfront, List.pairwise_cons.2 ⟨fun queued hqueued ↦ ?_, hinback⟩, ?_⟩
    · exact (hback queued hqueued).le
    · intro queued hqueued
      exact List.forall_mem_cons.2 ⟨hfront queued hqueued, hbetween queued hqueued⟩
  · exact List.perm_middle.trans ((hperm.cons block).trans (List.perm_append_singleton block waiting).symm)
  · have hbefore := hstable place
    rw [List.filter_append] at hbefore
    rw [List.filter_append, List.filter_append, ← hbefore, List.filter_cons, List.filter_cons, List.filter_nil]
    by_cases hplace : decide (dueRank block = place) = true
    · -- Nothing behind the block is due at the same time.
      have hnone : back.filter (dueRank · = place) = [] := by
        refine List.filter_eq_nil_iff.2 fun queued hqueued ↦ ?_
        rw [decide_eq_true_eq, ← of_decide_eq_true hplace]
        exact (hback queued hqueued).ne'
      rw [if_pos hplace, if_pos hplace, hnone, List.append_nil]
    · rw [if_neg hplace, if_neg hplace, List.append_nil]

/-- The block in front is due no later than any other, and earlier than all that were scheduled before it. -/
theorem exists_of_cons {block : TransportBlock} {rest : List TransportBlock}
    (h : Arranges (block :: rest) waiting) :
    ∃ earlier later, waiting = earlier ++ block :: later ∧
      (∀ other ∈ earlier, block.dueAt < other.dueAt) ∧ (∀ other ∈ later, block.dueAt ≤ other.dueAt) ∧
      Arranges rest (earlier ++ later) := by
  obtain ⟨hnumber, hordered, hperm, hstable⟩ := h
  obtain ⟨hblock, hrest⟩ := List.forall_mem_cons.1 hnumber
  obtain ⟨hleast, hordered⟩ := List.pairwise_cons.1 hordered
  have hsame := (hstable (dueRank block)).symm
  rw [List.filter_cons, if_pos (decide_eq_true rfl), List.filter_eq_cons_iff] at hsame
  obtain ⟨earlier, later, rfl, hearlier, -, hlater⟩ := hsame
  have hperm' : rest.Perm (earlier ++ later) := (hperm.trans List.perm_middle).cons_inv
  have hnumbers (other : TransportBlock) (hother : other ∈ earlier ++ later) :
      other.dueAt.isNaN = false := hrest other (hperm'.mem_iff.2 hother)
  have hranks (other : TransportBlock) (hother : other ∈ earlier ++ later) :
      dueRank block ≤ dueRank other := hleast other (hperm'.mem_iff.2 hother)
  refine ⟨earlier, later, rfl, fun other hother ↦ ?_, fun other hother ↦ ?_, hrest, hordered, hperm',
    fun place ↦ ?_⟩
  · have hmem := List.mem_append_left later hother
    have hne : dueRank other ≠ dueRank block := by simpa using hearlier other hother
    exact (dueAt_lt_iff hblock (hnumbers other hmem)).2 (lt_of_le_of_ne (hranks other hmem) hne.symm)
  · have hmem := List.mem_append_right earlier hother
    exact (dueAt_le_iff hblock (hnumbers other hmem)).2 (hranks other hmem)
  · have hplace := hstable place
    by_cases hhere : dueRank block = place
    · subst hhere
      rw [List.filter_append, hlater, List.filter_eq_nil_iff.2 hearlier, List.nil_append]
    · have hno : ¬decide (dueRank block = place) = true := by simpa using hhere
      rwa [List.filter_append, List.filter_cons, List.filter_cons, if_neg hno, if_neg hno,
        ← List.filter_append] at hplace

/-- What is taken from the queue is what has to leave. -/
theorem departs {harq : Harq} (h : Arranges harq.queue.items waiting) :
    harq.takeReady?.1 = (leave harq.now waiting).1 ∧
      Arranges harq.takeReady?.2.queue.items (leave harq.now waiting).2 ∧
      Departs harq.now waiting harq.takeReady?.1 (leave harq.now waiting).2 := by
  unfold takeReady?
  split
  · rename_i hempty
    rw [Ring.dequeue?_eq_none_iff] at hempty
    rw [hempty] at h
    obtain rfl : waiting = [] := h.perm.nil_eq.symm
    exact ⟨rfl, by rw [hempty]; exact h, .early fun block hblock ↦ nomatch hblock⟩
  · rename_i block queue hfirst
    have hitems := Ring.items_of_dequeue? hfirst
    rw [hitems] at h
    have hblock := h.number block List.mem_cons_self
    obtain ⟨earlier, later, rfl, hearlier, hlater, hrest⟩ := h.exists_of_cons
    have hleave : firstDue? (earlier ++ block :: later) = some (block, earlier ++ later) :=
      firstDue?_append_cons hearlier fun other hother ↦ Real64.not_lt_of_le (hlater other hother)
    rw [leave, hleave]
    simp only
    split
    · rename_i hdue
      exact ⟨rfl, hrest, .due rfl hdue hearlier hlater⟩
    · rename_i hlate
      refine ⟨rfl, by rw [hitems]; exact h, .early fun other hother hdue ↦ hlate ?_⟩
      -- No other block is due if the earliest is not.
      rcases List.mem_append.1 hother with hmem | hmem
      · exact Real64.le_trans (Real64.le_of_lt (hearlier other hmem)) hdue
      · rcases List.mem_cons.1 hmem with rfl | hmem
        · exact hdue
        · exact Real64.le_trans (hlater other hmem) hdue

end Arranges

theorem now_takeReady? (harq : Harq) : harq.takeReady?.2.now = harq.now := by
  unfold takeReady?
  split
  · rfl
  · split <;> rfl

/-! ## Runs -/

/-- A call to the repetition queue. -/
inductive Call where
  | step (now : Float)
  | draw (mcs : UInt8) (sinr : Float) (attempt : UInt32)
  | firstFailed (block : TransportBlock)
  | repetitionFailed (block : TransportBlock) (distance : Float)
  | takeReady

/-- Whether a call moves the clock to a finite time, if it moves it. -/
def Call.isTimely : Call → Bool
  | step now => now.isFinite
  | _ => true

/-- A block as it waits for its repetition over `distance` metres. -/
def asScheduled (harq : Harq) (block : TransportBlock) (distance : Float) : TransportBlock :=
  { block with distance, dueAt := harq.now + (ackDelay harq.config distance harq.stream).1 }

/-- What joins the waiting blocks when a block has failed. -/
def joining (harq : Harq) (block : TransportBlock) (distance : Float) : Repetition → List TransportBlock
  | .scheduled => [harq.asScheduled block distance]
  | .exhausted _ => []

/-- Makes a call to the queue and to the blocks that wait, in the order in which they were scheduled. -/
def advance (state : List TransportBlock × Harq) : Call → Except Fault (List TransportBlock × Harq)
  | .step now => .ok (state.1, state.2.step now)
  | .draw mcs sinr attempt => do
    let (_, next) ← state.2.attemptFails mcs sinr attempt
    return (state.1, next)
  | .firstFailed block => do
    let (repetition, next) ← state.2.firstFailed block
    return (state.1 ++ state.2.joining block block.distance repetition, next)
  | .repetitionFailed block distance => do
    let (repetition, next) ← state.2.repetitionFailed block distance
    let counted := { block with retransmissions := block.retransmissions + 1 }
    return (state.1 ++ state.2.joining counted distance repetition, next)
  | .takeReady => .ok ((leave state.2.now state.1).2, state.2.takeReady?.2)

/-- Makes calls one after the other.  Gives what waits then, in the order in which it was scheduled. -/
def run (harq : Harq) (calls : List Call) : Except Fault (List TransportBlock × Harq) :=
  calls.foldlM advance (harq.queue.items, harq)

/-- The clock shows a finite time, and the queue is in order. -/
structure InOrder (waiting : List TransportBlock) (harq : Harq) : Prop where
  finite : harq.now.isFinite = true
  arranges : Arranges harq.queue.items waiting

theorem InOrder.schedule {waiting : List TransportBlock} {harq next : Harq} (h : InOrder waiting harq)
    {block : TransportBlock} {distance : Float} (hschedule : harq.schedule block distance = .ok next) :
    InOrder (waiting ++ [harq.asScheduled block distance]) next := by
  obtain ⟨retransmittedBits, -, rfl⟩ := eq_of_schedule hschedule
  refine ⟨h.finite, h.arranges.insert ?_⟩
  exact Real64.isNaN_add_of_isFinite h.finite (isNaN_ackDelay _ _ _)

theorem InOrder.decided {waiting : List TransportBlock} {harq next : Harq} (h : InOrder waiting harq)
    {block : TransportBlock} {distance : Float} {enough : Prop} {repetition : Repetition}
    (hdecided : Decided harq block distance enough repetition next) :
    InOrder (waiting ++ harq.joining block distance repetition) next := by
  cases hdecided with
  | givenUp => rwa [joining, List.append_nil]
  | waits _ hschedule => exact h.schedule hschedule

/-- Every call keeps the queue in order. -/
theorem InOrder.advance {waiting : List TransportBlock} {harq : Harq} {call : Call}
    {next : List TransportBlock × Harq} (h : InOrder waiting harq) (hcall : call.isTimely = true)
    (hadvance : Harq.advance (waiting, harq) call = .ok next) : InOrder next.1 next.2 := by
  cases call with
  | step now =>
    cases hadvance
    exact ⟨hcall, h.arranges⟩
  | draw mcs sinr attempt =>
    simp only [Harq.advance, bind_eq_ok_iff, pure_eq_ok_iff] at hadvance
    obtain ⟨⟨failed, drawn⟩, hdraw, rfl⟩ := hadvance
    obtain ⟨stream, rfl⟩ := exists_stream_of_attemptFails hdraw
    exact ⟨h.finite, h.arranges⟩
  | firstFailed block =>
    simp only [Harq.advance, bind_eq_ok_iff, pure_eq_ok_iff] at hadvance
    obtain ⟨⟨repetition, after⟩, hfailed, rfl⟩ := hadvance
    exact h.decided (decided_of_firstFailed hfailed)
  | repetitionFailed block distance =>
    simp only [Harq.advance, bind_eq_ok_iff, pure_eq_ok_iff] at hadvance
    obtain ⟨⟨repetition, after⟩, hfailed, rfl⟩ := hadvance
    obtain ⟨repeated, hrepeated, hdecided⟩ := decided_of_repetitionFailed hfailed
    simp only [TransportBlock.repeated, bind_eq_ok_iff, pure_eq_ok_iff] at hrepeated
    obtain ⟨count, hcount, rfl⟩ := hrepeated
    rw [Word.eq_add_of_add32_eq_ok hcount] at hdecided
    exact h.decided hdecided
  | takeReady =>
    cases hadvance
    refine ⟨?_, h.arranges.departs.2.1⟩
    show harq.takeReady?.2.now.isFinite = true
    rw [now_takeReady?]
    exact h.finite

theorem inOrder_of_run {config : HarqConfig} {profile : LinkProfile} {model : ErrorModel} {stream : Random}
    {calls : List Call} {waiting : List TransportBlock} {after : Harq}
    (hcalls : ∀ call ∈ calls, call.isTimely = true)
    (h : (idle config profile model stream).run calls = .ok (waiting, after)) : InOrder waiting after := by
  have hzero : (0.0 : Float).isFinite = true := by decide +kernel
  have hstart : InOrder [] (idle config profile model stream) := ⟨hzero, arranges_nil⟩
  have hall : (∀ call ∈ calls, call.isTimely = true) → InOrder waiting after := by
    refine foldlM_eq_ok_induction (fun done state ↦ (∀ call ∈ done, call.isTimely = true) →
      InOrder state.1 state.2) ?_ h fun _ ↦ hstart
    intro done state call next ih hadvance hdone
    rw [List.forall_mem_append] at hdone
    exact (ih hdone.1).advance (hdone.2 call (List.mem_singleton_self call)) hadvance
  exact hall hcalls

/-- Whatever is scheduled and taken at finite times, the due times of the waiting blocks are numbers, and the
queue holds each of them once, the earliest due in front.  A block is taken exactly if one is due.  Then it is
due no later than any other, and earlier than those that were scheduled before it; the others stay as they
are. -/
theorem earliest_due_first {config : HarqConfig} {profile : LinkProfile} {model : ErrorModel}
    {stream : Random} {calls : List Call} {waiting : List TransportBlock} {after : Harq}
    (hcalls : ∀ call ∈ calls, call.isTimely = true)
    (h : (idle config profile model stream).run calls = .ok (waiting, after)) :
    (∀ block ∈ after.queue.items, block.dueAt.isNaN = false) ∧
      after.queue.items.Pairwise (·.dueAt ≤ ·.dueAt) ∧ after.queue.items.Perm waiting ∧
      ((∃ block, after.takeReady?.1 = some block) ↔ ∃ block ∈ after.queue.items, block.dueAt ≤ after.now) ∧
      Departs after.now waiting after.takeReady?.1 (leave after.now waiting).2 ∧
      after.queue.items = after.takeReady?.1.toList ++ after.takeReady?.2.queue.items := by
  have harranges := (inOrder_of_run hcalls h).arranges
  obtain ⟨-, -, hdeparts⟩ := harranges.departs
  obtain ⟨hnumber, hordered, hperm, -⟩ := harranges
  refine ⟨hnumber, ?_, hperm, ?_, hdeparts, items_of_takeReady? rfl⟩
  · refine hordered.imp_of_mem fun {block other} hblock hother hle ↦ ?_
    exact (dueAt_le_iff (hnumber block hblock) (hnumber other hother)).2 hle
  · generalize after.takeReady?.1 = taken at hdeparts ⊢
    generalize (leave after.now waiting).2 = staying at hdeparts
    cases hdeparts with
    | early hnone =>
      simp only [reduceCtorEq, exists_false, false_iff, not_exists, not_and]
      exact fun block hblock ↦ hnone block (hperm.mem_iff.1 hblock)
    | @due earlier later block hwaiting hdue =>
      refine ⟨fun _ ↦ ⟨block, hperm.mem_iff.2 ?_, hdue⟩, fun _ ↦ ⟨block, rfl⟩⟩
      rw [hwaiting]
      exact List.mem_append_right _ List.mem_cons_self

/-- The clock goes back; one distance is infinite, one is not a number, and two blocks are due at the same
time. -/
theorem earliest_due_first_of_five :
    ∃ state,
      (idle .standard .standard (.flat 1.0) (.ofSeed 1)).run
        [.step 1.0, .firstFailed (.empty 0 0.0 10 (1.0 / 0.0) .none),
          .firstFailed (.empty 1 0.0 10 100.0 .none), .firstFailed (.empty 2 0.0 10 (0.0 / 0.0) .none),
          .firstFailed (.empty 3 0.0 10 100.0 .none), .step 0.5,
          .repetitionFailed (.empty 4 0.0 10 100.0 .none) 3000.0, .takeReady, .step 2.0, .takeReady,
          .takeReady] = .ok state ∧
      state.1.map (·.number) = [0, 1, 3] ∧ state.2.queue.items.map (·.number) = [1, 3, 0] ∧
      Departs state.2.now state.1 state.2.takeReady?.1 (leave state.2.now state.1).2 := by
  refine exists_ok_of_any (fun state ↦ state.1.map (·.number) == [0, 1, 3] &&
    state.2.queue.items.map (·.number) == [1, 3, 0]) (by decide +kernel) fun state h hnumbers ↦ ?_
  rw [Bool.and_eq_true, beq_iff_eq, beq_iff_eq] at hnumbers
  obtain ⟨-, -, -, -, hdeparts, -⟩ := earliest_due_first (by decide +kernel) h
  exact ⟨hnumbers.1, hnumbers.2, hdeparts⟩

end RadioAccess.Harq
