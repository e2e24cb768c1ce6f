import RadioAccess.Proofs.Rounds.Barrier

/-!
# What a Call Can Come To

A call hands in jobs and returns when its round is over.  `Calls` collects what can come of it: with
workers, whatever order they work in and whatever rounds there were before; without them, what the
caller does itself.  With workers all jobs are run.  Without them a job is run only if no job before it
had a fault.  In both cases the caller sees a fault if and only if there was one.

Each job has an end of its own, a fault or none, that does not depend on the others.
-/

namespace RadioAccess

/-- Does the job at a place, which ends as given, and notes that it was done. -/
def noting (ends : Nat → Option Fault) (place : Nat) (ran : List Nat) : Option Fault × List Nat :=
  (ends place, ran ++ [place])

namespace RoundResult

theorem exhaustive_noting (ends : Nat → Option Fault) (places ran : List Nat) :
    exhaustive (noting ends) places ran =
      { state := ran ++ places, faults := places.filterMap ends } := by
  induction places generalizing ran with
  | nil => simp [exhaustive]
  | cons place places ih =>
    simp only [exhaustive, noting, ih, List.filterMap_cons]
    cases ends place <;> simp

/-- Without workers a job is run if no job before it had a fault. -/
theorem untilFault_noting (ends : Nat → Option Fault) (first count : Nat) (ran : List Nat) :
    ∃ done ≤ count, untilFault (noting ends) (List.range' first count) ran =
        { state := ran ++ List.range' first done
          faults := ((List.range' first count).findSome? ends).toList } ∧
      ∀ place < count, place < done ↔ ∀ earlier < place, ends (first + earlier) = none := by
  induction count generalizing first ran with
  | zero => exact ⟨0, le_rfl, by simp [untilFault], fun _ hplace ↦ absurd hplace (Nat.not_lt_zero _)⟩
  | succ count ih =>
    rw [List.range'_succ, untilFault, noting]
    cases hend : ends first with
    | some fault =>
      refine ⟨1, Nat.succ_le_succ (Nat.zero_le _), by simp [hend], fun place _ ↦ ?_⟩
      constructor
      · intro hplace earlier hearlier
        omega
      · intro hnone
        by_contra hplace
        have hfirst := hnone 0 (by omega)
        rw [Nat.add_zero, hend] at hfirst
        cases hfirst
    | none =>
      obtain ⟨done, hdone, hresult, hrun⟩ := ih (first + 1) (ran ++ [first])
      refine ⟨done + 1, Nat.succ_le_succ hdone, ?_, fun place hplace ↦ ?_⟩
      · simp only [hresult]
        simp [List.range'_succ, hend]
      · cases place with
        | zero => simp
        | succ place =>
          rw [Nat.succ_lt_succ_iff, hrun place (Nat.lt_of_succ_lt_succ hplace)]
          constructor
          · intro hnone earlier hearlier
            cases earlier with
            | zero => exact hend
            | succ earlier =>
              have hother := hnone earlier (Nat.lt_of_succ_lt_succ hearlier)
              rwa [Nat.add_right_comm] at hother
          · intro hnone earlier hearlier
            have hother := hnone (earlier + 1) (Nat.succ_lt_succ hearlier)
            rwa [← Nat.add_assoc, Nat.add_right_comm] at hother

theorem untilFault_range (ends : Nat → Option Fault) (count : Nat) :
    ∃ done ≤ count, untilFault (noting ends) (List.range count) [] =
        { state := List.range done, faults := ((List.range count).findSome? ends).toList } ∧
      ∀ place < count, place < done ↔ ∀ earlier < place, ends earlier = none := by
  simpa [List.range_eq_range'] using untilFault_noting ends 0 count []

end RoundResult

namespace Pool

variable {ι : Type}

/-- What can come of a call with so many workers, for jobs that end as given: the places of the jobs
that are run, in the order of their ends, and the fault that the caller sees. -/
inductive Calls (workers : Nat) (jobs : List ι) (ends : Nat → Option Fault) :
    List Nat → Option Fault → Prop where
  /-- The caller does the jobs itself. -/
  | alone (hworkers : workers = 0) :
      Calls workers jobs ends
        (RoundResult.ofRound workers (noting ends) (List.range jobs.length) []).state
        (RoundResult.ofRound workers (noting ends) (List.range jobs.length) []).fault?
  /-- A round without jobs is over at once. -/
  | nothing (hworkers : 0 < workers) (hjobs : jobs = []) : Calls workers jobs ends [] none
  /-- The workers have done the jobs of the round that was opened last, perhaps after other rounds, and
  the caller is woken. -/
  | together (hworkers : 0 < workers) {events : List (PoolEvent ι)} {pool : Pool ι} {journal : Journal ι}
      {fault : Option Fault} (hrun : chronicle? workers events = some (pool, journal))
      (hjobs : journal.rounds.getLast? = some jobs) (hreturned : pool.returned? = some fault)
      (hends : ∀ entry ∈ journal.endedIn journal.returned.length, entry.2 = ends entry.1.place) :
      Calls workers jobs ends ((journal.endedIn journal.returned.length).map (·.1.place)) fault

variable {workers : Nat} {jobs : List ι} {ends : Nat → Option Fault} {ran : List Nat}
  {fault : Option Fault}

/-! ## What is run, and what the caller sees -/

/-- When the caller is woken at the end of a round, all jobs of that round have ended, and the caller
gets the fault that was reported first. -/
theorem round_of_returned? {events : List (PoolEvent ι)} {pool : Pool ι} {journal : Journal ι}
    (hrun : chronicle? workers events = some (pool, journal)) (hreturned : pool.returned? = some fault) :
    journal.rounds.getLast? = some pool.jobs ∧
      ((journal.endedIn journal.returned.length).map (·.1.place)).Perm
        (List.range pool.jobs.length) ∧
      fault = journal.firstFault journal.returned.length := by
  obtain ⟨past, h⟩ := kept_of_chronicle? hrun
  obtain ⟨hwaiting, hremaining, rfl⟩ := returned?_eq_some_iff.1 hreturned
  rw [h.returned]
  exact ⟨by simp [h.rounds, hwaiting], h.endedIn_perm hremaining, h.fault⟩

/-- A job is run once or not at all.  With workers it is run; without them it is if no job before it
had a fault. -/
theorem Calls.mem_ran_iff (h : Calls workers jobs ends ran fault) :
    ran.Nodup ∧ ∀ place, place ∈ ran ↔
      place < jobs.length ∧ (0 < workers ∨ ∀ earlier < place, ends earlier = none) := by
  cases h with
  | alone hworkers =>
    obtain ⟨done, hdone, hresult, hrun⟩ := RoundResult.untilFault_range ends jobs.length
    rw [RoundResult.ofRound, if_pos hworkers, hresult]
    refine ⟨List.nodup_range, fun place ↦ ?_⟩
    rw [List.mem_range, hworkers]
    constructor
    · intro hplace
      exact ⟨by omega, .inr ((hrun place (by omega)).1 hplace)⟩
    · rintro ⟨hplace, hpositive | hnone⟩
      · cases hpositive
      · exact (hrun place hplace).2 hnone
  | nothing hworkers hjobs => simp [hjobs]
  | together hworkers hrun hjobs hreturned hends =>
    obtain ⟨hlast, hperm, -⟩ := round_of_returned? hrun hreturned
    cases hjobs.symm.trans hlast
    refine ⟨hperm.nodup_iff.2 List.nodup_range, fun place ↦ ?_⟩
    rw [hperm.mem_iff, List.mem_range, and_iff_left (.inl hworkers)]

/-- The caller sees a fault if a job had one. -/
theorem Calls.isSome_fault_iff (h : Calls workers jobs ends ran fault) :
    fault.isSome ↔ ∃ place < jobs.length, (ends place).isSome := by
  cases h with
  | alone hworkers =>
    obtain ⟨done, hdone, hresult, -⟩ := RoundResult.untilFault_range ends jobs.length
    simp [RoundResult.ofRound, hworkers, hresult, RoundResult.fault?]
  | nothing hworkers hjobs => simp [hjobs]
  | together hworkers hrun hjobs hreturned hends =>
    obtain ⟨hlast, hperm, rfl⟩ := round_of_returned? hrun hreturned
    cases hjobs.symm.trans hlast
    simp only [Journal.firstFault, List.findSome?_isSome_iff]
    constructor
    · rintro ⟨entry, hentry, hfault⟩
      refine ⟨entry.1.place, ?_, by rwa [← hends entry hentry]⟩
      exact List.mem_range.1 (hperm.subset (List.mem_map_of_mem hentry))
    · rintro ⟨place, hplace, hfault⟩
      obtain ⟨entry, hentry, rfl⟩ := List.mem_map.1 (hperm.symm.subset (List.mem_range.2 hplace))
      exact ⟨entry, hentry, by rwa [hends entry hentry]⟩

/-! ## A call comes to its end -/

theorem chronicle?_concat {events : List (PoolEvent ι)} {pool after : Pool ι} {journal : Journal ι}
    (hrun : chronicle? workers events = some (pool, journal)) (event : PoolEvent ι)
    (hstep : pool.step? event = some after) :
    chronicle? workers (events ++ [event]) = some (after, journal.note pool event) := by
  rw [chronicle?] at hrun ⊢
  simp [List.foldlM_append, hrun, observe, hstep]

/-- One worker alone may do the jobs in their order. -/
theorem chronicle?_inTurn (hworkers : 0 < workers) (job : ι) (jobs : List ι)
    (ends : Nat → Option Fault) {count : Nat} (hcount : count ≤ jobs.length + 1) :
    chronicle? workers (.opened (job :: jobs) ::
        (List.range count).flatMap fun place ↦ [.picked 0, .finished 0 (ends place)]) =
      some
        ({ jobs := job :: jobs, next := count, remaining := jobs.length + 1 - count
           fault := (List.range count).findSome? ends, workers := List.replicate workers none
           waiting := true },
         { rounds := [job :: jobs], returned := [], picked := (slotsOf 0 (job :: jobs)).take count
           doing := List.replicate workers none
           ended := (List.range count).map fun place ↦ ({ round := 0, place }, ends place) }) := by
  induction count with
  | zero => rfl
  | succ count ih =>
    have hidle : (List.replicate workers (none : Option Nat))[0]? = some none := by
      rw [List.getElem?_replicate, if_pos hworkers]
    have hbusy : ((List.replicate workers none).set 0 (some count))[0]? = some (some count) := by
      rw [List.getElem?_set_self (by rwa [List.length_replicate])]
    have hplace : count < (job :: jobs).length := hcount
    have hpicked := chronicle?_concat (ih (Nat.le_of_succ_le hcount)) (.picked 0)
      (by simp only [step?, pick?, hidle, if_pos hplace]; rfl)
    have hended := chronicle?_concat hpicked (.finished 0 (ends count))
      (by simp only [step?, finish?, hbusy]; rfl)
    have hslot : ((List.replicate workers none).set 0
        (some ({ round := 0, place := count } : Slot)))[0]? =
          some (some { round := 0, place := count }) := by
      rw [List.getElem?_set_self (by rwa [List.length_replicate])]
    have hevents (events : List (PoolEvent ι)) :
        events ++ (List.range (count + 1)).flatMap
            (fun place ↦ [.picked 0, .finished 0 (ends place)]) =
          events ++ (List.range count).flatMap
            (fun place ↦ [.picked 0, .finished 0 (ends place)]) ++ [.picked 0] ++
            [.finished 0 (ends count)] := by
      simp [List.range_succ]
    have hfault : [count].findSome? ends = ends count := by
      rw [List.findSome?_cons, List.findSome?_nil]
      cases ends count <;> rfl
    rw [← List.singleton_append, hevents, List.singleton_append, hended]
    simp only [Journal.note, List.length_singleton, Nat.sub_self, hslot, List.set_set,
      List.set_replicate_self, Nat.sub_sub, List.range_succ, List.map_append, List.findSome?_append,
      List.take_add_one, getElem?_slotsOf, List.map_singleton, Option.toList_map, hfault]

/-- What comes of the jobs in the order of the list is one of the things that can come of a call. -/
theorem calls_ofRound (workers : Nat) (jobs : List ι) (ends : Nat → Option Fault) :
    Calls workers jobs ends
      (RoundResult.ofRound workers (noting ends) (List.range jobs.length) []).state
      (RoundResult.ofRound workers (noting ends) (List.range jobs.length) []).fault? := by
  rcases Nat.eq_zero_or_pos workers with hnobody | hworkers
  · exact .alone hnobody
  rw [RoundResult.ofRound, if_neg hworkers.ne', RoundResult.exhaustive_noting]
  cases jobs with
  | nil => exact .nothing hworkers rfl
  | cons job jobs =>
    have hrun := chronicle?_inTurn hworkers job jobs ends le_rfl
    have hcall : Calls workers (job :: jobs) ends _ _ :=
      .together hworkers hrun rfl (returned?_eq_some_iff.2 ⟨rfl, Nat.sub_self _, rfl⟩)
        (by simp [Journal.endedIn])
    have hran : (((List.range (jobs.length + 1)).map fun place ↦
        (({ round := 0, place } : Slot), ends place)).filter (·.1.round = 0)).map (·.1.place) =
          List.range (jobs.length + 1) := by
      rw [List.filter_eq_self.2 (by simp), List.map_map]
      exact List.map_id _
    simp only [Journal.endedIn, List.length_nil, hran] at hcall
    rw [RoundResult.fault?, List.head?_filterMap]
    exact hcall

theorem length_workers_of_chronicle? {events : List (PoolEvent ι)} {pool : Pool ι} {journal : Journal ι}
    (hrun : chronicle? workers events = some (pool, journal)) : pool.workers.length = workers := by
  refine chronicle?_induction (P := fun pool _ ↦ pool.workers.length = workers)
    List.length_replicate (fun pool journal event after hlength hstep ↦ ?_) hrun
  cases hstep <;> simpa using hlength

/-- What is left to do in a round: two events for each job that was not picked, one for each that is
being done. -/
def left (pool : Pool ι) (journal : Journal ι) : Nat :=
  2 * (pool.jobs.length - pool.next) + journal.doing.reduceOption.length

/-- An event after which less is left to do in the open round, whose jobs go on to end as given. -/
structure Nearer (ends : Nat → Option Fault) (pool : Pool ι) (journal : Journal ι)
    (event : PoolEvent ι) (after : Pool ι) : Prop where
  step : pool.step? event = some after
  waiting : after.waiting = pool.waiting
  left_lt : left after (journal.note pool event) < left pool journal
  rounds : (journal.note pool event).rounds = journal.rounds
  returned : (journal.note pool event).returned = journal.returned
  ends : ∀ entry ∈ (journal.note pool event).endedIn journal.returned.length,
    entry ∈ journal.endedIn journal.returned.length ∨ entry.2 = ends entry.1.place

/-- An idle worker can pick a job while there is one. -/
theorem nearer_of_picked {past : List (List ι)} {pool : Pool ι} {journal : Journal ι}
    (h : Kept past pool journal) (ends : Nat → Option Fault) {worker : Nat}
    (hworker : pool.workers[worker]? = some none) (hnext : pool.next < pool.jobs.length) :
    ∃ after, Nearer ends pool journal (.picked worker) after := by
  obtain ⟨slot, hslot, hnone⟩ := h.doing_of_worker hworker
  obtain rfl : slot = none := Option.map_eq_none_iff.1 hnone
  obtain ⟨others, hbefore, hafter⟩ := Kept.exists_others hslot
  have hstep : pool.step? (.picked worker) = some { pool with
      next := pool.next + 1, workers := pool.workers.set worker (some pool.next) } := by
    simp only [step?, pick?, hworker, if_pos hnext]
  refine ⟨_, hstep, rfl, ?_, rfl, rfl, fun entry hentry ↦ .inl hentry⟩
  have hlength := (hafter (some { round := journal.rounds.length - 1, place := pool.next })).length_eq
  have hothers := hbefore.length_eq
  simp only [Option.toList_none, Option.toList_some, List.nil_append, List.singleton_append,
    List.length_cons] at hlength hothers
  simp only [left, Journal.note, hlength, hothers]
  omega

/-- A busy worker can end its job. -/
theorem nearer_of_finished {past : List (List ι)} {pool : Pool ι} {journal : Journal ι}
    (h : Kept past pool journal) (ends : Nat → Option Fault) {worker place : Nat}
    (hworker : pool.workers[worker]? = some (some place)) :
    ∃ after, Nearer ends pool journal (.finished worker (ends place)) after := by
  obtain ⟨held, hslot, hheld⟩ := h.doing_of_worker hworker
  obtain ⟨slot, rfl, rfl⟩ := Option.map_eq_some_iff.1 hheld
  obtain ⟨others, hbefore, hafter⟩ := Kept.exists_others hslot
  have hnote : journal.note pool (.finished worker (ends slot.place)) =
      { journal with
        ended := journal.ended ++ [(slot, ends slot.place)]
        doing := journal.doing.set worker none } := by
    rw [Journal.note, hslot]
  have hstep : pool.step? (.finished worker (ends slot.place)) = some { pool with
      remaining := pool.remaining - 1, fault := pool.fault.or (ends slot.place)
      workers := pool.workers.set worker none } := by
    simp only [step?, finish?, hworker]
  refine ⟨_, hstep, rfl, ?_, by rw [hnote], by rw [hnote], ?_⟩
  · have hlength := (hafter none).length_eq
    have hothers := hbefore.length_eq
    simp only [Option.toList_none, Option.toList_some, List.nil_append, List.singleton_append,
      List.length_cons] at hlength hothers
    simp only [left, hnote, hlength, hothers]
    omega
  · intro entry hentry
    rw [hnote, Journal.endedIn, List.filter_append, List.mem_append] at hentry
    rcases hentry with hearlier | hlast
    · exact .inl hearlier
    · obtain rfl := List.mem_singleton.1 (List.mem_filter.1 hlast).1
      exact .inr rfl

/-- While a job of the open round is left, a worker is doing one or can pick one. -/
theorem exists_nearer (hworkers : 0 < workers) (ends : Nat → Option Fault)
    {events : List (PoolEvent ι)} {pool : Pool ι} {journal : Journal ι}
    (hrun : chronicle? workers events = some (pool, journal)) (hremaining : 0 < pool.remaining) :
    ∃ event after, Nearer ends pool journal event after := by
  obtain ⟨past, h⟩ := kept_of_chronicle? hrun
  have hcount := h.count
  have hbalance := h.balance
  have hlength : 0 < pool.workers.length := by rwa [length_workers_of_chronicle? hrun]
  have hworker : pool.workers[0]? = some pool.workers[0] := List.getElem?_eq_getElem hlength
  cases hdoing : journal.doing.reduceOption with
  | nil =>
    rw [hdoing, List.length_nil] at hbalance
    have hidle : pool.workers[0] = none := by
      obtain ⟨slot, hslot, hplace⟩ := h.doing_of_worker hworker
      cases slot with
      | none => exact hplace.symm
      | some slot =>
        have hbusy := List.reduceOption_mem_iff.2 (List.mem_of_getElem? hslot)
        rw [hdoing] at hbusy
        cases hbusy
    obtain ⟨after, hafter⟩ :=
      nearer_of_picked h ends (hworker.trans (congrArg some hidle)) (by omega)
    exact ⟨_, after, hafter⟩
  | cons slot others =>
    have hslot : some slot ∈ journal.doing := by
      rw [← List.reduceOption_mem_iff, hdoing]
      exact List.mem_cons_self
    obtain ⟨worker, hworker⟩ := List.mem_iff_getElem?.1 hslot
    have hbusy : pool.workers[worker]? = some (some slot.place) := by
      rw [← h.workers, List.getElem?_map, hworker]
      rfl
    obtain ⟨after, hafter⟩ := nearer_of_finished h ends hbusy
    exact ⟨_, after, hafter⟩

/-- A round that is open can come to its end, however far it has come. -/
theorem exists_return (hworkers : 0 < workers) (ends : Nat → Option Fault)
    {events : List (PoolEvent ι)} {pool : Pool ι} {journal : Journal ι}
    (hrun : chronicle? workers events = some (pool, journal)) (hwaiting : pool.waiting = true)
    (hends : ∀ entry ∈ journal.endedIn journal.returned.length, entry.2 = ends entry.1.place) :
    ∃ further after later fault, chronicle? workers (events ++ further) = some (after, later) ∧
      later.rounds = journal.rounds ∧ after.returned? = some fault ∧
      ∀ entry ∈ later.endedIn later.returned.length, entry.2 = ends entry.1.place := by
  generalize hleft : left pool journal = n
  induction n using Nat.strongRecOn generalizing events pool journal with
  | ind n ih =>
  by_cases hremaining : pool.remaining = 0
  · exact ⟨[], pool, journal, pool.fault, by simpa using hrun, rfl,
      returned?_eq_some_iff.2 ⟨hwaiting, hremaining, rfl⟩, hends⟩
  obtain ⟨event, next, hnext⟩ := exists_nearer hworkers ends hrun (Nat.pos_of_ne_zero hremaining)
  obtain ⟨further, after, later, fault, hlater, hrounds, hreturned, hagree⟩ :=
    ih _ (hleft ▸ hnext.left_lt) (chronicle?_concat hrun _ hnext.step) (hnext.waiting.trans hwaiting)
      (fun entry hentry ↦ by
        rw [hnext.returned] at hentry
        exact (hnext.ends entry hentry).elim (hends entry) id) rfl
  refine ⟨event :: further, after, later, fault, ?_, hrounds.trans hnext.rounds, hreturned, hagree⟩
  rwa [List.append_assoc] at hlater

/-! ## The contract -/

/-- In any call, with workers or without, each job is run at most once, and the caller sees a fault if
and only if a job had one.  With workers all jobs are run; without them those are before which no job had
a fault.  So every job is run if and only if there are workers or no job but the last has a fault.  A
call can come to its end: doing the jobs in their order is one way, and with workers a round that is
open can be finished however far it has come and whatever rounds there were before. -/
theorem all_jobs_run_iff (workers : Nat) (jobs : List ι) (ends : Nat → Option Fault) :
    ((∀ ran fault, Calls workers jobs ends ran fault →
        ran.Perm (List.range jobs.length) ∧
          (fault.isSome ↔ ∃ place < jobs.length, (ends place).isSome)) ↔
      0 < workers ∨ ∀ place, place + 1 < jobs.length → ends place = none) ∧
    (∀ ran fault, Calls workers jobs ends ran fault →
      ran.Nodup ∧ (fault.isSome ↔ ∃ place < jobs.length, (ends place).isSome) ∧
        ∀ place, place ∈ ran ↔
          place < jobs.length ∧ (0 < workers ∨ ∀ earlier < place, ends earlier = none)) ∧
    (∃ ran fault, Calls workers jobs ends ran fault) ∧
    (0 < workers → ∀ (events : List (PoolEvent ι)) pool journal,
      chronicle? workers events = some (pool, journal) →
      journal.rounds.length = journal.returned.length + 1 →
      (∀ entry ∈ journal.endedIn journal.returned.length, entry.2 = ends entry.1.place) →
      ∃ further after later fault, chronicle? workers (events ++ further) = some (after, later) ∧
        later.rounds = journal.rounds ∧ after.returned? = some fault ∧
        ∀ entry ∈ later.endedIn later.returned.length, entry.2 = ends entry.1.place) := by
  have hran := calls_ofRound workers jobs ends
  refine ⟨⟨fun hcontract ↦ ?_, fun hall ran fault hcall ↦ ?_⟩, fun ran fault hcall ↦ ?_,
    ⟨_, _, hran⟩, fun hworkers events pool journal hrun hopen hends ↦ ?_⟩
  · rw [or_iff_not_imp_left]
    intro hnobody place hplace
    have hlast : place + 1 ∈ _ := (hcontract _ _ hran).1.symm.subset (List.mem_range.2 hplace)
    have hnone := ((hran.mem_ran_iff.2 _).1 hlast).2.resolve_left hnobody
    exact hnone place (Nat.lt_succ_self place)
  · refine ⟨?_, hcall.isSome_fault_iff⟩
    refine (List.perm_ext_iff_of_nodup hcall.mem_ran_iff.1 List.nodup_range).2 fun place ↦ ?_
    rw [hcall.mem_ran_iff.2, List.mem_range, and_iff_left_iff_imp]
    intro hplace
    exact hall.imp_right fun hnone earlier hearlier ↦ hnone earlier (by omega)
  · exact ⟨hcall.mem_ran_iff.1, hcall.isSome_fault_iff, hcall.mem_ran_iff.2⟩
  · exact exists_return hworkers ends hrun (waiting_of_open hrun hopen) hends

/-- Without workers the second of two jobs is not run when the first one has a fault. -/
theorem second_job_not_run_alone :
    ¬∀ (workers : Nat) (jobs : List Nat) (ends : Nat → Option Fault) (ran : List Nat)
      (fault : Option Fault), Calls workers jobs ends ran fault →
        ran.Perm (List.range jobs.length) := by
  intro hall
  have hran := hall 0 [1000, 1] (fun place ↦ if place = 0 then some (.job 1000) else none) [0]
    (some (.job 1000)) (.alone rfl)
  exact absurd hran.length_eq (by decide)

end Pool

end RadioAccess
