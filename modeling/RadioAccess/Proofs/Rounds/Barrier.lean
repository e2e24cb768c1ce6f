import Mathlib.Data.List.Infix
import Mathlib.Data.List.Nodup
import Mathlib.Data.List.Perm.Basic
import Mathlib.Data.List.ReduceOption
import RadioAccess.Rounds.Pool

/-!
# Every Job Once, Behind a Barrier

What holds of a pool whatever its workers do first: a round is over when each of its jobs was picked
once and has ended once, and not before.  An onlooker's journal tells the rounds apart, which the pool
itself does not: a worker that is late with a job of one round would take part in the count of the next.
`Step` says all that one access can do, and `Kept` what no access breaks.

That a round comes to its end is not covered here.
-/

namespace RadioAccess.Pool

variable {ι : Type}

/-! ## What an onlooker notes -/

/-- The place of a job: its round, counted from zero, and where it stands in the list of that round. -/
structure Slot where
  round : Nat
  place : Nat
deriving DecidableEq

/-- What an onlooker notes of a pool. -/
structure Journal (ι : Type) where
  /-- The jobs of every round that the caller has asked for. -/
  rounds : List (List ι)
  /-- What the caller got back from the rounds that are over. -/
  returned : List (Option Fault)
  /-- The jobs that were picked, each as its worker read it. -/
  picked : List (Slot × ι)
  /-- What each worker does. -/
  doing : List (Option Slot)
  /-- The jobs that have ended, and how. -/
  ended : List (Slot × Option Fault)

namespace Journal

/-- Nothing but so many idle workers. -/
def blank (workers : Nat) : Journal ι :=
  { rounds := [], returned := [], picked := [], doing := List.replicate workers none, ended := [] }

/-- Notes what an event does to a pool.  A job that is picked belongs to the round that the caller has
asked for last; one that ends is the one that its worker was doing. -/
def note (journal : Journal ι) (pool : Pool ι) : PoolEvent ι → Journal ι
  | .opened [] =>
    { journal with rounds := journal.rounds ++ [[]], returned := journal.returned ++ [none] }
  | .opened jobs => { journal with rounds := journal.rounds ++ [jobs] }
  | .picked worker =>
    let slot : Slot := { round := journal.rounds.length - 1, place := pool.next }
    { journal with
      picked := journal.picked ++ pool.jobs[pool.next]?.toList.map (slot, ·)
      doing := journal.doing.set worker (some slot) }
  | .finished worker fault =>
    match journal.doing[worker]? with
    | some (some slot) =>
      { journal with
        ended := journal.ended ++ [(slot, fault)]
        doing := journal.doing.set worker none }
    | _ => journal
  | .woken => { journal with returned := journal.returned ++ pool.returned?.toList }

/-- The jobs of a round that have ended, in the order in which they did. -/
def endedIn (journal : Journal ι) (round : Nat) : List (Slot × Option Fault) :=
  journal.ended.filter (·.1.round = round)

/-- The fault that was reported first in a round, if there was one. -/
def firstFault (journal : Journal ι) (round : Nat) : Option Fault :=
  (journal.endedIn round).findSome? Prod.snd

end Journal

/-- The jobs of a round with their places. -/
def slotsOf (round : Nat) (jobs : List ι) : List (Slot × ι) :=
  jobs.zipIdx.map fun (job, place) ↦ ({ round, place }, job)

/-- The jobs of all rounds with their places. -/
def slots (rounds : List (List ι)) : List (Slot × ι) :=
  rounds.zipIdx.flatMap fun (jobs, round) ↦ slotsOf round jobs

/-- The places of the open round whose jobs have not ended. -/
def Journal.unfinished (journal : Journal ι) : List Slot :=
  let round := journal.returned.length
  ((slotsOf round (journal.rounds.getD round [])).map Prod.fst).filter (· ∉ journal.ended.map Prod.fst)

/-- A pool and what was noted of it, after an event. -/
def observe (state : Pool ι × Journal ι) (event : PoolEvent ι) : Option (Pool ι × Journal ι) :=
  (state.1.step? event).map fun after ↦ (after, state.2.note state.1 event)

/-- What so many workers come to by events, and what was noted on the way. -/
def chronicle? (workers : Nat) (events : List (PoolEvent ι)) : Option (Pool ι × Journal ι) :=
  events.foldlM observe (idle workers, .blank workers)

/-! ## Slots -/

@[simp]
theorem slotsOf_nil (round : Nat) : slotsOf round ([] : List ι) = [] := rfl

@[simp]
theorem length_slotsOf (round : Nat) (jobs : List ι) : (slotsOf round jobs).length = jobs.length := by
  rw [slotsOf, List.length_map, List.length_zipIdx]

theorem getElem?_slotsOf (round : Nat) (jobs : List ι) (place : Nat) :
    (slotsOf round jobs)[place]? = jobs[place]?.map ({ round, place }, ·) := by
  rw [slotsOf, List.getElem?_map, List.getElem?_zipIdx, Option.map_map, Nat.zero_add]
  rfl

theorem mem_slotsOf_iff {round : Nat} {jobs : List ι} {slot : Slot} {job : ι} :
    (slot, job) ∈ slotsOf round jobs ↔ slot.round = round ∧ jobs[slot.place]? = some job := by
  simp only [slotsOf, List.mem_map, Prod.exists, Prod.mk.injEq, List.mem_zipIdx_iff_getElem?]
  constructor
  · rintro ⟨_, place, hjob, rfl, rfl⟩
    exact ⟨rfl, hjob⟩
  · rintro ⟨rfl, hjob⟩
    exact ⟨job, slot.place, hjob, rfl, rfl⟩

theorem round_of_mem_slotsOf {round : Nat} {jobs : List ι} {entry : Slot × ι}
    (h : entry ∈ slotsOf round jobs) : entry.1.round = round := (mem_slotsOf_iff.1 h).1

theorem map_place_slotsOf (round : Nat) (jobs : List ι) :
    ((slotsOf round jobs).map Prod.fst).map Slot.place = List.range jobs.length := by
  rw [List.range_eq_range', ← List.zipIdx_map_snd 0 jobs, List.map_map, slotsOf, List.map_map]
  rfl

theorem nodup_slotsOf (round : Nat) (jobs : List ι) : ((slotsOf round jobs).map Prod.fst).Nodup :=
  List.Nodup.of_map Slot.place (by rw [map_place_slotsOf]; exact List.nodup_range)

theorem slots_concat (rounds : List (List ι)) (jobs : List ι) :
    slots (rounds ++ [jobs]) = slots rounds ++ slotsOf rounds.length jobs := by
  simp [slots, List.zipIdx_append]

theorem mem_slots_iff {rounds : List (List ι)} {slot : Slot} {job : ι} :
    (slot, job) ∈ slots rounds ↔ (rounds[slot.round]?).bind (·[slot.place]?) = some job := by
  simp only [slots, List.mem_flatMap, Prod.exists, List.mem_zipIdx_iff_getElem?, mem_slotsOf_iff,
    Option.bind_eq_some_iff]
  constructor
  · rintro ⟨jobs, round, hjobs, rfl, hjob⟩
    exact ⟨jobs, hjobs, hjob⟩
  · rintro ⟨jobs, hjobs, hjob⟩
    exact ⟨jobs, slot.round, hjobs, rfl, hjob⟩

theorem round_lt_of_mem_slots {rounds : List (List ι)} {entry : Slot × ι} (h : entry ∈ slots rounds) :
    entry.1.round < rounds.length := by
  obtain ⟨jobs, hjobs, -⟩ := Option.bind_eq_some_iff.1 (mem_slots_iff.1 h)
  exact (List.getElem?_eq_some_iff.1 hjobs).1

theorem nodup_slots (rounds : List (List ι)) : ((slots rounds).map Prod.fst).Nodup := by
  induction rounds using List.reverseRecOn with
  | nil => exact List.nodup_nil
  | append_singleton rounds jobs ih =>
    rw [slots_concat, List.map_append]
    refine ih.append (nodup_slotsOf _ _) fun slot hearlier hlast ↦ ?_
    obtain ⟨earlier, hmem, rfl⟩ := List.mem_map.1 hearlier
    obtain ⟨last, hmemlast, heq⟩ := List.mem_map.1 hlast
    have hlt := round_lt_of_mem_slots hmem
    rw [← heq, round_of_mem_slotsOf hmemlast] at hlt
    exact absurd hlt (Nat.lt_irrefl _)

/-! ## Steps -/

/-- All that one event can do. -/
inductive Step : Pool ι → PoolEvent ι → Pool ι → Prop where
  /-- A round without jobs is over at once. -/
  | nothing {pool : Pool ι} (hidle : pool.waiting = false) : Step pool (.opened []) pool
  | opened {pool : Pool ι} (hidle : pool.waiting = false) (job : ι) (jobs : List ι) :
      Step pool (.opened (job :: jobs))
        { pool with jobs := job :: jobs, next := 0, remaining := jobs.length + 1, waiting := true }
  | picked {pool : Pool ι} {worker : Nat} {job : ι} (hworker : pool.workers[worker]? = some none)
      (hjob : pool.jobs[pool.next]? = some job) :
      Step pool (.picked worker)
        { pool with next := pool.next + 1, workers := pool.workers.set worker (some pool.next) }
  | finished {pool : Pool ι} {worker place : Nat} (hworker : pool.workers[worker]? = some (some place))
      (fault : Option Fault) :
      Step pool (.finished worker fault)
        { pool with
          remaining := pool.remaining - 1, fault := pool.fault.or fault
          workers := pool.workers.set worker none }
  /-- The caller was woken too early. -/
  | waits {pool : Pool ι} (hwaiting : pool.waiting = true) (hremaining : 0 < pool.remaining) :
      Step pool .woken pool
  | returned {pool : Pool ι} (hwaiting : pool.waiting = true) (hremaining : pool.remaining = 0) :
      Step pool .woken { pool with jobs := [], fault := none, waiting := false }

theorem step_of_step? {pool after : Pool ι} {event : PoolEvent ι} (h : pool.step? event = some after) :
    Step pool event after := by
  cases event with
  | opened jobs =>
    simp only [step?, begin?] at h
    split at h
    · cases h
    · rename_i hidle
      rw [Bool.not_eq_true] at hidle
      cases jobs with
      | nil =>
        cases h
        exact .nothing hidle
      | cons job jobs =>
        cases h
        exact .opened hidle job jobs
  | picked worker =>
    simp only [step?, pick?] at h
    split at h
    · split at h
      · cases h
        exact .picked ‹_› (List.getElem?_eq_getElem ‹_›)
      · cases h
    · cases h
  | finished worker fault =>
    simp only [step?, finish?] at h
    split at h
    · cases h
      exact .finished ‹_› fault
    · cases h
  | woken =>
    simp only [step?, wake?] at h
    split at h
    · cases h
    · rename_i hwaiting
      rw [Bool.not_eq_true', Bool.not_eq_false] at hwaiting
      split at h
      · cases h
        exact .waits hwaiting ‹_›
      · cases h
        exact .returned hwaiting (Nat.eq_zero_of_not_pos ‹_›)

theorem returned?_eq_some_iff {pool : Pool ι} {fault : Option Fault} :
    pool.returned? = some fault ↔ pool.waiting = true ∧ pool.remaining = 0 ∧ pool.fault = fault := by
  simp [returned?, and_assoc]

/-- What an idle pool has, and what no event breaks, holds after every run. -/
theorem chronicle?_induction {P : Pool ι → Journal ι → Prop} {workers : Nat}
    (start : P (idle workers) (.blank workers))
    (step : ∀ pool journal event after, P pool journal → Step pool event after →
      P after (journal.note pool event))
    {events : List (PoolEvent ι)} {pool : Pool ι} {journal : Journal ι}
    (h : chronicle? workers events = some (pool, journal)) : P pool journal := by
  induction events using List.reverseRecOn generalizing pool journal with
  | nil =>
    cases h
    exact start
  | append_singleton events event ih =>
    simp only [chronicle?, List.foldlM_append, List.foldlM_cons, List.foldlM_nil, bind_pure,
      Option.bind_eq_bind, Option.bind_eq_some_iff, observe, Option.map_eq_some_iff] at h
    obtain ⟨⟨before, earlier⟩, hbefore, after, hafter, heq⟩ := h
    cases heq
    exact step before earlier event _ (ih hbefore) (step_of_step? hafter)

/-! ## What no event breaks -/

/-- A pool between two events, of which `past` are the rounds that are over.  Jobs are picked in their
order, so the ones that were picked are those of the rounds that are over and the first ones of the open
round.  Each of them has ended or is being done. -/
structure Kept (past : List (List ι)) (pool : Pool ι) (journal : Journal ι) : Prop where
  rounds : journal.rounds = past ++ if pool.waiting then [pool.jobs] else []
  returned : journal.returned.length = past.length
  closed : pool.waiting = false → pool.jobs = []
  workers : journal.doing.map (Option.map Slot.place) = pool.workers
  current : ∀ slot ∈ journal.doing.reduceOption, slot.round = past.length
  picked : journal.picked = slots past ++ (slotsOf past.length pool.jobs).take pool.next
  custody : (journal.doing.reduceOption ++ journal.ended.map Prod.fst).Perm (journal.picked.map Prod.fst)
  count : pool.remaining + (journal.endedIn past.length).length = pool.jobs.length
  fault : pool.fault = journal.firstFault past.length
  settled : ∀ round fault, journal.returned[round]? = some fault → fault = journal.firstFault round

namespace Kept

variable {past : List (List ι)} {pool : Pool ι} {journal : Journal ι}

theorem round_le_of_ended (h : Kept past pool journal) {entry : Slot × Option Fault}
    (hended : entry ∈ journal.ended) : entry.1.round ≤ past.length := by
  have hslot : entry.1 ∈ journal.picked.map Prod.fst :=
    h.custody.subset (List.mem_append_right _ (List.mem_map_of_mem hended))
  obtain ⟨pick, hpick, heq⟩ := List.mem_map.1 hslot
  rw [← heq]
  rw [h.picked] at hpick
  rcases List.mem_append.1 hpick with hearlier | hlast
  · exact (round_lt_of_mem_slots hearlier).le
  · exact (round_of_mem_slotsOf (List.mem_of_mem_take hlast)).le

theorem endedIn_of_lt (h : Kept past pool journal) {round : Nat} (hround : past.length < round) :
    journal.endedIn round = [] := by
  refine List.filter_eq_nil_iff.2 fun entry hended ↦ ?_
  have hle := h.round_le_of_ended hended
  simp only [decide_eq_true_eq]
  omega

/-- Of the jobs of the open round that were picked, each is being done or has ended. -/
theorem balance (h : Kept past pool journal) :
    journal.doing.reduceOption.length + (journal.endedIn past.length).length =
      min pool.next pool.jobs.length := by
  have hcount := h.custody.countP_eq (·.round = past.length)
  have hdoing : journal.doing.reduceOption.countP (·.round = past.length) =
      journal.doing.reduceOption.length :=
    List.countP_eq_length.2 fun slot hslot ↦ decide_eq_true (h.current slot hslot)
  have hended : (journal.ended.map Prod.fst).countP (·.round = past.length) =
      (journal.endedIn past.length).length := by
    rw [List.countP_map, Journal.endedIn, ← List.countP_eq_length_filter]
    rfl
  have hearlier : ((slots past).map Prod.fst).countP (·.round = past.length) = 0 := by
    rw [List.countP_map, List.countP_eq_zero]
    intro entry hentry hround
    exact absurd (of_decide_eq_true hround) (round_lt_of_mem_slots hentry).ne
  have hlast : (((slotsOf past.length pool.jobs).take pool.next).map Prod.fst).countP
      (·.round = past.length) = min pool.next pool.jobs.length := by
    rw [List.countP_map, List.countP_eq_length.2, List.length_take, length_slotsOf]
    intro entry hentry
    exact decide_eq_true (round_of_mem_slotsOf (List.mem_of_mem_take hentry))
  rw [List.countP_append, hdoing, hended, h.picked, List.map_append, List.countP_append, hearlier,
    hlast, Nat.zero_add] at hcount
  exact hcount

/-! ### Events -/

theorem idle_of_remaining (h : Kept past pool journal) (hremaining : pool.remaining = 0) :
    journal.doing.reduceOption = [] ∧ pool.jobs.length ≤ pool.next := by
  have hbalance := h.balance
  have hcount := h.count
  have hdoing : journal.doing.reduceOption.length = 0 := by omega
  exact ⟨List.length_eq_zero_iff.1 hdoing, by omega⟩

/-- The open round is over once all its jobs have ended. -/
theorem close (h : Kept past pool journal) (hremaining : pool.remaining = 0) :
    Kept (past ++ [pool.jobs]) { pool with jobs := [], fault := none, waiting := false }
      { journal with
        rounds := past ++ [pool.jobs], returned := journal.returned ++ [pool.fault] } := by
  obtain ⟨hdoing, hnext⟩ := h.idle_of_remaining hremaining
  have hlength : (past ++ [pool.jobs]).length = past.length + 1 := List.length_append
  have hlater := h.endedIn_of_lt (Nat.lt_succ_self past.length)
  have hall : (slotsOf past.length pool.jobs).take pool.next = slotsOf past.length pool.jobs :=
    List.take_of_length_le (by rwa [length_slotsOf])
  exact {
    rounds := by simp
    returned := by simp [h.returned]
    closed := fun _ ↦ rfl
    workers := h.workers
    current := by simp [hdoing]
    picked := by simp [h.picked, hall, slots_concat]
    custody := h.custody
    count := by
      rw [hlength]
      simp only [Journal.endedIn] at hlater ⊢
      rw [hlater, hremaining, List.length_nil, List.length_nil]
    fault := by
      rw [hlength]
      simp only [Journal.firstFault, Journal.endedIn] at hlater ⊢
      rw [hlater, List.findSome?_nil]
    settled := by
      intro round fault hreturned
      rw [List.getElem?_append] at hreturned
      split at hreturned
      · exact h.settled round fault hreturned
      · rename_i hround
        have hlast := (List.getElem?_eq_some_iff.1 hreturned).1
        rw [List.length_singleton] at hlast
        obtain rfl : round = past.length := by
          rw [h.returned] at hlast hround
          omega
        rw [h.returned, Nat.sub_self] at hreturned
        cases hreturned
        exact h.fault }

/-- A round without jobs is asked for. -/
theorem nothing (h : Kept past pool journal) (hidle : pool.waiting = false) :
    Kept (past ++ [[]]) pool (journal.note pool (.opened [])) := by
  have hjobs := h.closed hidle
  have hcount := h.count
  rw [hjobs, List.length_nil] at hcount
  have hended : journal.endedIn past.length = [] :=
    List.length_eq_zero_iff.1 (Nat.eq_zero_of_add_eq_zero_left hcount)
  have hfault : pool.fault = none := by rw [h.fault, Journal.firstFault, hended, List.findSome?_nil]
  have hclosed := h.close (Nat.eq_zero_of_add_eq_zero_right hcount)
  have hpool : { pool with jobs := [], fault := none, waiting := false } = pool := by
    rw [← hjobs, ← hfault, ← hidle]
  have hrounds : journal.rounds = past := by simpa [hidle] using h.rounds
  rw [hpool, hjobs, hfault] at hclosed
  rw [Journal.note, hrounds]
  exact hclosed

/-- A round is opened. -/
theorem opened (h : Kept past pool journal) (hidle : pool.waiting = false) (job : ι) (jobs : List ι) :
    Kept past
      { pool with jobs := job :: jobs, next := 0, remaining := jobs.length + 1, waiting := true }
      (journal.note pool (.opened (job :: jobs))) := by
  have hjobs := h.closed hidle
  have hcount := h.count
  rw [hjobs, List.length_nil] at hcount
  have hended : journal.endedIn past.length = [] := List.length_eq_zero_iff.1 (by omega)
  exact {
    rounds := by simp [Journal.note, h.rounds, hidle]
    returned := h.returned
    closed := fun hwaiting ↦ nomatch hwaiting
    workers := h.workers
    current := h.current
    picked := by simp [Journal.note, h.picked, hjobs]
    custody := h.custody
    count := by
      simp only [Journal.note, Journal.endedIn] at hended ⊢
      rw [hended, List.length_nil, List.length_cons]
    fault := h.fault
    settled := h.settled }

/-- The slots of the other workers stay when one worker turns to something else. -/
theorem exists_others {doing : List (Option Slot)} {worker : Nat} {before : Option Slot}
    (h : doing[worker]? = some before) :
    ∃ others, doing.reduceOption.Perm (before.toList ++ others) ∧
      ∀ after, (doing.set worker after).reduceOption.Perm (after.toList ++ others) := by
  obtain ⟨hlt, rfl⟩ := List.getElem?_eq_some_iff.1 h
  refine ⟨(doing.eraseIdx worker).reduceOption, ?_, fun after ↦ ?_⟩
  · have hperm := (List.getElem_cons_eraseIdx_perm hlt).symm.filterMap id
    cases hslot : doing[worker] <;> simpa [List.reduceOption, hslot] using hperm
  · have hperm := (List.set_perm_cons_eraseIdx hlt after).filterMap id
    cases after <;> simpa [List.reduceOption] using hperm

theorem doing_of_worker (h : Kept past pool journal) {worker : Nat} {place : Option Nat}
    (hworker : pool.workers[worker]? = some place) :
    ∃ slot, journal.doing[worker]? = some slot ∧ slot.map Slot.place = place := by
  rw [← h.workers, List.getElem?_map, Option.map_eq_some_iff] at hworker
  exact hworker

theorem waiting_of_job (h : Kept past pool journal) {job : ι} (hjob : pool.jobs[pool.next]? = some job) :
    pool.waiting = true := by
  by_contra hidle
  rw [h.closed (Bool.not_eq_true _ ▸ hidle)] at hjob
  cases hjob

/-- A job is picked. -/
theorem picks (h : Kept past pool journal) {worker : Nat} {job : ι}
    (hworker : pool.workers[worker]? = some none) (hjob : pool.jobs[pool.next]? = some job) :
    Kept past
      { pool with next := pool.next + 1, workers := pool.workers.set worker (some pool.next) }
      (journal.note pool (.picked worker)) := by
  obtain ⟨slot, hslot, hnone⟩ := h.doing_of_worker hworker
  obtain rfl : slot = none := Option.map_eq_none_iff.1 hnone
  have hwaiting := h.waiting_of_job hjob
  have hround : journal.rounds.length - 1 = past.length := by simp [h.rounds, hwaiting]
  obtain ⟨others, hbefore, hafter⟩ := exists_others hslot
  have hpick : (slotsOf past.length pool.jobs).take (pool.next + 1) =
      (slotsOf past.length pool.jobs).take pool.next ++
        [({ round := past.length, place := pool.next }, job)] := by
    rw [List.take_add_one, getElem?_slotsOf, hjob]
    rfl
  have hdoing : ((journal.doing.set worker
      (some { round := past.length, place := pool.next })).reduceOption).Perm
        ({ round := past.length, place := pool.next } :: journal.doing.reduceOption) :=
    (hafter _).trans (hbefore.symm.cons _)
  exact {
    rounds := h.rounds
    returned := h.returned
    closed := h.closed
    workers := by simp [Journal.note, List.map_set, h.workers]
    current := by
      intro slot hslot
      rw [Journal.note, hround, hdoing.mem_iff, List.mem_cons] at hslot
      rcases hslot with rfl | hother
      · rfl
      · exact h.current slot hother
    picked := by simp [Journal.note, h.picked, hround, hjob, hpick]
    custody := by
      simp only [Journal.note, hround, hjob, Option.toList_some, List.map_cons, List.map_nil,
        List.map_append]
      exact ((hdoing.append_right _).trans ((h.custody.cons _).trans
        (List.perm_append_singleton _ _).symm))
    count := h.count
    fault := h.fault
    settled := h.settled }

/-- A job ends. -/
theorem ends (h : Kept past pool journal) {worker place : Nat}
    (hworker : pool.workers[worker]? = some (some place)) (fault : Option Fault) :
    0 < pool.remaining ∧
      Kept past
        { pool with
          remaining := pool.remaining - 1, fault := pool.fault.or fault
          workers := pool.workers.set worker none }
        (journal.note pool (.finished worker fault)) := by
  obtain ⟨held, hslot, hheld⟩ := h.doing_of_worker hworker
  obtain ⟨slot, rfl, rfl⟩ := Option.map_eq_some_iff.1 hheld
  obtain ⟨others, hbefore, hafter⟩ := exists_others hslot
  have hround : slot.round = past.length :=
    h.current slot (hbefore.symm.subset (List.mem_append_left _ (List.mem_singleton_self slot)))
  have hbalance := h.balance
  have hcount := h.count
  have hbusy : 0 < journal.doing.reduceOption.length := by
    rw [hbefore.length_eq]
    exact Nat.zero_lt_succ _
  have hended (round : Nat) : (journal.ended ++ [(slot, fault)]).filter (·.1.round = round) =
      journal.endedIn round ++ if round = past.length then [(slot, fault)] else [] := by
    rw [List.filter_append, Journal.endedIn]
    split
    · rename_i hsame
      rw [List.filter_singleton, hround, hsame, decide_eq_true rfl]
      rfl
    · rename_i hother
      rw [List.filter_singleton, hround, decide_eq_false (Ne.symm hother)]
      rfl
  have hremaining : 0 < pool.remaining := by omega
  refine ⟨hremaining, ?_⟩
  rw [Journal.note, hslot]
  exact {
    rounds := h.rounds
    returned := h.returned
    closed := h.closed
    workers := by simp [List.map_set, h.workers]
    current := by
      intro other hother
      refine h.current other (hbefore.symm.subset (List.mem_append_right _ ?_))
      simpa using (hafter none).subset hother
    picked := h.picked
    custody := by
      have hmoved : (others ++ (journal.ended.map Prod.fst ++ [slot])).Perm
          (slot :: (others ++ journal.ended.map Prod.fst)) := by
        rw [← List.append_assoc]
        exact List.perm_append_singleton _ _
      rw [List.map_append]
      exact ((hafter none).append_right _).trans (hmoved.trans
        ((hbefore.symm.append_right _).trans h.custody))
    count := by
      rw [Journal.endedIn, hended, if_pos rfl, List.length_append, List.length_singleton]
      simp only
      omega
    fault := by
      rw [Journal.firstFault, Journal.endedIn, hended, if_pos rfl, List.findSome?_append,
        h.fault]
      cases fault <;> rfl
    settled := by
      intro round reported hreturned
      have hother : round ≠ past.length := by
        rw [← h.returned]
        exact (List.getElem?_eq_some_iff.1 hreturned).1.ne
      rw [Journal.firstFault, Journal.endedIn, hended, if_neg hother, List.append_nil]
      exact h.settled round reported hreturned }

theorem step (h : Kept past pool journal) {event : PoolEvent ι} {after : Pool ι}
    (hstep : Step pool event after) : ∃ past, Kept past after (journal.note pool event) := by
  cases hstep with
  | nothing hidle => exact ⟨_, h.nothing hidle⟩
  | opened hidle job jobs => exact ⟨_, h.opened hidle job jobs⟩
  | picked hworker hjob => exact ⟨_, h.picks hworker hjob⟩
  | finished hworker fault => exact ⟨_, (h.ends hworker fault).2⟩
  | waits hwaiting hremaining =>
    have hnothing : pool.returned? = none := by simp [returned?, hwaiting, hremaining.ne']
    rw [Journal.note, hnothing, Option.toList_none, List.append_nil]
    exact ⟨past, h⟩
  | returned hwaiting hremaining =>
    have hreturned := returned?_eq_some_iff.2 ⟨hwaiting, hremaining, rfl⟩
    have hrounds : journal.rounds = past ++ [pool.jobs] := by simpa [hwaiting] using h.rounds
    rw [Journal.note, hreturned, Option.toList_some, hrounds]
    exact ⟨_, h.close hremaining⟩

end Kept

/-- Whatever the workers did, no event has broken anything. -/
theorem kept_of_chronicle? {workers : Nat} {events : List (PoolEvent ι)} {pool : Pool ι}
    {journal : Journal ι} (h : chronicle? workers events = some (pool, journal)) :
    ∃ past, Kept past pool journal := by
  refine chronicle?_induction (P := fun pool journal ↦ ∃ past, Kept past pool journal) ?_ ?_ h
  · refine ⟨[], ?_⟩
    exact {
      rounds := rfl
      returned := rfl
      closed := fun _ ↦ rfl
      workers := List.map_replicate
      current := by simp [Journal.blank, List.reduceOption_replicate_none]
      picked := rfl
      custody := by simp [Journal.blank, List.reduceOption_replicate_none]
      count := rfl
      fault := rfl
      settled := fun _ _ hreturned ↦ nomatch hreturned }
  · rintro pool journal event after ⟨past, hkept⟩ hstep
    exact hkept.step hstep

/-- The caller waits while it has asked for more rounds than have returned. -/
theorem waiting_of_open {workers : Nat} {events : List (PoolEvent ι)} {pool : Pool ι}
    {journal : Journal ι} (h : chronicle? workers events = some (pool, journal))
    (hopen : journal.rounds.length = journal.returned.length + 1) : pool.waiting = true := by
  obtain ⟨past, hkept⟩ := kept_of_chronicle? h
  by_contra hidle
  rw [hkept.rounds, hkept.returned, if_neg hidle, List.append_nil] at hopen
  omega

/-! ## Rounds -/

section Rounds

variable {past : List (List ι)} {pool : Pool ι} {journal : Journal ι}

theorem Kept.nodup_picked (h : Kept past pool journal) : (journal.picked.map Prod.fst).Nodup := by
  have hopen : (slots (past ++ [pool.jobs])).map Prod.fst =
      (slots past).map Prod.fst ++ (slotsOf past.length pool.jobs).map Prod.fst := by
    rw [slots_concat, List.map_append]
  refine List.Nodup.sublist ?_ (nodup_slots (past ++ [pool.jobs]))
  rw [h.picked, List.map_append, hopen]
  exact (List.Sublist.refl _).append ((List.take_sublist _ _).map _)

theorem Kept.mem_slots_of_picked (h : Kept past pool journal) {entry : Slot × ι}
    (hpicked : entry ∈ journal.picked) : entry ∈ slots journal.rounds := by
  rw [h.picked] at hpicked
  rw [h.rounds]
  cases hwaiting : pool.waiting with
  | true =>
    rw [if_pos rfl, slots_concat]
    exact ((List.Sublist.refl _).append (List.take_sublist _ _)).subset hpicked
  | false =>
    rw [h.closed hwaiting, slotsOf_nil, List.take_nil] at hpicked
    simpa using hpicked

/-- When a round is over, no worker does anything. -/
theorem Kept.idle_of_returned? (h : Kept past pool journal) {fault : Option Fault}
    (hreturned : pool.returned? = some fault) : ∀ doing ∈ pool.workers, doing = none := by
  obtain ⟨-, hremaining, -⟩ := returned?_eq_some_iff.1 hreturned
  intro doing hdoing
  rw [← h.workers] at hdoing
  obtain ⟨slot, hslot, rfl⟩ := List.mem_map.1 hdoing
  cases slot with
  | none => rfl
  | some slot =>
    have hbusy := List.reduceOption_mem_iff.2 hslot
    rw [(h.idle_of_remaining hremaining).1] at hbusy
    cases hbusy

theorem Kept.nodup_ended (h : Kept past pool journal) : (journal.ended.map Prod.fst).Nodup :=
  ((h.custody.nodup_iff.2 h.nodup_picked).sublist (List.sublist_append_right _ _))

/-- The jobs of the open round. -/
theorem Kept.getD_rounds (h : Kept past pool journal) :
    journal.rounds.getD journal.returned.length [] = pool.jobs := by
  rw [List.getD_eq_getElem?_getD, h.returned, h.rounds, List.getElem?_append_right le_rfl,
    Nat.sub_self]
  cases hwaiting : pool.waiting with
  | true => rfl
  | false => exact (h.closed hwaiting).symm

theorem Kept.mem_slots_of_ended (h : Kept past pool journal) {slot : Slot}
    (hended : slot ∈ journal.ended.map Prod.fst) (hround : slot.round = past.length) :
    slot ∈ (slotsOf past.length pool.jobs).map Prod.fst := by
  have hpicked := h.custody.subset (List.mem_append_right _ hended)
  rw [h.picked, List.map_append, List.mem_append] at hpicked
  rcases hpicked with hearlier | hlast
  · obtain ⟨entry, hentry, rfl⟩ := List.mem_map.1 hearlier
    exact absurd hround (round_lt_of_mem_slots hentry).ne
  · exact ((List.take_sublist _ _).map Prod.fst).subset hlast

theorem Kept.endedIn_perm_filter (h : Kept past pool journal) :
    ((journal.endedIn past.length).map Prod.fst).Perm
      (((slotsOf past.length pool.jobs).map Prod.fst).filter (· ∈ journal.ended.map Prod.fst)) := by
  refine (List.perm_ext_iff_of_nodup (h.nodup_ended.sublist (List.filter_sublist.map _))
    ((nodup_slotsOf _ _).filter _)).2 fun slot ↦ ?_
  rw [List.mem_filter, decide_eq_true_eq]
  constructor
  · intro hslot
    obtain ⟨finish, hfinish, rfl⟩ := List.mem_map.1 hslot
    obtain ⟨hmem, hround⟩ := List.mem_filter.1 hfinish
    have hended := List.mem_map_of_mem (f := Prod.fst) hmem
    exact ⟨h.mem_slots_of_ended hended (of_decide_eq_true hround), hended⟩
  · rintro ⟨hall, hended⟩
    obtain ⟨entry, hentry, rfl⟩ := List.mem_map.1 hall
    obtain ⟨finish, hfinish, heq⟩ := List.mem_map.1 hended
    refine List.mem_map.2 ⟨finish, List.mem_filter.2 ⟨hfinish, decide_eq_true ?_⟩, heq⟩
    rw [heq]
    exact round_of_mem_slotsOf hentry

/-- What remains of a round are its jobs that have not ended. -/
theorem Kept.remaining_eq (h : Kept past pool journal) :
    pool.remaining = journal.unfinished.length := by
  let all := (slotsOf past.length pool.jobs).map Prod.fst
  have hunfinished : journal.unfinished = all.filter (· ∉ journal.ended.map Prod.fst) := by
    rw [Journal.unfinished, h.getD_rounds, h.returned]
  have hsplit := List.length_eq_length_filter_add (l := all) (· ∈ journal.ended.map Prod.fst)
  have hcount := h.count
  simp only [← h.endedIn_perm_filter.length_eq, List.length_map, length_slotsOf, all] at hsplit
  simp only [hunfinished, decide_not, all]
  omega

/-- When nothing remains of a round, its jobs have ended, each once. -/
theorem Kept.endedIn_perm (h : Kept past pool journal) (hremaining : pool.remaining = 0) :
    ((journal.endedIn past.length).map (·.1.place)).Perm (List.range pool.jobs.length) := by
  have hcount := h.count
  have hlength := h.endedIn_perm_filter.length_eq
  rw [List.length_map] at hlength
  have hall : ((slotsOf past.length pool.jobs).map Prod.fst).filter
      (· ∈ journal.ended.map Prod.fst) = (slotsOf past.length pool.jobs).map Prod.fst := by
    refine List.filter_sublist.eq_of_length ?_
    rw [← hlength, List.length_map, length_slotsOf]
    omega
  have hperm := h.endedIn_perm_filter.map Slot.place
  rw [hall, map_place_slotsOf, List.map_map] at hperm
  exact hperm

/-- The jobs of a round that is past were picked and have ended. -/
theorem Kept.ended_of_lt (h : Kept past pool journal) (slot : Slot) {jobs : List ι}
    (hjobs : past[slot.round]? = some jobs) (hplace : slot.place < jobs.length) :
    slot ∈ journal.picked.map Prod.fst ∧ slot ∈ journal.ended.map Prod.fst := by
  have hslots : (slot, jobs[slot.place]) ∈ slots past :=
    mem_slots_iff.2 (by rw [hjobs, Option.bind_some, List.getElem?_eq_getElem hplace])
  have hpicked : slot ∈ journal.picked.map Prod.fst := by
    rw [h.picked, List.map_append]
    exact List.mem_append_left _ (List.mem_map_of_mem hslots)
  refine ⟨hpicked, ?_⟩
  rcases List.mem_append.1 (h.custody.symm.subset hpicked) with hdoing | hended
  · exact absurd (h.current slot hdoing) (List.getElem?_eq_some_iff.1 hjobs).1.ne
  · exact hended

theorem Journal.isSome_firstFault_iff {round : Nat} :
    (journal.firstFault round).isSome ↔
      ∃ place fault, (({ round, place } : Slot), some fault) ∈ journal.ended := by
  rw [Journal.firstFault, List.findSome?_isSome_iff]
  constructor
  · rintro ⟨⟨slot, reported⟩, hentry, hreported⟩
    obtain ⟨hended, hround⟩ := List.mem_filter.1 hentry
    obtain ⟨fault, rfl⟩ := Option.isSome_iff_exists.1 hreported
    refine ⟨slot.place, fault, ?_⟩
    rw [← of_decide_eq_true hround]
    exact hended
  · rintro ⟨place, fault, hended⟩
    exact ⟨_, List.mem_filter.2 ⟨hended, decide_eq_true rfl⟩, rfl⟩

/-- In every run of a pool: what remains of the open round are its jobs that have not ended, so that a
job that ends always finds itself among them; no job is picked twice; a job is picked only while its
round is open, and the worker reads the job of that round.  Once a round has returned, each of its jobs
was picked once and has ended once, no worker does any of them, and the caller got a fault if one of
them had one. -/
theorem jobs_once_behind_barrier {workers : Nat} {events : List (PoolEvent ι)}
    (hrun : chronicle? workers events = some (pool, journal)) :
    pool.remaining = journal.unfinished.length ∧
      (∀ worker fault after, pool.finish? worker fault = some after →
        after.remaining + 1 = pool.remaining) ∧
      (journal.picked.map Prod.fst).Nodup ∧
      (∀ slot job, (slot, job) ∈ journal.picked →
        (journal.rounds[slot.round]?).bind (·[slot.place]?) = some job) ∧
      (∀ worker after, pool.pick? worker = some after →
        pool.waiting = true ∧ journal.rounds.length = journal.returned.length + 1) ∧
      (∀ fault, pool.returned? = some fault → ∀ doing ∈ pool.workers, doing = none) ∧
      ∀ round fault, journal.returned[round]? = some fault →
        ∃ jobs, journal.rounds[round]? = some jobs ∧
          (∀ place < jobs.length,
            (journal.picked.map Prod.fst).count { round, place } = 1 ∧
              (journal.ended.map Prod.fst).count { round, place } = 1) ∧
          (∀ slot, some slot ∈ journal.doing → slot.round ≠ round) ∧
          (fault.isSome ↔
            ∃ place reported, (({ round, place } : Slot), some reported) ∈ journal.ended) := by
  obtain ⟨past, h⟩ := kept_of_chronicle? hrun
  refine ⟨h.remaining_eq, ?_, h.nodup_picked, ?_, ?_, ?_, ?_⟩
  · intro worker fault after hfinish
    have hstep : Step pool (.finished worker fault) after := step_of_step? hfinish
    cases hstep with
    | finished hworker =>
      have hpositive := (h.ends hworker fault).1
      simp only
      omega
  · intro slot job hpicked
    exact mem_slots_iff.1 (h.mem_slots_of_picked hpicked)
  · intro worker after hpick
    have hstep : Step pool (.picked worker) after := step_of_step? hpick
    cases hstep with
    | picked hworker hjob =>
      have hwaiting := h.waiting_of_job hjob
      exact ⟨hwaiting, by simp [h.rounds, h.returned, hwaiting]⟩
  · intro fault hreturned
    exact h.idle_of_returned? hreturned
  · intro round fault hreturned
    have hround : round < past.length := by
      rw [← h.returned]
      exact (List.getElem?_eq_some_iff.1 hreturned).1
    have hjobs : past[round]? = some past[round] := List.getElem?_eq_getElem hround
    refine ⟨past[round], ?_, fun place hplace ↦ ?_, fun slot hdoing heq ↦ ?_, ?_⟩
    · rw [h.rounds, List.getElem?_append_left hround, hjobs]
    · obtain ⟨hpicked, hended⟩ := h.ended_of_lt { round, place } hjobs hplace
      exact ⟨List.count_eq_one_of_mem h.nodup_picked hpicked,
        List.count_eq_one_of_mem h.nodup_ended hended⟩
    · rw [h.current slot (List.reduceOption_mem_iff.2 hdoing)] at heq
      exact absurd heq hround.ne'
    · rw [h.settled round fault hreturned]
      exact Journal.isSome_firstFault_iff

end Rounds

/-- Two workers and two rounds: the first job of the first round has a fault and ends last, and the
caller is woken too early once; of the second round one job is still being done. -/
theorem jobs_once_behind_barrier_of_two :
    ∃ pool journal,
      chronicle? 2 [.opened ['a', 'b'], .picked 1, .picked 0, .finished 0 none, .woken,
        .finished 1 (some (.job 1)), .woken, .opened ['c', 'd'], .picked 0, .picked 1,
        .finished 0 none] = some (pool, journal) ∧
      journal.returned = [some (.job 1)] ∧ pool.remaining = journal.unfinished.length ∧
      pool.remaining = 1 ∧ (journal.picked.map Prod.fst).Nodup ∧
      (journal.ended.map Prod.fst).count { round := 0, place := 1 } = 1 ∧
      ∃ place reported, (({ round := 0, place } : Slot), some reported) ∈ journal.ended := by
  obtain ⟨pool, journal, hrun, hrounds, hreturned, hremaining⟩ :
      ∃ pool journal,
        chronicle? 2 [.opened ['a', 'b'], .picked 1, .picked 0, .finished 0 none, .woken,
          .finished 1 (some (.job 1)), .woken, .opened ['c', 'd'], .picked 0, .picked 1,
          .finished 0 none] = some (pool, journal) ∧
        journal.rounds = [['a', 'b'], ['c', 'd']] ∧ journal.returned = [some (.job 1)] ∧
        pool.remaining = 1 := ⟨_, _, rfl, rfl, rfl, rfl⟩
  obtain ⟨hunfinished, -, hnodup, -, -, -, hover⟩ := jobs_once_behind_barrier hrun
  obtain ⟨jobs, hjobs, honce, -, hfault⟩ := hover 0 (some (.job 1)) (by rw [hreturned]; rfl)
  rw [hrounds] at hjobs
  cases hjobs
  exact ⟨pool, journal, hrun, hreturned, hunfinished, hremaining, hnodup, (honce 1 (by decide)).2,
    hfault.1 rfl⟩

end RadioAccess.Pool
