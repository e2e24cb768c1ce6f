import Mathlib.Algebra.BigOperators.Group.List.Basic
import Mathlib.Algebra.Field.Rat
import Mathlib.Data.List.DropRight
import Mathlib.Tactic.Ring
import RadioAccess.RunningMean

/-!
# Running Means are Means

In exact arithmetic an accumulator reads the two means it promises, whatever calls are made on it and in
whatever order (`RunningMean.reads_true_means`).  The mean over all steps is the sum of what was added
before the last step, divided by the number of steps; the mean of a window is the sum of what was added
since the window was last read, divided by its steps.  The two readings have different reset points and
share no field, so neither disturbs the other: leaving out all readings of one kind leaves every reading
of the other kind as it is.
-/

namespace RadioAccess.RunningMean

/-! ## Calls -/

/-- One use of an accumulator. -/
inductive Call (α : Type) where
  | add (amount : α)
  | step
  | take
  | total
  | read (window : Window)
deriving DecidableEq

namespace Call

variable {α : Type}

/-- What a call adds. -/
def amount? : Call α → Option α
  | add amount => some amount
  | _ => none

def isStep : Call α → Bool
  | step => true
  | _ => false

/-- The window that a call reads. -/
def window? : Call α → Option Window
  | take => some .sinceLastQuery
  | total => some .cumulative
  | read window => some window
  | _ => none

variable {call : Call α} {window : Window}

/-- A call that reads adds nothing. -/
theorem amount?_eq_none (h : call.window? = some window) : call.amount? = none := by
  cases call <;> first | rfl | cases h

/-- A call that reads closes no sample. -/
theorem isStep_eq_false (h : call.window? = some window) : call.isStep = false := by
  cases call <;> first | rfl | cases h

end Call

section Run

variable {α : Type} [Zero α] [Add α] [Sub α] [Div α] [NatCast α]

/-- The value a call returns, and the accumulator after it. -/
def act (acc : RunningMean α) : Call α → Option α × RunningMean α
  | .add amount => (none, acc.add amount)
  | .step => (none, acc.step)
  | .take => (some acc.take.1, acc.take.2)
  | .total => (some acc.total, acc)
  | .read window => (some (acc.read window).1, (acc.read window).2)

/-- The accumulator after a sequence of calls. -/
def after (acc : RunningMean α) (calls : List (Call α)) : RunningMean α :=
  calls.foldl (fun acc call ↦ (acc.act call).2) acc

theorem after_concat (acc : RunningMean α) (calls : List (Call α)) (call : Call α) :
    acc.after (calls ++ [call]) = ((acc.after calls).act call).2 := by
  simp only [after, List.foldl_append, List.foldl_cons, List.foldl_nil]

/-- The values that the calls reading one window return, in order. -/
def readings (window : Window) (acc : RunningMean α) : List (Call α) → List α
  | [] => []
  | call :: calls =>
    (if call.window? = some window then (acc.act call).1.toList else []) ++
      readings window (acc.act call).2 calls

end Run

/-! ## What the readings are to be -/

section Specification

variable {α : Type}

/-- The sum of what the calls add. -/
def added [AddCommMonoid α] (calls : List (Call α)) : α := (calls.filterMap Call.amount?).sum

/-- The number of steps among the calls. -/
def stepCount (calls : List (Call α)) : Nat := calls.countP Call.isStep

/-- The calls up to the last step: all of them but those of the current sample. -/
def closed (calls : List (Call α)) : List (Call α) := calls.rdropWhile (!·.isStep)

/-- The calls since the last windowed reading. -/
def sinceReading (calls : List (Call α)) : List (Call α) :=
  calls.rtakeWhile (·.window? ≠ some .sinceLastQuery)

/-- The mean of a window after some calls. -/
def trueMean [Field α] (calls : List (Call α)) : Window → α
  | .cumulative => if stepCount calls = 0 then 0 else added (closed calls) / (stepCount calls : α)
  | .sinceLastQuery =>
    added (sinceReading calls) / ((max 1 (stepCount (sinceReading calls)) : Nat) : α)

@[simp]
theorem stepCount_concat (calls : List (Call α)) (call : Call α) :
    stepCount (calls ++ [call]) = stepCount calls + if call.isStep then 1 else 0 := by
  simp [stepCount, List.countP_append, List.countP_singleton]

@[simp]
theorem added_concat [AddCommMonoid α] (calls : List (Call α)) (call : Call α) :
    added (calls ++ [call]) = added calls + call.amount?.getD 0 := by
  rw [added, List.filterMap_append, List.sum_append, ← added]
  cases call <;> simp [List.filterMap_cons, Call.amount?]

theorem closed_concat (calls : List (Call α)) (call : Call α) :
    closed (calls ++ [call]) = if call.isStep then calls ++ [call] else closed calls := by
  rw [closed, List.rdropWhile_concat, closed]
  cases call.isStep <;> rfl

theorem sinceReading_concat (calls : List (Call α)) (call : Call α) :
    sinceReading (calls ++ [call]) =
      if call.window? = some .sinceLastQuery then [] else sinceReading calls ++ [call] := by
  rw [sinceReading, List.rtakeWhile_concat, sinceReading]
  by_cases hwindow : call.window? = some .sinceLastQuery <;> simp [hwindow]

end Specification

/-! ## What an accumulator knows of its calls -/

section Field

variable {α : Type} [Field α] {calls : List (Call α)} {acc : RunningMean α}

/-- An accumulator that holds the sums and counts of the calls made on it. -/
structure Summarizes (calls : List (Call α)) (acc : RunningMean α) : Prop where
  windowSum : acc.windowSum = added (sinceReading calls)
  windowSteps : acc.windowSteps = stepCount (sinceReading calls)
  /-- The current sample is what was added after the last step. -/
  pending : added calls = added (closed calls) + acc.pending
  steps : acc.steps = stepCount calls
  /-- The mean over all steps, as often as there were steps, is the sum of the closed samples. -/
  mean : acc.mean * (stepCount calls : α) = added (closed calls)
  unstepped : stepCount calls = 0 → acc.mean = 0

theorem summarizes_empty : Summarizes ([] : List (Call α)) empty where
  windowSum := rfl
  windowSteps := rfl
  pending := (add_zero _).symm
  steps := rfl
  mean := zero_mul _
  unstepped _ := rfl

namespace Summarizes

theorem add (h : Summarizes calls acc) (amount : α) :
    Summarizes (calls ++ [.add amount]) (acc.add amount) := by
  have hsince : sinceReading (calls ++ [.add amount]) = sinceReading calls ++ [.add amount] := by
    simp [sinceReading_concat, Call.window?]
  have hclosed : closed (calls ++ [.add amount]) = closed calls := by simp [closed_concat, Call.isStep]
  constructor <;> simp only [hsince, hclosed, RunningMean.add, added_concat, stepCount_concat, Call.amount?,
    Call.isStep, Option.getD_some, Bool.false_eq_true, if_false, add_zero]
  · rw [h.windowSum]
  · exact h.windowSteps
  · rw [h.pending, add_assoc]
  · exact h.steps
  · exact h.mean
  · exact h.unstepped

theorem step [CharZero α] (h : Summarizes calls acc) : Summarizes (calls ++ [.step]) acc.step := by
  have hsince : sinceReading (calls ++ [.step]) = sinceReading calls ++ [.step] := by
    simp [sinceReading_concat, Call.window?]
  have hclosed : closed (calls ++ [.step]) = calls ++ [.step] := by simp [closed_concat, Call.isStep]
  constructor <;> simp only [hsince, hclosed, RunningMean.step, added_concat, stepCount_concat, Call.amount?,
    Call.isStep, Option.getD_none, if_true, add_zero]
  · exact h.windowSum
  · rw [h.windowSteps]
  · rw [h.steps]
  · have hcount : ((stepCount calls + 1 : Nat) : α) ≠ 0 :=
      Nat.cast_ne_zero.mpr (Nat.succ_ne_zero _)
    -- The correction by the sample, taken as often as there are steps, adds just the sample.
    calc (acc.mean + (acc.pending - acc.mean) / ((acc.steps + 1 : Nat) : α)) * ((stepCount calls + 1 : Nat) : α)
        = acc.mean * (stepCount calls + 1 : Nat) + (acc.pending - acc.mean) := by
          rw [h.steps, add_mul, div_mul_cancel₀ _ hcount]
      _ = acc.mean * stepCount calls + acc.pending := by push_cast; ring
      _ = added calls := by rw [h.mean, h.pending]
  · exact fun hzero ↦ absurd hzero (Nat.succ_ne_zero _)

/-- A reading of the long-term mean changes neither the accumulator nor the sums. -/
theorem total (h : Summarizes calls acc) {call : Call α} (hcall : call.window? = some .cumulative) :
    Summarizes (calls ++ [call]) acc := by
  have hsince : sinceReading (calls ++ [call]) = sinceReading calls ++ [call] := by
    simp [sinceReading_concat, hcall]
  have hclosed : closed (calls ++ [call]) = closed calls := by
    simp [closed_concat, Call.isStep_eq_false hcall]
  constructor <;> simp only [hsince, hclosed, added_concat, stepCount_concat, Call.amount?_eq_none hcall,
    Call.isStep_eq_false hcall, Option.getD_none, Bool.false_eq_true, if_false, add_zero]
  · exact h.windowSum
  · exact h.windowSteps
  · exact h.pending
  · exact h.steps
  · exact h.mean
  · exact h.unstepped

/-- A windowed reading starts the window again. -/
theorem take (h : Summarizes calls acc) {call : Call α} (hcall : call.window? = some .sinceLastQuery) :
    Summarizes (calls ++ [call]) acc.take.2 := by
  have hsince : sinceReading (calls ++ [call]) = [] := by simp [sinceReading_concat, hcall]
  have hclosed : closed (calls ++ [call]) = closed calls := by
    simp [closed_concat, Call.isStep_eq_false hcall]
  constructor <;> simp only [hsince, hclosed, RunningMean.take, added_concat, stepCount_concat,
    Call.amount?_eq_none hcall, Call.isStep_eq_false hcall, Option.getD_none, Bool.false_eq_true, if_false,
    add_zero]
  · rfl
  · rfl
  · exact h.pending
  · exact h.steps
  · exact h.mean
  · exact h.unstepped

theorem act [CharZero α] (h : Summarizes calls acc) (call : Call α) :
    Summarizes (calls ++ [call]) (acc.act call).2 := by
  cases call with
  | add amount => exact h.add amount
  | step => exact h.step
  | take => exact h.take rfl
  | total => exact h.total rfl
  | read window =>
    cases window with
    | sinceLastQuery => exact h.take rfl
    | cumulative => exact h.total rfl

theorem total_eq [CharZero α] (h : Summarizes calls acc) : acc.total = trueMean calls .cumulative := by
  by_cases hzero : stepCount calls = 0
  · rw [trueMean, if_pos hzero]
    exact h.unstepped hzero
  · rw [trueMean, if_neg hzero]
    exact eq_div_of_mul_eq (Nat.cast_ne_zero.mpr hzero) h.mean

theorem take_eq (h : Summarizes calls acc) : acc.take.1 = trueMean calls .sinceLastQuery := by
  rw [trueMean, max_comm, ← h.windowSum, ← h.windowSteps]
  rfl

end Summarizes

/-- The run of the accumulator keeps the sums and counts of the calls. -/
theorem summarizes_after [CharZero α] (calls : List (Call α)) : Summarizes calls (empty.after calls) := by
  induction calls using List.reverseRecOn with
  | nil => exact summarizes_empty
  | append_singleton calls call ih =>
    rw [after_concat]
    exact ih.act call

end Field

/-! ## Readings of two kinds -/

section Interference

variable {α : Type} [Zero α] [Add α] [Sub α] [Div α] [NatCast α]

/-- Two accumulators that agree on all that the readings of one window come from. -/
def Agrees : Window → RunningMean α → RunningMean α → Prop
  | .cumulative, acc, other => acc.pending = other.pending ∧ acc.mean = other.mean ∧ acc.steps = other.steps
  | .sinceLastQuery, acc, other => acc.windowSum = other.windowSum ∧ acc.windowSteps = other.windowSteps

namespace Agrees

variable {window hidden : Window} {acc other : RunningMean α} {call : Call α}

omit [Zero α] [Add α] [Sub α] [Div α] [NatCast α] in
theorem refl (window : Window) (acc : RunningMean α) : Agrees window acc acc := by
  cases window <;> simp only [Agrees, and_self]

/-- The same call keeps the agreement. -/
theorem act (h : Agrees window acc other) (call : Call α) :
    Agrees window (acc.act call).2 (other.act call).2 := by
  rcases call with amount | _ | _ | _ | _ | _ <;> cases window <;>
    simp only [Agrees, RunningMean.act, RunningMean.add, RunningMean.step, RunningMean.take,
      RunningMean.read] at h ⊢ <;> simp only [h, and_self]

/-- A reading of another window is not seen. -/
theorem act_left (h : Agrees window acc other) (hcall : call.window? = some hidden)
    (hdiff : hidden ≠ window) : Agrees window acc (other.act call).2 := by
  rcases call with amount | _ | _ | _ | _ | _ <;> cases hcall <;> cases window <;>
    first | exact absurd rfl hdiff | exact h

/-- A reading of the window returns the same value. -/
theorem value_eq (h : Agrees window acc other) (hcall : call.window? = some window) :
    (acc.act call).1 = (other.act call).1 := by
  rcases call with amount | _ | _ | _ | _ | _ <;> cases hcall <;>
    simp only [Agrees] at h <;>
    simp only [RunningMean.act, RunningMean.take, RunningMean.total, RunningMean.read, h]

/-- Leaving out the readings of another window changes no reading of this one. -/
theorem readings_filter (h : Agrees window acc other) (hdiff : hidden ≠ window) (calls : List (Call α)) :
    readings window acc (calls.filter (·.window? ≠ some hidden)) = readings window other calls := by
  induction calls generalizing acc other with
  | nil => rfl
  | cons call calls ih =>
    by_cases hhidden : call.window? = some hidden
    · have hother : call.window? ≠ some window := fun hwindow ↦
        hdiff (Option.some.inj (hhidden.symm.trans hwindow))
      rw [List.filter_cons_of_neg (by simpa using hhidden), ih (h.act_left hhidden hdiff), readings,
        if_neg hother, List.nil_append]
    · rw [List.filter_cons_of_pos (by simpa using hhidden), readings, readings, ih (h.act call)]
      by_cases hwindow : call.window? = some window
      · rw [if_pos hwindow, if_pos hwindow, h.value_eq hwindow]
      · rw [if_neg hwindow, if_neg hwindow]

end Agrees

end Interference

/-- In exact arithmetic every reading, after any sequence of calls, returns the true mean of its window:
the long-term one the mean of what was added before the last step over all steps, the windowed one the
mean of what was added since the last windowed reading over the steps since, a window without steps
counting as one step.  And what the readings of one kind return does not depend on those of the other. -/
theorem reads_true_means :
    (∀ (calls : List (Call ℚ)) (call : Call ℚ),
      ((empty.after calls).act call).1 = call.window?.map (trueMean calls)) ∧
    (∀ calls : List (Call ℚ),
      readings .cumulative empty (calls.filter (·.window? ≠ some .sinceLastQuery)) =
        readings .cumulative empty calls) ∧
    ∀ calls : List (Call ℚ),
      readings .sinceLastQuery empty (calls.filter (·.window? ≠ some .cumulative)) =
        readings .sinceLastQuery empty calls := by
  refine ⟨fun calls call ↦ ?_, (Agrees.refl .cumulative empty).readings_filter nofun,
    (Agrees.refl .sinceLastQuery empty).readings_filter nofun⟩
  have h := summarizes_after calls
  rcases call with amount | _ | _ | _ | _ | _
  · rfl
  · rfl
  · exact congrArg some h.take_eq
  · exact congrArg some h.total_eq
  · exact congrArg some h.take_eq
  · exact congrArg some h.total_eq

/-- The readings of two steps, with a reading of each kind in between. -/
example :
    readings .cumulative empty
        [.add (4 : ℚ), .step, .take, .add 6, .total, .step, .add 1, .read .sinceLastQuery, .total] = [4, 5] ∧
      readings .sinceLastQuery empty
        [.add (4 : ℚ), .step, .take, .add 6, .total, .step, .add 1, .read .sinceLastQuery, .total] =
        [4, 7] := by
  decide +kernel

end RadioAccess.RunningMean
