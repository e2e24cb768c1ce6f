/-!
# First In, First Out

A queue as two lists: one in the order of departure and one, newest first, of what arrived later.  Every
operation turns the second list over when the first one runs empty, so the element in front is always at
hand.  The view `Fifo.toList` lists the queue in the order of departure, and each operation is described
by what it does to the view.
-/

namespace RadioAccess

/-- A queue of which `front` leaves first; `back` is reversed. -/
structure Fifo (α : Type) where
  front : List α
  back : List α

namespace Fifo

variable {α : Type}

def empty : Fifo α := { front := [], back := [] }

/-- The elements in the order of departure. -/
def toList (queue : Fifo α) : List α := queue.front ++ queue.back.reverse

def length (queue : Fifo α) : Nat := queue.front.length + queue.back.length

def isEmpty (queue : Fifo α) : Bool := queue.front.isEmpty && queue.back.isEmpty

/-- A queue of two lists, of which the second one is turned over if the first one is empty. -/
def ofLists (front back : List α) : Fifo α :=
  match front with
  | [] => { front := back.reverse, back := [] }
  | a :: front => { front := a :: front, back }

def enqueue (queue : Fifo α) (a : α) : Fifo α := ofLists queue.front (a :: queue.back)

/-- Puts an element before all others. -/
def putBack (queue : Fifo α) (a : α) : Fifo α := { queue with front := a :: queue.front }

/-- The element that leaves first and what waits behind it. -/
def dequeue? (queue : Fifo α) : Option (α × Fifo α) :=
  match queue.front with
  | a :: front => some (a, ofLists front queue.back)
  | [] =>
    match queue.back.reverse with
    | a :: front => some (a, ofLists front [])
    | [] => none

def head? (queue : Fifo α) : Option α :=
  match queue.front with
  | a :: _ => some a
  | [] => queue.back.getLast?

/-! ## The view -/

@[simp]
theorem toList_empty : (empty : Fifo α).toList = [] := rfl

@[simp]
theorem length_toList (queue : Fifo α) : queue.toList.length = queue.length := by
  simp [toList, length]

theorem isEmpty_iff (queue : Fifo α) : queue.isEmpty = true ↔ queue.toList = [] := by
  simp [isEmpty, toList]

@[simp]
theorem toList_ofLists (front back : List α) : (ofLists front back).toList = front ++ back.reverse := by
  cases front <;> simp [ofLists, toList]

@[simp]
theorem toList_enqueue (queue : Fifo α) (a : α) :
    (queue.enqueue a).toList = queue.toList ++ [a] := by
  rw [enqueue, toList_ofLists]
  simp [toList]

@[simp]
theorem toList_putBack (queue : Fifo α) (a : α) :
    (queue.putBack a).toList = a :: queue.toList := rfl

theorem dequeue?_eq_none_iff (queue : Fifo α) : queue.dequeue? = none ↔ queue.toList = [] := by
  obtain ⟨front, back⟩ := queue
  cases front with
  | cons a front => simp [dequeue?, toList]
  | nil =>
    cases h : back.reverse with
    | nil => simp [dequeue?, toList, h]
    | cons a rest => simp [dequeue?, toList, h]

theorem toList_of_dequeue? {queue rest : Fifo α} {a : α} (h : queue.dequeue? = some (a, rest)) :
    queue.toList = a :: rest.toList := by
  obtain ⟨front, back⟩ := queue
  cases front with
  | cons b front =>
    simp only [dequeue?, Option.some.injEq, Prod.mk.injEq] at h
    obtain ⟨rfl, rfl⟩ := h
    rw [toList_ofLists]
    rfl
  | nil =>
    cases hb : back.reverse with
    | nil => simp [dequeue?, hb] at h
    | cons b front =>
      simp only [dequeue?, hb, Option.some.injEq, Prod.mk.injEq] at h
      obtain ⟨rfl, rfl⟩ := h
      rw [toList_ofLists]
      simp [toList, hb]

theorem length_of_dequeue? {queue rest : Fifo α} {a : α} (h : queue.dequeue? = some (a, rest)) :
    queue.length = rest.length + 1 := by
  have := congrArg List.length (toList_of_dequeue? h)
  simpa using this

theorem head?_eq_head?_toList (queue : Fifo α) : queue.head? = queue.toList.head? := by
  obtain ⟨front, back⟩ := queue
  cases front with
  | cons a front => rfl
  | nil => simp [head?, toList]

end Fifo

end RadioAccess
