import RadioAccess.Bisection

/-!
# Rings

A queue laid out in a ring of places.  The elements lie in consecutive places from `start` on, and
behind the last place follows the first one; that is the seam.  An insertion moves the elements of the
shorter side by one place, and a full ring doubles.

The list of elements, in the order of departure, says what every operation does: `insert` puts an
element at a position, `dequeue?` takes the first one.  The places show only in `changePoint`, which
bisects one of the two parts that the seam separates.  Of elements that satisfy the condition up to
some point and not from there on it finds that point, wherever the seam is (`changePoint_eq`); of
others the answer depends on the places, which are therefore accounted for.
-/

namespace RadioAccess

/-- A queue in a ring of `places`, of which number `start` holds the first element. -/
structure Ring (α : Type) where
  /-- The elements in the order of departure, behind those that have left. -/
  stored : Array α
  /-- How many of the stored elements have left. -/
  taken : Nat
  taken_le : taken ≤ stored.size
  places : Nat
  start : Nat

namespace Ring

variable {α : Type}

def empty : Ring α :=
  { stored := #[], taken := 0, taken_le := Nat.le_refl 0, places := 0, start := 0 }

/-- The elements in the order of departure. -/
def items (ring : Ring α) : List α := ring.stored.toList.drop ring.taken

def length (ring : Ring α) : Nat := ring.stored.size - ring.taken

def isEmpty (ring : Ring α) : Bool := ring.length == 0

def get? (ring : Ring α) (position : Nat) : Option α := ring.stored[ring.taken + position]?

def head? (ring : Ring α) : Option α := ring.get? 0

/-! ## Arrival -/

/-- The number of places of the first ring that holds an element. -/
def fewestPlaces : Nat := 4

/-- The ring with place for one more element.  In a full ring `start` elements lie behind the seam.
When it doubles, the shorter part moves: what lies behind the seam goes to the places after it, or
what lies before the seam goes to the end of the new ring. -/
def withRoom (ring : Ring α) : Ring α :=
  if ring.length < ring.places then ring
  else
    let places := max fewestPlaces (2 * ring.places)
    if ring.start = 0 ∨ 2 * ring.start < ring.places then { ring with places }
    else { ring with places, start := ring.start + (places - ring.places) }

def store (ring : Ring α) (position : Nat) (a : α) : Ring α :=
  if h : ring.taken + position ≤ ring.stored.size then
    { ring with
      stored := ring.stored.insertIdx (ring.taken + position) a h
      taken_le := by
        rw [Array.size_insertIdx]
        exact Nat.le_succ_of_le ring.taken_le }
  else ring

/-- Puts an element at a position.  What lies behind it moves if that is less than what lies before
it; otherwise what lies before it moves, and with it the start. -/
def insert (ring : Ring α) (position : Nat) (a : α) : Ring α :=
  let ring := ring.withRoom
  if ring.length - position < position then ring.store position a
  else
    let start := (ring.start + ring.places - 1) % ring.places
    { ring.store position a with start }

/-! ## Departure -/

/-- The ring without its first element, which stays stored until as many have left as wait. -/
def discardFirst (ring : Ring α) (h : ring.taken < ring.stored.size) : Ring α :=
  let start := (ring.start + 1) % ring.places
  if ring.stored.size ≤ 2 * (ring.taken + 1) then
    { ring with
      stored := ring.stored.extract (ring.taken + 1) ring.stored.size
      taken := 0, taken_le := Nat.zero_le _, start }
  else { ring with taken := ring.taken + 1, taken_le := h, start }

/-- The element that leaves first and what waits behind it. -/
def dequeue? (ring : Ring α) : Option (α × Ring α) :=
  if h : ring.taken < ring.stored.size then some (ring.stored[ring.taken], ring.discardFirst h)
  else none

/-! ## Search -/

def seam (ring : Ring α) : Nat := ring.places - ring.start

/-- Whether there is an element at a position and it satisfies `p`. -/
def holdsAt (ring : Ring α) (p : α → Bool) (position : Nat) : Bool := (ring.get? position).any p

/-- Where the elements cease to satisfy `p`, by bisection of the part behind the seam if its first
element satisfies `p`, and of the part before the seam otherwise. -/
def changePoint (p : α → Bool) (ring : Ring α) : Nat :=
  if ring.holdsAt p ring.seam then
    ring.seam + Bisection.changePoint (fun i ↦ ring.holdsAt p (ring.seam + i)) (ring.length - ring.seam)
  else Bisection.changePoint (ring.holdsAt p) (min ring.seam ring.length)

/-! ## The view -/

@[simp]
theorem length_items (ring : Ring α) : ring.items.length = ring.length := by
  simp [items, length]

@[simp]
theorem getElem?_items (ring : Ring α) (position : Nat) :
    ring.items[position]? = ring.get? position := by
  simp [items, get?]

theorem head?_items (ring : Ring α) : ring.items.head? = ring.head? := by
  rw [List.head?_eq_getElem?, getElem?_items, head?]

@[simp]
theorem items_withRoom (ring : Ring α) : ring.withRoom.items = ring.items := by
  simp only [withRoom]
  split
  · rfl
  · split <;> rfl

theorem drop_insertIdx {items : List α} {taken : Nat} (h : taken ≤ items.length) (position : Nat)
    (a : α) :
    (items.insertIdx (taken + position) a).drop taken = (items.drop taken).insertIdx position a := by
  induction taken generalizing items with
  | zero => simp
  | succ taken ih =>
    cases items with
    | nil => simp at h
    | cons b items =>
      rw [Nat.succ_add, List.insertIdx_succ_cons]
      exact ih (Nat.le_of_succ_le_succ h)

theorem items_store (ring : Ring α) (position : Nat) (a : α) :
    (ring.store position a).items = ring.items.insertIdx position a := by
  unfold store
  split
  · simp only [items, Array.toList_insertIdx]
    exact drop_insertIdx (by simpa using ring.taken_le) position a
  · rename_i hbeyond
    rw [List.insertIdx_of_length_lt]
    have := ring.taken_le
    rw [length_items, length]
    omega

/-- An insertion puts an element at a position. -/
@[simp]
theorem items_insert (ring : Ring α) (position : Nat) (a : α) :
    (ring.insert position a).items = ring.items.insertIdx position a := by
  simp only [insert]
  split
  · rw [items_store, items_withRoom]
  · exact (items_store _ _ _).trans (by rw [items_withRoom])

theorem items_discardFirst (ring : Ring α) (h : ring.taken < ring.stored.size) :
    (ring.discardFirst h).items = ring.items.tail := by
  simp only [discardFirst, items]
  split
  · simp [List.take_of_length_le]
  · simp

theorem dequeue?_eq_none_iff (ring : Ring α) : ring.dequeue? = none ↔ ring.items = [] := by
  simp [dequeue?, items]

/-- The element that leaves was the first one. -/
theorem items_of_dequeue? {ring rest : Ring α} {a : α} (h : ring.dequeue? = some (a, rest)) :
    ring.items = a :: rest.items := by
  unfold dequeue? at h
  split at h
  · rename_i hsize
    simp only [Option.some.injEq, Prod.mk.injEq] at h
    obtain ⟨rfl, rfl⟩ := h
    rw [items_discardFirst, items, List.tail_drop, ← Array.getElem_toList]
    exact List.drop_eq_getElem_cons (by simpa using hsize)
  · simp at h

/-- Elements that satisfy the condition up to some point and not from there on change at that point,
on whichever side of the seam it is. -/
theorem changePoint_eq {p : α → Bool} {ring : Ring α} {front back : List α}
    (hitems : ring.items = front ++ back) (hfront : ∀ a ∈ front, p a = true)
    (hback : ∀ a ∈ back, p a = false) : ring.changePoint p = front.length := by
  have hlength : ring.length = front.length + back.length := by
    rw [← length_items, hitems, List.length_append]
  have hholds (i : Nat) : ring.holdsAt p i = true ↔ i < front.length := by
    rw [holdsAt, ← getElem?_items, hitems]
    by_cases hlt : i < front.length
    · simp [List.getElem?_append_left hlt, hlt, hfront _ (List.getElem_mem hlt)]
    · rw [List.getElem?_append_right (Nat.le_of_not_lt hlt)]
      cases hget : back[i - front.length]? with
      | none => simp [hlt]
      | some a => simp [hlt, hback a (List.mem_of_getElem? hget)]
  unfold changePoint
  split
  · rename_i hseam
    have hlt := (hholds _).mp hseam
    have hpoint : Bisection.changePoint (fun i ↦ ring.holdsAt p (ring.seam + i))
        (ring.length - ring.seam) = front.length - ring.seam := by
      refine Bisection.changePoint_eq (by omega) fun i _ ↦ ?_
      rw [hholds]
      omega
    omega
  · rename_i hseam
    have hle : ¬ ring.seam < front.length := fun hlt ↦ hseam ((hholds _).mpr hlt)
    exact Bisection.changePoint_eq (by omega) fun i _ ↦ hholds i

end Ring

end RadioAccess
