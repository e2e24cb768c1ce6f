import RadioAccess.Fault

/-!
# Results of Checked Computations

A checked computation that has a result went through all of its steps.  The lemmas here take such a
computation apart, one step at a time.
-/

namespace RadioAccess

theorem bind_eq_ok_iff {ε α β : Type} {x : Except ε α} {f : α → Except ε β} {b : β} :
    x >>= f = .ok b ↔ ∃ a, x = .ok a ∧ f a = .ok b := by
  cases x with
  | error reason => simp [bind, Except.bind]
  | ok a => simp [bind, Except.bind]

theorem pure_eq_ok_iff {ε α : Type} {a b : α} : (pure a : Except ε α) = .ok b ↔ a = b := by
  simp [pure, Except.pure]

theorem ok_bind {ε α β : Type} (a : α) (f : α → Except ε β) : Except.ok a >>= f = f a := rfl

theorem bind_eq_error_iff {ε α β : Type} {x : Except ε α} {f : α → Except ε β} {reason : ε} :
    x >>= f = .error reason ↔ x = .error reason ∨ ∃ a, x = .ok a ∧ f a = .error reason := by
  cases x with
  | error other => simp [bind, Except.bind]
  | ok a => simp [bind, Except.bind]

theorem pure_ne_error {ε α : Type} {a : α} {reason : ε} : (pure a : Except ε α) ≠ .error reason := by
  simp [pure, Except.pure]

theorem exists_ok_of_isOk {ε α : Type} {x : Except ε α} {p : α → Prop} (h : x.isOk = true)
    (hp : ∀ a, x = .ok a → p a) : ∃ a, x = .ok a ∧ p a := by
  cases x with
  | error fault => cases h
  | ok a => exact ⟨a, rfl, hp a rfl⟩

theorem exists_ok_of_any {ε α : Type} {x : Except ε α} {q : α → Prop} (p : α → Bool)
    (h : x.toOption.any p = true) (hq : ∀ a, x = .ok a → p a = true → q a) : ∃ a, x = .ok a ∧ q a := by
  cases x with
  | error fault => cases h
  | ok a => exact ⟨a, rfl, hq a rfl h⟩

theorem eq_error_of_map_eq_error {ε α β : Type} {x : Except ε α} {f : α → β} {reason : ε}
    (h : x.map f = .error reason) : x = .error reason := by
  cases x with
  | error other =>
    cases h
    rfl
  | ok a => cases h

/-- What each step of a fold keeps, the items that it has gone through included, holds at its end. -/
theorem foldlM_eq_ok_induction {α β : Type} {f : α → β → Except Fault α} (P : List β → α → Prop)
    (step : ∀ done a item next, P done a → f a item = .ok next → P (done ++ [item]) next)
    {items : List β} {a c : α} (h : items.foldlM f a = .ok c) (start : P [] a) : P items c := by
  have general (done : List β) (hdone : P done a) : P (done ++ items) c := by
    clear start
    induction items generalizing done a with
    | nil =>
      rw [List.foldlM_nil, pure_eq_ok_iff] at h
      rw [List.append_nil, ← h]
      exact hdone
    | cons item items ih =>
      rw [List.foldlM_cons, bind_eq_ok_iff] at h
      obtain ⟨next, hnext, hrest⟩ := h
      have hlast := ih hrest (done ++ [item]) (step done a item next hdone hnext)
      rwa [List.append_assoc, List.singleton_append] at hlast
  exact general [] start

/-- A fold is refused a result where the first of its steps is. -/
theorem foldlM_eq_error_iff {ε α β : Type} {f : α → β → Except ε α} {items : List β} {a : α} {reason : ε} :
    items.foldlM f a = .error reason ↔
      ∃ done item rest b, items = done ++ item :: rest ∧ done.foldlM f a = .ok b ∧
        f b item = .error reason := by
  constructor
  · intro h
    induction items generalizing a with
    | nil => cases h
    | cons item items ih =>
      rw [List.foldlM_cons, bind_eq_error_iff] at h
      rcases h with hitem | ⟨b, hitem, hrest⟩
      · exact ⟨[], item, items, a, rfl, rfl, hitem⟩
      · obtain ⟨done, last, rest, c, rfl, hdone, hlast⟩ := ih hrest
        refine ⟨item :: done, last, rest, c, rfl, ?_, hlast⟩
        rw [List.foldlM_cons, hitem, ok_bind, hdone]
  · rintro ⟨done, item, rest, b, rfl, hdone, hitem⟩
    rw [List.foldlM_append, hdone, ok_bind, List.foldlM_cons, hitem]
    rfl

/-- If any two steps can change places, so can all of them. -/
theorem foldlM_eq_ok_of_perm {ε α β : Type} {f : α → β → Except ε α}
    (hcomm : ∀ a x b y c, f a x = .ok b → f b y = .ok c → ∃ b', f a y = .ok b' ∧ f b' x = .ok c)
    {items others : List β} (hperm : items.Perm others) {a c : α} (h : items.foldlM f a = .ok c) :
    others.foldlM f a = .ok c := by
  induction hperm generalizing a with
  | nil => exact h
  | cons item _ ih =>
    rw [List.foldlM_cons, bind_eq_ok_iff] at h ⊢
    obtain ⟨b, hitem, hrest⟩ := h
    exact ⟨b, hitem, ih hrest⟩
  | swap x y rest =>
    simp only [List.foldlM_cons, bind_eq_ok_iff] at h ⊢
    obtain ⟨b, hfirst, b', hsecond, hrest⟩ := h
    obtain ⟨other, hother, hlast⟩ := hcomm a y b x b' hfirst hsecond
    exact ⟨other, hother, b', hlast, hrest⟩
  | trans _ _ ih₁ ih₂ => exact ih₂ (ih₁ h)

namespace Word

/-- A sum of words is refused only if it does not fit. -/
theorem add64_eq_ok {a b : UInt64} (h : a.toNat + b.toNat < UInt64.size) : add64 a b = .ok (a + b) := by
  rw [add64, if_pos h]

theorem add64_eq_error {a b : UInt64} (h : ¬a.toNat + b.toNat < UInt64.size) :
    add64 a b = .error .addOverflow := by
  rw [add64, if_neg h]

/-- A sum of half words is refused only if it does not fit. -/
theorem add32_eq_ok {a b : UInt32} (h : a.toNat + b.toNat < UInt32.size) : add32 a b = .ok (a + b) := by
  rw [add32, if_pos h]

/-- A product of half words is refused only if it does not fit. -/
theorem fault_of_mul32 {a b : UInt32} {fault : Fault} (h : mul32 a b = .error fault) :
    fault = .multiplyOverflow ∧ ¬a.toNat * b.toNat < UInt32.size := by
  unfold mul32 at h
  split at h
  · cases h
  · cases h
    exact ⟨rfl, ‹_›⟩

theorem eq_add_of_add64_eq_ok {a b c : UInt64} (h : add64 a b = .ok c) : c = a + b := by
  unfold add64 at h
  split at h
  · exact (Except.ok.inj h).symm
  · cases h

theorem eq_add_of_add32_eq_ok {a b c : UInt32} (h : add32 a b = .ok c) : c = a + b := by
  unfold add32 at h
  split at h
  · exact (Except.ok.inj h).symm
  · cases h

end Word

end RadioAccess
