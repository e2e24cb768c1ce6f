import RadioAccess.Emulator.Network
import RadioAccess.Proofs.Grid.Simulation

/-!
# Independent Jobs

The jobs of one round do not see each other.  A step of a user is a function of that user.  A pass over
the grid of a direction reads the links of that direction and the weights of the users, and changes
nothing but these links: made over users that differ only in their other links, it visits the cells in
the same way and does the same to the links.  So two jobs of a round can change places.
-/

namespace RadioAccess

/-- A user with the link of one direction taken from another one. -/
def User.takeLink (user : User) (direction : Direction) (source : User) : User :=
  { user with links := user.links.set (source.links.get direction) direction }

namespace Network

/-! ## Users -/

theorem stepUser_eq_ok_iff {network after : Network} {i : Nat} {now : Float} :
    network.stepUser i now = .ok after ↔
      network.users[i]? = none ∧ network = after ∨
        ∃ user stepped, network.users[i]? = some user ∧ user.step now = .ok stepped ∧
          { network with users := network.users.setIfInBounds i stepped } = after := by
  rw [stepUser]
  cases network.users[i]? with
  | none => simp
  | some user => simp [-bind_pure_comp, bind_eq_ok_iff, pure_eq_ok_iff]

/-- Two users move on independently. -/
theorem stepUser_comm {network middle after : Network} {i j : Nat} {now : Float}
    (hfirst : network.stepUser i now = .ok middle) (hsecond : middle.stepUser j now = .ok after) :
    ∃ swapped, network.stepUser j now = .ok swapped ∧ swapped.stepUser i now = .ok after := by
  by_cases hsame : i = j
  · subst hsame
    exact ⟨middle, hfirst, hsecond⟩
  simp only [stepUser_eq_ok_iff] at hfirst hsecond ⊢
  have hi (user : User) : (network.users.setIfInBounds j user)[i]? = network.users[i]? :=
    Array.getElem?_setIfInBounds_ne (Ne.symm hsame)
  have hj (user : User) : (network.users.setIfInBounds i user)[j]? = network.users[j]? :=
    Array.getElem?_setIfInBounds_ne hsame
  rcases hfirst with ⟨hnone, rfl⟩ | ⟨first, moved, hfirst, hmove, rfl⟩
  · rcases hsecond with ⟨hnobody, rfl⟩ | ⟨second, stepped, hsecond, hstep, rfl⟩
    · exact ⟨network, .inl ⟨hnobody, rfl⟩, .inl ⟨hnone, rfl⟩⟩
    · exact ⟨_, .inr ⟨second, stepped, hsecond, hstep, rfl⟩, .inl ⟨(hi stepped).trans hnone, rfl⟩⟩
  · rw [hj] at hsecond
    rcases hsecond with ⟨hnobody, rfl⟩ | ⟨second, stepped, hsecond, hstep, rfl⟩
    · exact ⟨network, .inl ⟨hnobody, rfl⟩, .inr ⟨first, moved, hfirst, hmove, rfl⟩⟩
    · refine ⟨_, .inr ⟨second, stepped, hsecond, hstep, rfl⟩,
        .inr ⟨first, moved, (hi stepped).trans hfirst, hmove, ?_⟩⟩
      rw [Array.setIfInBounds_comm _ _ (Ne.symm hsame)]

/-! ## Grids -/

/-- Users with their links of one direction taken from others. -/
def takeLinks (direction : Direction) (users source : Array User) : Array User :=
  users.zipWith (User.takeLink · direction ·) source

/-- Whether users are others, of the same weights, with their links of one direction taken from third
ones. -/
structure Mirrors (direction : Direction) (base state mirror : Array User) : Prop where
  weights : state.map User.weights = base.map User.weights
  eq_takeLinks : mirror = takeLinks direction base state

variable {direction other : Direction} {base state mirror users source : Array User}

theorem getElem?_takeLinks (direction : Direction) (users source : Array User) (i : Nat) :
    (takeLinks direction users source)[i]? =
      users[i]?.bind fun user ↦ source[i]?.map (user.takeLink direction) := by
  rw [takeLinks, Array.getElem?_zipWith]
  cases users[i]? <;> cases source[i]? <;> rfl

theorem map_takeLinks {α : Type} (f : User → α) (hf : ∀ user reflected : User,
      f (user.takeLink direction reflected) = f user) (hsize : source.size = users.size) :
    (takeLinks direction users source).map f = users.map f := by
  apply Array.ext_getElem?
  intro i
  rw [Array.getElem?_map, Array.getElem?_map, getElem?_takeLinks]
  cases huser : users[i]? with
  | none => rfl
  | some user =>
    obtain ⟨reflected, hreflected⟩ : ∃ reflected, source[i]? = some reflected := by
      obtain ⟨hlt, -⟩ := Array.getElem?_eq_some_iff.mp huser
      exact ⟨source[i], Array.getElem?_eq_getElem (hsize ▸ hlt)⟩
    rw [hreflected]
    exact congrArg some (hf user reflected)

/-- Nothing changes when users take the links that they have already. -/
theorem takeLinks_eq_self
    (h : source.map (·.links.get direction) = users.map (·.links.get direction)) :
    takeLinks direction users source = users := by
  apply Array.ext_getElem?
  intro i
  have hi := congrArg (·[i]?) h
  simp only [Array.getElem?_map] at hi
  rw [getElem?_takeLinks]
  cases huser : users[i]? with
  | none => rfl
  | some user =>
    rw [huser] at hi
    obtain ⟨reflected, hreflected, hlink⟩ := Option.map_eq_some_iff.mp hi
    rw [hreflected]
    simp only [Option.bind_some, Option.map_some, User.takeLink, hlink, PerDirection.set_get_self]

/-- Links of two directions can be taken one after the other in either order. -/
theorem takeLinks_comm (hne : direction ≠ other) (users source further : Array User) :
    takeLinks other (takeLinks direction users source) further =
      takeLinks direction (takeLinks other users further) source := by
  apply Array.ext_getElem?
  intro i
  simp only [getElem?_takeLinks]
  cases users[i]? <;> cases source[i]? <;> cases further[i]? <;>
    simp [User.takeLink, PerDirection.set_comm _ _ _ hne]

theorem Mirrors.size_eq (h : Mirrors direction base state mirror) : state.size = base.size := by
  rw [← Array.size_map (f := User.weights), h.weights, Array.size_map]

theorem Mirrors.getElem? (h : Mirrors direction base state mirror) (i : Nat) :
    state[i]? = none ∧ mirror[i]? = none ∨
      ∃ user reflected, state[i]? = some user ∧ mirror[i]? = some reflected ∧
        reflected.links.get direction = user.links.get direction ∧
        reflected.weights = user.weights := by
  have hi := congrArg (·[i]?) h.weights
  simp only [Array.getElem?_map] at hi
  rw [h.eq_takeLinks, getElem?_takeLinks]
  cases hbase : base[i]? with
  | none =>
    rw [hbase] at hi
    exact .inl ⟨Option.map_eq_none_iff.mp hi, rfl⟩
  | some user =>
    rw [hbase] at hi
    obtain ⟨entry, hentry, hweights⟩ := Option.map_eq_some_iff.mp hi
    exact .inr ⟨entry, user.takeLink direction entry, hentry, by rw [hentry]; rfl,
      PerDirection.get_set_self _ _ _, hweights.symm⟩

/-- A link of the direction that is replaced in the state is replaced in its mirror image too. -/
theorem Mirrors.set (h : Mirrors direction base state mirror) {i : Nat} {user reflected : User}
    (huser : state[i]? = some user) (hreflected : mirror[i]? = some reflected) (link : Link) :
    Mirrors direction base
      (state.setIfInBounds i { user with links := user.links.set link direction })
      (mirror.setIfInBounds i { reflected with links := reflected.links.set link direction }) := by
  obtain ⟨hi, -⟩ := Array.getElem?_eq_some_iff.mp huser
  obtain ⟨hi', -⟩ := Array.getElem?_eq_some_iff.mp hreflected
  constructor
  · rw [← h.weights]
    apply Array.ext_getElem?
    intro j
    rw [Array.getElem?_map, Array.getElem?_map]
    by_cases hsame : i = j
    · subst hsame
      rw [Array.getElem?_setIfInBounds_self_of_lt hi, huser]
      rfl
    · rw [Array.getElem?_setIfInBounds_ne hsame]
  · apply Array.ext_getElem?
    intro j
    have hj : mirror[j]? = base[j]?.bind fun user ↦ state[j]?.map (user.takeLink direction) := by
      rw [h.eq_takeLinks, getElem?_takeLinks]
    rw [getElem?_takeLinks]
    by_cases hsame : i = j
    · subst hsame
      rw [Array.getElem?_setIfInBounds_self_of_lt hi, Array.getElem?_setIfInBounds_self_of_lt hi']
      rw [hreflected, huser] at hj
      obtain ⟨user', hbase, hlink⟩ := Option.bind_eq_some_iff.mp hj.symm
      cases hlink
      simp [hbase, User.takeLink]
    · rw [Array.getElem?_setIfInBounds_ne hsame, Array.getElem?_setIfInBounds_ne hsame, hj]

/-- A pass over mirrored users does to their links what it does to the links that they mirror. -/
theorem simulates_mirrors (channel : Channel) (direction : Direction) (now : Float)
    (base : Array User) :
    (directory channel direction now).Simulates (directory channel direction now)
      (Mirrors direction base) := by
  constructor
  case users =>
    intro state mirror h
    change mirror.size = state.size
    rw [h.eq_takeLinks, takeLinks, Array.size_zipWith, h.size_eq, Nat.min_self]
  case candidate =>
    intro state mirror h
    funext user group time
    rcases h.getElem? user with ⟨hstate, hmirror⟩ | ⟨_, _, hstate, hmirror, hlink, hweights⟩
    · simp only [directory, hstate, hmirror]
    · simp only [directory, hstate, hmirror, hlink, hweights]
  case deliver =>
    intro state mirror grant delivered after h hdeliver
    simp only [directory, deliver] at hdeliver ⊢
    rcases h.getElem? grant.user with ⟨hstate, hmirror⟩ |
      ⟨user, reflected, hstate, hmirror, hlink, -⟩
    · rw [hstate] at hdeliver
      cases hdeliver
      exact ⟨mirror, by rw [hmirror], h⟩
    · simp only [hstate, bind_eq_ok_iff, pure_eq_ok_iff] at hdeliver
      obtain ⟨⟨bits, link⟩, hspend, heq⟩ := hdeliver
      cases heq
      refine ⟨_, ?_, h.set hstate hmirror link⟩
      simp only [hmirror, hlink, hspend, ok_bind]
      rfl

theorem Mirrors.of_links_eq (hweights : state.map User.weights = base.map User.weights)
    (hlinks : state.map (·.links.get direction) = base.map (·.links.get direction)) :
    Mirrors direction base state base :=
  ⟨hweights, (takeLinks_eq_self hlinks).symm⟩

theorem Mirrors.map_weights (h : Mirrors direction base state mirror) :
    mirror.map User.weights = base.map User.weights := by
  rw [h.eq_takeLinks]
  exact map_takeLinks _ (fun _ _ ↦ rfl) h.size_eq

theorem Mirrors.map_links_of_ne (h : Mirrors direction base state mirror) (hne : direction ≠ other) :
    mirror.map (·.links.get other) = base.map (·.links.get other) := by
  rw [h.eq_takeLinks]
  exact map_takeLinks _ (fun _ _ ↦ PerDirection.get_set_of_ne _ _ hne) h.size_eq

variable {channel : Channel} {now : Float}

/-- A pass over users changes no more than their links of its direction. -/
theorem mirrors_of_pass {grid passed : Grid} {visits : List Visit} {after : Array User}
    (hpass : grid.pass (directory channel direction now) now users = .ok (visits, passed, after)) :
    Mirrors direction users after after := by
  obtain ⟨reflected, hreflected, hafter⟩ :=
    (simulates_mirrors channel direction now users).pass (.of_links_eq rfl rfl) hpass
  rw [hpass] at hreflected
  cases hreflected
  exact hafter

/-- Passes over the grids of different directions do the same in either order. -/
theorem pass_comm (hne : direction ≠ other) {grid passed next turned : Grid}
    {visits further : List Visit} {middle after : Array User}
    (hfirst : grid.pass (directory channel direction now) now users = .ok (visits, passed, middle))
    (hsecond : next.pass (directory channel other now) now middle = .ok (further, turned, after)) :
    ∃ swapped,
      next.pass (directory channel other now) now users = .ok (further, turned, swapped) ∧
        grid.pass (directory channel direction now) now swapped = .ok (visits, passed, after) := by
  have hmiddle := mirrors_of_pass hfirst
  have hafter := mirrors_of_pass hsecond
  -- The second pass finds before the first one the links that it finds after it.
  have hbehind : Mirrors other users middle users :=
    .of_links_eq hmiddle.map_weights (hmiddle.map_links_of_ne hne)
  obtain ⟨swapped, hnext, hswapped⟩ :=
    (simulates_mirrors channel other now users).pass hbehind hsecond
  -- Likewise the first one after the second one.
  have hahead : Mirrors direction swapped users swapped :=
    .of_links_eq hswapped.map_weights.symm (hswapped.map_links_of_ne (Ne.symm hne)).symm
  obtain ⟨last, hlast, hend⟩ :=
    (simulates_mirrors channel direction now swapped).pass hahead hfirst
  have hsame : last = after :=
    calc last = takeLinks direction swapped middle := hend.eq_takeLinks
      _ = takeLinks direction (takeLinks other users after) middle := by rw [← hswapped.eq_takeLinks]
      _ = takeLinks other (takeLinks direction users middle) after :=
        (takeLinks_comm hne _ _ _).symm
      _ = takeLinks other middle after := by rw [← hmiddle.eq_takeLinks]
      _ = after := hafter.eq_takeLinks.symm
  exact ⟨swapped, hnext, hsame ▸ hlast⟩

/-- The grids of two directions are passed over independently. -/
theorem stepGrid_comm {network middle after : Network}
    (hfirst : network.stepGrid direction now = .ok middle)
    (hsecond : middle.stepGrid other now = .ok after) :
    ∃ swapped, network.stepGrid other now = .ok swapped ∧ swapped.stepGrid direction now = .ok after := by
  by_cases hne : direction = other
  · subst hne
    exact ⟨middle, hfirst, hsecond⟩
  simp only [stepGrid, bind_eq_ok_iff, pure_eq_ok_iff] at hfirst hsecond
  obtain ⟨⟨visits, passed, users⟩, hpass, rfl⟩ := hfirst
  obtain ⟨⟨further, turned, final⟩, hnext, rfl⟩ := hsecond
  rw [PerDirection.get_set_of_ne _ _ hne] at hnext
  obtain ⟨swapped, hother, hlast⟩ := pass_comm hne hpass hnext
  refine ⟨_, by simp only [stepGrid, hother, ok_bind]; rfl, ?_⟩
  simp only [stepGrid, PerDirection.get_set_of_ne _ _ (Ne.symm hne), hlast, ok_bind]
  rw [PerDirection.set_comm _ _ _ (Ne.symm hne), PerDirection.set_comm _ _ _ (Ne.symm hne)]
  rfl

/-! ## The Number of Users -/

theorem size_users_of_stepUser {network after : Network} {i : Nat}
    (h : network.stepUser i now = .ok after) : after.users.size = network.users.size := by
  rcases stepUser_eq_ok_iff.mp h with ⟨-, rfl⟩ | ⟨_, _, -, -, rfl⟩
  · rfl
  · exact Array.size_setIfInBounds

theorem size_users_of_stepGrid {network after : Network}
    (h : network.stepGrid direction now = .ok after) : after.users.size = network.users.size := by
  simp only [stepGrid, bind_eq_ok_iff, pure_eq_ok_iff] at h
  obtain ⟨⟨visits, passed, users⟩, hpass, rfl⟩ := h
  exact (mirrors_of_pass hpass).size_eq

/-- No job makes users come or go. -/
theorem size_users_of_execute {network after : Network} {job : Job}
    (h : network.execute now job = .ok after) : after.users.size = network.users.size := by
  cases job with
  | user index => exact size_users_of_stepUser h
  | grid direction => exact size_users_of_stepGrid h

end Network

end RadioAccess
