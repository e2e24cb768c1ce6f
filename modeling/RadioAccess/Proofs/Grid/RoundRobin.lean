import RadioAccess.Proofs.Grid.Serving

/-!
# The Fairness of Taking Turns

Under the round robin metric the turn is to move on once with each cell that has symbols.  The rotation
does not know of cells: it sees queries, and takes a query for the first one of a sweep where the group
changes, where the user does not follow the one before, and where a pass begins.  Since every sweep begins
with the first user, which follows nobody, no sweep is missed, and since the users of a sweep follow each
other on one group, none is counted twice.  So the cells with symbols are offered to the users in turn,
over rows and passes and cells without symbols in between (`Grid.round_robin_takes_turns`).
-/

namespace RadioAccess

/-! ## One sweep -/

namespace Rotation

/-- The first user always begins a sweep. -/
theorem beginsSweep_zero (rotation : Rotation) (group : Nat) : rotation.beginsSweep group 0 = true := by
  rw [beginsSweep, Bool.or_eq_true]
  right
  cases rotation.lastUser with
  | none => rfl
  | some user => exact decide_eq_true (Nat.zero_le user)

theorem nextTurn_lt (turn : Option Nat) {users : Nat} (husers : 0 < users) :
    nextTurn turn users < users := by
  cases turn with
  | none => exact husers
  | some user => exact Nat.mod_lt _ husers

/-- The query for the first user moves the turn on. -/
theorem query_zero (rotation : Rotation) (group : Nat) {users : Nat} (husers : 0 < users) :
    rotation.query group 0 users = (nextTurn rotation.turn users == 0,
      { turn := some (nextTurn rotation.turn users), lastGroup := some group, lastUser := some 0 }) := by
  simp only [query, if_neg husers.ne', beginsSweep_zero, if_true, Option.any_some,
    Nat.mod_eq_of_lt (nextTurn_lt rotation.turn husers)]
  rfl

/-- The query for a user that follows the one before on its group leaves the turn where it is. -/
theorem query_succ {turn group user users : Nat} (hturn : turn < users) :
    query { turn := some turn, lastGroup := some group, lastUser := some user } group (user + 1) users =
      (turn == user + 1, { turn := some turn, lastGroup := some group, lastUser := some (user + 1) }) := by
  have husers : users ≠ 0 := (Nat.zero_le turn |>.trans_lt hturn).ne'
  have hfollows : beginsSweep { turn := some turn, lastGroup := some group, lastUser := some user } group
      (user + 1) = false := by
    simp [beginsSweep]
  simp only [query, if_neg husers, hfollows, Bool.false_eq_true, if_false, Option.any_some,
    Nat.mod_eq_of_lt hturn]
  rfl

end Rotation

namespace Grid

variable {σ : Type} {directory : Directory σ} {state : σ} {now : Float}

/-- The score of a user under a turn. -/
def turnScore (turn user : Nat) : Float := if turn = user then 1.0 else 0.0

/-- The scorer in a sweep that has come to a user. -/
def midSweep (turn group user : Nat) : Scorer :=
  { metric := .roundRobin
    rotation := { turn := some turn, lastGroup := some group, lastUser := some user } }

/-- The users that follow one on its group are scored by the turn that it left. -/
theorem ask_midSweep (group user count : Nat) {turn : Nat} (hturn : turn < directory.users state) :
    (∀ bid ∈ (ask directory state now group (midSweep turn group user) (List.range' (user + 1) count)).1,
        bid.score = turnScore turn bid.user) ∧
      (ask directory state now group (midSweep turn group user) (List.range' (user + 1) count)).2 =
        midSweep turn group (user + count) := by
  induction count generalizing user with
  | zero =>
    refine ⟨fun bid hbid ↦ ?_, rfl⟩
    cases hbid
  | succ count ih =>
    obtain ⟨hscores, hlast⟩ := ih (user + 1)
    rw [List.range'_succ, ask, midSweep]
    simp only [Scorer.score, Rotation.query_succ hturn]
    refine ⟨fun bid hbid ↦ ?_, ?_⟩
    · rcases List.mem_cons.1 hbid with rfl | hrest
      · simp [turnScore]
      · exact hscores bid hrest
    · have hcount : user + 1 + count = user + (count + 1) := by omega
      rw [hcount] at hlast
      exact hlast

/-- A sweep over all users moves the turn on once, and scores the users by it. -/
theorem askAll_roundRobin {group : Nat} {scorer last : Scorer} {bids : List Bid}
    (hmetric : scorer.metric = .roundRobin) (husers : 0 < directory.users state)
    (hask : askAll directory state now group scorer = (bids, last)) :
    last.metric = .roundRobin ∧
      last.rotation.turn = some (Rotation.nextTurn scorer.rotation.turn (directory.users state)) ∧
      ∀ bid ∈ bids,
        bid.score =
          turnScore (Rotation.nextTurn scorer.rotation.turn (directory.users state)) bid.user := by
  obtain ⟨_, rotation⟩ := scorer
  cases hmetric
  obtain ⟨count, hcount⟩ := Nat.exists_eq_succ_of_ne_zero husers.ne'
  obtain ⟨hscores, hlast⟩ := @ask_midSweep _ directory state now group 0 count _
    (Rotation.nextTurn_lt rotation.turn husers)
  have hrange : List.range (directory.users state) = 0 :: List.range' 1 count := by
    rw [hcount, List.range_eq_range', List.range'_succ]
  rw [askAll, hrange, ask] at hask
  simp only [Scorer.score, Rotation.query_zero rotation group husers] at hask
  cases hask
  refine ⟨congrArg Scorer.metric hlast, congrArg (fun scorer ↦ scorer.rotation.turn) hlast,
    fun bid hbid ↦ ?_⟩
  rcases List.mem_cons.1 hbid with rfl | hrest
  · simp [turnScore]
  · exact hscores bid hrest

end Grid

/-! ## One cell -/

/-- Whether the user of a bid has data and a throughput that is not known to be nothing. -/
def Bid.ready (bid : Bid) : Bool := bid.candidate.hasData && !(bid.candidate.bitsPerSymbol <= 0.0)

namespace Grid

variable {σ : Type} {directory : Directory σ} {now : Float} {turn users : Nat} {bids : List Bid}

theorem isNaN_turnScore (turn user : Nat) : (turnScore turn user).isNaN = false := by
  rw [turnScore]
  split <;> decide +kernel

/-- A user scores more than another one only if it is its turn. -/
theorem turnScore_lt_iff (turn user other : Nat) :
    turnScore turn user < turnScore turn other ↔ turn ≠ user ∧ turn = other := by
  have hless : (0.0 : Float) < 1.0 := by decide +kernel
  have hmore : ¬(1.0 : Float) < 0.0 := by decide +kernel
  rw [turnScore, turnScore]
  split <;> split <;> simp_all [Real64.lt_irrefl]

/-- Where the scores tell whose turn it is, a user that is ready competes. -/
theorem competes_eq_ready {bid : Bid} (hscore : bid.score = turnScore turn bid.user) :
    bid.competes = bid.ready := by
  rw [Bid.competes, Cell.competes, hscore, isNaN_turnScore, Bool.not_false, Bool.and_true]
  rfl

/-- Whom a cell serves if it is the turn of a user: this one if it is ready, otherwise the ready one with
the lowest number. -/
def servedUser (turn : Nat) (bids : List Bid) : Option Nat :=
  if bids.any fun bid ↦ bid.user == turn && bid.ready then some turn
  else (bids.find? Bid.ready).map Bid.user

/-- The best bid is the one that the turn selects. -/
theorem servedUser_of_isBest (husers : bids.map Bid.user = List.range users)
    (hscores : ∀ bid ∈ bids, bid.score = turnScore turn bid.user) {best : Bid} (hbest : best.IsBest bids) :
    servedUser turn bids = some best.user := by
  have hcompetes (bid : Bid) (hbid : bid ∈ bids) : bid.competes = bid.ready :=
    competes_eq_ready (hscores bid hbid)
  rw [servedUser]
  split
  next hturn =>
    obtain ⟨bid, hbid, hselected⟩ := List.any_eq_true.1 hturn
    obtain ⟨huser, hready⟩ := Bool.and_eq_true_iff.1 hselected
    obtain rfl := beq_iff_eq.1 huser
    have hmost := hbest.most bid hbid ((hcompetes bid hbid).trans hready)
    have hnotless := Real64.not_lt_of_le hmost
    rw [hscores bid hbid, hscores best hbest.mem, turnScore_lt_iff, and_iff_left rfl, not_not] at hnotless
    rw [hnotless]
  next hturn =>
    have hnotturn (bid : Bid) (hbid : bid ∈ bids) (hready : bid.ready = true) : turn ≠ bid.user := by
      rintro rfl
      exact hturn (List.any_eq_true.2 ⟨bid, hbid, by simp [hready]⟩)
    have hready : best.ready = true := (hcompetes best hbest.mem).symm.trans hbest.competes
    obtain ⟨before, after, hsplit⟩ := List.append_of_mem hbest.mem
    have hfirst : bids.find? Bid.ready = some best := by
      refine List.find?_eq_some_iff_append.2 ⟨hready, before, after, hsplit, fun rival hbefore ↦ ?_⟩
      have hmem : rival ∈ bids := by
        rw [hsplit]
        exact List.mem_append_left _ hbefore
      have hlower : rival.user < best.user := by
        have hascending : (bids.map Bid.user).Pairwise (· < ·) := husers ▸ List.pairwise_lt_range
        rw [hsplit, List.map_append, List.pairwise_append] at hascending
        exact hascending.2.2 rival.user (List.mem_map_of_mem hbefore) best.user (by simp)
      cases hrival : rival.ready with
      | false => rfl
      | true =>
        have hless := hbest.first rival hmem ((hcompetes rival hmem).trans hrival) hlower
        rw [hscores rival hmem, hscores best hbest.mem, turnScore_lt_iff] at hless
        exact absurd hless.2 (hnotturn best hbest.mem hready)
    rw [hfirst, Option.map_some]

/-- Where nobody is ready, nobody is served. -/
theorem servedUser_eq_none (hnone : ∀ bid ∈ bids, bid.ready = false) : servedUser turn bids = none := by
  have hany : (bids.any fun bid ↦ bid.user == turn && bid.ready) = false := by
    rw [List.any_eq_false]
    intro bid hbid
    simp [hnone bid hbid]
  have hfind : bids.find? Bid.ready = none := List.find?_eq_none.2 fun bid hbid ↦ by simp [hnone bid hbid]
  rw [servedUser, hany, hfind]
  rfl

/-- A cell was offered to all users, to each one with a score that says whether it is its turn, and has
served whom the turn selects. -/
structure Offered (users turn : Nat) (serving : Serving) : Prop where
  users : serving.bids.map Bid.user = List.range users
  scores : ∀ bid ∈ serving.bids, bid.score = turnScore turn bid.user
  served : serving.visit.delivery.map (·.grant.user) = servedUser turn serving.bids

/-! ## Runs -/

/-- Whether a visit found symbols. -/
def Serving.active (serving : Serving) : Bool := 0 < serving.visit.symbols

/-- The turn after some cells with symbols. -/
def turnAfter (users : Nat) : Nat → Option Nat
  | 0 => none
  | cells + 1 => some (cells % users)

theorem nextTurn_turnAfter (users cells : Nat) :
    Rotation.nextTurn (turnAfter users cells) users = cells % users := by
  cases cells with
  | zero => exact (Nat.zero_mod users).symm
  | succ cells => exact Nat.mod_add_mod cells users 1

/-- Every visit without symbols serves nobody, and the others, numbered from `before`, are offered to
all users in turn. -/
structure TakesTurns (users before : Nat) (servings : List Serving) : Prop where
  offered : ∀ k serving, (servings.filter Serving.active)[k]? = some serving →
    Offered users ((before + k) % users) serving
  silent : ∀ serving ∈ servings, serving.active = false → serving.visit.delivery = none

theorem TakesTurns.append {before : Nat} {servings further : List Serving}
    (h : TakesTurns users before servings)
    (hfurther : TakesTurns users (before + (servings.filter Serving.active).length) further) :
    TakesTurns users before (servings ++ further) := by
  refine ⟨fun k serving hserving ↦ ?_, fun serving hserving hsilent ↦ ?_⟩
  · rw [List.filter_append, List.getElem?_append] at hserving
    split at hserving
    next hbefore => exact h.offered k serving hserving
    next hafter =>
      have hoffered := hfurther.offered _ serving hserving
      rwa [Nat.add_assoc, Nat.add_sub_cancel' (not_lt.1 hafter)] at hoffered
  · rcases List.mem_append.1 hserving with hold | hnew
    · exact h.silent serving hold hsilent
    · exact hfurther.silent serving hnew hsilent

theorem takesTurns_nil (before : Nat) : TakesTurns users before [] := by
  refine ⟨fun k serving hserving ↦ ?_, fun serving hserving ↦ ?_⟩
  · cases hserving
  · cases hserving

/-- The scorer takes turns, and has done so for so many cells with symbols. -/
def Turned (users cells : Nat) (scorer : Scorer) : Prop :=
  scorer.metric = .roundRobin ∧ scorer.rotation.turn = turnAfter users cells

theorem Turned.sweep {state : σ} {group cells : Nat} {scorer last : Scorer}
    (h : Turned users cells scorer) (hpositive : 0 < users) (hlength : bids.length = users)
    (hask : askAll directory state now group scorer = (bids, last)) :
    Turned users (cells + 1) last ∧ bids.map Bid.user = List.range users ∧
      ∀ bid ∈ bids, bid.score = turnScore (cells % users) bid.user := by
  have hbids : bids.map Bid.user = List.range (directory.users state) := by
    have hmap := map_user_ask directory state now group scorer (List.range (directory.users state))
    rwa [← Grid.askAll, hask] at hmap
  obtain rfl : directory.users state = users := by
    rw [← hlength, ← List.length_map, hbids, List.length_range]
  obtain ⟨hmetric, hturn, hscores⟩ := askAll_roundRobin h.1 hpositive hask
  rw [h.2, nextTurn_turnAfter] at hturn hscores
  exact ⟨⟨hmetric, hturn⟩, hbids, hscores⟩

theorem Turned.offered {cells : Nat} {serving : Serving} {scorer : Scorer}
    (h : Turned users (cells + 1) scorer) (hactive : serving.active = true)
    (hoffered : Offered users (cells % users) serving) :
    Turned users (cells + ([serving].filter Serving.active).length) scorer ∧
      TakesTurns users cells [serving] := by
  rw [List.filter_cons_of_pos hactive, List.filter_nil]
  refine ⟨h, fun k other hother ↦ ?_, fun other hother hsilent ↦ ?_⟩
  · rw [List.filter_cons_of_pos hactive, List.filter_nil, List.getElem?_singleton] at hother
    split at hother
    next hzero =>
      cases hother
      rwa [hzero]
    next => cases hother
  · rw [List.mem_singleton.1 hother, hactive] at hsilent
    cases hsilent

/-- A visit moves the turn on if the cell has symbols. -/
theorem Serves.takesTurns {direction : Direction} {progress next : Progress σ} {serving : Serving}
    {cells : Nat} (h : Serves directory now direction progress serving next)
    (hturned : Turned users cells progress.scorer) (hpositive : 0 < users)
    (husers : serving.active = true → serving.bids.length = users) :
    Turned users (cells + ([serving].filter Serving.active).length) next.scorer ∧
      TakesTurns users cells [serving] := by
  cases h with
  | silent row group =>
    refine ⟨hturned, ⟨fun k other hother ↦ (by cases hother), fun other hother _ ↦ ?_⟩⟩
    rw [List.mem_singleton.1 hother]
  | idle row hsymbols hask hnone =>
    have hactive := decide_eq_true hsymbols
    obtain ⟨hnext, hbids, hscores⟩ := hturned.sweep hpositive (husers hactive) hask
    refine hnext.offered hactive ⟨hbids, hscores, ?_⟩
    have hready (bid : Bid) (hbid : bid ∈ _) : bid.ready = false :=
      (competes_eq_ready (hscores bid hbid)).symm.trans (hnone bid hbid)
    rw [servedUser_eq_none hready]
    rfl
  | granted row hsymbols hask hbest hgrant hdeliver =>
    have hactive := decide_eq_true hsymbols
    obtain ⟨hnext, hbids, hscores⟩ := hturned.sweep hpositive (husers hactive) hask
    refine hnext.offered hactive ⟨hbids, hscores, ?_⟩
    rw [servedUser_of_isBest hbids hscores hbest, hgrant]
    rfl

theorem ServesAll.takesTurns {direction : Direction} {progress last : Progress σ} {servings : List Serving}
    {cells : Nat} (h : ServesAll directory now direction progress servings last)
    (hturned : Turned users cells progress.scorer) (hpositive : 0 < users)
    (husers : ∀ serving ∈ servings, serving.active = true → serving.bids.length = users) :
    Turned users (cells + (servings.filter Serving.active).length) last.scorer ∧
      TakesTurns users cells servings := by
  induction h generalizing cells with
  | nil => exact ⟨hturned, takesTurns_nil cells⟩
  | @cons _ _ _ serving servings hserves _ ih =>
    obtain ⟨hmiddle, hfirst⟩ := hserves.takesTurns hturned hpositive (husers serving List.mem_cons_self)
    obtain ⟨hlast, hrest⟩ := ih hmiddle fun other hother ↦ husers other (List.mem_cons_of_mem _ hother)
    rw [← List.singleton_append, List.filter_append, List.length_append, ← Nat.add_assoc]
    exact ⟨hlast, hfirst.append hrest⟩

theorem Run.takesTurns {layout : GridLayout} {cycle : Option SymbolCycle} {servings : List Serving}
    {grid : Grid} (h : Run (.ofLayout layout cycle) servings grid) (hmetric : layout.metric = .roundRobin)
    (hpositive : 0 < users)
    (husers : ∀ serving ∈ servings, serving.active = true → serving.bids.length = users) :
    Turned users (servings.filter Serving.active).length grid.scorer ∧ TakesTurns users 0 servings := by
  induction h with
  | start => exact ⟨⟨hmetric, rfl⟩, takesTurns_nil 0⟩
  | @pass _ _ _ _ _ grid _ servings further _ _ hserves ih =>
    obtain ⟨hturned, hearlier⟩ := ih fun serving hserving ↦ husers serving (List.mem_append_left _ hserving)
    have hbegin : Turned users (servings.filter Serving.active).length grid.scorer.beginPass := hturned
    obtain ⟨hlast, hlater⟩ := hserves.takesTurns hbegin hpositive fun serving hserving ↦
      husers serving (List.mem_append_right _ hserving)
    rw [List.filter_append, List.length_append]
    refine ⟨hlast, hearlier.append ?_⟩
    rwa [Nat.zero_add]

/-! ## Fairness -/

/-- The grants that a user got. -/
def grantsTo (servings : List Serving) (user : Nat) : Nat :=
  servings.countP fun serving ↦ serving.visit.delivery.any (·.grant.user == user)

/-- A user whose turn it is, and that is ready, is served. -/
theorem Offered.served_of_ready {serving : Serving} (h : Offered users turn serving) (hturn : turn < users)
    (hready : ∀ bid ∈ serving.bids, bid.ready = true) :
    serving.visit.delivery.map (·.grant.user) = some turn := by
  have hmem : turn ∈ serving.bids.map Bid.user := by
    rw [h.users]
    exact List.mem_range.2 hturn
  obtain ⟨bid, hbid, rfl⟩ := List.mem_map.1 hmem
  have hany : (serving.bids.any fun other ↦ other.user == bid.user && other.ready) = true :=
    List.any_eq_true.2 ⟨bid, hbid, by simp [hready bid hbid]⟩
  rw [h.served, servedUser, if_pos hany]

/-- Items are counted by their places, where the places tell which ones count. -/
theorem countP_eq_count {α : Type} {p : α → Bool} {q : Nat → Prop} [DecidablePred q] {items : List α}
    (h : ∀ k item, items[k]? = some item → (p item = true ↔ q k)) :
    items.countP p = Nat.count q items.length := by
  induction items using List.reverseRecOn with
  | nil => rfl
  | append_singleton items item ih =>
    have hlast := h items.length item (by simp)
    have hearlier := ih fun k other hother ↦
      h k other (by rw [List.getElem?_append_left (List.getElem?_eq_some_iff.1 hother).1, hother])
    rw [List.countP_append, hearlier, List.length_append, List.length_singleton, Nat.count_succ,
      List.countP_singleton]
    simp only [hlast]

/-- Where everybody is always ready, a user gets the cells with symbols whose numbers leave its own. -/
theorem TakesTurns.grantsTo_eq {servings : List Serving} (h : TakesTurns users 0 servings)
    (hpositive : 0 < users) (hready : ∀ serving ∈ servings, ∀ bid ∈ serving.bids, bid.ready = true)
    {user : Nat} (huser : user < users) :
    grantsTo servings user = Nat.count (· ≡ user [MOD users]) (servings.filter Serving.active).length := by
  have hactive : grantsTo servings user = (servings.filter Serving.active).countP
      fun serving ↦ serving.visit.delivery.any (·.grant.user == user) := by
    rw [grantsTo, List.countP_filter]
    refine List.countP_congr fun serving hserving ↦ ?_
    cases hserves : serving.active with
    | true => rw [Bool.and_true]
    | false => rw [h.silent serving hserving hserves, Option.any_none, Bool.false_and]
  rw [hactive]
  refine countP_eq_count fun k serving hserving ↦ ?_
  have hmem : serving ∈ servings := List.mem_of_mem_filter (List.mem_of_getElem? hserving)
  have hserved := (h.offered k serving hserving).served_of_ready (Nat.mod_lt _ hpositive)
    (hready serving hmem)
  obtain ⟨delivery, hdelivery, hturn⟩ := Option.map_eq_some_iff.1 hserved
  rw [hdelivery, Option.any_some, beq_iff_eq, hturn, Nat.zero_add, Nat.ModEq, Nat.mod_eq_of_lt huser]

/-- **Round robin is exactly fair.**  In a run of passes over a grid under the round robin metric, with any
directories that have `users` users whenever a cell with symbols asks them, number the cells with symbols
from zero on.  Cell `k` asks all users; user `k % users` scores one and the others score zero; and it is
served if it is ready, otherwise the ready user with the lowest number, if there is one.  So if all users
are always ready, the numbers of grants that two users got differ by one at most. -/
theorem round_robin_takes_turns {layout : GridLayout} {cycle : Option SymbolCycle}
    {servings : List Serving} {grid : Grid} (hmetric : layout.metric = .roundRobin)
    (hrun : Run (.ofLayout layout cycle) servings grid) (hpositive : 0 < users)
    (husers : ∀ serving ∈ servings, serving.active = true → serving.bids.length = users) :
    (∀ k serving, (servings.filter Serving.active)[k]? = some serving →
      Offered users (k % users) serving) ∧
    ((∀ serving ∈ servings, ∀ bid ∈ serving.bids, bid.ready = true) →
      ∀ user < users, ∀ other < users, grantsTo servings user ≤ grantsTo servings other + 1) := by
  have hturns := (hrun.takesTurns hmetric hpositive husers).2
  refine ⟨fun k serving hserving ↦ ?_, fun hready user huser other hother ↦ ?_⟩
  · have hoffered := hturns.offered k serving hserving
    rwa [Nat.zero_add] at hoffered
  · rw [hturns.grantsTo_eq hpositive hready huser, hturns.grantsTo_eq hpositive hready hother,
      Nat.count_modEq_card _ hpositive, Nat.count_modEq_card _ hpositive]
    split <;> split <;> omega

/-- Two users who always have data share the two cells of a grid. -/
theorem round_robin_takes_turns_of_two : ∃ servings grid,
    Run (.ofLayout (twoCells .roundRobin) none) servings grid ∧
      (servings.filter Serving.active).length = 2 ∧
      (∀ k serving, (servings.filter Serving.active)[k]? = some serving → Offered 2 (k % 2) serving) ∧
      grantsTo servings 0 ≤ grantsTo servings 1 + 1 := by
  have hpass : ∃ outcome,
      pass (.ofLayout (twoCells .roundRobin) none)
        { pair with candidate := fun _ ↦ pair.candidate 1 } 0.0 1 = .ok outcome ∧
        outcome.1.countP (0 < ·.symbols) = 2 :=
    exists_ok_of_any (fun outcome ↦ outcome.1.countP (0 < ·.symbols) == 2) (by decide +kernel)
      fun outcome _ hcount ↦ beq_iff_eq.1 hcount
  obtain ⟨⟨_, grid, _⟩, hpass, hcount⟩ := hpass
  obtain ⟨servings, rfl, hserves, hrun⟩ := Run.start.extend rfl hpass
  rw [List.nil_append] at hrun
  have husers : ∀ serving ∈ servings, serving.active = true → serving.bids.length = 2 := by
    intro serving hserving hactive
    rcases hserves.bids_eq hserving with ⟨hsilent, -⟩ | ⟨reached, scorer, heq⟩
    · rw [Serving.active, hsilent] at hactive
      cases hactive
    · rw [heq, ← List.length_map, askAll, map_user_ask]
      rfl
  have hready : ∀ serving ∈ servings, ∀ bid ∈ serving.bids, bid.ready = true := by
    intro serving hserving bid hbid
    rcases hserves.bids_eq hserving with ⟨-, hnone⟩ | ⟨reached, scorer, heq⟩
    · rw [hnone] at hbid
      cases hbid
    · rw [heq] at hbid
      have hmore : ¬(1.0 : Float) ≤ 0.0 := by decide +kernel
      rw [Bid.ready, candidate_of_mem_ask hbid]
      simp [pair, hmore]
  obtain ⟨hoffered, hfair⟩ := round_robin_takes_turns rfl hrun Nat.two_pos husers
  refine ⟨servings, grid, hrun, ?_, hoffered, hfair hready 0 Nat.two_pos 1 Nat.one_lt_two⟩
  rwa [List.countP_map, List.countP_eq_length_filter] at hcount

end Grid

end RadioAccess
