import RadioAccess.Packet

/-!
# Packets by Number

A search tree with at most one packet for each number, kept in balance so that finding, putting and
taking the lowest packet each follow one short branch.  The heights in the nodes decide about the shape
of the tree only: the list of packets, the lowest number first, says all that an operation does, and the
lemmas here say it.
-/

namespace RadioAccess

def Packet.Ascending (packets : List Packet) : Prop := packets.Pairwise (·.number < ·.number)

/-- Packets by number: those below the packet of a node are in `lower`, those above it in `higher`. -/
inductive PacketTree where
  | leaf
  | node (height : Nat) (lower : PacketTree) (packet : Packet) (higher : PacketTree)

namespace PacketTree

/-- The packets, the lowest number first. -/
def toList : PacketTree → List Packet
  | leaf => []
  | node _ lower packet higher => lower.toList ++ packet :: higher.toList

def length : PacketTree → Nat
  | leaf => 0
  | node _ lower _ higher => lower.length + higher.length + 1

def any (p : Packet → Bool) : PacketTree → Bool
  | leaf => false
  | node _ lower packet higher => lower.any p || p packet || higher.any p

def find? (number : UInt32) : PacketTree → Option Packet
  | leaf => none
  | node _ lower packet higher =>
    if number < packet.number then lower.find? number
    else if packet.number < number then higher.find? number
    else some packet

/-! ## Balance -/

def height : PacketTree → Nat
  | leaf => 0
  | node height _ _ _ => height

def join (lower : PacketTree) (packet : Packet) (higher : PacketTree) : PacketTree :=
  node (max lower.height higher.height + 1) lower packet higher

/-- A packet between two trees of which the lower one is too high. -/
def raiseLower (lower : PacketTree) (packet : Packet) (higher : PacketTree) : PacketTree :=
  match lower with
  | leaf => join leaf packet higher
  | node _ outer top inner =>
    match decide (outer.height < inner.height), inner with
    | true, node _ left middle right => join (join outer top left) middle (join right packet higher)
    | _, inner => join outer top (join inner packet higher)

/-- A packet between two trees of which the higher one is too high. -/
def raiseHigher (lower : PacketTree) (packet : Packet) (higher : PacketTree) : PacketTree :=
  match higher with
  | leaf => join lower packet leaf
  | node _ inner top outer =>
    match decide (outer.height < inner.height), inner with
    | true, node _ left middle right => join (join lower packet left) middle (join right top outer)
    | _, inner => join (join lower packet inner) top outer

/-- A packet between two trees whose heights may differ by two. -/
def balance (lower : PacketTree) (packet : Packet) (higher : PacketTree) : PacketTree :=
  if higher.height + 1 < lower.height then raiseLower lower packet higher
  else if lower.height + 1 < higher.height then raiseHigher lower packet higher
  else join lower packet higher

/-! ## Change -/

/-- Puts a packet at the place of a number, where it replaces the one that is there. -/
def put (number : UInt32) (new : Packet) : PacketTree → PacketTree
  | leaf => join leaf new leaf
  | node height lower packet higher =>
    if number < packet.number then balance (lower.put number new) packet higher
    else if packet.number < number then balance lower packet (higher.put number new)
    else node height lower new higher

/-- The lowest packet of a node, and the tree without it. -/
def splitLowest (lower : PacketTree) (packet : Packet) (higher : PacketTree) : Packet × PacketTree :=
  match lower with
  | leaf => (packet, higher)
  | node _ lowest next between =>
    let (first, rest) := splitLowest lowest next between
    (first, balance rest packet higher)

/-- The packet of the lowest number, and the tree without it. -/
def takeLowest? : PacketTree → Option (Packet × PacketTree)
  | leaf => none
  | node _ lower packet higher => some (splitLowest lower packet higher)

/-! ## The view -/

@[simp]
theorem toList_leaf : leaf.toList = [] := rfl

@[simp]
theorem toList_node (height : Nat) (lower : PacketTree) (packet : Packet) (higher : PacketTree) :
    (node height lower packet higher).toList = lower.toList ++ packet :: higher.toList := rfl

theorem length_toList (tree : PacketTree) : tree.toList.length = tree.length := by
  induction tree with
  | leaf => rfl
  | node height lower packet higher ihl ihh => simp [length, ihl, ihh, Nat.add_assoc]

theorem any_toList (p : Packet → Bool) (tree : PacketTree) : tree.toList.any p = tree.any p := by
  induction tree with
  | leaf => rfl
  | node height lower packet higher ihl ihh => simp [any, ihl, ihh, Bool.or_assoc]

@[simp]
theorem toList_join (lower : PacketTree) (packet : Packet) (higher : PacketTree) :
    (join lower packet higher).toList = lower.toList ++ packet :: higher.toList := rfl

theorem toList_raiseLower (lower : PacketTree) (packet : Packet) (higher : PacketTree) :
    (raiseLower lower packet higher).toList = lower.toList ++ packet :: higher.toList := by
  unfold raiseLower
  split
  · rfl
  · split <;> simp

theorem toList_raiseHigher (lower : PacketTree) (packet : Packet) (higher : PacketTree) :
    (raiseHigher lower packet higher).toList = lower.toList ++ packet :: higher.toList := by
  unfold raiseHigher
  split
  · rfl
  · split <;> simp

/-- Balancing changes the shape only. -/
@[simp]
theorem toList_balance (lower : PacketTree) (packet : Packet) (higher : PacketTree) :
    (balance lower packet higher).toList = lower.toList ++ packet :: higher.toList := by
  unfold balance
  split
  · exact toList_raiseLower lower packet higher
  · split
    · exact toList_raiseHigher lower packet higher
    · rfl

theorem toList_splitLowest (lower : PacketTree) (packet : Packet) (higher : PacketTree) :
    (splitLowest lower packet higher).1 :: (splitLowest lower packet higher).2.toList =
      lower.toList ++ packet :: higher.toList := by
  induction lower generalizing packet higher with
  | leaf => rfl
  | node height lowest next between ih =>
    simp only [splitLowest, toList_balance, toList_node]
    rw [← List.cons_append, ih]

theorem takeLowest?_eq_none_iff (tree : PacketTree) : tree.takeLowest? = none ↔ tree.toList = [] := by
  cases tree <;> simp [takeLowest?]

/-- The packet that is taken was the first one. -/
theorem toList_of_takeLowest? {tree rest : PacketTree} {packet : Packet}
    (h : tree.takeLowest? = some (packet, rest)) : tree.toList = packet :: rest.toList := by
  cases tree with
  | leaf => simp [takeLowest?] at h
  | node height lower top higher =>
    simp only [takeLowest?, Option.some.injEq] at h
    have := toList_splitLowest lower top higher
    rw [h] at this
    exact this.symm

theorem length_of_takeLowest? {tree rest : PacketTree} {packet : Packet}
    (h : tree.takeLowest? = some (packet, rest)) : tree.length = rest.length + 1 := by
  rw [← length_toList, toList_of_takeLowest? h, List.length_cons, length_toList]

/-! ## The order of the numbers -/

/-- The packets of a node are those below its own one, its own one, and those above it. -/
theorem ascending_node_iff {height : Nat} {lower : PacketTree} {packet : Packet}
    {higher : PacketTree} :
    Packet.Ascending (node height lower packet higher).toList ↔
      Packet.Ascending lower.toList ∧ Packet.Ascending higher.toList ∧
        (∀ other ∈ lower.toList, other.number < packet.number) ∧
        (∀ other ∈ higher.toList, packet.number < other.number) := by
  simp only [Packet.Ascending, toList_node, List.pairwise_append, List.pairwise_cons]
  constructor
  · rintro ⟨hl, ⟨hp, hh⟩, hcross⟩
    exact ⟨hl, hh, fun other ho ↦ hcross other ho packet (by simp), hp⟩
  · rintro ⟨hl, hh, hbelow, habove⟩
    refine ⟨hl, ⟨habove, hh⟩, fun other ho third ht ↦ ?_⟩
    rcases List.mem_cons.1 ht with rfl | ht
    · exact hbelow other ho
    · exact UInt32.lt_trans (hbelow other ho) (habove third ht)

theorem find?_eq_none_of_lt {number : UInt32} {packets : List Packet}
    (h : ∀ packet ∈ packets, number < packet.number) :
    packets.find? (·.number == number) = none := by
  refine List.find?_eq_none.2 fun packet hp heq ↦ ?_
  have := h packet hp
  rw [beq_iff_eq] at heq
  exact UInt32.lt_irrefl _ (heq ▸ this)

theorem find?_eq_none_of_gt {number : UInt32} {packets : List Packet}
    (h : ∀ packet ∈ packets, packet.number < number) :
    packets.find? (·.number == number) = none := by
  refine List.find?_eq_none.2 fun packet hp heq ↦ ?_
  have := h packet hp
  rw [beq_iff_eq] at heq
  exact UInt32.lt_irrefl _ (heq ▸ this)

/-- The packet that is found is the one of that number. -/
theorem find?_toList {tree : PacketTree} (h : Packet.Ascending tree.toList) (number : UInt32) :
    tree.toList.find? (·.number == number) = tree.find? number := by
  induction tree with
  | leaf => rfl
  | node height lower packet higher ihl ihh =>
    obtain ⟨hl, hh, hbelow, habove⟩ := ascending_node_iff.1 h
    rw [toList_node, List.find?_append, find?]
    split
    · rename_i hlt
      have hne : ¬packet.number = number := fun he ↦ UInt32.lt_irrefl _ (he ▸ hlt)
      have hnone := find?_eq_none_of_lt fun other ho ↦ UInt32.lt_trans hlt (habove other ho)
      simp [hne, hnone, ihl hl]
    · split
      · rename_i hgt
        have hne : ¬packet.number = number := fun he ↦ UInt32.lt_irrefl _ (he ▸ hgt)
        have hnone := find?_eq_none_of_gt fun other ho ↦ UInt32.lt_trans (hbelow other ho) hgt
        simp [hne, hnone, ihh hh]
      · rename_i hnot hnotgt
        have heq : packet.number = number :=
          UInt32.le_antisymm (UInt32.not_lt.1 hnot) (UInt32.not_lt.1 hnotgt)
        have hnone := find?_eq_none_of_gt fun other ho ↦ heq ▸ hbelow other ho
        simp [heq, hnone]

/-- Puts a packet between those of lower and those of higher numbers. -/
def putAmong (number : UInt32) (new : Packet) (packets : List Packet) : List Packet :=
  packets.filter (·.number < number) ++ new :: packets.filter (number < ·.number)

theorem putAmong_append_cons_of_lt {number : UInt32} {new packet : Packet} {lower higher : List Packet}
    (hlt : number < packet.number) (h : ∀ other ∈ higher, packet.number < other.number) :
    putAmong number new (lower ++ packet :: higher) = putAmong number new lower ++ packet :: higher := by
  have hnone : higher.filter (·.number < number) = [] := by
    simp only [List.filter_eq_nil_iff, decide_eq_true_eq]
    exact fun other ho ↦ UInt32.lt_asymm (UInt32.lt_trans hlt (h other ho))
  have hall : higher.filter (number < ·.number) = higher := by
    simp only [List.filter_eq_self, decide_eq_true_eq]
    exact fun other ho ↦ UInt32.lt_trans hlt (h other ho)
  simp [putAmong, hnone, hall, hlt, UInt32.lt_asymm hlt]

theorem putAmong_append_cons_of_gt {number : UInt32} {new packet : Packet} {lower higher : List Packet}
    (hgt : packet.number < number) (h : ∀ other ∈ lower, other.number < packet.number) :
    putAmong number new (lower ++ packet :: higher) = lower ++ packet :: putAmong number new higher := by
  have hnone : lower.filter (number < ·.number) = [] := by
    simp only [List.filter_eq_nil_iff, decide_eq_true_eq]
    exact fun other ho ↦ UInt32.lt_asymm (UInt32.lt_trans (h other ho) hgt)
  have hall : lower.filter (·.number < number) = lower := by
    simp only [List.filter_eq_self, decide_eq_true_eq]
    exact fun other ho ↦ UInt32.lt_trans (h other ho) hgt
  simp [putAmong, hnone, hall, hgt, UInt32.lt_asymm hgt]

theorem putAmong_append_cons_of_eq {number : UInt32} {new packet : Packet} {lower higher : List Packet}
    (heq : packet.number = number) (hlower : ∀ other ∈ lower, other.number < packet.number)
    (hhigher : ∀ other ∈ higher, packet.number < other.number) :
    putAmong number new (lower ++ packet :: higher) = lower ++ new :: higher := by
  subst heq
  have hbelow : lower.filter (·.number < packet.number) = lower := by
    simpa only [List.filter_eq_self, decide_eq_true_eq] using hlower
  have hnotbelow : higher.filter (·.number < packet.number) = [] := by
    simp only [List.filter_eq_nil_iff, decide_eq_true_eq]
    exact fun other ho ↦ UInt32.lt_asymm (hhigher other ho)
  have habove : higher.filter (packet.number < ·.number) = higher := by
    simpa only [List.filter_eq_self, decide_eq_true_eq] using hhigher
  have hnotabove : lower.filter (packet.number < ·.number) = [] := by
    simp only [List.filter_eq_nil_iff, decide_eq_true_eq]
    exact fun other ho ↦ UInt32.lt_asymm (hlower other ho)
  simp [putAmong, hbelow, hnotbelow, habove, hnotabove, UInt32.lt_irrefl]

/-- A packet is put between those of lower and those of higher numbers. -/
theorem toList_put {tree : PacketTree} (h : Packet.Ascending tree.toList) (number : UInt32)
    (new : Packet) : (tree.put number new).toList = putAmong number new tree.toList := by
  induction tree with
  | leaf => rfl
  | node height lower packet higher ihl ihh =>
    obtain ⟨hl, hh, hbelow, habove⟩ := ascending_node_iff.1 h
    rw [put, toList_node]
    split
    · rename_i hlt
      rw [toList_balance, ihl hl, putAmong_append_cons_of_lt hlt habove]
    · split
      · rename_i hgt
        rw [toList_balance, ihh hh, putAmong_append_cons_of_gt hgt hbelow]
      · rename_i hnot hnotgt
        rw [toList_node, putAmong_append_cons_of_eq _ hbelow habove]
        exact UInt32.le_antisymm (UInt32.not_lt.1 hnot) (UInt32.not_lt.1 hnotgt)

/-- Putting a packet of that number keeps the order. -/
theorem ascending_putAmong {number : UInt32} {new : Packet} {packets : List Packet}
    (hnew : new.number = number) (h : Packet.Ascending packets) :
    Packet.Ascending (putAmong number new packets) := by
  subst hnew
  refine List.pairwise_append.2 ⟨h.filter _, List.pairwise_cons.2 ⟨fun other ho ↦ ?_, h.filter _⟩,
    fun packet hp other ho ↦ ?_⟩
  · simpa using (List.mem_filter.1 ho).2
  · have hlt : packet.number < new.number := by simpa using (List.mem_filter.1 hp).2
    rcases List.mem_cons.1 ho with rfl | ho
    · exact hlt
    · exact UInt32.lt_trans hlt (by simpa using (List.mem_filter.1 ho).2)

end PacketTree

end RadioAccess
