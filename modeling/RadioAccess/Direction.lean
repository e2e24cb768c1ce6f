/-!
# Link Directions

Every user has one link towards the user and one away from it.  Quantities that exist once per
direction are held in a `PerDirection`.
-/

namespace RadioAccess

inductive Direction where
  /-- From the base station to the user. -/
  | downlink
  /-- From the user to the base station. -/
  | uplink
deriving DecidableEq

namespace Direction

/-- Both directions, downlink first. -/
def all : List Direction := [downlink, uplink]

def index : Direction → UInt64
  | downlink => 0
  | uplink => 1

def label : Direction → String
  | downlink => "DL"
  | uplink => "UL"

end Direction

/-- One value for each direction. -/
structure PerDirection (α : Type) where
  downlink : α
  uplink : α
deriving BEq

namespace PerDirection

variable {α β : Type}

def get (pair : PerDirection α) : Direction → α
  | .downlink => pair.downlink
  | .uplink => pair.uplink

def set (pair : PerDirection α) (value : α) : Direction → PerDirection α
  | .downlink => { pair with downlink := value }
  | .uplink => { pair with uplink := value }

@[simp]
theorem get_set_self (pair : PerDirection α) (value : α) (d : Direction) :
    (pair.set value d).get d = value := by
  cases d <;> rfl

theorem get_set_of_ne (pair : PerDirection α) (value : α) {d e : Direction} (h : d ≠ e) :
    (pair.set value d).get e = pair.get e := by
  cases d <;> cases e <;> first | rfl | exact absurd rfl h

@[simp]
theorem set_get_self (pair : PerDirection α) (d : Direction) : pair.set (pair.get d) d = pair := by
  cases d <;> rfl

@[simp]
theorem set_set (pair : PerDirection α) (value other : α) (d : Direction) :
    (pair.set value d).set other d = pair.set other d := by
  cases d <;> rfl

theorem set_comm (pair : PerDirection α) (value other : α) {d e : Direction} (h : d ≠ e) :
    (pair.set value d).set other e = (pair.set other e).set value d := by
  cases d <;> cases e <;> first | rfl | exact absurd rfl h

def ofDirection (f : Direction → α) : PerDirection α :=
  { downlink := f .downlink, uplink := f .uplink }

end PerDirection

end RadioAccess
