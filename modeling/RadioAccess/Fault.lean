/-!
# Faults and Checked Words

Counters of the emulator are machine words.  An operation whose exact result does not fit its word
is a `Fault`: it ends the computation that asked for it.  So is a list that asks in advance for more
room than can be addressed.  This module lists the faults and gives the checked operations on 32-bit
and 64-bit words.

Wrapping arithmetic, which packet numbers and random streams use on purpose, is the ordinary
arithmetic of `UInt32` and `UInt64` and is not covered here; nor is how much memory there really is.
-/

namespace RadioAccess

/-- A reason for which a computation ends without a result. -/
inductive Fault where
  | addOverflow
  | subtractOverflow
  | multiplyOverflow
  | shiftOverflow
  /-- More bits were to be cut from a unit than it carries. -/
  | cutBeyondCarried
  /-- A clock was to tick with an interval that is not positive. -/
  | intervalNotPositive
  /-- A list was to hold more than can be addressed. -/
  | listTooLong
  /-- The numbered job of a round gave up. -/
  | job (number : UInt64)
deriving DecidableEq

def Fault.message : Fault → String
  | addOverflow => "attempt to add with overflow"
  | subtractOverflow => "attempt to subtract with overflow"
  | multiplyOverflow => "attempt to multiply with overflow"
  | shiftOverflow => "attempt to shift left with overflow"
  | cutBeyondCarried => "cannot split more bits than carried"
  | intervalNotPositive => "tti_seconds must be positive"
  | listTooLong => "capacity overflow"
  | job number => "job " ++ toString number.toNat

/-! ## Room -/

/-- Most bytes that a list may take: half of all addresses, as far as they are aligned. -/
def roomLimit : Nat := 0x7FFFFFFFFFFFFFF8

def makeRoom (count size : Nat) : Except Fault Unit :=
  if count * size ≤ roomLimit then .ok () else .error .listTooLong

namespace Word

/-! ## 64-bit words -/

def add64 (a b : UInt64) : Except Fault UInt64 :=
  if a.toNat + b.toNat < UInt64.size then .ok (a + b) else .error .addOverflow

def sub64 (a b : UInt64) : Except Fault UInt64 :=
  if b ≤ a then .ok (a - b) else .error .subtractOverflow

def mul64 (a b : UInt64) : Except Fault UInt64 :=
  if a.toNat * b.toNat < UInt64.size then .ok (a * b) else .error .multiplyOverflow

/-! ## 32-bit words -/

def add32 (a b : UInt32) : Except Fault UInt32 :=
  if a.toNat + b.toNat < UInt32.size then .ok (a + b) else .error .addOverflow

def mul32 (a b : UInt32) : Except Fault UInt32 :=
  if a.toNat * b.toNat < UInt32.size then .ok (a * b) else .error .multiplyOverflow

/-! ## What a successful operation computed -/

theorem toNat_of_add64_eq_ok {a b c : UInt64} (h : add64 a b = .ok c) :
    c.toNat = a.toNat + b.toNat := by
  unfold add64 at h
  split at h
  · cases h
    rw [UInt64.toNat_add, Nat.mod_eq_of_lt (by assumption)]
  · cases h

theorem toNat_of_sub64_eq_ok {a b c : UInt64} (h : sub64 a b = .ok c) :
    c.toNat = a.toNat - b.toNat ∧ b.toNat ≤ a.toNat := by
  unfold sub64 at h
  split at h
  · cases h
    exact ⟨UInt64.toNat_sub_of_le _ _ (by assumption), by assumption⟩
  · cases h

theorem toNat_of_add32_eq_ok {a b c : UInt32} (h : add32 a b = .ok c) :
    c.toNat = a.toNat + b.toNat := by
  unfold add32 at h
  split at h
  · cases h
    rw [UInt32.toNat_add, Nat.mod_eq_of_lt (by assumption)]
  · cases h

theorem toNat_of_mul32_eq_ok {a b c : UInt32} (h : mul32 a b = .ok c) :
    c.toNat = a.toNat * b.toNat := by
  unfold mul32 at h
  split at h
  · cases h
    rw [UInt32.toNat_mul, Nat.mod_eq_of_lt (by assumption)]
  · cases h

end Word

end RadioAccess
