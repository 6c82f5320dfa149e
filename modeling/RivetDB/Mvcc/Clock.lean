import Mathlib.Tactic.Common
import Mathlib.Data.Int.Basic
import Mathlib.Algebra.Ring.Nat

/-!
# The hybrid logical clock of a range

`mvcc/timestamp.go`.  A timestamp is 48 bits of physical milliseconds followed by 16
logical bits, as a natural number.  The clock keeps the last timestamp it gave out or observed; the
physical reading is an argument of `now`.
-/

namespace RivetDB.Mvcc

/-- `LogicalBits`. -/
def logicalBits : ℕ := 16

/-- `MaxLogical`. -/
def maxLogical : ℕ := 2 ^ 16 - 1

/-- `MaxPhysical`. -/
def maxPhysical : ℕ := 2 ^ 48 - 1

/-- `ErrTimestampExhausted`. -/
inductive Error where
  | timestampExhausted
deriving DecidableEq, Repr

/-- `Physical`. -/
def physical (t : ℕ) : ℕ := t >>> logicalBits

/-- `Logical`. -/
def logical (t : ℕ) : ℕ := t % 2 ^ logicalBits

/-- A range-scoped clock. -/
structure Clock where
  last : ℕ := 0
deriving DecidableEq, Repr

namespace Clock

/-- `Observe`: advance the floor without an event. -/
def observe (c : Clock) (value : ℕ) : Clock :=
  if value > c.last then { last := value } else c

/-- `Now`, at the physical reading `millis`. -/
def now (c : Clock) (millis : ℤ) : Except Error (ℕ × Clock) :=
  if millis < 0 ∨ millis.toNat > maxPhysical then .error .timestampExhausted
  else if millis.toNat > physical c.last then
    let last := millis.toNat <<< logicalBits
    let last := if last = 0 then 1 else last
    .ok (last, { last := last })
  else if logical c.last ≠ maxLogical then .ok (c.last + 1, { last := c.last + 1 })
  else if physical c.last = maxPhysical then .error .timestampExhausted
  else
    let last := (physical c.last + 1) <<< logicalBits
    .ok (last, { last := last })

@[simp] theorem observe_last (c : Clock) (value : ℕ) :
    (c.observe value).last = max c.last value := by
  unfold observe
  split_ifs with h
  · exact (Nat.max_eq_right (Nat.le_of_lt h)).symm
  · exact (Nat.max_eq_left (Nat.le_of_not_lt h)).symm

theorem shiftLeft_logicalBits (n : ℕ) : n <<< logicalBits = 65536 * n := by
  rw [logicalBits, Nat.shiftLeft_eq, Nat.mul_comm]

/-- A new timestamp lies above everything given out or observed. -/
theorem now_spec {c c' : Clock} {millis : ℤ} {t : ℕ} (hlast : c.last < 2 ^ 64)
    (h : c.now millis = .ok (t, c')) : c.last < t ∧ t < 2 ^ 64 ∧ c'.last = t := by
  have hparts : c.last = 65536 * physical c.last + logical c.last ∧ logical c.last < 65536 :=
    ⟨by rw [physical, logical, logicalBits, Nat.shiftRight_eq_div_pow]
        exact (Nat.div_add_mod _ _).symm, Nat.mod_lt _ (by decide)⟩
  unfold now at h
  simp only [shiftLeft_logicalBits] at h
  have hmax : maxLogical = 65535 ∧ maxPhysical = 281474976710655 := ⟨rfl, rfl⟩
  split_ifs at h
  all_goals
    obtain ⟨rfl, rfl⟩ := h
    refine ⟨?_, ?_, rfl⟩ <;> omega

end Clock

end RivetDB.Mvcc
