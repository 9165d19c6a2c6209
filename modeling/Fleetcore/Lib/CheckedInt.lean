import Mathlib.Algebra.Group.Int.Defs

/-!
Signed 32-bit addition in C++: it has no result when the sum does not fit.
-/

namespace CheckedInt

/-- The sum, where it is defined. -/
def add (a b : Int32) : Option Int32 :=
  if -2 ^ 31 ≤ a.toInt + b.toInt ∧ a.toInt + b.toInt < 2 ^ 31 then some (a + b) else none

theorem add_eq_some {a b c : Int32} : add a b = some c ↔ c.toInt = a.toInt + b.toInt := by
  unfold add
  have hc := c.le_toInt
  have hc' := c.toInt_lt
  split
  · next h =>
      have hsum : (a + b).toInt = a.toInt + b.toInt := by
        rw [Int32.toInt_add, Int.bmod_eq_of_le (by omega) (by omega)]
      rw [Option.some.injEq, ← Int32.toInt_inj, hsum, eq_comm]
  · next h =>
      simp only [reduceCtorEq, false_iff]
      omega

theorem add_eq_none {a b : Int32} :
    add a b = none ↔ a.toInt + b.toInt < -2 ^ 31 ∨ 2 ^ 31 ≤ a.toInt + b.toInt := by
  unfold add
  split
  · simp only [reduceCtorEq, false_iff]
    omega
  · simp only [true_iff]
    omega

end CheckedInt
