import Mathlib.Algebra.Group.Int.Defs
import Mathlib.Algebra.Group.Nat.Defs

/-!
# Numbers in an `int`

An `int` has 32 bits: `toInt` is what it holds of a number, and `addInt` a sum that wraps around.
-/

namespace CInt

/-- The `int` with the low 32 bits of a number. -/
def toInt (n : Int) : Int := n.bmod (2 ^ 32)

/-- `a + b` in an `int` -/
def addInt (a b : Int) : Int := toInt (a + b)

theorem toInt_of_int {n : Int} (h : -2 ^ 31 ≤ n) (h' : n < 2 ^ 31) : toInt n = n :=
  Int.bmod_eq_of_le (by omega) (by omega)

/-- A length that fits. -/
theorem toInt_natCast {n : Nat} (h : n < 2 ^ 31) : toInt n = n :=
  toInt_of_int (by omega) (by omega)

/-- Behind the greatest `int` come the negative ones. -/
theorem toInt_neg {n : Int} (h : 2 ^ 31 ≤ n) (hlt : n < 2 ^ 32) : toInt n < 0 := by
  rw [toInt, Int.bmod_def]
  split <;> omega

theorem addInt_of_lt {a b : Int} (h0 : 0 ≤ a + b) (h : a + b < 2 ^ 31) : addInt a b = a + b :=
  toInt_of_int (by omega) h

theorem addInt_neg {a b : Int} (h : 2 ^ 31 ≤ a + b) (hlt : a + b < 2 ^ 32) : addInt a b < 0 :=
  toInt_neg h hlt

end CInt
