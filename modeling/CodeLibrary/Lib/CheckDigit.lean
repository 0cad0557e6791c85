import Mathlib.Algebra.BigOperators.Group.Finset.Basic

/-!
# Weighted check sums

A code is a sequence of symbols, of which the first `n` count. Its check sum adds up the symbols
after a weight that depends on the position.

* `Changed.checkSum_eq_iff`: another symbol at one position keeps the sum just where it has the
  weight of the old one.
* `Swapped.checkSum_eq_iff`: so does a swap of neighbours where the four weights balance.
-/

namespace CheckDigit

variable {α M : Type*} [AddCommGroup M]

/-- The sum of the weights of the first `n` symbols. -/
def checkSum (w : ℕ → α → M) (n : ℕ) (x : ℕ → α) : M := ∑ i ∈ Finset.range n, w i (x i)

/-- `y` is `x` with another symbol at position `i`. -/
structure Changed (n i : ℕ) (x y : ℕ → α) : Prop where
  lt : i < n
  ne : y i ≠ x i
  other : ∀ j < n, j ≠ i → y j = x j

/-- `y` is `x` with the symbols at positions `i` and `i + 1` swapped. -/
structure Swapped (n i : ℕ) (x y : ℕ → α) : Prop where
  lt : i + 1 < n
  left : y i = x (i + 1)
  right : y (i + 1) = x i
  other : ∀ j < n, j ≠ i → j ≠ i + 1 → y j = x j

variable (w : ℕ → α → M) {n i : ℕ} {x y : ℕ → α}

theorem Changed.checkSum_eq_iff (h : Changed n i x y) :
    checkSum w n y = checkSum w n x ↔ w i (y i) = w i (x i) := by
  have hi : i ∈ Finset.range n := Finset.mem_range.2 h.lt
  have hrest : ∑ j ∈ (Finset.range n).erase i, w j (y j) =
      ∑ j ∈ (Finset.range n).erase i, w j (x j) := by
    apply Finset.sum_congr rfl
    intro j hj
    obtain ⟨hji, hj⟩ := Finset.mem_erase.1 hj
    rw [h.other j (Finset.mem_range.1 hj) hji]
  rw [checkSum, checkSum, ← Finset.add_sum_erase _ _ hi, ← Finset.add_sum_erase _ _ hi, hrest]
  exact add_left_inj _

theorem Swapped.checkSum_eq_iff (h : Swapped n i x y) :
    checkSum w n y = checkSum w n x ↔
      w i (x (i + 1)) + w (i + 1) (x i) = w i (x i) + w (i + 1) (x (i + 1)) := by
  have hi : i ∈ Finset.range n := Finset.mem_range.2 (Nat.lt_of_succ_lt h.lt)
  have hi' : i + 1 ∈ (Finset.range n).erase i :=
    Finset.mem_erase.2 ⟨Nat.succ_ne_self i, Finset.mem_range.2 h.lt⟩
  have hrest : ∑ j ∈ ((Finset.range n).erase i).erase (i + 1), w j (y j) =
      ∑ j ∈ ((Finset.range n).erase i).erase (i + 1), w j (x j) := by
    apply Finset.sum_congr rfl
    intro j hj
    obtain ⟨hji', hj⟩ := Finset.mem_erase.1 hj
    obtain ⟨hji, hj⟩ := Finset.mem_erase.1 hj
    rw [h.other j (Finset.mem_range.1 hj) hji hji']
  have hsplit : ∀ z : ℕ → α, checkSum w n z =
      w i (z i) + w (i + 1) (z (i + 1)) +
        ∑ j ∈ ((Finset.range n).erase i).erase (i + 1), w j (z j) := by
    intro z
    rw [checkSum, ← Finset.add_sum_erase _ _ hi, ← Finset.add_sum_erase _ _ hi', add_assoc]
  rw [hsplit, hsplit, hrest, add_left_inj, h.left, h.right]

end CheckDigit
