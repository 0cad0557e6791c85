import Mathlib.Data.ZMod.Basic
import CodeLibrary.Lib.CheckDigit
import CodeLibrary.Hotp.Generate

/-!
# The check digit of `calcChecksum`

* `checksumLoop_eq`: the loop adds up the digits, every other one doubled.
* `valid_iff`: a code ends with its check digit where the check sum of all its digits is zero, with
  the check digit among those that are not doubled.
* `calcChecksum_detects_iff`: of the mistakes in one digit or two adjacent ones, a swap of 0 and 9
  goes unnoticed, and no other.
-/

namespace Hotp

open CheckDigit

/-- The digit of `num` at position `i`, counted from the last one. -/
def digitAt (num i : Nat) : Nat := num / 10 ^ i % 10

/-- What a digit adds to `total`. -/
def digitWeight (doubleDigit : Bool) (digit : Nat) : Nat :=
  if doubleDigit then doubleDigits.getD digit 0 else digit

/-- The check sum, where the last digit is doubled or not. -/
def luhnSum (doubleDigit : Bool) (n num : Nat) : ZMod 10 :=
  checkSum (fun i digit => (digitWeight (doubleDigit ^^ i.bodd) digit : ZMod 10)) n (digitAt num)

/-- The last digit of `code` is the check digit of its other `d` digits. -/
def Valid (d code : Nat) : Prop := code % 10 = calcChecksum (code / 10) d

/-- The digits 0 and 9, in one order or the other. -/
def ZeroNine (a b : Nat) : Prop := a = 0 ∧ b = 9 ∨ a = 9 ∧ b = 0

instance (a b : Nat) : Decidable (ZeroNine a b) := by
  unfold ZeroNine
  infer_instance

/-! ## The loop -/

theorem digitAt_succ (num i : Nat) : digitAt num (i + 1) = digitAt (num / 10) i := by
  rw [digitAt, digitAt, Nat.pow_succ', Nat.div_div_eq_div_mul]

theorem digitAt_lt (num i : Nat) : digitAt num i < 10 := Nat.mod_lt _ (by decide)

theorem luhnSum_succ (doubleDigit : Bool) (n num : Nat) :
    luhnSum doubleDigit (n + 1) num =
      digitWeight doubleDigit (num % 10) + luhnSum (!doubleDigit) n (num / 10) := by
  rw [luhnSum, luhnSum, checkSum, checkSum, Finset.sum_range_succ', add_comm]
  have h0 : digitAt num 0 = num % 10 := by simp [digitAt]
  simp [digitAt_succ, h0]

theorem checksumLoop_eq : ∀ (digits num : Nat) (doubleDigit : Bool) (total : Nat),
    (checksumLoop digits num doubleDigit total : ZMod 10) =
      total + luhnSum doubleDigit digits num
  | 0, _, _, _ => by simp [checksumLoop, luhnSum, checkSum]
  | digits + 1, num, doubleDigit, total => by
    rw [checksumLoop, checksumLoop_eq digits, luhnSum_succ, ← add_assoc]
    rw [Nat.cast_add]
    rfl

theorem calcChecksum_lt (num digits : Nat) : calcChecksum num digits < 10 := by
  simp only [calcChecksum]
  split <;> omega

/-- The check digit brings the sum to a multiple of ten. -/
theorem eq_calcChecksum_iff {digit : Nat} (hd : digit < 10) (num digits : Nat) :
    digit = calcChecksum num digits ↔ 10 ∣ digit + checksumLoop digits num true 0 := by
  simp only [calcChecksum]
  split <;> omega

theorem valid_iff (d code : Nat) : Valid d code ↔ luhnSum false (d + 1) code = 0 := by
  rw [Valid, eq_calcChecksum_iff (Nat.mod_lt _ (by decide)), ← ZMod.natCast_eq_zero_iff]
  push_cast
  rw [checksumLoop_eq, luhnSum_succ]
  simp [digitWeight]

/-! ## Mistakes -/

theorem digitWeight_inj : ∀ doubleDigit : Bool, ∀ a < 10, ∀ b < 10,
    (digitWeight doubleDigit a : ZMod 10) = digitWeight doubleDigit b → a = b := by decide

/-- A swap of neighbours keeps the sum just where they are equal or 0 and 9. -/
theorem digitWeight_swap : ∀ doubleDigit : Bool, ∀ a < 10, ∀ b < 10,
    ((digitWeight doubleDigit b + digitWeight (!doubleDigit) a : ZMod 10) =
      digitWeight doubleDigit a + digitWeight (!doubleDigit) b ↔ a = b ∨ ZeroNine a b) := by
  decide

theorem luhnSum_changed {n i code code' : Nat} (h : Changed n i (digitAt code) (digitAt code'))
    (doubleDigit : Bool) : luhnSum doubleDigit n code' ≠ luhnSum doubleDigit n code := by
  intro he
  rw [luhnSum, luhnSum, h.checkSum_eq_iff] at he
  exact h.ne (digitWeight_inj _ _ (digitAt_lt _ _) _ (digitAt_lt _ _) he)

theorem luhnSum_swapped {n i code code' : Nat} (h : Swapped n i (digitAt code) (digitAt code'))
    (doubleDigit : Bool) : luhnSum doubleDigit n code' = luhnSum doubleDigit n code ↔
      digitAt code i = digitAt code (i + 1) ∨ ZeroNine (digitAt code i) (digitAt code (i + 1)) := by
  rw [luhnSum, luhnSum, h.checkSum_eq_iff]
  have hsucc : (doubleDigit ^^ (i + 1).bodd) = !(doubleDigit ^^ i.bodd) := by
    rw [Nat.bodd_succ, Bool.xor_not]
  rw [hsucc]
  exact digitWeight_swap _ _ (digitAt_lt _ _) _ (digitAt_lt _ _)

/-- `num` followed by its check digit. -/
def withChecksum (num d : Nat) : Nat := num * 10 + calcChecksum num d

theorem withChecksum_valid (num d : Nat) : Valid d (withChecksum num d) := by
  have hlt := calcChecksum_lt num d
  have hdiv : withChecksum num d / 10 = num := by rw [withChecksum]; omega
  rw [Valid, hdiv, withChecksum]
  omega

/-- **Error detection**: after a change of one digit or a swap of two different adjacent ones, the
code still ends with its check digit just where the swapped digits are 0 and 9. -/
theorem calcChecksum_detects_iff (d num code : Nat)
    (hmistake : ∃ i, Changed (d + 1) i (digitAt (withChecksum num d)) (digitAt code) ∨
      Swapped (d + 1) i (digitAt (withChecksum num d)) (digitAt code) ∧
        digitAt (withChecksum num d) i ≠ digitAt (withChecksum num d) (i + 1)) :
    code % 10 ≠ calcChecksum (code / 10) d ↔
      ¬∃ i, Swapped (d + 1) i (digitAt (withChecksum num d)) (digitAt code) ∧
        ZeroNine (digitAt (withChecksum num d) i) (digitAt (withChecksum num d) (i + 1)) := by
  have hvalid := (valid_iff d _).1 (withChecksum_valid num d)
  have hcode : code % 10 = calcChecksum (code / 10) d ↔
      luhnSum false (d + 1) code = luhnSum false (d + 1) (withChecksum num d) := by
    rw [hvalid]
    exact valid_iff d code
  rw [Ne, hcode, not_iff_not]
  refine ⟨fun he => ?_, fun h => ?_⟩
  · obtain ⟨i, hi | ⟨hi, hne⟩⟩ := hmistake
    · exact absurd he (luhnSum_changed hi false)
    · exact ⟨i, hi, ((luhnSum_swapped hi false).1 he).resolve_left hne⟩
  · obtain ⟨i, hi, hzn⟩ := h
    exact (luhnSum_swapped hi false).2 (.inr hzn)

/-- The first digit of 125, where 5 is the check digit, is changed. -/
theorem calcChecksum_detects_changed :
    withChecksum 12 2 = 125 ∧ 525 % 10 ≠ calcChecksum (525 / 10) 2 := by
  have hchanged : Changed 3 2 (digitAt 125) (digitAt 525) := ⟨by decide, by decide, by decide⟩
  refine ⟨by decide, (calcChecksum_detects_iff 2 12 525 ⟨2, .inl hchanged⟩).2 ?_⟩
  intro h
  obtain ⟨i, hi, -⟩ := h
  have hlt := hi.lt
  have hright := hi.right
  have hi2 : i = 0 ∨ i = 1 := by omega
  obtain rfl | rfl := hi2
  · exact absurd hright (by decide)
  · exact absurd hright (by decide)

/-- The check digit of 09 is that of 90, so the swap of its digits goes unnoticed. -/
theorem calcChecksum_misses_swap :
    withChecksum 9 2 = 91 ∧ Swapped 3 1 (digitAt 91) (digitAt 901) ∧
      digitAt 91 1 ≠ digitAt 91 2 ∧ 901 % 10 = calcChecksum (901 / 10) 2 :=
  ⟨by decide, ⟨by decide, by decide, by decide, by decide⟩, by decide, by decide⟩

end Hotp
