import CodeLibrary.Hotp.Buffer
import CodeLibrary.Hotp.Proof.Numerals
import CodeLibrary.Lib.Stores

/-!
# The numerals of `myitoa`, read back

* `myitoaAt_eq`: what `myitoa` writes is the string `myitoa value radix` with a NUL behind it.
* `readNumeral_myitoa`: that string reads back as the value, or for a radix other than 10 as the
  value modulo 2³².
* `myitoa_ok`: both, with no superfluous zero; so distinct values give distinct strings.
-/

namespace Hotp

open Stores

/-! ## What is written -/

theorem convertAt_eq {radix : Nat} (hradix : 2 ≤ radix ∧ radix ≤ 36) (pStr nValue : Nat)
    (s : List Char) (mem : Nat → Char) :
    convertAt radix hradix pStr nValue s.length (write mem pStr s) =
      (write mem pStr (convertDigits radix hradix.1 nValue s),
        (convertDigits radix hradix.1 nValue s).length) := by
  induction nValue, s using convertDigits.induct radix hradix.1 with
  | case1 nValue s s' hgt ih =>
    rw [convertAt, convertDigits]
    simp only [hgt, if_true, write_snoc]
    rw [← ih, List.length_append, List.length_singleton]
  | case2 nValue s hgt =>
    rw [convertAt, convertDigits]
    simp only [hgt, if_false, write_snoc, List.length_append, List.length_singleton]

theorem reverseAt_eq (pStr nCount : Nat) (mem : Nat → Char) : ∀ (k : Nat) (s : List Char),
    s.length = nCount + 1 → k ≤ nCount + 1 →
      reverseAt pStr nCount k (write mem pStr s) = write mem pStr (swapEnds nCount k s)
  | 0, _, _, _ => rfl
  | k + 1, s, hlen, hk => by
    rw [reverseAt, swapEnds, write_apply mem pStr s (show k < s.length by omega) '0',
      write_apply mem pStr s (show nCount - k < s.length by omega) '0',
      write_set _ _ _ (by omega), write_set _ _ _ (by rw [List.length_set]; omega),
      reverseAt_eq pStr nCount mem k _ (by simpa using hlen) (by omega)]

/-- The digits are reversed, and a NUL is put behind them. -/
theorem finish_eq (mem : Nat → Char) (pStr : Nat) {s : List Char} (hs : 0 < s.length) :
    Function.update (reverseAt pStr (s.length - 1) ((s.length - 1 + 1) / 2) (write mem pStr s))
        (pStr + (s.length - 1) + 1) '\x00' =
      write mem pStr (swapEnds (s.length - 1) ((s.length - 1 + 1) / 2) s ++ ['\x00']) := by
  rw [reverseAt_eq _ _ _ _ _ (by omega) (by omega), ← write_snoc, length_swapEnds,
    show pStr + (s.length - 1) + 1 = pStr + s.length by omega]

/-- **What `myitoa` writes**: the string and a NUL. -/
theorem myitoaAt_eq (mem : Nat → Char) (value : Int) (radix : Nat) :
    myitoaAt mem value radix = write mem 0 (myitoa value radix ++ ['\x00']) := by
  unfold myitoaAt myitoa
  by_cases hradix : 2 ≤ radix ∧ radix ≤ 36
  · rw [dif_pos hradix, dif_pos hradix]
    have hconv := fun pStr mem n => convertAt_eq hradix pStr n [] mem
    simp only [write_nil, List.length_nil] at hconv
    have hpos : ∀ n, 0 < (convertDigits radix hradix.1 n []).length := fun n => by
      rw [convertDigits_eq, List.nil_append, placeDigits_step hradix.1]
      simp
    by_cases hneg : value < 0 ∧ radix = 10
    · simp only [if_pos hneg, hconv]
      rw [finish_eq _ _ (hpos _)]
      exact write_cons mem 0 _ '-'
    · simp only [if_neg hneg, hconv]
      rw [finish_eq _ _ (hpos _), List.nil_append]
  · rw [dif_neg hradix, dif_neg hradix]
    have h := write_snoc mem 0 [] '\x00'
    rw [write_nil] at h
    exact h

/-! ## The numerals -/

/-- The characters of numerals. -/
theorem digitChar_ne : ∀ digit < 36, digitChar digit ≠ '-' ∧ digitChar digit ≠ '\x00' ∧
    (digitChar digit = '0' → digit = 0) := by decide

theorem mem_numeral {radix n : Nat} (h2 : 2 ≤ radix) (h36 : radix ≤ 36) {ch : Char}
    (h : ch ∈ numeral radix n) : ch ≠ '-' ∧ ch ≠ '\x00' := by
  rw [numeral, List.mem_reverse] at h
  obtain ⟨digit, hd, rfl⟩ := List.mem_map.1 h
  have := digitChar_ne digit (Nat.lt_of_lt_of_le (placeDigits_lt h2 n digit hd) h36)
  exact ⟨this.1, this.2.1⟩

/-- Only zero is spelled with a zero in front. -/
theorem eq_zero_of_head {radix n : Nat} (h2 : 2 ≤ radix) (h36 : radix ≤ 36)
    (h : (numeral radix n).head? = some '0') : n = 0 := by
  by_contra hn
  have hdigits : placeDigits radix n = Nat.digits radix n := if_neg hn
  have hne : Nat.digits radix n ≠ [] := Nat.digits_ne_nil_iff_ne_zero.2 hn
  rw [numeral, List.head?_reverse, List.getLast?_map, hdigits,
    List.getLast?_eq_getLast_of_ne_nil hne, Option.map_some, Option.some_inj] at h
  have hlt := Nat.digits_lt_base h2 (List.getLast_mem hne)
  exact Nat.getLast_digit_ne_zero radix hn ((digitChar_ne _ (by omega)).2.2 h)

/-- No superfluous zero in front of the digits. -/
def NoExtraZero (s : List Char) : Prop :=
  ∀ digits, s = digits ∨ s = '-' :: digits → digits.head? = some '0' → s = ['0']

theorem noExtraZero_numeral {radix n : Nat} (h2 : 2 ≤ radix) (h36 : radix ≤ 36) :
    NoExtraZero (numeral radix n) := by
  intro digits hs h0
  rcases hs with rfl | hs
  · rw [eq_zero_of_head h2 h36 h0]
    rfl
  · exact absurd rfl (mem_numeral h2 h36 (hs ▸ List.mem_cons_self)).1

/-! ## Reading back -/

/-- The value of a digit `0`-`9`, `a`-`z` of a radix. -/
def digit? (radix : Nat) (ch : Char) : Option Nat :=
  if (ch.isDigit ∨ 'a' ≤ ch ∧ ch ≤ 'z') ∧ digitValue ch < radix then some (digitValue ch) else none

/-- The number a string of digits spells; none for an empty string. -/
def readDigits (radix : Nat) (digits : List Char) : Option Nat :=
  if digits = [] then none
  else digits.foldlM (fun n ch => (digit? radix ch).map (n * radix + ·)) 0

/-- The number a numeral spells, with a sign only for radix 10. -/
def readNumeral (radix : Nat) : List Char → Option Int
  | '-' :: digits =>
    if radix = 10 then (readDigits radix digits).map fun n : Nat => -(n : Int)
    else none
  | digits => (readDigits radix digits).map fun n : Nat => (n : Int)

theorem digit?_digitChar : ∀ digit < 36, ∀ radix ≤ 36, digit < radix →
    digit? radix (digitChar digit) = some digit := by
  have hchar : ∀ digit < 36, (digitChar digit).isDigit ∨
      'a' ≤ digitChar digit ∧ digitChar digit ≤ 'z' := by decide
  intro digit h36 radix _ hlt
  rw [digit?, digitValue_digitChar digit h36, if_pos ⟨hchar digit h36, hlt⟩]

theorem readDigits_numeral {radix : Nat} (h2 : 2 ≤ radix) (h36 : radix ≤ 36) (n : Nat) :
    readDigits radix (numeral radix n) = some n := by
  have hfold : ∀ digits : List Nat, (∀ digit ∈ digits, digit < radix) →
      (digits.map digitChar).reverse.foldlM
          (fun n ch => (digit? radix ch).map (n * radix + ·)) 0 =
        some (Nat.ofDigits radix digits) := by
    intro digits hd
    induction digits with
    | nil => rfl
    | cons digit digits ih =>
      have hlt := hd digit List.mem_cons_self
      rw [List.map_cons, List.reverse_cons, List.foldlM_append,
        ih fun d h => hd d (List.mem_cons_of_mem _ h)]
      simp only [List.foldlM_cons, List.foldlM_nil, Option.bind_eq_bind, Option.bind_some,
        digit?_digitChar digit (by omega) radix h36 hlt, Option.map_some, Nat.ofDigits_cons]
      simp [Nat.mul_comm, Nat.add_comm]
  have hne : numeral radix n ≠ [] := by
    rw [numeral, placeDigits_step h2]
    simp
  rw [readDigits, if_neg hne, numeral, hfold _ (placeDigits_lt h2 n), ofDigits_placeDigits]

theorem readNumeral_of_ne {radix : Nat} {s : List Char} (h : '-' ∉ s) :
    readNumeral radix s = (readDigits radix s).map fun n : Nat => (n : Int) := by
  unfold readNumeral
  split
  · exact absurd List.mem_cons_self h
  · rfl

/-- **The string reads back** as the value, or modulo 2³² where the radix is not 10. -/
theorem readNumeral_myitoa {value : Int} {radix : Nat} (hmin : -2 ^ 31 ≤ value)
    (hmax : value < 2 ^ 31) (h2 : 2 ≤ radix) (h36 : radix ≤ 36) :
    readNumeral radix (myitoa value radix) =
      some (if radix = 10 then value else value % 2 ^ 32) := by
  by_cases hneg : value < 0 ∧ radix = 10
  · obtain ⟨hneg, rfl⟩ := hneg
    rw [myitoa_of_neg hneg hmin, readNumeral, readDigits_numeral h2 h36, if_pos rfl, if_pos rfl,
      Option.map_some, Option.some_inj]
    omega
  · rw [myitoa_of_unsigned h2 h36 hneg, readNumeral_of_ne fun h => (mem_numeral h2 h36 h).1 rfl,
      readDigits_numeral h2 h36, Option.map_some, Option.some_inj]
    split <;> omega

theorem noExtraZero_myitoa {value : Int} {radix : Nat} (hmin : -2 ^ 31 ≤ value) (h2 : 2 ≤ radix)
    (h36 : radix ≤ 36) : NoExtraZero (myitoa value radix) ∧ '\x00' ∉ myitoa value radix := by
  by_cases hneg : value < 0 ∧ radix = 10
  · obtain ⟨hneg, rfl⟩ := hneg
    rw [myitoa_of_neg hneg hmin]
    refine ⟨fun digits hs h0 => ?_, fun h => ?_⟩
    · rcases hs with rfl | hs
      · cases h0
      · rw [← List.tail_eq_of_cons_eq hs] at h0
        have := eq_zero_of_head h2 h36 h0
        omega
    · rcases List.mem_cons.1 h with h | h
      · cases h
      · exact (mem_numeral h2 h36 h).2 rfl
  · rw [myitoa_of_unsigned h2 h36 hneg]
    exact ⟨noExtraZero_numeral h2 h36, fun h => (mem_numeral h2 h36 h).2 rfl⟩

/-- **`myitoa`**: for every `int` and every radix from 2 to 36 it writes a numeral with a NUL behind
it that has no superfluous zero and reads back; so distinct values give distinct strings. -/
theorem myitoa_ok (mem : Nat → Char) {value : Int} {radix : Nat} (hmin : -2 ^ 31 ≤ value)
    (hmax : value < 2 ^ 31) (h2 : 2 ≤ radix) (h36 : radix ≤ 36) :
    myitoaAt mem value radix = write mem 0 (myitoa value radix ++ ['\x00']) ∧
    '\x00' ∉ myitoa value radix ∧ NoExtraZero (myitoa value radix) ∧
    readNumeral radix (myitoa value radix) =
      some (if radix = 10 then value else value % 2 ^ 32) ∧
    ∀ value' : Int, -2 ^ 31 ≤ value' → value' < 2 ^ 31 → value' ≠ value →
      myitoa value' radix ≠ myitoa value radix := by
  have hread := readNumeral_myitoa hmin hmax h2 h36
  obtain ⟨hzero, hnul⟩ := noExtraZero_myitoa hmin h2 h36
  refine ⟨myitoaAt_eq mem value radix, hnul, hzero, hread, fun value' hmin' hmax' hne heq => ?_⟩
  have hread' := readNumeral_myitoa hmin' hmax' h2 h36
  rw [heq, hread, Option.some_inj] at hread'
  split at hread' <;> omega

/-- The least `int`, whose negation wraps around. -/
theorem myitoa_ok_min : readNumeral 10 (myitoa (-2147483648) 10) = some (-2147483648) ∧
    myitoa (-2147483647) 10 ≠ myitoa (-2147483648) 10 := by
  obtain ⟨-, -, -, hread, hne⟩ := myitoa_ok (fun _ => 'x')
    (show -2 ^ 31 ≤ (-2147483648 : Int) by decide) (by decide) (show 2 ≤ 10 by decide) (by decide)
  exact ⟨hread, hne (-2147483647) (by decide) (by decide) (by decide)⟩

end Hotp
