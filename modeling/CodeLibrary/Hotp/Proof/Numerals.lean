import Mathlib.Data.Nat.Digits.Lemmas
import Mathlib.Data.List.GetD
import CodeLibrary.Hotp.Generate

/-!
# The numerals of `myitoa`

* `swapEnds_eq`: the second loop reverses the string.
* `myitoa_of_neg`, `myitoa_of_unsigned`: the sign, and the digits from the first to the last
  (`numeral`).
* `numeralValue_pad`: zeros appended to a numeral multiply its value.
-/

namespace Hotp

/-- The digits of a number, the last one first; zero has one. -/
def placeDigits (radix n : Nat) : List Nat := if n = 0 then [0] else Nat.digits radix n

/-- The value of a digit `0`-`9`, `a`-`z`. -/
def digitValue (ch : Char) : Nat :=
  if ch.isDigit then ch.toNat - '0'.toNat else ch.toNat - 'a'.toNat + 10

/-- A string read as a numeral. -/
def numeralValue (radix : Nat) (s : List Char) : Nat :=
  Nat.ofDigits radix (s.reverse.map digitValue)

/-- The character of a digit. -/
def digitChar (digit : Nat) : Char := szMap.getD digit '0'

theorem digitValue_digitChar : ∀ digit < 36, digitValue (digitChar digit) = digit := by decide

theorem digitChar_isDigit : ∀ digit < 10, (digitChar digit).isDigit = true := by decide

/-! ## The loops -/

theorem placeDigits_lt {radix : Nat} (hradix : 2 ≤ radix) (n : Nat) :
    ∀ digit ∈ placeDigits radix n, digit < radix := by
  intro digit hd
  rw [placeDigits] at hd
  split at hd
  · rw [List.mem_singleton] at hd
    omega
  · exact Nat.digits_lt_base hradix hd

theorem ofDigits_placeDigits (radix n : Nat) : Nat.ofDigits radix (placeDigits radix n) = n := by
  rw [placeDigits]
  split
  · rename_i h
    simp [h]
  · exact Nat.ofDigits_digits radix n

/-- The last digit, and those before it. -/
theorem placeDigits_step {radix : Nat} (hradix : 2 ≤ radix) (n : Nat) : placeDigits radix n =
    n % radix :: if n / radix = 0 then [] else placeDigits radix (n / radix) := by
  by_cases hn : n = 0
  · simp [hn, placeDigits]
  · have hpos : 0 < n := Nat.pos_of_ne_zero hn
    rw [placeDigits, if_neg hn, Nat.digits_def' hradix hpos]
    split
    · rename_i h
      rw [h, Nat.digits_zero]
    · rename_i h
      rw [placeDigits, if_neg h]

theorem convertDigits_eq {radix : Nat} (hradix : 2 ≤ radix) (nValue : Nat) (pStr : List Char) :
    convertDigits radix hradix nValue pStr = pStr ++ (placeDigits radix nValue).map digitChar := by
  induction nValue, pStr using convertDigits.induct radix hradix with
  | case1 nValue pStr pStr' hgt ih =>
    rw [convertDigits, placeDigits_step hradix]
    simp only [hgt, if_true, Nat.ne_of_gt hgt, if_false]
    rw [ih]
    simp [pStr', digitChar]
  | case2 nValue pStr hgt =>
    have h0 : nValue / radix = 0 := Nat.eq_zero_of_not_pos hgt
    rw [convertDigits, placeDigits_step hradix]
    simp [h0, digitChar]

theorem length_swapEnds (nCount : Nat) :
    ∀ (k : Nat) (s : List Char), (swapEnds nCount k s).length = s.length
  | 0, _ => rfl
  | k + 1, s => by
    rw [swapEnds, length_swapEnds nCount k, List.length_set, List.length_set]

theorem getD_set {s : List Char} {i : Nat} (hi : i < s.length) (ch : Char) (p : Nat) :
    (s.set i ch).getD p '0' = if p = i then ch else s.getD p '0' := by
  simp only [List.getD_eq_getElem?_getD, List.getElem?_set]
  by_cases hp : p = i
  · simp [hp, hi]
  · simp [hp, Ne.symm hp]

/-- The loop from `k` down swaps the first `k` characters with the last `k`. -/
theorem getD_swapEnds {nCount : Nat} : ∀ {k : Nat} {s : List Char}, s.length = nCount + 1 →
    2 * k ≤ s.length → ∀ p ≤ nCount, (swapEnds nCount k s).getD p '0' =
      if p < k ∨ nCount < p + k then s.getD (nCount - p) '0' else s.getD p '0'
  | 0, s, hlen, hk, p, hp => by
    rw [swapEnds, if_neg (by omega)]
  | k + 1, s, hlen, hk, p, hp => by
    have hset : ∀ q,
        ((s.set k (s.getD (nCount - k) '0')).set (nCount - k) (s.getD k '0')).getD q '0' =
        if q = nCount - k then s.getD k '0' else if q = k then s.getD (nCount - k) '0'
          else s.getD q '0' := by
      intro q
      rw [getD_set (by rw [List.length_set]; omega), getD_set (by omega)]
    rw [swapEnds, getD_swapEnds (by simpa using hlen) (by simp; omega) p hp, hset, hset]
    by_cases hpk : p = k
    · subst hpk
      rw [if_neg (by omega), if_neg (by omega), if_pos rfl, if_pos (by omega)]
    · by_cases hpn : p = nCount - k
      · subst hpn
        rw [if_neg (by omega), if_pos rfl, if_pos (by omega)]
        congr 1
        omega
      · by_cases hin : p < k ∨ nCount < p + k
        · rw [if_pos hin, if_neg (by omega), if_neg (by omega), if_pos (by omega)]
        · rw [if_neg hin, if_neg hpn, if_neg hpk, if_neg (by omega)]

theorem swapEnds_eq {s : List Char} (hs : s ≠ []) :
    swapEnds (s.length - 1) ((s.length - 1 + 1) / 2) s = s.reverse := by
  have hpos : 0 < s.length := List.length_pos_iff.2 hs
  apply List.ext_getElem
  · rw [length_swapEnds, List.length_reverse]
  · intro p hp hp'
    have hlt : p < s.length := by simpa using hp'
    have hk : 2 * ((s.length - 1 + 1) / 2) ≤ s.length := by omega
    have hlen : s.length = s.length - 1 + 1 := by omega
    rw [List.getElem_reverse, ← List.getD_eq_getElem _ '0' hp, getD_swapEnds hlen hk p (by omega),
      ← List.getD_eq_getElem _ '0']
    split
    · rfl
    · congr 1
      omega

/-- The numeral of a number. -/
def numeral (radix n : Nat) : List Char := ((placeDigits radix n).map digitChar).reverse

theorem myitoa_of_neg {value : Int} (hneg : value < 0) (hmin : -2 ^ 31 ≤ value) :
    myitoa value 10 = '-' :: numeral 10 (-value).toNat := by
  have hval : ((-value) % 2 ^ 32).toNat = (-value).toNat := by omega
  rw [myitoa, dif_pos ⟨by decide, by decide⟩]
  simp only [hneg, true_and, if_true, hval, convertDigits_eq, List.nil_append]
  rw [swapEnds_eq (by rw [placeDigits_step (by decide)]; simp)]
  rfl

theorem myitoa_of_unsigned {value : Int} {radix : Nat} (h2 : 2 ≤ radix) (h36 : radix ≤ 36)
    (h : ¬(value < 0 ∧ radix = 10)) :
    myitoa value radix = numeral radix (value % 2 ^ 32).toNat := by
  rw [myitoa, dif_pos ⟨h2, h36⟩]
  simp only [h, if_false, convertDigits_eq, List.nil_append]
  exact swapEnds_eq (by rw [placeDigits_step h2]; simp)

/-- The numeral of a number that is not negative. -/
theorem myitoa_eq {radix n : Nat} (h2 : 2 ≤ radix) (h36 : radix ≤ 36) (hn : n < 2 ^ 32) :
    myitoa n radix = ((placeDigits radix n).map digitChar).reverse := by
  have hneg : ¬((n : Int) < 0 ∧ radix = 10) := by omega
  have hval : ((n : Int) % 2 ^ 32).toNat = n := by omega
  rw [myitoa_of_unsigned h2 h36 hneg, hval, numeral]

/-! ## Their values -/

theorem numeralValue_myitoa {radix n : Nat} (h2 : 2 ≤ radix) (h36 : radix ≤ 36) (hn : n < 2 ^ 32) :
    numeralValue radix (myitoa n radix) = n := by
  have hmap : (placeDigits radix n).map (digitValue ∘ digitChar) = placeDigits radix n := by
    rw [List.map_congr_left (g := id) ?_, List.map_id]
    intro digit hd
    exact digitValue_digitChar digit (Nat.lt_of_lt_of_le (placeDigits_lt h2 n digit hd) h36)
  rw [numeralValue, myitoa_eq h2 h36 hn, List.reverse_reverse, List.map_map, hmap,
    ofDigits_placeDigits]

theorem padZeros_eq (digits : Nat) (s : List Char) :
    padZeros digits s = s ++ List.replicate (digits - s.length) '0' := by
  induction s using padZeros.induct digits with
  | case1 s hlt ih =>
    obtain ⟨k, hk⟩ : ∃ k, digits - s.length = k + 1 := ⟨digits - s.length - 1, by omega⟩
    rw [padZeros, if_pos hlt, ih, List.length_append, List.length_singleton, ← Nat.sub_sub, hk,
      List.replicate_succ, List.append_assoc]
    rfl
  | case2 s hlt =>
    rw [padZeros, if_neg hlt, Nat.sub_eq_zero_of_le (Nat.le_of_not_lt hlt)]
    simp

/-- Zeros after a numeral. -/
theorem numeralValue_pad (radix : Nat) (s : List Char) (k : Nat) :
    numeralValue radix (s ++ List.replicate k '0') = radix ^ k * numeralValue radix s := by
  rw [numeralValue, List.reverse_append, List.map_append, Nat.ofDigits_append]
  simp [numeralValue, digitValue, Nat.ofDigits_replicate_zero]

end Hotp
