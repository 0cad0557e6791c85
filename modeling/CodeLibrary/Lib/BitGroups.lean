import Mathlib.Data.Nat.Notation
import Mathlib.Algebra.Group.Nat.Defs
import Mathlib.Algebra.Group.Int.Defs

/-!
# Digits regrouped by their bits

A text in base `2 ^ n` is a string of bits, `n` for each digit, the highest first.

* `toBits n x`: the `n` low bits of `x`. `ofBits` reads them back.
* `unpack n xs`: the bits of the digits `xs`. `pack n bits`: the digits of the full groups of `n`
  bits; bits left over are dropped.
* `pack_unpack`, `unpack_pack`: each undoes the other. So digits that go into a text of another
  base, filled up with fewer bits than one of them has, come back (`regroup_regroup`).
-/

set_option autoImplicit false

namespace BitGroups

/-- The `n` low bits of a number, the highest first. -/
def toBits (n x : Nat) : List Bool := (List.range n).reverse.map x.testBit

/-- The number with these bits, the highest first. -/
def ofBits : List Bool → Nat
  | [] => 0
  | b :: bits => 2 ^ bits.length * b.toNat + ofBits bits

/-- The bits of the digits. -/
def unpack (n : Nat) (xs : List Nat) : List Bool := xs.flatMap (toBits n)

/-- The first `k` groups of `n` bits. -/
def packGroups (n : Nat) : Nat → List Bool → List Nat
  | 0, _ => []
  | k + 1, bits => ofBits (bits.take n) :: packGroups n k (bits.drop n)

/-- The digits of the full groups of `n` bits. -/
def pack (n : Nat) (bits : List Bool) : List Nat := packGroups n (bits.length / n) bits

/-! ## Bits of a number -/

@[simp] theorem length_toBits (n x : Nat) : (toBits n x).length = n := by simp [toBits]

theorem toBits_zero (x : Nat) : toBits 0 x = [] := rfl

theorem toBits_succ (n x : Nat) : toBits (n + 1) x = x.testBit n :: toBits n x := by
  simp [toBits, List.range_succ]

/-- High bits before low bits. -/
theorem toBits_add (n x : Nat) : ∀ m, toBits (m + n) x = toBits m (x >>> n) ++ toBits n x
  | 0 => by rw [Nat.zero_add, toBits_zero, List.nil_append]
  | m + 1 => by
    rw [Nat.add_right_comm, toBits_succ, toBits_add n x m, toBits_succ, Nat.testBit_shiftRight,
      Nat.add_comm n m, List.cons_append]

theorem toBits_congr {x y : Nat} :
    ∀ {n : Nat}, (∀ i < n, x.testBit i = y.testBit i) → toBits n x = toBits n y
  | 0, _ => rfl
  | n + 1, h => by
    rw [toBits_succ, toBits_succ, h n (Nat.lt_succ_self n),
      toBits_congr fun i hi => h i (Nat.lt_succ_of_lt hi)]

theorem toBits_zero_right : ∀ n, toBits n 0 = List.replicate n false
  | 0 => rfl
  | n + 1 => by rw [toBits_succ, toBits_zero_right n, Nat.zero_testBit, List.replicate_succ]

theorem ofBits_lt : ∀ bits : List Bool, ofBits bits < 2 ^ bits.length
  | [] => Nat.one_pos
  | b :: bits => by
    have h := ofBits_lt bits
    rw [ofBits, List.length_cons, Nat.pow_succ]
    cases b
    · simp only [Bool.toNat_false, Nat.mul_zero]
      omega
    · simp only [Bool.toNat_true, Nat.mul_one]
      omega

theorem ofBits_toBits (x : Nat) : ∀ n, ofBits (toBits n x) = x % 2 ^ n
  | 0 => by rw [toBits_zero, ofBits, Nat.pow_zero, Nat.mod_one]
  | n + 1 => by
    rw [toBits_succ, ofBits, length_toBits, ofBits_toBits x n, Nat.toNat_testBit, Nat.pow_succ,
      Nat.mod_mul, Nat.add_comm]

theorem toBits_ofBits : ∀ bits : List Bool, toBits bits.length (ofBits bits) = bits
  | [] => rfl
  | b :: bits => by
    have hlt := ofBits_lt bits
    rw [List.length_cons, toBits_succ, ofBits, Nat.testBit_two_pow_mul_add _ hlt,
      if_neg (Nat.lt_irrefl _), Nat.sub_self]
    have hlow : toBits bits.length (2 ^ bits.length * b.toNat + ofBits bits) =
        toBits bits.length (ofBits bits) := toBits_congr fun i hi => by
      rw [Nat.testBit_two_pow_mul_add _ hlt, if_pos hi]
    rw [hlow, toBits_ofBits bits]
    cases b <;> rfl

/-! ## Digits -/

theorem unpack_append (n : Nat) (xs ys : List Nat) :
    unpack n (xs ++ ys) = unpack n xs ++ unpack n ys := List.flatMap_append

theorem unpack_singleton (n x : Nat) : unpack n [x] = toBits n x := by simp [unpack]

theorem length_unpack (n : Nat) : ∀ xs : List Nat, (unpack n xs).length = n * xs.length
  | [] => rfl
  | x :: xs => by
    have ih := length_unpack n xs
    simp only [unpack, List.flatMap_cons, List.length_append, length_toBits, List.length_cons,
      Nat.mul_succ] at ih ⊢
    omega

theorem length_packGroups (n : Nat) : ∀ k bits, (packGroups n k bits).length = k
  | 0, _ => rfl
  | k + 1, bits => by rw [packGroups, List.length_cons, length_packGroups n k]

@[simp] theorem length_pack (n : Nat) (bits : List Bool) :
    (pack n bits).length = bits.length / n := length_packGroups n _ bits

theorem pack_of_lt {n : Nat} {bits : List Bool} (h : bits.length < n) : pack n bits = [] := by
  rw [pack, Nat.div_eq_of_lt h, packGroups]

/-- A full group is a digit. -/
theorem pack_append {n : Nat} {group : List Bool} (hn : 0 < n) (h : group.length = n)
    (bits : List Bool) : pack n (group ++ bits) = ofBits group :: pack n bits := by
  have hdiv : (group ++ bits).length / n = bits.length / n + 1 := by
    rw [List.length_append, h, Nat.add_comm, Nat.add_div_right _ hn]
  rw [pack, hdiv, packGroups, ← h, List.take_left, List.drop_left, pack]

theorem pack_unpack_append {n : Nat} (hn : 0 < n) (rest : List Bool) :
    ∀ {xs : List Nat}, (∀ x ∈ xs, x < 2 ^ n) → pack n (unpack n xs ++ rest) = xs ++ pack n rest
  | [], _ => rfl
  | x :: xs, hx => by
    have hcons : unpack n (x :: xs) ++ rest = toBits n x ++ (unpack n xs ++ rest) := by
      rw [unpack, List.flatMap_cons, List.append_assoc, unpack]
    rw [hcons, pack_append hn (length_toBits n x), ofBits_toBits,
      Nat.mod_eq_of_lt (hx x List.mem_cons_self),
      pack_unpack_append hn rest fun y hy => hx y (List.mem_cons_of_mem _ hy), List.cons_append]

theorem pack_unpack {n : Nat} {rest : List Bool} (hr : rest.length < n) {xs : List Nat}
    (hx : ∀ x ∈ xs, x < 2 ^ n) : pack n (unpack n xs ++ rest) = xs := by
  rw [pack_unpack_append (Nat.zero_lt_of_lt hr) rest hx, pack_of_lt hr, List.append_nil]

theorem unpack_packGroups {n : Nat} : ∀ (k : Nat) {bits : List Bool}, bits.length = n * k →
    unpack n (packGroups n k bits) = bits
  | 0, bits, h => by
    rw [Nat.mul_zero] at h
    rw [List.eq_nil_of_length_eq_zero h]
    rfl
  | k + 1, bits, h => by
    rw [Nat.mul_succ] at h
    have htake : (bits.take n).length = n := by
      rw [List.length_take]
      omega
    have hdrop : (bits.drop n).length = n * k := by
      rw [List.length_drop]
      omega
    have hbits := toBits_ofBits (bits.take n)
    rw [htake] at hbits
    have hcons : unpack n (packGroups n (k + 1) bits) =
        toBits n (ofBits (bits.take n)) ++ unpack n (packGroups n k (bits.drop n)) := rfl
    rw [hcons, hbits, unpack_packGroups k hdrop, List.take_append_drop]

theorem unpack_pack {n : Nat} {bits : List Bool} (h : n ∣ bits.length) :
    unpack n (pack n bits) = bits :=
  unpack_packGroups _ (Nat.mul_div_cancel' h).symm

theorem lt_of_mem_packGroups {n : Nat} : ∀ (k : Nat) {bits : List Bool} {x : Nat},
    x ∈ packGroups n k bits → x < 2 ^ n
  | 0, _, _, h => absurd h List.not_mem_nil
  | k + 1, bits, x, h => by
    rw [packGroups, List.mem_cons] at h
    obtain rfl | h := h
    · exact Nat.lt_of_lt_of_le (ofBits_lt _)
        (Nat.pow_le_pow_right (by decide) (List.length_take_le n bits))
    · exact lt_of_mem_packGroups k h

theorem lt_of_mem_pack {n : Nat} {bits : List Bool} {x : Nat} (h : x ∈ pack n bits) : x < 2 ^ n :=
  lt_of_mem_packGroups _ h

/-- **Regrouping back.** Digits of `b` bits that are regrouped by `a` bits, behind fewer than `b`
bits of filling, come back. -/
theorem regroup_regroup {a b : Nat} {fill : List Bool} (hfill : fill.length < b) {xs : List Nat}
    (hx : ∀ x ∈ xs, x < 2 ^ b) (ha : a ∣ (unpack b xs ++ fill).length) :
    pack b (unpack a (pack a (unpack b xs ++ fill))) = xs := by
  rw [unpack_pack ha, pack_unpack hfill hx]

end BitGroups
