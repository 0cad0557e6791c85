import CodeLibrary.Hotp.Proof.Generate
import CodeLibrary.Hotp.Proof.Hmac
import CodeLibrary.Libpam.Code

/-!
# Two ways to a password

`compute_code` and `generateOTP` truncate the same hash to the same number. `generateOTP` writes the
number down, and pads it behind.
-/

set_option autoImplicit false

namespace Libpam

open Hotp Fips

theorem toUInt8_eq (value : UInt64) : value.toUInt8 = .ofNat value.toNat := by
  apply UInt8.toNat_inj.1
  rw [UInt64.toNat_toUInt8, UInt8.toNat_ofNat']

theorem toNat_shiftRight_eight (value : UInt64) : (value >>> 8).toNat = value.toNat >>> 8 :=
  UInt64.toNat_shiftRight value 8

/-- The loop stores the bytes of the value, the first one first. -/
theorem storeValue_eq (value : UInt64) :
    ∀ val : List UInt8, val.length = 8 → storeValue 8 value val = bigEndian 8 value.toNat
  | [_, _, _, _, _, _, _, _], _ => by
    simp only [storeValue, List.set_cons_zero, List.set_cons_succ, toUInt8_eq,
      toNat_shiftRight_eight, ← Nat.shiftRight_add, bigEndian_eight, Nat.shiftRight_zero]

/-- A byte is put behind a word. -/
theorem append_byte {t : UInt32} (ht : t.toNat < 2 ^ 24) (h : UInt8) :
    ((t <<< 8) ||| h.toUInt32).toNat = t.toNat * 2 ^ 8 + h.toNat := by
  have hsl : (t <<< 8).toNat = t.toNat <<< 8 := by
    rw [UInt32.toNat_shiftLeft]
    refine Nat.mod_eq_of_lt ?_
    rw [Nat.shiftLeft_eq]
    show t.toNat * 2 ^ 8 < 2 ^ 32
    omega
  rw [UInt32.toNat_or, hsl, UInt8.toNat_toUInt32, ← Nat.shiftLeft_add_eq_or_of_lt h.toNat_lt,
    Nat.shiftLeft_eq]

theorem hashByte_ofFn (hash : Nat → UInt8) {i : Nat} (hi : i < 20) :
    hashByte (.ofFn fun i => hash i) i = (hash i).toNat := by
  have hi' : i < hashlen := hi
  simp [hashByte, hi']

/-- The loop reads a big-endian number of at most four bytes. -/
theorem truncateHash_toNat (hash : Nat → UInt8) (offset : Nat) :
    ∀ (n i : Nat) (t : UInt32), n ≤ 4 → t.toNat < 2 ^ (8 * (4 - n)) →
      (truncateHash hash offset n i t).toNat =
        (List.range' i n).foldl (fun x k => x * 2 ^ 8 + (hash (offset + k)).toNat) t.toNat
  | 0, _, _, _, _ => rfl
  | n + 1, i, t, hn, ht => by
    have h24 : t.toNat < 2 ^ 24 :=
      Nat.lt_of_lt_of_le ht (Nat.pow_le_pow_right (by decide) (by omega))
    have hpush := append_byte h24 (hash (offset + i))
    have hbyte := (hash (offset + i)).toNat_lt
    have hpow : 2 ^ (8 * (4 - n)) = 2 ^ (8 * (4 - (n + 1))) * 2 ^ 8 := by
      rw [← Nat.pow_add]
      congr 1
      omega
    rw [truncateHash, truncateHash_toNat hash offset n (i + 1) _ (by omega) (by omega), hpush,
      List.range'_succ, List.foldl_cons]

/-- The four bytes without the sign bit. -/
theorem truncateHash_eq (hash : Nat → UInt8) {offset : Nat} (h : offset < 16) :
    (truncateHash hash offset 4 0 0 &&& 0x7FFFFFFF).toNat =
      truncatedValue (.ofFn fun i => hash i) offset := by
  have h0 := (hash offset).toNat_lt
  have h1 := (hash (offset + 1)).toNat_lt
  have h2 := (hash (offset + 2)).toNat_lt
  have h3 := (hash (offset + 3)).toNat_lt
  have hand : ∀ x : Nat, x &&& 0x7FFFFFFF = x % 2 ^ 31 :=
    fun x => Nat.and_two_pow_sub_one_eq_mod x 31
  have hrun := truncateHash_toNat hash offset 4 0 0 (by decide) (by decide)
  simp only [List.range', List.foldl_cons, List.foldl_nil, UInt32.toNat_zero,
    Nat.zero_add, Nat.add_zero, Nat.reduceAdd] at hrun
  rw [UInt32.toNat_and, hrun, truncatedValue, hashByte_ofFn hash (by omega),
    hashByte_ofFn hash (by omega), hashByte_ofFn hash (by omega), hashByte_ofFn hash (by omega)]
  show _ &&& 0x7FFFFFFF = _
  rw [hand]
  omega

theorem computeCode_eq (b : Build) (stack : Nat → UInt8) (secret : List UInt8) (value : UInt64) :
    (computeCode b stack secret value).toNat =
      otpValue (.ofFn fun i => hmacSha1 b stack secret (bigEndian 8 value.toNat) stack hashlen i)
        6 (-1) := by
  unfold computeCode otpValue otpOffset
  rw [storeValue_eq value _ (by simp), hashByte_ofFn _ (by decide), if_neg (by decide)]
  have hand : ∀ x : Nat, x &&& 0xF = x % 16 := fun x => Nat.and_two_pow_sub_one_eq_mod x 4
  simp only [hand]
  rw [UInt32.toNat_mod, truncateHash_eq _ (Nat.mod_lt _ (by decide))]
  rfl

/-- **Two ways to a password.** On the bytes of a value `generateOTP` writes the digits of
`compute_code` and fills them up to six places from behind: the two agree on zero and on the codes
that have six digits, and on no other. -/
theorem generateOTP_computeCode (b : Build) (stack : Nat → UInt8) (secret : List UInt8)
    (value : UInt64) {truncationOffset : Int}
    (hoff : ¬ (0 ≤ truncationOffset ∧ truncationOffset < 16)) :
    let code := (computeCode b stack secret value).toNat
    ∃ s, generateOTP (fun key text => .ofFn fun i => hmacSha1 b stack key text stack hashlen i)
        secret (storeValue 8 value (List.replicate 8 0)) 6 false truncationOffset = some s ∧
      s.length = 6 ∧ numeralValue 10 s = 10 ^ (6 - (placeDigits 10 code).length) * code ∧
      (numeralValue 10 s = code ↔ code = 0 ∨ 100000 ≤ code) := by
  intro code
  have hcode : otpValue (.ofFn fun i => hmacSha1 b stack secret (bigEndian 8 value.toNat) stack
      hashlen i) 6 truncationOffset = code := by
    show _ = (computeCode b stack secret value).toNat
    rw [computeCode_eq, otpValue, otpValue, otpOffset, otpOffset, if_neg hoff, if_neg (by decide)]
  have hlt : code < 10 ^ (5 + 1) := by
    rw [← hcode]
    exact otpValue_lt _ 6 _
  have hint : code < 2 ^ 32 := Nat.lt_of_lt_of_le hlt (by decide)
  rw [generateOTP_eq _ _ _ (by decide), storeValue_eq value _ List.length_replicate, hcode]
  refine ⟨_, rfl, length_padZeros (length_myitoa_le (by decide) hint hlt), ?_,
    numeralValue_padZeros_iff hint hlt⟩
  show numeralValue 10 (padZeros 6 (myitoa code 10)) = _
  rw [padZeros_eq, numeralValue_pad, numeralValue_myitoa (by decide) (by decide) hint,
    myitoa_eq (by decide) (by decide) hint, List.length_reverse, List.length_map]

theorem generateOTP_computeCode_zero :
    ∃ s, generateOTP (fun key text => .ofFn fun i =>
        hmacSha1 ⟨true, false⟩ (fun _ => 0) key text (fun _ => 0) hashlen i)
        [1] (storeValue 8 0 (List.replicate 8 0)) 6 false (-1) = some s ∧ s.length = 6 ∧
      numeralValue 10 s = 10 ^ (6 - (placeDigits 10
        (computeCode ⟨true, false⟩ (fun _ => 0) [1] 0).toNat).length) *
        (computeCode ⟨true, false⟩ (fun _ => 0) [1] 0).toNat ∧
      (numeralValue 10 s = (computeCode ⟨true, false⟩ (fun _ => 0) [1] 0).toNat ↔
        (computeCode ⟨true, false⟩ (fun _ => 0) [1] 0).toNat = 0 ∨
          100000 ≤ (computeCode ⟨true, false⟩ (fun _ => 0) [1] 0).toNat) :=
  generateOTP_computeCode ⟨true, false⟩ (fun _ => 0) [1] 0 (by decide)

end Libpam
