import CodeLibrary.Hotp.Proof.Numerals
import CodeLibrary.Hotp.Proof.Checksum

/-!
# The passwords of `generateOTP`

What a password is to be: four bytes of the hash, without their sign bit, read as a number, of which
the last digits are kept (`otpValue`), followed by their check digit if requested (`codeValue`).

* `truncateAt_eq`, `truncate_eq`: the offset and the truncated value; no byte outside the hash is
  read.
* `generateOTP_ok_iff`: the password always has the right number of digits, and it is the numeral
  of its value just where that is zero or has no leading zero: the padding is put after it.
-/

namespace Hotp

/-- Byte `i` of the hash. -/
def hashByte (hash : Vector UInt8 hashlen) (i : Nat) : Nat := (hash[i]?.getD 0).toNat

/-- Where the truncation starts. -/
def otpOffset (hash : Vector UInt8 hashlen) (truncationOffset : Int) : Nat :=
  if 0 ≤ truncationOffset ∧ truncationOffset < 16 then truncationOffset.toNat
  else hashByte hash 19 % 16

/-- The 31-bit value at an offset, big-endian. -/
def truncatedValue (hash : Vector UInt8 hashlen) (offset : Nat) : Nat :=
  hashByte hash offset % 128 * 2 ^ 24 + hashByte hash (offset + 1) * 2 ^ 16 +
    hashByte hash (offset + 2) * 2 ^ 8 + hashByte hash (offset + 3)

/-- The number a password is to show, without a check digit. -/
def otpValue (hash : Vector UInt8 hashlen) (codeDigits : Nat) (truncationOffset : Int) : Nat :=
  truncatedValue hash (otpOffset hash truncationOffset) % 10 ^ codeDigits

/-- The number with its check digit, if requested. -/
def codeValue (addChecksum : Bool) (codeDigits otp : Nat) : Nat :=
  if addChecksum then withChecksum otp codeDigits else otp

/-- Zero, or a number with `codeDigits` digits. -/
def NoLeadingZero (codeDigits otp : Nat) : Prop := otp = 0 ∨ 10 ^ (codeDigits - 1) ≤ otp

/-! ## Truncation -/

theorem hashByte_lt (hash : Vector UInt8 hashlen) (i : Nat) : hashByte hash i < 256 :=
  UInt8.toNat_lt _

theorem otpOffset_lt (hash : Vector UInt8 hashlen) (truncationOffset : Int) :
    otpOffset hash truncationOffset < 16 := by
  rw [otpOffset]
  split <;> omega

/-- A read of the hash inside its bounds. -/
theorem getElem?_hash (hash : Vector UInt8 hashlen) {i : Nat} (hi : i < 20) :
    ∃ h : UInt8, hash[i]? = some h ∧ h.toNat = hashByte hash i := by
  have hi' : i < hashlen := hi
  exact ⟨hash[i], by simp [hi'], by simp [hashByte, hi']⟩

theorem truncateAt_eq (hash : Vector UInt8 hashlen) (truncationOffset : Int) :
    truncateAt hash truncationOffset = some (otpOffset hash truncationOffset) := by
  obtain ⟨last, hlast, hval⟩ := getElem?_hash hash (i := hashlen - 1) (by decide)
  have hand : last.toNat &&& 0xf = hashByte hash 19 % 16 := by
    rw [hval]
    exact Nat.and_two_pow_sub_one_eq_mod _ 4
  have hlen : ((hashlen : Int) - 4) = 16 := rfl
  simp only [truncateAt, hlast, Option.bind_eq_bind, Option.bind_some, hlen, hand, otpOffset]
  split <;> rfl

/-- The bytes side by side. -/
theorem or_bytes {a b c d : Nat} (hb : b < 256) (hc : c < 256) (hd : d < 256) :
    a <<< 24 ||| b <<< 16 ||| c <<< 8 ||| d = a * 2 ^ 24 + b * 2 ^ 16 + c * 2 ^ 8 + d := by
  have h3 : c <<< 8 + d < 2 ^ 16 := by rw [Nat.shiftLeft_eq]; omega
  have h2 : b <<< 16 + (c <<< 8 + d) < 2 ^ 24 := by rw [Nat.shiftLeft_eq]; omega
  rw [Nat.or_assoc, Nat.or_assoc, ← Nat.shiftLeft_add_eq_or_of_lt (i := 8) hd,
    ← Nat.shiftLeft_add_eq_or_of_lt h3, ← Nat.shiftLeft_add_eq_or_of_lt h2]
  simp only [Nat.shiftLeft_eq]
  omega

theorem truncate_eq (hash : Vector UInt8 hashlen) {offset : Nat} (h : offset < 16) :
    truncate hash offset = some (truncatedValue hash offset) := by
  obtain ⟨h0, he0, hv0⟩ := getElem?_hash hash (i := offset) (by omega)
  obtain ⟨h1, he1, hv1⟩ := getElem?_hash hash (i := offset + 1) (by omega)
  obtain ⟨h2, he2, hv2⟩ := getElem?_hash hash (i := offset + 2) (by omega)
  obtain ⟨h3, he3, hv3⟩ := getElem?_hash hash (i := offset + 3) (by omega)
  have hff : ∀ n < 256, n &&& 0xff = n := by
    intro n hn
    rw [show (0xff : Nat) = 2 ^ 8 - 1 by decide, Nat.and_two_pow_sub_one_eq_mod]
    exact Nat.mod_eq_of_lt hn
  have h7f : ∀ n : Nat, n &&& 0x7f = n % 128 := fun n => Nat.and_two_pow_sub_one_eq_mod n 7
  have hb := hashByte_lt hash
  simp only [truncate, he0, he1, he2, he3, hv0, hv1, hv2, hv3, Option.bind_eq_bind,
    Option.bind_some, hff _ (hb _), h7f]
  rw [or_bytes (hb _) (hb _) (hb _), truncatedValue]

theorem digitsPower_eq : ∀ codeDigits ≤ 8, digitsPower[codeDigits]? = some (10 ^ codeDigits) := by
  decide

/-- The password is the padded numeral of its value. -/
theorem generateOTP_eq (hmacSha1 : List UInt8 → List UInt8 → Vector UInt8 hashlen)
    (secret text : List UInt8) {codeDigits : Nat} (h8 : codeDigits ≤ 8) (addChecksum : Bool)
    (truncationOffset : Int) :
    generateOTP hmacSha1 secret text codeDigits addChecksum truncationOffset =
      some (padZeros (codeDigits + addChecksum.toNat) (myitoa (codeValue addChecksum codeDigits
        (otpValue (hmacSha1 secret text) codeDigits truncationOffset)) 10)) := by
  simp only [generateOTP, truncateAt_eq, truncate_eq _ (otpOffset_lt _ _),
    digitsPower_eq _ h8, Option.bind_eq_bind, Option.bind_some]
  cases addChecksum <;> rfl

/-! ## The string -/

/-- A numeral written with as many digits as it has places, or padded. -/
theorem length_myitoa_le {digits n : Nat} (hpos : 0 < digits) (hn : n < 2 ^ 32)
    (hlt : n < 10 ^ digits) : (myitoa n 10).length ≤ digits := by
  rw [myitoa_eq (by decide) (by decide) hn, List.length_reverse, List.length_map, placeDigits]
  split
  · exact hpos
  · exact (Nat.digits_length_le_iff (by decide) n).2 hlt

theorem length_myitoa_eq_iff {digits n : Nat} (hn : n < 2 ^ 32) (hlt : n < 10 ^ (digits + 1))
    (hpos : 0 < n) : (myitoa n 10).length = digits + 1 ↔ 10 ^ digits ≤ n := by
  have hle := length_myitoa_le (Nat.succ_pos digits) hn hlt
  rw [myitoa_eq (by decide) (by decide) hn, List.length_reverse, List.length_map, placeDigits,
    if_neg (Nat.ne_of_gt hpos)] at *
  rw [← Nat.lt_digits_length_iff (by decide)]
  omega

/-- Padding leaves the value alone where there is nothing to pad, or nothing but zeros. -/
theorem numeralValue_padZeros_iff {digits n : Nat} (hn : n < 2 ^ 32) (hlt : n < 10 ^ (digits + 1)) :
    numeralValue 10 (padZeros (digits + 1) (myitoa n 10)) = n ↔ n = 0 ∨ 10 ^ digits ≤ n := by
  have hle := length_myitoa_le (Nat.succ_pos digits) hn hlt
  rw [padZeros_eq, numeralValue_pad, numeralValue_myitoa (by decide) (by decide) hn]
  by_cases h0 : n = 0
  · simp [h0]
  · have hpos : 0 < n := Nat.pos_of_ne_zero h0
    rw [← length_myitoa_eq_iff hn hlt hpos, or_iff_right h0]
    refine ⟨fun he => ?_, fun he => by rw [he, Nat.sub_self, Nat.pow_zero, Nat.one_mul]⟩
    have hone : 10 ^ (digits + 1 - (myitoa n 10).length) = 1 :=
      Nat.eq_of_mul_eq_mul_right hpos (he.trans (Nat.one_mul n).symm)
    have hzero := (Nat.pow_eq_one.1 hone).resolve_left (by decide)
    omega

theorem length_padZeros {digits : Nat} {s : List Char} (h : s.length ≤ digits) :
    (padZeros digits s).length = digits := by
  rw [padZeros_eq, List.length_append, List.length_replicate]
  omega

theorem isDigit_padZeros {digits n : Nat} (hn : n < 2 ^ 32) :
    ∀ ch ∈ padZeros digits (myitoa n 10), ch.isDigit = true := by
  intro ch hch
  rw [padZeros_eq, myitoa_eq (by decide) (by decide) hn, List.mem_append] at hch
  obtain hch | hch := hch
  · obtain ⟨digit, hd, rfl⟩ := List.mem_map.1 (List.mem_reverse.1 hch)
    exact digitChar_isDigit digit (placeDigits_lt (by decide) n digit hd)
  · rw [List.eq_of_mem_replicate hch]
    rfl

/-! ## The password -/

theorem otpValue_lt (hash : Vector UInt8 hashlen) (codeDigits : Nat) (truncationOffset : Int) :
    otpValue hash codeDigits truncationOffset < 10 ^ codeDigits :=
  Nat.mod_lt _ (Nat.pow_pos (by decide))

theorem codeValue_lt (addChecksum : Bool) {codeDigits otp : Nat} (hlt : otp < 10 ^ codeDigits) :
    codeValue addChecksum codeDigits otp < 10 ^ (codeDigits + addChecksum.toNat) := by
  cases addChecksum with
  | false => exact hlt
  | true =>
    have hc := calcChecksum_lt otp codeDigits
    simp only [codeValue, withChecksum, if_true, Bool.toNat_true, Nat.pow_succ]
    omega

/-- The values are in the range of `int`. -/
theorem codeValue_lt_int (addChecksum : Bool) {codeDigits otp : Nat} (h8 : codeDigits ≤ 8)
    (hlt : otp < 10 ^ codeDigits) : codeValue addChecksum codeDigits otp < 2 ^ 31 := by
  have hle : codeDigits + addChecksum.toNat ≤ 9 := by cases addChecksum <;> simp <;> omega
  calc codeValue addChecksum codeDigits otp
      < 10 ^ (codeDigits + addChecksum.toNat) := codeValue_lt addChecksum hlt
    _ ≤ 10 ^ 9 := Nat.pow_le_pow_right (by decide) hle
    _ < 2 ^ 31 := by decide

theorem checksumLoop_zero : ∀ (digits : Nat) (doubleDigit : Bool),
    checksumLoop digits 0 doubleDigit 0 = 0
  | 0, _ => rfl
  | digits + 1, true => by
    rw [checksumLoop]
    exact checksumLoop_zero digits false
  | digits + 1, false => by
    rw [checksumLoop]
    exact checksumLoop_zero digits true

/-- A check digit makes no zero lead. -/
theorem codeValue_noLeadingZero (addChecksum : Bool) (digits otp : Nat) :
    (codeValue addChecksum (digits + 1) otp = 0 ∨
      10 ^ (digits + addChecksum.toNat) ≤ codeValue addChecksum (digits + 1) otp) ↔
    NoLeadingZero (digits + 1) otp := by
  cases addChecksum with
  | false => exact Iff.rfl
  | true =>
    have hc := calcChecksum_lt otp (digits + 1)
    simp only [codeValue, withChecksum, if_true, Bool.toNat_true, Nat.pow_succ, NoLeadingZero,
      Nat.add_sub_cancel]
    by_cases h0 : otp = 0
    · simp [h0, calcChecksum, checksumLoop_zero]
    · omega

theorem codeValue_inj {addChecksum : Bool} {codeDigits otp otp' : Nat}
    (h : codeValue addChecksum codeDigits otp = codeValue addChecksum codeDigits otp') :
    otp = otp' := by
  cases addChecksum with
  | false => exact h
  | true =>
    have hc := calcChecksum_lt otp codeDigits
    have hc' := calcChecksum_lt otp' codeDigits
    simp only [codeValue, withChecksum, if_true] at h
    omega

/-- What a password comes to: `digits` decimal digits, and their value if no zero leads. -/
structure PasswordOk (addChecksum : Bool) (codeDigits otp : Nat) (s : List Char) : Prop where
  length : s.length = codeDigits + addChecksum.toNat
  digits : ∀ ch ∈ s, ch.isDigit = true
  value : numeralValue 10 s = codeValue addChecksum codeDigits otp ↔ NoLeadingZero codeDigits otp

theorem padZeros_ok (addChecksum : Bool) {codeDigits otp : Nat} (h1 : 1 ≤ codeDigits)
    (h8 : codeDigits ≤ 8) (hlt : otp < 10 ^ codeDigits) :
    PasswordOk addChecksum codeDigits otp (padZeros (codeDigits + addChecksum.toNat)
      (myitoa (codeValue addChecksum codeDigits otp) 10)) := by
  obtain ⟨digits, rfl⟩ : ∃ digits, codeDigits = digits + 1 := ⟨codeDigits - 1, by omega⟩
  have hint : codeValue addChecksum (digits + 1) otp < 2 ^ 32 :=
    Nat.lt_trans (codeValue_lt_int addChecksum h8 hlt) (by decide)
  have hcode := codeValue_lt addChecksum hlt
  refine ⟨?_, isDigit_padZeros hint, ?_⟩
  · exact length_padZeros (length_myitoa_le (by omega) hint hcode)
  · rw [Nat.add_right_comm] at hcode ⊢
    rw [numeralValue_padZeros_iff hint hcode]
    exact codeValue_noLeadingZero addChecksum digits otp

/-- **One-time passwords**: `generateOTP` reads no byte outside the hash and returns as many decimal
digits as it should. They are the password's value just where that has no leading zero, and of the
passwords without leading zeros different ones have different strings. -/
theorem generateOTP_ok_iff (hmacSha1 : List UInt8 → List UInt8 → Vector UInt8 hashlen)
    (codeDigits : Nat) (h1 : 1 ≤ codeDigits) (h8 : codeDigits ≤ 8) (addChecksum : Bool) :
    (∀ secret text truncationOffset, ∃ s,
      generateOTP hmacSha1 secret text codeDigits addChecksum truncationOffset = some s ∧
        PasswordOk addChecksum codeDigits
          (otpValue (hmacSha1 secret text) codeDigits truncationOffset) s) ∧
    ∀ secret text truncationOffset secret' text' truncationOffset',
      NoLeadingZero codeDigits (otpValue (hmacSha1 secret text) codeDigits truncationOffset) →
      NoLeadingZero codeDigits (otpValue (hmacSha1 secret' text') codeDigits truncationOffset') →
      otpValue (hmacSha1 secret text) codeDigits truncationOffset ≠
        otpValue (hmacSha1 secret' text') codeDigits truncationOffset' →
      generateOTP hmacSha1 secret text codeDigits addChecksum truncationOffset ≠
        generateOTP hmacSha1 secret' text' codeDigits addChecksum truncationOffset' := by
  have hok : ∀ secret text truncationOffset, ∃ s,
      generateOTP hmacSha1 secret text codeDigits addChecksum truncationOffset = some s ∧
        PasswordOk addChecksum codeDigits
          (otpValue (hmacSha1 secret text) codeDigits truncationOffset) s := by
    intro secret text truncationOffset
    exact ⟨_, generateOTP_eq hmacSha1 secret text h8 addChecksum truncationOffset,
      padZeros_ok addChecksum h1 h8 (otpValue_lt _ _ _)⟩
  refine ⟨hok, ?_⟩
  intro secret text truncationOffset secret' text' truncationOffset' hlead hlead' hne he
  obtain ⟨s, hs, hpass⟩ := hok secret text truncationOffset
  obtain ⟨s', hs', hpass'⟩ := hok secret' text' truncationOffset'
  rw [hs, hs', Option.some_inj] at he
  subst he
  exact hne (codeValue_inj ((hpass.value.2 hlead).symm.trans (hpass'.value.2 hlead')))

/-- A hash that is zero but for its byte 3. -/
def byte3 (h : UInt8) : List UInt8 → List UInt8 → Vector UInt8 hashlen :=
  fun _ _ => (Vector.replicate hashlen 0).set 3 h

theorem generateOTP_ok_byte3 : ∃ s, generateOTP (byte3 123) [] [] 3 false 0 = some s ∧
    numeralValue 10 s = 123 := by
  obtain ⟨s, hs, hok⟩ := (generateOTP_ok_iff (byte3 123) 3 (by decide) (by decide) false).1 [] [] 0
  exact ⟨s, hs, hok.value.2 (.inr (by decide))⟩

/-- The values 12 and 120, of three digits, both show as 120. -/
theorem generateOTP_pads_behind :
    otpValue (byte3 12 [] []) 3 0 = 12 ∧ otpValue (byte3 120 [] []) 3 0 = 120 ∧
      generateOTP (byte3 12) [] [] 3 false 0 = some ['1', '2', '0'] ∧
      generateOTP (byte3 120) [] [] 3 false 0 = some ['1', '2', '0'] ∧
      numeralValue 10 ['1', '2', '0'] ≠ 12 := by
  refine ⟨by decide, by decide, ?_, ?_, by decide⟩
  · decide +kernel
  · decide +kernel

end Hotp
