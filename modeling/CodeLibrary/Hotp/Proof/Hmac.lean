import CodeLibrary.Hotp.Hmac
import CodeLibrary.Hotp.Proof.Sha1

/-!
# The keyed hash of `hmac.c`

`hmac_sha1` writes the keyed hash over SHA-1, cut or filled up with zeros to the length asked for.
-/

set_option autoImplicit false

namespace Hotp

open Fips

theorem hashPieces_eq (b : Build) (ctx : Nat → UInt8) {pieces : List (List UInt8)}
    (hp : ∀ piece ∈ pieces, piece.length < 2 ^ 31) :
    (hashPieces b ctx pieces).1 = sha1 pieces.flatten :=
  (sha1Final_spec b (sha1Updates_spec b pieces (absorbed_init ctx) hp).1).1

theorem length_sha1 (m : List UInt8) : (sha1 m).length = digestLength := by
  simp only [sha1, Vars.toList, List.flatMap_cons, List.flatMap_nil, List.length_append,
    length_bigEndian, List.length_nil]
  rfl

theorem tmpKey_eq (key : List UInt8) (x : UInt8) :
    tmpKey key x = (key ++ List.replicate (64 - key.length) 0).map (· ^^^ x) := by
  rw [tmpKey, List.map_append, List.map_replicate, UInt8.zero_xor]

theorem length_tmpKey {key : List UInt8} (hk : key.length ≤ 64) (x : UInt8) :
    (tmpKey key x).length = 64 := by
  rw [tmpKey, List.length_append, List.length_map, List.length_replicate]
  omega

/-- The two hashes, on a key of at most a block. -/
theorem hashPieces_hmac (b : Build) (ctx ctx' : Nat → UInt8) {key data : List UInt8}
    (hk : key.length ≤ 64) (hd : data.length < 2 ^ 31) :
    (hashPieces b ctx' [tmpKey key 0x5C, (hashPieces b ctx [tmpKey key 0x36, data]).1]).1 =
      sha1 (tmpKey key 0x5C ++ sha1 (tmpKey key 0x36 ++ data)) := by
  have hin : (hashPieces b ctx [tmpKey key 0x36, data]).1 = sha1 (tmpKey key 0x36 ++ data) := by
    rw [hashPieces_eq b ctx]
    · simp
    · simp only [List.forall_mem_cons, length_tmpKey hk]
      exact ⟨by decide, hd, nofun⟩
  rw [hin, hashPieces_eq b ctx']
  · simp
  · simp only [List.forall_mem_cons, length_tmpKey hk, length_sha1]
    exact ⟨by decide, by decide, nofun⟩

/-- The zeros and the hash that is stored over them. -/
theorem write_result (result : Nat → UInt8) (n : Nat) {sha : List UInt8}
    (hs : sha.length = digestLength) :
    Stores.write (Stores.write result 0 (List.replicate n 0)) 0
      (sha.take (if n > digestLength then digestLength else n)) =
    Stores.write result 0 ((sha ++ List.replicate n 0).take n) := by
  have hmin : (if n > digestLength then digestLength else n) = min n sha.length := by
    rw [hs]
    split <;> omega
  have htake : sha.take (min n sha.length) = sha.take n := by
    rw [← List.take_take, List.take_length]
  rw [hmin, htake, Stores.write_write, List.drop_replicate, List.length_take, List.take_append,
    List.take_replicate]
  congr 3
  omega

/-- What `hmac_sha1` writes. -/
theorem hmacSha1_eq (b : Build) (ctx : Nat → UInt8) {key data : List UInt8}
    (hk : key.length < 2 ^ 31) (hd : data.length < 2 ^ 31) (result : Nat → UInt8)
    (resultLength : Nat) :
    hmacSha1 b ctx key data result resultLength =
      Stores.write result 0
        ((hmac sha1 key data ++ List.replicate resultLength 0).take resultLength) := by
  unfold hmacSha1 hmac blockKey
  by_cases hlong : key.length > 64
  · have hkey : (hashPieces b ctx [key]).1 = sha1 key := by
      rw [hashPieces_eq b ctx (by simpa using hk), List.flatten_singleton]
    have hle : (sha1 key).length ≤ 64 := by
      rw [length_sha1]
      decide
    simp only [if_pos hlong, hkey]
    rw [hashPieces_hmac b _ _ hle hd, write_result _ _ (length_sha1 _), tmpKey_eq, tmpKey_eq]
  · simp only [if_neg hlong]
    rw [hashPieces_hmac b _ _ (by omega) hd, write_result _ _ (length_sha1 _), tmpKey_eq,
      tmpKey_eq]

/-- **The keyed hash.** Each byte of the result buffer is the byte of the keyed hash over SHA-1
(zero behind its end), whatever the stack held before, and nothing behind the buffer is written. -/
theorem hmacSha1_spec (b : Build) (ctx : Nat → UInt8) {key data : List UInt8}
    (hk : key.length < 2 ^ 31) (hd : data.length < 2 ^ 31) (result : Nat → UInt8)
    (resultLength : Nat) :
    (∀ i < resultLength,
      hmacSha1 b ctx key data result resultLength i = (hmac sha1 key data).getD i 0) ∧
      ∀ i, resultLength ≤ i → hmacSha1 b ctx key data result resultLength i = result i := by
  rw [hmacSha1_eq b ctx hk hd]
  have hlen : ((hmac sha1 key data ++ List.replicate resultLength 0).take resultLength).length =
      resultLength := by
    rw [List.length_take, List.length_append, List.length_replicate]
    omega
  refine ⟨fun i hi => ?_, fun i hi => Stores.write_of_ge _ 0 _ (by omega)⟩
  have hget := Stores.write_apply result 0
    ((hmac sha1 key data ++ List.replicate resultLength 0).take resultLength) (i := i) (by omega) 0
  rw [Nat.zero_add] at hget
  rw [hget, List.getD_eq_getElem?_getD, List.getElem?_take_of_lt hi, List.getD_eq_getElem?_getD]
  rcases Nat.lt_or_ge i (hmac sha1 key data).length with hlt | hge
  · rw [List.getElem?_append_left hlt]
  · rw [List.getElem?_append_right hge, List.getElem?_eq_none hge, List.getElem?_replicate]
    split <;> rfl

/-- A key of 80 bytes, which is hashed first. -/
def longKey : List UInt8 := List.replicate 80 170

/-- The message `"sample message"`. -/
def sampleMessage : List UInt8 :=
  [115, 97, 109, 112, 108, 101, 32, 109, 101, 115, 115, 97, 103, 101]

theorem hmacSha1_spec_longKey :
    (∀ i < 32, hmacSha1 ⟨true, false⟩ (fun _ => 9) longKey sampleMessage (fun _ => 7) 32 i =
      (hmac sha1 longKey sampleMessage).getD i 0) ∧
      ∀ i, 32 ≤ i →
        hmacSha1 ⟨true, false⟩ (fun _ => 9) longKey sampleMessage (fun _ => 7) 32 i = 7 :=
  hmacSha1_spec ⟨true, false⟩ (fun _ => 9) (by decide) (by decide) (fun _ => 7) 32

end Hotp
