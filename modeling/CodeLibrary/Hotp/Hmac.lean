import CodeLibrary.Hotp.Sha1

/-!
# The keyed hash, `hmac.c`

`hmac_sha1` hashes a key that is too long, and then twice: the key with `0x36` and the data, and the
key with `0x5C` and the first hash. `result` is the memory from the result buffer on, and the memory
of the local `SHA1_INFO` holds whatever the stack, and then each hash, left there.
-/

set_option autoImplicit false

namespace Hotp

/-- `SHA1_DIGEST_LENGTH` -/
def digestLength : Nat := 20

/-- `sha1_init`, `sha1_update` with each of `pieces`, and `sha1_final`. -/
def hashPieces (b : Build) (ctx : Nat → UInt8) (pieces : List (List UInt8)) :
    List UInt8 × (Nat → UInt8) :=
  sha1Final b (pieces.foldl (sha1Update b) (sha1Init ctx))

/-- `tmp_key`, filled up from `key` -/
def tmpKey (key : List UInt8) (x : UInt8) : List UInt8 :=
  key.map (· ^^^ x) ++ List.replicate (64 - key.length) x

/-- What `hmac_sha1` leaves in the memory `result`. -/
def hmacSha1 (b : Build) (ctx : Nat → UInt8) (key data : List UInt8) (result : Nat → UInt8)
    (resultLength : Nat) : Nat → UInt8 :=
  let (key, ctx) := if key.length > 64 then hashPieces b ctx [key] else (key, ctx)
  let (sha, ctx) := hashPieces b ctx [tmpKey key 0x36, data]
  let (sha, _) := hashPieces b ctx [tmpKey key 0x5C, sha]
  let result := Stores.write result 0 (List.replicate resultLength 0)
  let resultLength := if resultLength > digestLength then digestLength else resultLength
  Stores.write result 0 (sha.take resultLength)

end Hotp
