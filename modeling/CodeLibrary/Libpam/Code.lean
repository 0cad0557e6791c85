import CodeLibrary.Hotp.Hmac

/-!
# The codes of the PAM module, `compute_code`

`compute_code` hashes the value of a counter or of the clock with the shared secret and truncates
the hash to six digits. It is built on the same `hmac.c` and `sha1.c` as `generate_hotp.c`.
-/

set_option autoImplicit false

namespace Libpam

open Hotp

/-- `for (int i = 8; i--; value >>= 8) val[i] = value` -/
def storeValue : Nat → UInt64 → List UInt8 → List UInt8
  | 0, _, val => val
  | i + 1, value, val => storeValue i (value >>> 8) (val.set i value.toUInt8)

/-- The loop that reads `hash[offset]` to `hash[offset + 3]`. -/
def truncateHash (hash : Nat → UInt8) (offset : Nat) : Nat → Nat → UInt32 → UInt32
  | 0, _, truncatedHash => truncatedHash
  | n + 1, i, truncatedHash =>
    truncateHash hash offset n (i + 1) ((truncatedHash <<< 8) ||| (hash (offset + i)).toUInt32)

/-- `compute_code`: `stack` is what the local `hash`, `val` and `SHA1_INFO` held before. -/
def computeCode (b : Build) (stack : Nat → UInt8) (secret : List UInt8) (value : UInt64) : UInt32 :=
  let val := storeValue 8 value ((List.range 8).map stack)
  let hash := hmacSha1 b stack secret val stack digestLength
  let offset := (hash (digestLength - 1)).toNat &&& 0xF
  let truncatedHash := truncateHash hash offset 4 0 0
  let truncatedHash := truncatedHash &&& 0x7FFFFFFF
  truncatedHash % 1000000

end Libpam
