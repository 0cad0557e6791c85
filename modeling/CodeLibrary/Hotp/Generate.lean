import Mathlib.Algebra.Group.Nat.Defs
import Mathlib.Algebra.Group.Int.Defs

/-!
# One-time passwords, `generate_hotp.c`

`generateOTP` truncates an HMAC result to a number, takes it modulo a power of ten, appends a check
digit if requested (`calcChecksum`), and writes it as a string (`myitoa`). The HMAC is a parameter.

A string is the list of the characters before its terminating NUL. A read outside the hash or
outside `DIGITS_POWER` gives `none`. `int` and `long` are natural numbers and integers where no
value leaves their range; `myitoa` takes its argument modulo 2³² when it turns unsigned, so that a
negation which wraps around gives the same digits.
-/

namespace Hotp

def doubleDigits : List Nat := [0, 2, 4, 6, 8, 1, 3, 5, 7, 9]

/-- `DIGITS_POWER` -/
def digitsPower : List Nat :=
  [1, 10, 100, 1000, 10000, 100000, 1000000, 10000000, 100000000]

/-! ## The check digit -/

/-- The loop of `calcChecksum`, returning `total`. -/
def checksumLoop : Nat → Nat → Bool → Nat → Nat
  | 0, _, _, total => total
  | digits + 1, num, doubleDigit, total =>
    let digit := num % 10
    let num := num / 10
    let digit := if doubleDigit then doubleDigits.getD digit 0 else digit
    checksumLoop digits num (!doubleDigit) (total + digit)

def calcChecksum (num digits : Nat) : Nat :=
  let result := checksumLoop digits num true 0 % 10
  if result > 0 then 10 - result else result

/-! ## Numerals -/

def szMap : List Char :=
  ['0', '1', '2', '3', '4', '5', '6', '7', '8', '9', 'a', 'b', 'c', 'd', 'e', 'f', 'g', 'h', 'i',
    'j', 'k', 'l', 'm', 'n', 'o', 'p', 'q', 'r', 's', 't', 'u', 'v', 'w', 'x', 'y', 'z']

/-- The loop of `myitoa` that writes the digits to `pStr`, the last one first. -/
def convertDigits (radix : Nat) (hradix : 2 ≤ radix) (nValue : Nat) (pStr : List Char) :
    List Char :=
  let pStr := pStr ++ [szMap.getD (nValue % radix) '0']
  if nValue / radix > 0 then convertDigits radix hradix (nValue / radix) pStr else pStr
termination_by nValue
decreasing_by
  apply Nat.div_lt_self
  · exact Nat.pos_of_ne_zero fun h => by simp [h] at *
  · exact hradix

/-- The loop of `myitoa` that reverses `pStr`, from `nIndex` down. -/
def swapEnds (nCount : Nat) : Nat → List Char → List Char
  | 0, pStr => pStr
  | nIndex + 1, pStr =>
    let nTemp := pStr.getD nIndex '0'
    let pStr := pStr.set nIndex (pStr.getD (nCount - nIndex) '0')
    swapEnds nCount nIndex (pStr.set (nCount - nIndex) nTemp)

/-- The string `myitoa` leaves at `str`. -/
def myitoa (value : Int) (radix : Nat) : List Char :=
  if hradix : 2 ≤ radix ∧ radix ≤ 36 then
    let sign := if value < 0 ∧ radix = 10 then ['-'] else []
    let value := if value < 0 ∧ radix = 10 then -value else value
    let nValue := (value % 2 ^ 32).toNat
    let pStr := convertDigits radix hradix.1 nValue []
    let nCount := pStr.length - 1
    sign ++ swapEnds nCount ((nCount + 1) / 2) pStr
  else []

/-! ## The password -/

/-- `while (strlen(result) < digits) strcat(result, "0")` -/
def padZeros (digits : Nat) (result : List Char) : List Char :=
  if result.length < digits then padZeros digits (result ++ ['0']) else result
termination_by digits - result.length
decreasing_by
  rw [List.length_append, List.length_singleton]
  omega

/-- `hashlen` -/
def hashlen : Nat := 20

/-- `offset` -/
def truncateAt (hash : Vector UInt8 hashlen) (truncationOffset : Int) : Option Nat := do
  let last ← hash[hashlen - 1]?
  let offset := last.toNat &&& 0xf
  if 0 ≤ truncationOffset ∧ truncationOffset < hashlen - 4 then some truncationOffset.toNat
  else some offset

/-- `binary` -/
def truncate (hash : Vector UInt8 hashlen) (offset : Nat) : Option Nat := do
  let h0 ← hash[offset]?
  let h1 ← hash[offset + 1]?
  let h2 ← hash[offset + 2]?
  let h3 ← hash[offset + 3]?
  some (((h0.toNat &&& 0x7f) <<< 24) ||| ((h1.toNat &&& 0xff) <<< 16) |||
    ((h2.toNat &&& 0xff) <<< 8) ||| (h3.toNat &&& 0xff))

def generateOTP (hmacSha1 : List UInt8 → List UInt8 → Vector UInt8 hashlen)
    (secret text : List UInt8) (codeDigits : Nat) (addChecksum : Bool) (truncationOffset : Int) :
    Option (List Char) := do
  let digits := if addChecksum then codeDigits + 1 else codeDigits
  let hash := hmacSha1 secret text
  let offset ← truncateAt hash truncationOffset
  let binary ← truncate hash offset
  let power ← digitsPower[codeDigits]?
  let otp := binary % power
  let otp := if addChecksum then otp * 10 + calcChecksum otp codeDigits else otp
  some (padZeros digits (myitoa otp 10))

end Hotp
