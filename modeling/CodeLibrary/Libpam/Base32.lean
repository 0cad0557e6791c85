import CodeLibrary.Lib.Bytes
import CodeLibrary.Lib.Loop
import Mathlib.Algebra.Group.Nat.Defs
import Mathlib.Algebra.Group.Int.Defs
import Mathlib.Logic.Function.Basic

/-!
# Base32 text, `base32.c`

`base32_decode` and `base32_encode` in one memory, where the text and the bytes may be anywhere and
may overlap. Each loop is a step function; a run returns the count of bytes and the memory. `buffer`
is an `int` of which no more than twelve low bits are used before they are shifted out.
-/

set_option autoImplicit false

namespace Libpam

/-- The characters `base32_decode` passes over. -/
def isSkipped (ch : UInt8) : Bool :=
  ch == 0x20 || ch == 0x09 || ch == 0x0d || ch == 0x0a || ch == 0x2d

/-- Commonly mistyped characters: `0`, `1` and `8` stand for `O`, `L` and `B`. -/
def fixMistyped (ch : UInt8) : UInt8 :=
  if ch = 0x30 then 0x4f else if ch = 0x31 then 0x4c else if ch = 0x38 then 0x42 else ch

/-- The base32 digit of a character, or `none` where `base32_decode` returns -1. -/
def lookupDigit (ch : UInt8) : Option UInt8 :=
  let ch := fixMistyped ch
  if (0x41 ≤ ch ∧ ch ≤ 0x5a) ∨ (0x61 ≤ ch ∧ ch ≤ 0x7a) then some ((ch &&& 0x1f) - 1)
  else if 0x32 ≤ ch ∧ ch ≤ 0x37 then some (ch - (0x32 - 26))
  else none

/-- The memory with a NUL at `result[count]` if there is room, and `count`. -/
def finish (mem : Nat → UInt8) (result count : Nat) (bufSize : Int) : Int × (Nat → UInt8) :=
  if count < bufSize then (count, Function.update mem (result + count) 0) else (count, mem)

/-! ## Decoding -/

/-- The variables of the loop of `base32_decode`, and the memory. -/
structure Decoding where
  mem : Nat → UInt8
  ptr : Nat
  buffer : UInt32
  bitsLeft : Nat
  count : Nat

/-- One iteration of the loop of `base32_decode`. -/
def decodeStep (result : Nat) (bufSize : Int) (s : Decoding) : Decoding ⊕ Int × (Nat → UInt8) :=
  let ch := s.mem s.ptr
  if s.count < bufSize ∧ ch ≠ 0 then
    if isSkipped ch then .inl { s with ptr := s.ptr + 1 }
    else
      match lookupDigit ch with
      | none => .inr (-1, s.mem)
      | some ch =>
        let buffer := (s.buffer <<< 5) ||| ch.toUInt32
        let bitsLeft := s.bitsLeft + 5
        if 8 ≤ bitsLeft then
          let byte := (buffer >>> UInt32.ofNat (bitsLeft - 8)).toUInt8
          .inl { mem := Function.update s.mem (result + s.count) byte, ptr := s.ptr + 1, buffer,
                 bitsLeft := bitsLeft - 8, count := s.count + 1 }
        else .inl { s with ptr := s.ptr + 1, buffer, bitsLeft }
  else .inr (finish s.mem result s.count bufSize)

/-- `base32_decode(encoded, result, bufSize)` in memory `mem` returns `r`. -/
def Base32Decodes (mem : Nat → UInt8) (encoded result : Nat) (bufSize : Int)
    (r : Int × (Nat → UInt8)) : Prop :=
  Loop.Returns (decodeStep result bufSize) ⟨mem, encoded, 0, 0, 0⟩ r

/-! ## Encoding -/

/-- The variables of the loop of `base32_encode`, and the memory. -/
structure Encoding where
  mem : Nat → UInt8
  buffer : UInt32
  next : Nat
  bitsLeft : Nat
  count : Nat

/-- `"ABCDEFGHIJKLMNOPQRSTUVWXYZ234567"` -/
def alphabet : List UInt8 := "ABCDEFGHIJKLMNOPQRSTUVWXYZ234567".asciiBytes

/-- More bits for a digit: the next byte, or zeros behind the last one. -/
def refill (data : Nat) (length : Int) (s : Encoding) : Encoding :=
  if s.bitsLeft < 5 then
    if s.next < length then
      { s with
        buffer := (s.buffer <<< 8) ||| ((s.mem (data + s.next)).toUInt32 &&& 0xFF)
        next := s.next + 1, bitsLeft := s.bitsLeft + 8 }
    else
      let pad := 5 - s.bitsLeft
      { s with buffer := s.buffer <<< UInt32.ofNat pad, bitsLeft := s.bitsLeft + pad }
  else s

/-- One iteration of the loop of `base32_encode`. -/
def encodeStep (data result : Nat) (length bufSize : Int) (s : Encoding) :
    Encoding ⊕ Int × (Nat → UInt8) :=
  if s.count < bufSize ∧ (0 < s.bitsLeft ∨ s.next < length) then
    let s := refill data length s
    let index := 0x1F &&& (s.buffer >>> UInt32.ofNat (s.bitsLeft - 5))
    let ch := alphabet.getD index.toNat 0
    .inl { s with
      bitsLeft := s.bitsLeft - 5, mem := Function.update s.mem (result + s.count) ch
      count := s.count + 1 }
  else .inr (finish s.mem result s.count bufSize)

/-- `base32_encode(data, length, result, bufSize)` in memory `mem` returns `r`. -/
def Base32Encodes (mem : Nat → UInt8) (data : Nat) (length : Int) (result : Nat) (bufSize : Int)
    (r : Int × (Nat → UInt8)) : Prop :=
  if length < 0 ∨ length > 2 ^ 28 then r = (-1, mem)
  else if 0 < length then
    Loop.Returns (encodeStep data result length bufSize) ⟨mem, (mem data).toUInt32, 1, 8, 0⟩ r
  else r = finish mem result 0 bufSize

end Libpam
