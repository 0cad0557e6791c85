import CodeLibrary.Hotp.Generate
import Mathlib.Logic.Function.Basic

/-!
# `myitoa` in memory

`myitoa` as it writes to the characters from `str` on: the sign, the digits, their reversal in place
and the terminating NUL. An address is an offset from `str`.
-/

namespace Hotp

/-- The loop that writes the digits, where `nCount` digits are written; it gives the memory and the
number of digits, which is `nCount + 1` of the source. -/
def convertAt (radix : Nat) (hradix : 2 ≤ radix ∧ radix ≤ 36) (pStr nValue nCount : Nat)
    (mem : Nat → Char) : (Nat → Char) × Nat :=
  let mem := Function.update mem (pStr + nCount) (szMap.getD (nValue % radix) '0')
  if nValue / radix > 0 then convertAt radix hradix pStr (nValue / radix) (nCount + 1) mem
  else (mem, nCount + 1)
termination_by nValue
decreasing_by
  apply Nat.div_lt_self
  · exact Nat.pos_of_ne_zero fun h => by simp [h] at *
  · exact hradix.1

/-- The loop that reverses the digits, from `nIndex` down. -/
def reverseAt (pStr nCount : Nat) : Nat → (Nat → Char) → Nat → Char
  | 0, mem => mem
  | nIndex + 1, mem =>
    let nTemp := mem (pStr + nIndex)
    let mem := Function.update mem (pStr + nIndex) (mem (pStr + (nCount - nIndex)))
    reverseAt pStr nCount nIndex (Function.update mem (pStr + (nCount - nIndex)) nTemp)

/-- The memory `myitoa` leaves. -/
def myitoaAt (mem : Nat → Char) (value : Int) (radix : Nat) : Nat → Char :=
  if hradix : 2 ≤ radix ∧ radix ≤ 36 then
    let negative := value < 0 ∧ radix = 10
    let mem := if negative then Function.update mem 0 '-' else mem
    let pStr := if negative then 1 else 0
    let value := if negative then -value else value
    let nValue := (value % 2 ^ 32).toNat
    let (mem, digits) := convertAt radix hradix pStr nValue 0 mem
    let nCount := digits - 1
    let mem := reverseAt pStr nCount ((nCount + 1) / 2) mem
    Function.update mem (pStr + nCount + 1) '\x00'
  else Function.update mem 0 '\x00'

end Hotp
