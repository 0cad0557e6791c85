import CodeLibrary.Lib.CInt
import CodeLibrary.Lib.Loop

/-!
# Knuth-Morris-Pratt search, `kmp.c`

`makeNext` fills the table of borders of the pattern `P`, and `kmp` runs over the text `T` with it
and prints the shifts at which `P` occurs. Each is a `for` loop with a `while` loop in it: a step is
one evaluation of the condition of the `while` loop, which either falls back along the table or
goes on to the rest of the body and to the next round of the `for` loop.

A string is the list of its characters before the terminating NUL. A read of `P` or `T` after that,
and an access to `next` at an index that is not below `strlen(P)`, gives `none`, and the loop leaves
with it. Lengths are `int`s in the source (`strlen`); the indices stay below them.
-/

namespace Kmp

open CInt

/-- `strlen(s)` in an `int` -/
@[irreducible] def strlen (s : List UInt8) : Int := toInt s.length

/-- `s[i]`, up to the terminating NUL. -/
def charAt (s : List UInt8) (i : Nat) : Option UInt8 := (s ++ [0])[i]?

/-- `next[i]` for `i` below `m` -/
def nextAt (m : Nat) (next : List Nat) (i : Nat) : Option Nat := if i < m then next[i]? else none

/-- `next[i] = k` for `i` below `m` -/
def setNext (m : Nat) (next : List Nat) (i k : Nat) : Option (List Nat) :=
  if i < m ∧ i < next.length then some (next.set i k) else none

/-! ## The table -/

/-- The loops of `makeNext` -/
structure MakeState where
  q : Nat
  k : Nat
  next : List Nat
deriving DecidableEq, Repr

/-- The body of the loops of `makeNext`, `none` for an access out of bounds. -/
def makeBody (P : List UInt8) (s : MakeState) : Option MakeState := do
  let pq ← charAt P s.q
  let pk ← charAt P s.k
  if s.k > 0 ∧ pq ≠ pk then
    let k ← nextAt P.length s.next (s.k - 1)
    some { s with k := k }
  else
    let k := if pq = pk then s.k + 1 else s.k
    let next ← setNext P.length s.next s.q k
    some { q := s.q + 1, k := k, next := next }

def makeStep (P : List UInt8) (s : MakeState) : MakeState ⊕ Option (List Nat) :=
  let m := strlen P
  if s.q < m then
    match makeBody P s with
    | some s' => .inl s'
    | none => .inr none
  else .inr (some s.next)

/-- `makeNext` leaves `r` at `next`. -/
def MakeNextReturns (P : List UInt8) (next : List Nat) (r : Option (List Nat)) : Prop :=
  match setNext P.length next 0 0 with
  | some next => Loop.Returns (makeStep P) ⟨1, 0, next⟩ r
  | none => r = none

/-! ## The search -/

/-- The loops of `kmp`, with the shifts printed so far -/
structure KmpState where
  i : Nat
  q : Nat
  shifts : List Int
deriving DecidableEq, Repr

/-- The body of the loops of `kmp`, `none` for an access out of bounds. -/
def kmpBody (T P : List UInt8) (next : List Nat) (s : KmpState) : Option KmpState := do
  let m := strlen P
  let pq ← charAt P s.q
  let ti ← charAt T s.i
  if s.q > 0 ∧ pq ≠ ti then
    let q ← nextAt P.length next (s.q - 1)
    some { s with q := q }
  else
    let q := if pq = ti then s.q + 1 else s.q
    let shifts := if (q : Int) = m then s.shifts ++ [s.i - m + 1] else s.shifts
    some { i := s.i + 1, q := q, shifts := shifts }

def kmpStep (T P : List UInt8) (next : List Nat) (s : KmpState) : KmpState ⊕ Option (List Int) :=
  let n := strlen T
  if s.i < n then
    match kmpBody T P next s with
    | some s' => .inl s'
    | none => .inr none
  else .inr (some s.shifts)

/-- `kmp` prints the shifts `r`, or accesses an array out of bounds. -/
def KmpReturns (T P : List UInt8) (next : List Nat) (r : Option (List Int)) : Prop :=
  (MakeNextReturns P next none ∧ r = none) ∨
    ∃ next', MakeNextReturns P next (some next') ∧ Loop.Returns (kmpStep T P next') ⟨0, 0, []⟩ r

end Kmp
