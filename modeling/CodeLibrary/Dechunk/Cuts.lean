import CodeLibrary.Dechunk.Stream

/-!
# Responses cut into segments

The segments of a response go to `dechunk` one after the other (`FeedsOk`), and the result should
not depend on how the response is cut (`Independent`): any two cuts `Agree`.

Between two calls `dechunk` keeps its statics, and not a byte it has not used. So a segment may end
inside the payload of a chunk, but not inside the header, a size line, or the two bytes that are
passed over behind a payload. `CutsWell` says where the segments of a cut may end, by way of where
`dechunk` looks for its size lines: two bytes before the end of each payload.
-/

namespace Dechunk

open CHeap

/-- The segments of a cut, with each what is mapped behind it. -/
abbrev Segs := List (List UInt8 × List UInt8)

def bytesOf (segs : Segs) : List UInt8 := (segs.map Prod.fst).flatten

/-- Calls on segments, in order, that all return `DCE_OK`. -/
inductive FeedsOk (alloc : Allocator) : State → Segs → State → Prop
  | nil {s : State} : FeedsOk alloc s [] s
  | cons {s s' s'' : State} {seg tail : List UInt8} {rest : Segs} :
      DechunkReturns alloc s seg tail (s', .ret .ok) → FeedsOk alloc s' rest s'' →
      FeedsOk alloc s ((seg, tail) :: rest) s''

/-- The response cut into segments that are not empty. -/
def IsCut (response : List UInt8) (segs : Segs) : Prop :=
  bytesOf segs = response ∧ ∀ x ∈ segs, x.1 ≠ []

/-- `dechunk_getbuff` gives the same size and bytes, all of them written. -/
def SameBuff (s s' : State) : Prop :=
  (dechunkGetbuff s).2 = (dechunkGetbuff s').2 ∧
    ∀ i < (dechunkGetbuff s).2, ∃ b, (dechunkGetbuff s).1 i = some b ∧
      (dechunkGetbuff s').1 i = some b

/-- Both runs after `dechunk_init` return `DCE_OK` from every call, and end with the same bytes and
size. -/
def Agree (alloc alloc' : Allocator) (cut cut' : Segs) : Prop :=
  ∃ s s', FeedsOk alloc (dechunkInit .start).1 cut s ∧
    FeedsOk alloc' (dechunkInit .start).1 cut' s' ∧ SameBuff s s'

/-- The response is decoded the same way however it is cut. -/
def Independent (response : List UInt8) : Prop :=
  ∀ alloc alloc' : Allocator, (∀ n, alloc n ≠ .fail) → (∀ n, alloc' n ≠ .fail) →
    ∀ cut cut', IsCut response cut → IsCut response cut' → Agree alloc alloc' cut cut'

/-! ## Where a segment may end -/

/-- The `g_chunk_len` of the size line the memory begins with. -/
def lineLen (mem : List UInt8) : Option Nat := (scanHex mem).value.map chunkLenOf

/-- A segment that is passed over: it does not begin with a size line of a chunk, and the search for
the end of the line stays on the memory. -/
def Passed (x : List UInt8 × List UInt8) : Prop :=
  lineLen (x.1 ++ x.2) = some 0 ∧ (memstr (x.1 ++ x.2) x.1.length crlf).value ≠ none

instance : DecidablePred Passed := fun _ => inferInstanceAs (Decidable (_ ∧ _))

/-- From where `dechunk` stands in the first of the segments, none of them ends where it loses its
place: it has `pending` more bytes of a chunk to copy, and made `n` requests, for `total` bytes. -/
inductive Tidy (alloc : Allocator) : (n total pending : Nat) → Segs → Prop
  | done {n total : Nat} : Tidy alloc n total 0 []
  /-- the segment is used up -/
  | next {n total : Nat} {tail : List UInt8} {segs : Segs} :
      Tidy alloc n total 0 segs → Tidy alloc n total 0 (([], tail) :: segs)
  /-- the size line of the terminating chunk: what follows is not looked at any more -/
  | last {n total : Nat} {seg tail : List UInt8} {segs : Segs} : seg ≠ [] →
      lineLen (seg ++ bytesOf segs ++ [0]) = some 0 → (∀ x ∈ (seg, tail) :: segs, Passed x) →
      Tidy alloc n total 0 ((seg, tail) :: segs)
  /-- a size line that ends in the segment, and is read as it is in the response; a block that is
  there already grows in place -/
  | line {n total : Nat} {seg tail : List UInt8} {segs : Segs} {k c : Nat} :
      FirstAt crlf seg k → lineLen (seg ++ tail) = some c →
      lineLen (seg ++ bytesOf segs ++ [0]) = some c → 0 < c → total + c < 2 ^ 64 →
      (n ≠ 0 → alloc n = .inPlace) →
      Tidy alloc (n + 1) (total + c) c ((seg.drop (k + 2), tail) :: segs) →
      Tidy alloc n total 0 ((seg, tail) :: segs)
  /-- the segment ends inside the payload -/
  | part {n total pending : Nat} {seg tail : List UInt8} {segs : Segs} : seg.length < pending →
      Tidy alloc n total (pending - seg.length) segs →
      Tidy alloc n total pending ((seg, tail) :: segs)
  /-- the payload ends two bytes or more before the segment does -/
  | payload {n total pending : Nat} {seg tail : List UInt8} {segs : Segs} : 0 < pending →
      pending + 2 ≤ seg.length → Tidy alloc n total 0 ((seg.drop (pending + 2), tail) :: segs) →
      Tidy alloc n total pending ((seg, tail) :: segs)

/-- The header ends in the first segment, and from there on no segment ends where `dechunk` loses
its place. Where the segment ends with the header, the size line is read behind it. -/
def CutsWell (alloc : Allocator) : Segs → Prop
  | [] => False
  | (seg, tail) :: segs => ∃ k, FirstAt crlf2 seg k ∧
      if seg.length = k + 4 then Passed ([], tail) ∧ Tidy alloc 0 0 0 segs
      else Tidy alloc 0 0 0 ((seg.drop (k + 4), tail) :: segs)

/-- The header ends in the first segment. -/
def HeaderInside : Segs → Prop
  | [] => False
  | (seg, _) :: _ => Occurs crlf2 seg

end Dechunk
