import CodeLibrary.Dechunk.Decoder

/-!
# Chunked responses

What `dechunk` is for: a well-formed response (`Framing.stream`) to be decoded to the payloads of
its chunks (`Decodes`).
-/

namespace Dechunk

open CHeap

/-- A response without the payloads of its chunks: the header, the size lines, and the size line
of the terminating chunk. -/
structure Framing where
  header : List UInt8
  lines : List (List UInt8)
  last : List UInt8

/-- A chunk on the wire. -/
def chunk (line payload : List UInt8) : List UInt8 := line ++ crlf ++ payload ++ crlf

/-- The chunks of a response from one on. -/
def Framing.body (last : List UInt8) :
    List (List UInt8) → List (List UInt8) → List UInt8
  | line :: lines, payload :: payloads => chunk line payload ++ Framing.body last lines payloads
  | _, _ => last ++ crlf ++ crlf

/-- The response with these payloads. -/
def Framing.stream (F : Framing) (payloads : List (List UInt8)) : List UInt8 :=
  F.header ++ crlf2 ++ Framing.body F.last F.lines payloads

/-- A well-formed framing: the header ends at its first empty line, the size lines spell positive
numbers, the last one spells zero. -/
structure Framing.Ok (F : Framing) : Prop where
  header : ∀ j < F.header.length, ¬ IsAt crlf2 (F.header ++ crlf2) j
  lines : ∀ line ∈ F.lines, ∃ n, hexValue? line = some n ∧ 0 < n
  last : hexValue? F.last = some 0

/-- The payloads are of the sizes the size lines spell. -/
def Framing.Carries (F : Framing) (payloads : List (List UInt8)) : Prop :=
  List.Forall₂ (fun line payload => hexValue? line = some payload.length) F.lines payloads

/-- `dechunk_getbuff` yields `payload` and its length. -/
def Yields (s : State) (payload : List UInt8) : Prop :=
  (dechunkGetbuff s).2 = payload.length ∧
    ∀ i < payload.length, (dechunkGetbuff s).1 i = payload[i]?

/-- A call after `dechunk_init` decodes the response, with `tail` mapped behind it, as long as the
allocator does not fail. -/
def Decodes (response tail payload : List UInt8) : Prop :=
  ∀ alloc : Allocator, (∀ n, alloc n ≠ .fail) →
    ∃ s, DechunkReturns alloc (dechunkInit .start).1 response tail (s, .ret .ok) ∧
      Yields s payload

end Dechunk
