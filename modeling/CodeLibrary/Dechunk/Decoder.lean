import CodeLibrary.Dechunk.Memstr
import CodeLibrary.Lib.CHeap
import CodeLibrary.Lib.Loop

/-!
# The decoder of `dechunk.c`

The statics of the file and the heap of `g_buff_out` are a `State`. A call of `dechunk` is a loop
(`exec`, `step`): it goes on from one `Frame` to the next, at the head of the function (`entry`,
also where it calls itself), before the size line (`size`) and before the payload (`payload`).
It runs on the memory from `input` on: the bytes of the segment and what is mapped behind them.

Each step also gives the `Event`s a caller does not see: how far the input was read, and
`data_start` and `data_len` after they were changed. A step that follows a wild pointer, reads off
the memory or writes outside a live block ends the run (`Outcome.crash`). `size_t` is a number
below `2 ^ 64`. A `NULL` input gets the answer of an empty one.
-/

namespace Dechunk

open CHeap

/-- The return codes. -/
inductive Dce where
  | ok
  | isRunning
  | format
  | argument
  | mem
  | lock
deriving DecidableEq, Repr

def crlf : List UInt8 := "\r\n".asciiBytes
def crlf2 : List UInt8 := "\r\n\r\n".asciiBytes

/-- `a - b` in `size_t` -/
def subSize (a b : Nat) : Nat := (a + 2 ^ 64 - b % 2 ^ 64) % 2 ^ 64

/-- The statics, the heap with the number of requests made to the allocator, and two counters the
source does not have: the payload bytes copied in this session, and the size last requested. -/
structure State where
  heap : Heap UInt8
  allocs : Nat
  buffOut : Option Nat
  buffPt : Option Ptr
  buffOutlen : Nat
  chunkLen : Nat
  chunkRead : Nat
  isRunning : Bool
  isFirst : Bool
  isChunkbegin : Bool
  copied : Nat
  requested : Nat

/-- The statics before the program runs. -/
def State.start : State where
  heap := []
  allocs := 0
  buffOut := none
  buffPt := none
  buffOutlen := 0
  chunkLen := 0
  chunkRead := 0
  isRunning := false
  isFirst := true
  isChunkbegin := false
  copied := 0
  requested := 0

/-- The assignments of `dechunk_init` and `dechunk_free`. -/
def State.reset (s : State) (isRunning : Bool) : State :=
  { State.start with heap := s.heap, allocs := s.allocs, isRunning }

/-- `dechunk_init` -/
def dechunkInit (s : State) : State × Dce :=
  if s.isRunning then (s, .isRunning) else (s.reset true, .ok)

/-- `dechunk_free` -/
def dechunkFree (s : State) : State × Dce :=
  let s := match s.buffOut with
    | none => s
    | some b => { s with heap := s.heap.free b }
  (s.reset false, .ok)

/-- `dechunk_getbuff`: the size, and the bytes of the block from its start. -/
def dechunkGetbuff (s : State) : (Nat → Option UInt8) × Nat :=
  (match s.buffOut with
    | none => fun _ => none
    | some b => (s.heap.block b).cells, s.buffOutlen)

/-- Where a call of `dechunk` stands, with `data_start` (an offset into the input) and
`data_len`. -/
inductive Frame where
  | entry (s : State) (dataStart dataLen : Nat)
  | size (s : State) (dataStart dataLen : Nat)
  | payload (s : State) (dataStart : Option Nat) (dataLen : Nat)

/-- How a call of `dechunk` ends. -/
inductive Outcome where
  | ret (code : Dce)
  | crash
deriving DecidableEq, Repr

/-- `read n`: the input was read below offset `n`. `cursor p n`: `data_start` and `data_len` are
now `p` and `n`. `wild`: `data_start` is no pointer into the input any more. -/
inductive Event where
  | read (n : Nat)
  | cursor (dataStart dataLen : Nat)
  | wild
deriving DecidableEq, Repr

/-- What a step does: its events, and where the call goes on or how it ends. -/
abbrev Effect := List Event × (Frame ⊕ State × Outcome)

/-- Behind the header: the size line, or the rest of a chunk. -/
def Frame.afterHeader (s : State) (dataStart dataLen : Nat) : Frame :=
  if !s.isChunkbegin then .size s dataStart dataLen else .payload s (some dataStart) dataLen

/-- The head of `dechunk`: the checks, and the search for the end of the header. -/
def execEntry (mem : List UInt8) (s : State) (dataStart dataLen : Nat) : Effect :=
  if !s.isRunning then ([], .inr (s, .ret .lock))
  else if dataLen = 0 then ([], .inr (s, .ret .argument))
  else if s.isFirst then
    let found := memstr (mem.drop dataStart) dataLen crlf2
    match found.value with
    | none => ([.read (dataStart + found.read)], .inr (s, .crash))
    | some none => ([.read (dataStart + found.read)], .inr (s, .ret .format))
    | some (some k) =>
      let dataLen := subSize dataLen (k + 4)
      ([.read (dataStart + found.read), .cursor (dataStart + (k + 4)) dataLen],
        .inl (.afterHeader { s with isFirst := false } (dataStart + (k + 4)) dataLen))
  else ([], .inl (.afterHeader s dataStart dataLen))

/-- `g_chunk_len` of a size line with value `itmp`. -/
def chunkLenOf (itmp : Int) : Nat :=
  let itmp := if itmp > 0 then itmp - 2 else itmp
  (itmp % 2 ^ 64).toNat

/-- The statics once the size line is read. -/
def State.beginChunk (s : State) (itmp : Int) : State :=
  { s with
    chunkLen := chunkLenOf itmp
    buffOutlen := (s.buffOutlen + chunkLenOf itmp) % 2 ^ 64
    isChunkbegin := true
    chunkRead := 0 }

/-- `malloc` or `realloc` of `g_buff_out`. -/
def State.grow (alloc : Allocator) (s : State) : State :=
  match s.buffOut with
  | none =>
    let r := s.heap.malloc s.buffOutlen (alloc s.allocs)
    { s with
      heap := r.1
      allocs := s.allocs + 1
      buffOut := r.2
      buffPt := r.2.map fun b => (b, 0)
      requested := s.buffOutlen }
  | some b =>
    let r := s.heap.realloc b s.buffOutlen (alloc s.allocs)
    { s with heap := r.1, allocs := s.allocs + 1, buffOut := r.2, requested := s.buffOutlen }

/-- Behind the size line: the block for the chunk. -/
def allocChunk (alloc : Allocator) (s : State) (dataStart : Option Nat) (dataLen : Nat) :
    Frame ⊕ State × Outcome :=
  if 0 < s.chunkLen ∧ s.buffOutlen ≠ 0 then
    if (s.grow alloc).buffOut = none then .inr (s.grow alloc, .ret .mem)
    else .inl (.payload (s.grow alloc) dataStart dataLen)
  else .inl (.payload s dataStart dataLen)

/-- The size line and the allocation. -/
def execSize (alloc : Allocator) (mem : List UInt8) (s : State) (dataStart dataLen : Nat) :
    Effect :=
  let scan := scanHex (mem.drop dataStart)
  match scan.value with
  | none => ([.read (dataStart + scan.read)], .inr (s, .crash))
  | some itmp =>
    let found := memstr (mem.drop dataStart) dataLen crlf
    let reads := [.read (dataStart + scan.read), .read (dataStart + found.read)]
    match found.value with
    | none => (reads, .inr (s, .crash))
    | some none =>
      -- `data_start` is `NULL + 2`
      (reads ++ [.wild], allocChunk alloc (s.beginChunk itmp) none dataLen)
    | some (some k) =>
      let dataLen := subSize dataLen (k + 2)
      (reads ++ [.cursor (dataStart + (k + 2)) dataLen],
        allocChunk alloc (s.beginChunk itmp) (some (dataStart + (k + 2))) dataLen)

/-- `CHUNK_INIT` -/
def State.chunkInit (s : State) : State :=
  { s with isChunkbegin := false, chunkLen := 0, chunkRead := 0 }

/-- `cpsize` -/
def State.cpsize (s : State) (dataLen : Nat) : Nat :=
  if s.chunkLen - s.chunkRead > dataLen then dataLen else s.chunkLen - s.chunkRead

/-- `memcpy` to `g_buff_pt` can write `n` bytes. -/
def State.canCopy (s : State) (n : Nat) : Bool :=
  n = 0 || match s.buffPt with
    | none => false
    | some p => s.heap.canStore p n

/-- `memcpy` to `g_buff_pt`, and the pointer and `g_chunk_read` after it. -/
def State.copy (s : State) (bytes : List UInt8) : State :=
  { s with
    heap := match s.buffPt with
      | none => s.heap
      | some p => s.heap.store p bytes
    buffPt := s.buffPt.map fun p => (p.1, p.2 + bytes.length)
    chunkRead := s.chunkRead + bytes.length
    copied := s.copied + bytes.length }

/-- The copy of the payload. -/
def execPayload (mem : List UInt8) (s : State) (dataStart : Option Nat) (dataLen : Nat) : Effect :=
  if s.chunkRead < s.chunkLen then
    match dataStart with
    | none => ([], .inr (s, .crash))
    | some dataStart =>
      let cpsize := s.cpsize dataLen
      let bytes := (mem.drop dataStart).take cpsize
      if bytes.length = cpsize ∧ s.canCopy cpsize = true then
        let s := s.copy bytes
        let dataLen := subSize dataLen (cpsize + 2)
        let events := [.read (dataStart + cpsize), .cursor (dataStart + (cpsize + 2)) dataLen]
        if s.chunkRead ≥ s.chunkLen then
          if dataLen > 0 then
            (events, .inl (.entry s.chunkInit (dataStart + (cpsize + 2)) dataLen))
          else (events, .inr (s.chunkInit, .ret .ok))
        else (events, .inr (s, .ret .ok))
      else ([.read (dataStart + cpsize)], .inr (s, .crash))
  else ([], .inr (s.chunkInit, .ret .ok))

/-- One step of a call of `dechunk`, on the memory `mem` from `input` on. -/
def exec (alloc : Allocator) (mem : List UInt8) : Frame → Effect
  | .entry s dataStart dataLen => execEntry mem s dataStart dataLen
  | .size s dataStart dataLen => execSize alloc mem s dataStart dataLen
  | .payload s dataStart dataLen => execPayload mem s dataStart dataLen

def step (alloc : Allocator) (mem : List UInt8) (f : Frame) : Frame ⊕ State × Outcome :=
  (exec alloc mem f).2

/-- `dechunk(input, inlen)` in state `s` on the segment `seg`, with `tail` mapped behind it, ends
with `r`. -/
def DechunkReturns (alloc : Allocator) (s : State) (seg tail : List UInt8)
    (r : State × Outcome) : Prop :=
  Loop.Returns (step alloc (seg ++ tail)) (.entry s 0 seg.length) r

/-- A call of `dechunk` comes to the frame `f`. -/
def Comes (alloc : Allocator) (s : State) (seg tail : List UInt8) (f : Frame) : Prop :=
  Loop.Visits (step alloc (seg ++ tail)) (.entry s 0 seg.length) f

/-- The states between the calls of a program, all frames of its `dechunk` calls in `Good`. -/
inductive Reached (alloc : Allocator) (Good : List UInt8 → Frame → Prop) : State → Prop
  | start : Reached alloc Good .start
  | init {s : State} : Reached alloc Good s → Reached alloc Good (dechunkInit s).1
  | dechunk {s s' : State} {seg tail : List UInt8} {code : Dce} : Reached alloc Good s →
      (∀ f, Comes alloc s seg tail f → Good (seg ++ tail) f) →
      DechunkReturns alloc s seg tail (s', .ret code) → Reached alloc Good s'
  | free {s : State} : Reached alloc Good s → Reached alloc Good (dechunkFree s).1

end Dechunk
