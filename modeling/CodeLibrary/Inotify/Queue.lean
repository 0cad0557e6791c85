import CodeLibrary.Lib.Loop
import CodeLibrary.Lib.NodeMem

/-!
# The queue of `event_queue.c` in memory, and its records byte by byte

`Events.lean` has the queue as a list of events. Here the queue is a linked list with pointers to
its first and its last entry, and the buffer of `read_events` is bytes: a record is a
`struct inotify_event`, 16 bytes of header, of which the last 4 are `len`, and `len` bytes of name.
`malloc` is given by the addresses it returns, in the order of the calls.

`none` is a pointer that leads to no entry, a read outside the bytes that `read()` delivered, or a
`memmove` outside the block it copies to.
-/

namespace Inotify

open NodeMem

/-! ## `event_queue.c` -/

/-- `struct queue_entry`: the bytes at `inot_ev`, and the size of the block. -/
structure QueueEntry where
  next : Nat
  inotEv : List UInt8
  size : Nat
deriving DecidableEq, Repr

/-- `struct queue_struct`, with the memory the entries are in. -/
structure Queue where
  head : Nat
  tail : Nat
  mem : Mem QueueEntry

def queueCreate : Queue := ⟨0, 0, fun _ => none⟩

def queueEmpty (q : Queue) : Bool := q.head == 0

def queueEnqueue (d : Nat) (q : Queue) : Option Queue := do
  let e ← q.mem d
  let q := { q with mem := q.mem.set d { e with next := 0 } }
  if q.tail ≠ 0 then
    let t ← q.mem q.tail
    return { q with mem := q.mem.set q.tail { t with next := d }, tail := d }
  return { q with head := d, tail := d }

/-- `queue_dequeue`, with the entry it returns -/
def queueDequeue (q : Queue) : Option (Queue × Nat) := do
  let first := q.head
  if first ≠ 0 then
    let e ← q.mem first
    let head := e.next
    let tail := if head = 0 then 0 else q.tail
    return (⟨head, tail, q.mem.set first { e with next := 0 }⟩, first)
  return (q, first)

/-! ## `read_events` -/

/-- `offsetof (struct inotify_event, name)` -/
def offsetofName : Nat := 16

/-- `offsetof (struct queue_entry, inot_ev)` -/
def offsetofInotEv : Nat := 8

/-- `offsetof (struct queue_entry, inot_ev.name)` -/
def offsetofInotEvName : Nat := 24

/-- `pevent->len`, for the record at `i` of the buffer -/
def lenAt (buffer : List UInt8) (i : Nat) : Option Nat :=
  match (buffer.drop (i + 12)).take 4 with
  | [a, b, c, d] => some (a.toNat + 256 * (b.toNat + 256 * (c.toNat + 256 * d.toNat)))
  | _ => none

/-- `k` bytes of the buffer from `i` on. -/
def bytesAt (buffer : List UInt8) (i k : Nat) : Option (List UInt8) :=
  if i + k ≤ buffer.length then some ((buffer.drop i).take k) else none

/-- `memmove` of the bytes to the `inot_ev` of a block of `size` bytes. -/
def moveEvent (size : Nat) (bytes : List UInt8) : Option QueueEntry :=
  if offsetofInotEv + bytes.length ≤ size then some ⟨0, bytes, size⟩ else none

/-- The loop of `read_events`, with the addresses `malloc` is to return. -/
structure ReadState where
  bufferI : Nat
  count : Nat
  mallocs : List Nat
  q : Queue

/-- The body of the loop of `read_events`. -/
def readBody (buffer : List UInt8) (s : ReadState) : Option ReadState := do
  let len ← lenAt buffer s.bufferI
  let eventSize := offsetofName + len
  let qEventSize := offsetofInotEvName + len
  let event ← s.mallocs.head?
  let bytes ← bytesAt buffer s.bufferI eventSize
  let entry ← moveEvent qEventSize bytes
  let q ← queueEnqueue event { s.q with mem := s.q.mem.set event entry }
  return { bufferI := s.bufferI + eventSize, count := s.count + 1,
           mallocs := s.mallocs.tail, q := q }

def readStep (buffer : List UInt8) (s : ReadState) : ReadState ⊕ Option (Queue × Int) :=
  if s.bufferI < buffer.length then
    match readBody buffer s with
    | some s' => .inl s'
    | none => .inr none
  else .inr (some (s.q, s.count))

/-- `read_events`, where `read()` delivered the bytes of `buffer`, leaves the queue and returns the
number in `r`. -/
def ReadEventsReturns (q : Queue) (buffer : List UInt8) (mallocs : List Nat)
    (r : Option (Queue × Int)) : Prop :=
  Loop.Returns (readStep buffer) ⟨0, 0, mallocs, q⟩ r

/-! ## `handle_events` -/

/-- One round of `handle_events`: the queue, and the records handled so far. -/
def handleStep : Queue × List (List UInt8) →
    (Queue × List (List UInt8)) ⊕ Option (Queue × List (List UInt8))
  | (q, handled) =>
    if queueEmpty q then .inr (some (q, handled))
    else
      match queueDequeue q with
      | none => .inr none
      | some (q, event) =>
        match q.mem event with
        | none => .inr none
        | some e => .inl ({ q with mem := q.mem.free event }, handled ++ [e.inotEv])

/-- `handle_events` leaves the queue and has handled the records in `r`. -/
def HandleEventsReturns (q : Queue) (r : Option (Queue × List (List UInt8))) : Prop :=
  Loop.Returns handleStep (q, []) r

/-- `queue_dequeue` by another caller, which is given the record. -/
def dequeueRecord (q : Queue) : Option (Queue × List (List UInt8)) := do
  let (q, event) ← queueDequeue q
  if event = 0 then return (q, [])
  let e ← q.mem event
  return (q, [e.inotEv])

/-! ## Runs -/

/-- The bytes of one whole record: a header, and as many bytes as its `len` tells. -/
structure Record where
  bytes : List UInt8
  whole : (lenAt bytes 0).map (offsetofName + ·) = some bytes.length

/-- A call: `read_events` with the records `read()` delivered, or with what it returned instead,
`queue_dequeue` or `handle_events`. -/
inductive QueueCall where
  | read (records : List Record) (mallocs : List Nat)
  | readFails (r : Int)
  | dequeue
  | handle

/-- What the kernel and `malloc` promise: records that fill no more than the buffer, and as many new
addresses; so each `malloc` succeeds. -/
def QueueCall.Possible (q : Queue) : QueueCall → Prop
  | .read records mallocs => records ≠ [] ∧ (records.flatMap (·.bytes)).length ≤ 16384 ∧
      mallocs.length = records.length ∧ mallocs.Nodup ∧ ∀ p ∈ mallocs, p ≠ 0 ∧ q.mem p = none
  | .readFails r => r ≤ 0
  | _ => True

/-- The queue after a call, the number it returns, and the records that left the queue; `none`
stands for no number. -/
def QueueCall.Returns (q : Queue) :
    QueueCall → Option (Queue × Option Int × List (List UInt8)) → Prop
  | .read records mallocs, r => ∃ a, ReadEventsReturns q (records.flatMap (·.bytes)) mallocs a ∧
      r = a.map fun (q, count) => (q, some count, [])
  | .readFails n, r => r = some (q, some n, [])
  | .dequeue, r => r = (dequeueRecord q).map fun (q, left) => (q, none, left)
  | .handle, r => ∃ a, HandleEventsReturns q a ∧ r = a.map fun (q, left) => (q, none, left)

/-- The records a call delivers. -/
def QueueCall.delivers : QueueCall → List (List UInt8)
  | .read records _ => records.map (·.bytes)
  | _ => []

/-- The queue after some calls, the records delivered, and those that left it. -/
inductive QueueRun : List QueueCall → Queue → List (List UInt8) → List (List UInt8) → Prop
  | nil : QueueRun [] queueCreate [] []
  | snoc {calls : List QueueCall} {q q' : Queue} {delivered left out : List (List UInt8)}
      {c : QueueCall} {ret : Option Int} : QueueRun calls q delivered left → c.Possible q →
      c.Returns q (some (q', ret, out)) →
      QueueRun (calls ++ [c]) q' (delivered ++ c.delivers) (left ++ out)

end Inotify
