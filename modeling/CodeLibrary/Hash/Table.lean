import CodeLibrary.Lib.Loop
import CodeLibrary.Lib.NodeMem

/-!
# The hash table of `hash.c` with the keys of `addr_hash.c`

A table is an array of buckets, each the first node of a chain in memory. The chain walks of
`hash_find` and `hash_delete` and the loops of `hash_delete_all` are step functions; `none` is a
bucket outside the array, a pointer that leads to no node, or a walk that has not ended within
`fuel` nodes.

`hash_insert` is given the address `xmalloc` returned. Keys are values: `copy_key` makes a copy of
the key that `delete_key` releases with the node.
-/

namespace Hash

open NodeMem

/-- `hash_status_enum` -/
inductive HashStatus where
  | ok
  | memExhausted
  | keyNotFound
deriving DecidableEq, Repr

/-- `hash_node_type`; `record` is `rec`. -/
structure HashNode (κ ρ : Type) where
  next : Nat
  key : κ
  record : ρ
deriving DecidableEq, Repr

/-- The functions on keys of a `hash_type`. -/
structure KeyOps (κ : Type) where
  compare : κ → κ → Bool
  hash : κ → Int

/-- A `hash_type`, with the memory its nodes are in. -/
structure HashType (κ ρ : Type) where
  size : Nat
  table : Nat → Nat
  nodes : Mem (HashNode κ ρ)

variable {κ ρ : Type} (ops : KeyOps κ) (fuel : Nat)

/-- `hash_initialise` -/
def hashInitialise (size : Nat) : HashType κ ρ where
  size := size
  table _ := 0
  nodes _ := none

/-- The bucket of a key, where it is in the array. -/
def bucketOf (h : HashType κ ρ) (key : κ) : Option Nat :=
  if 0 ≤ ops.hash key ∧ ops.hash key < h.size then some (ops.hash key).toNat else none

/-- `hash_insert`, with `p` from `xmalloc` -/
def hashInsert (h : HashType κ ρ) (p : Nat) (key : κ) (record : ρ) :
    Option (HashType κ ρ × HashStatus) := do
  let bucket ← bucketOf ops h key
  let p0 := h.table bucket
  let h := { h with table := Function.update h.table bucket p }
  return ({ h with nodes := h.nodes.set p ⟨p0, key, record⟩ }, .ok)

/-- One round of `while (p && !compare(p->key, key))`, on `p0` and `p`. -/
def walkStep (nodes : Mem (HashNode κ ρ)) (key : κ) :
    Nat × Nat → (Nat × Nat) ⊕ Option (Nat × Nat)
  | (p0, p) =>
    if p = 0 then .inr (some (p0, p))
    else
      match nodes p with
      | none => .inr none
      | some n => if ops.compare n.key key then .inr (some (p0, p)) else .inl (p, n.next)

/-- The walk down the chain of a bucket, to the first node with the key. -/
def walk (nodes : Mem (HashNode κ ρ)) (key : κ) (p : Nat) : Option (Nat × Nat) :=
  (Loop.run (walkStep ops nodes key) fuel (0, p)).join

/-- `hash_delete` -/
def hashDelete (h : HashType κ ρ) (key : κ) : Option (HashType κ ρ × HashStatus) := do
  let bucket ← bucketOf ops h key
  let (p0, p) ← walk ops fuel h.nodes key (h.table bucket)
  if p = 0 then return (h, .keyNotFound)
  let n ← h.nodes p
  if p0 ≠ 0 then
    let n0 ← h.nodes p0
    return ({ h with nodes := (h.nodes.set p0 { n0 with next := n.next }).free p }, .ok)
  else
    return ({ h with
      table := Function.update h.table bucket n.next
      nodes := h.nodes.free p }, .ok)

/-- `hash_find`, with what it writes to `*rec` -/
def hashFind (h : HashType κ ρ) (key : κ) : Option (HashStatus × Option ρ) := do
  let bucket ← bucketOf ops h key
  let (_, p) ← walk ops fuel h.nodes key (h.table bucket)
  if p = 0 then return (.keyNotFound, none)
  let n ← h.nodes p
  return (.ok, some n.record)

/-- One round of `while (n != NULL)` in `hash_delete_all`. -/
def freeStep : Mem (HashNode κ ρ) × Nat →
    (Mem (HashNode κ ρ) × Nat) ⊕ Option (Mem (HashNode κ ρ))
  | (nodes, n) =>
    if n = 0 then .inr (some nodes)
    else
      match nodes n with
      | none => .inr none
      | some x => .inl (nodes.free n, x.next)

/-- `hash_delete_all` on bucket `i` -/
def deleteBucket (h : HashType κ ρ) (i : Nat) : Option (HashType κ ρ) := do
  let nodes ← (Loop.run freeStep fuel (h.nodes, h.table i)).join
  return { h with
    table := Function.update h.table i 0
    nodes := nodes }

/-- `hash_delete_all` -/
def hashDeleteAll (h : HashType κ ρ) : Option (HashType κ ρ) :=
  (List.range h.size).foldlM (deleteBucket fuel) h

/-! ## Iteration -/

/-- One round of `while(i < size && table[i] == NULL)` in `hash_next_item`. -/
def rowStep (h : HashType κ ρ) (i : Nat) : Nat ⊕ Nat :=
  if i < h.size ∧ h.table i = 0 then .inl (i + 1) else .inr i

/-- The second half of `hash_next_item`, from bucket `i` on: what it returns and writes to
`*ppnode`. -/
def firstFrom (h : HashType κ ρ) (i : Int) : Option (Nat × HashStatus) := do
  if i < 0 then none
  let i ← Loop.run (rowStep h) (h.size + 1) i.toNat
  if i = h.size then return (0, .keyNotFound)
  if i < h.size then return (h.table i, .ok)
  none

/-- `hash_next_item` with `*ppnode = pnode`: what it returns and writes to `*ppnode`. -/
def hashNextItem (h : HashType κ ρ) (pnode : Nat) : Option (Nat × HashStatus) :=
  if pnode ≠ 0 then do
    let n ← h.nodes pnode
    if n.next ≠ 0 then return (n.next, .ok)
    firstFrom h (ops.hash n.key + 1)
  else firstFrom h 0

/-- One round of a caller that calls `hash_next_item` until it does not return `ok`: the cursor, and
the nodes it was set to by the calls that returned `ok`. -/
def iterStep (h : HashType κ ρ) :
    Nat × List Nat → (Nat × List Nat) ⊕ Option (Nat × HashStatus × List Nat)
  | (pnode, visited) =>
    match hashNextItem ops h pnode with
    | none => .inr none
    | some (pnode, .ok) => .inl (pnode, visited ++ [pnode])
    | some (pnode, s) => .inr (some (pnode, s, visited))

/-! ## Sequences of calls -/

/-- A call, with the address from `xmalloc` for an insert. -/
inductive Call (κ ρ : Type) where
  | insert (p : Nat) (key : κ) (record : ρ)
  | delete (key : κ)
  | find (key : κ)
  | deleteAll

/-- What a call returns, and writes to `*rec`. -/
inductive Answer (ρ : Type) where
  | status (s : HashStatus)
  | found (s : HashStatus) (record : Option ρ)
  | done
deriving DecidableEq, Repr

def call (h : HashType κ ρ) : Call κ ρ → Option (HashType κ ρ × Answer ρ)
  | .insert p key record => (hashInsert ops h p key record).map fun (h, s) => (h, .status s)
  | .delete key => (hashDelete ops fuel h key).map fun (h, s) => (h, .status s)
  | .find key => (hashFind ops fuel h key).map fun (s, record) => (h, .found s record)
  | .deleteAll => (hashDeleteAll fuel h).map fun h => (h, .done)

/-- `xmalloc` can return the address: it is not `NULL`, and no node is there. -/
def Call.Fresh (h : HashType κ ρ) : Call κ ρ → Prop
  | .insert p _ _ => p ≠ 0 ∧ h.nodes p = none
  | _ => True

/-- Calls on the table `h₀`, with the table and the answers after them. -/
inductive Calls (h₀ : HashType κ ρ) : List (Call κ ρ) → HashType κ ρ → List (Answer ρ) → Prop
  | nil : Calls h₀ [] h₀ []
  | snoc {calls : List (Call κ ρ)} {h h' : HashType κ ρ} {answers : List (Answer ρ)}
      {c : Call κ ρ} {a : Answer ρ} : Calls h₀ calls h answers → c.Fresh h →
      call ops fuel h c = some (h', a) → Calls h₀ (calls ++ [c]) h' (answers ++ [a])

/-! ## `addr_hash.c` -/

def hashTableSize : Nat := 256

/-- `addr_pair` -/
structure AddrPair where
  protocol : UInt16
  srcPort : UInt16
  src : UInt32
  dstPort : UInt16
  dst : UInt32
deriving DecidableEq, Repr

def compare (aa bb : AddrPair) : Bool :=
  aa.src == bb.src && aa.srcPort == bb.srcPort && aa.dst == bb.dst && aa.dstPort == bb.dstPort &&
    aa.protocol == bb.protocol

/-- The masks of `hash` on an address: `>>` binds closer than `&`. -/
def hashAddr (addr : Nat) : Nat :=
  (addr &&& 0x000000FF) + (addr &&& (0x0000FF00 >>> 8)) + (addr &&& (0x00FF0000 >>> 16)) +
    (addr &&& (0xFF000000 >>> 24))

def hash (ap : AddrPair) : Int :=
  let hash := (hashAddr ap.src.toNat + ap.srcPort.toNat) % 0xFF
  (hash + hashAddr ap.dst.toNat + ap.dstPort.toNat) % 0xFF

/-- The functions `addr_hash_create` puts in the table. -/
def addrOps : KeyOps AddrPair := ⟨compare, hash⟩

/-- `addr_hash_create` -/
def addrHashCreate {ρ : Type} : HashType AddrPair ρ := hashInitialise hashTableSize

end Hash
