import CodeLibrary.Hash.Table

/-!
# What a hash table is for

A map from keys, up to `compare`, to stacks of records (`Stacks`): an insert pushes a record on the
stack of its key, a delete pops one, a find tells the top (`Stacks.call`, `Stacks.calls`).
`Represents h b` says that the chains of a table hold the nodes of `b`, each in the bucket of its
key, and no other; `toStacks` reads the stacks off them.
-/

namespace Hash

open NodeMem

variable {κ ρ : Type} (ops : KeyOps κ)

/-! ## Stacks -/

/-- The records of each key, the last inserted first. -/
abbrev Stacks (κ ρ : Type) := κ → List ρ

/-- The stack of the key is changed, no other is. -/
def Stacks.modify (s : Stacks κ ρ) (key : κ) (f : List ρ → List ρ) : Stacks κ ρ :=
  fun k => if ops.compare key k then f (s k) else s k

def Stacks.call (s : Stacks κ ρ) : Call κ ρ → Stacks κ ρ × Answer ρ
  | .insert _ key record => (s.modify ops key (record :: ·), .status .ok)
  | .delete key =>
    if s key = [] then (s, .status .keyNotFound)
    else (s.modify ops key List.tail, .status .ok)
  | .find key =>
    match s key with
    | [] => (s, .found .keyNotFound none)
    | record :: _ => (s, .found .ok (some record))
  | .deleteAll => (fun _ => [], .done)

/-- The stacks and the answers after some calls on none. -/
def Stacks.calls (calls : List (Call κ ρ)) : Stacks κ ρ × List (Answer ρ) :=
  calls.foldl (fun sa c => ((sa.1.call ops c).1, sa.2 ++ [(sa.1.call ops c).2])) (fun _ => [], [])

/-! ## Tables -/

/-- `compare` tells the same keys, and `hash` has one value for them, a bucket of the table. -/
structure KeyOps.Lawful (size : Nat) : Prop where
  refl : ∀ a, ops.compare a a = true
  symm : ∀ a b, ops.compare a b = true → ops.compare b a = true
  trans : ∀ a b c, ops.compare a b = true → ops.compare b c = true → ops.compare a c = true
  hash : ∀ a b, ops.compare a b = true → ops.hash a = ops.hash b
  range : ∀ a, 0 ≤ ops.hash a ∧ ops.hash a < size

/-- A node: its address, its key and its record. -/
abbrev Entry (κ ρ : Type) := Nat × κ × ρ

def HashNode.entry (n : HashNode κ ρ) : κ × ρ := (n.key, n.record)

/-- The bucket a key belongs in. -/
def KeyOps.bucket (key : κ) : Nat := (ops.hash key).toNat

/-- The buckets hold the chains `b`, and each node of the memory is in the bucket of its key. -/
structure Represents (h : HashType κ ρ) (b : Nat → List (Entry κ ρ)) : Prop where
  chain : ∀ i < h.size, Chain HashNode.next HashNode.entry h.nodes (h.table i) (b i)
  home : ∀ i < h.size, ∀ e ∈ b i, ops.bucket e.2.1 = i
  all : ∀ p n, h.nodes p = some n → ∃ i < h.size, p ∈ addrs (b i)

/-- The records with the key in a chain, in the order of the chain. -/
def recordsOf (key : κ) (l : List (Entry κ ρ)) : List ρ :=
  (l.filter fun e => ops.compare e.2.1 key).map fun e => e.2.2

/-- The stacks in the chains. -/
def toStacks (b : Nat → List (Entry κ ρ)) : Stacks κ ρ :=
  fun key => recordsOf ops key (b (ops.bucket key))

end Hash
