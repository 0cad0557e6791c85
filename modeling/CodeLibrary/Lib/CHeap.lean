import Mathlib.Data.List.Basic

/-!
# Blocks of a C heap

`malloc`, `realloc`, `free` and `memcpy` into blocks of cells that are written or not. A block is
named by its number; `realloc` may fail, resize the block in place or move it, as an allocator
answers.

* `Heap.block_store`, `Heap.block_realloc_inPlace`, `Heap.block_malloc`: the block after the call.
* `Heap.canStore`: a copy of `n` cells to a pointer stays inside a live block.
-/

namespace CHeap

variable {α : Type*}

/-- A block: its size, the cells written so far, and whether it was not yet released. -/
structure Block (α : Type*) where
  size : Nat
  cells : Nat → Option α
  live : Bool

abbrev Heap (α : Type*) := List (Block α)

/-- A block number and an offset. -/
abbrev Ptr := Nat × Nat

/-- What an allocator does with a request. -/
inductive Answer where
  | fail
  | inPlace
  | moved
deriving DecidableEq, Repr

/-- The answers of an allocator, request by request. -/
abbrev Allocator := Nat → Answer

/-- The allocator that meets every request in place. -/
def Allocator.steady : Allocator := fun _ => .inPlace

theorem Allocator.steady_ne_fail (n : Nat) : Allocator.steady n ≠ .fail := by
  simp [Allocator.steady]

def Heap.block (h : Heap α) (b : Nat) : Block α := h.getD b ⟨0, fun _ => none, false⟩

/-- `malloc(n)` -/
def Heap.malloc (h : Heap α) (n : Nat) : Answer → Heap α × Option Nat
  | .fail => (h, none)
  | _ => (h ++ [⟨n, fun _ => none, true⟩], some h.length)

/-- A block of another size with the cells that fit. -/
def Block.resize (x : Block α) (n : Nat) : Block α :=
  { x with size := n, cells := fun i => if i < n then x.cells i else none }

/-- `free` of block `b` -/
def Heap.free (h : Heap α) (b : Nat) : Heap α := h.modify b fun x => { x with live := false }

/-- `realloc` of block `b` to `n` cells -/
def Heap.realloc (h : Heap α) (b n : Nat) : Answer → Heap α × Option Nat
  | .fail => (h, none)
  | .inPlace => (h.modify b fun x => x.resize n, some b)
  | .moved => (h.free b ++ [(h.block b).resize n], some h.length)

/-- A copy of `n` cells to `p` stays inside a live block. -/
def Heap.canStore (h : Heap α) (p : Ptr) (n : Nat) : Bool :=
  (h.block p.1).live && decide (p.2 + n ≤ (h.block p.1).size)

/-- `memcpy` of `src` to `p` -/
def Heap.store (h : Heap α) (p : Ptr) (src : List α) : Heap α :=
  h.modify p.1 fun x => { x with
    cells := fun i => if p.2 ≤ i ∧ i < p.2 + src.length then src[i - p.2]? else x.cells i }

theorem Heap.block_modify {h : Heap α} {b : Nat} (hb : b < h.length) (f : Block α → Block α) :
    Heap.block (h.modify b f) b = f (h.block b) := by
  simp [Heap.block, List.getD_eq_getElem?_getD, hb]

/-- A block that is live is on the heap. -/
theorem Heap.lt_of_live {h : Heap α} {b : Nat} (hb : (h.block b).live = true) : b < h.length := by
  by_contra hge
  simp [Heap.block, List.getD_eq_getElem?_getD, List.getElem?_eq_none (Nat.le_of_not_lt hge)] at hb

/-- A fresh block. -/
theorem Heap.block_malloc {h : Heap α} {n b : Nat} {a : Answer} (hb : (h.malloc n a).2 = some b) :
    (h.malloc n a).1.block b = ⟨n, fun _ => none, true⟩ := by
  cases a with
  | fail => cases hb
  | inPlace | moved =>
    simp only [Heap.malloc, Option.some.injEq] at hb
    subst hb
    simp [Heap.malloc, Heap.block]

/-- A block resized in place. -/
theorem Heap.block_realloc_inPlace {h : Heap α} {b : Nat} (hb : (h.block b).live = true) (n : Nat) :
    (h.realloc b n .inPlace).1.block b = (h.block b).resize n :=
  Heap.block_modify (Heap.lt_of_live hb) _

/-- The block copied to. -/
theorem Heap.block_store {h : Heap α} {p : Ptr} (hp : (h.block p.1).live = true) (src : List α) :
    (h.store p src).block p.1 = { h.block p.1 with
      cells := fun i => if p.2 ≤ i ∧ i < p.2 + src.length then src[i - p.2]? else
        (h.block p.1).cells i } :=
  Heap.block_modify (Heap.lt_of_live hp) _

theorem Heap.canStore_iff {h : Heap α} {p : Ptr} {n : Nat} : h.canStore p n = true ↔
    (h.block p.1).live = true ∧ p.2 + n ≤ (h.block p.1).size := by
  simp [Heap.canStore]

end CHeap
