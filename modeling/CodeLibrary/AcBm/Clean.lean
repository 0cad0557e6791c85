import CodeLibrary.AcBm.Tree

/-!
# Cleaning the pattern tree of `ac_bm.c`

`_clean_tree` and `acbm_clean` on a heap that knows which nodes are freed: to read, write or free a
node that is freed is a fault (`none`).
-/

namespace AcBm

/-- The nodes, and those freed so far in their order. -/
structure Heap where
  nodes : Nodes
  freed : List Nat

def Heap.read (h : Heap) (n : Nat) : Option PatternTreeNode :=
  if n ∈ h.freed then none else some (h.nodes.node n)

/-- `free(n)` -/
def Heap.free (h : Heap) (n : Nat) : Option Heap :=
  if n ∈ h.freed then none else some { h with freed := h.freed ++ [n] }

/-- `n->childs[i] = NULL` -/
def Heap.setNull (h : Heap) (n : Nat) (i : UInt8) : Option Heap :=
  if n ∈ h.freed then none
  else some { h with nodes := h.nodes.modify n fun node =>
    { node with childs := Function.update node.childs i none } }

/-- One round of the loop of `_clean_tree`, given the recursive call. -/
def cleanSlot (clean : Heap → Nat → Option Heap) (root : Nat) (h : Heap) (i : UInt8) :
    Option Heap := do
  let node ← h.read root
  if skipsSlot node.caseSen i then return h
  match node.childs i with
  | none => return h
  | some child =>
    let h ← clean h child
    let h ← h.free child
    h.setNull root i

/-- `_clean_tree`; `fuel` bounds the depth of the recursion, as in `_init_GSshifts`. -/
def cleanTree : Nat → Heap → Nat → Option Heap
  | 0, _, _ => none
  | fuel + 1, h, root => allSlots.foldlM (cleanSlot (cleanTree fuel) root) h

/-- `acbm_clean` -/
def acbmClean (t : PatternTree) : Option Heap := do
  let h ← cleanTree t.nodes.length ⟨t.nodes, []⟩ 0
  h.free 0

/-- Cleaning frees every node once and does not touch a node it has freed. -/
def CleansUp (t : PatternTree) : Prop :=
  ∃ h, acbmClean t = some h ∧ h.freed.Perm (List.range t.nodes.length)

end AcBm
