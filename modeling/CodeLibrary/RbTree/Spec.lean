import CodeLibrary.RbTree.Rbtree

/-!
# What the tree is for

A set of numbers, each with the node it was inserted in (`present`). `Represents t T` says that the
memory holds the nodes of the tree `T` and no other, each linked to its children and its parent.
-/

namespace RbTree

open NodeMem RedBlack

/-- A node: its address and its number. -/
abbrev Entry := Addr × Int

def addr : BinTree Entry → Addr
  | .nil => 0
  | .node _ _ x _ => x.1

abbrev addrs (T : BinTree Entry) : List Addr := T.toList.map Prod.fst

/-- The nodes of a tree are in the memory, with `par` above. -/
def Rep (m : Mem MyType) : Addr → BinTree Entry → Prop
  | _, .nil => True
  | par, .node c l x r => x.1 ≠ 0 ∧ m x.1 = some ⟨par, c, addr r, addr l, x.2⟩ ∧
    Rep m x.1 l ∧ Rep m x.1 r

/-- The memory holds the nodes of `T`, each once, and no other. -/
structure Represents (t : RbRoot) (T : BinTree Entry) : Prop where
  root : t.rbNode = addr T
  rep : Rep t.mem 0 T
  nodup : (addrs T).Nodup
  rest : ∀ p, p ∉ addrs T → t.mem p = none

/-- The numbers from left to right. -/
def nums (T : BinTree Entry) : List Int := T.toList.map Prod.snd

/-! ## Sets of numbers -/

/-- The node of each number there is. -/
abbrev Nodes := Int → Option Addr

/-- A number that is there keeps its node. -/
def Call.apply (M : Nodes) : Call → Nodes
  | .insert p data =>
    if (M data.num).isSome then M else Function.update M data.num (some p)
  | .delete num => Function.update M num none

/-- The inserted and not deleted nodes. -/
def present (calls : List Call) : Nodes := calls.foldl Call.apply fun _ => none

end RbTree
