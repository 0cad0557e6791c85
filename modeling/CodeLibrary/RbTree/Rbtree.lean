import CodeLibrary.Lib.NodeMem
import CodeLibrary.Lib.RedBlack

/-!
# The red–black tree of `rbtree.c`, and the set of numbers of `myrbtree.c`

The functions on an `rb_root` and the memory its nodes are in; 0 is `NULL`. `none` is a read or a
write through `NULL` or a pointer that leads to no node, or a loop that has not ended within `fuel`
rounds.

`rbtree.c` writes the two sides of a rotation, of `rb_insert_color` and of `__rb_erase_color` out;
here they have a direction. An address is a multiple of 4, so `rb_parent_color` is two fields.
-/

namespace RbTree

open NodeMem RedBlack

abbrev Addr := Nat

/-- `struct mytype`, with the fields of its `my_node` -/
structure MyType where
  parent : Addr
  color : Color
  right : Addr
  left : Addr
  num : Int
deriving DecidableEq, Repr

namespace MyType

def child (n : MyType) : Dir → Addr
  | .left => n.left
  | .right => n.right

def setChild (n : MyType) (d : Dir) (p : Addr) : MyType :=
  match d with
  | .left => { n with left := p }
  | .right => { n with right := p }

end MyType

/-- `struct rb_root`, with the memory -/
structure RbRoot where
  rbNode : Addr
  mem : Mem MyType

namespace RbRoot

variable (t : RbRoot) (p : Addr)

def child (d : Dir) : Option Addr := (t.mem p).map fun n => n.child d

/-- `rb_parent` -/
def parent : Option Addr := (t.mem p).map MyType.parent

/-- `rb_color` -/
def color : Option Color := (t.mem p).map MyType.color

def num : Option Int := (t.mem p).map MyType.num

/-- A write to the node at `p`. -/
def modify (f : MyType → MyType) : Option RbRoot :=
  (t.mem p).map fun n => { t with mem := t.mem.set p (f n) }

def setChild (d : Dir) (q : Addr) : Option RbRoot := t.modify p fun n => n.setChild d q

/-- `rb_set_parent` -/
def setParent (q : Addr) : Option RbRoot := t.modify p fun n => { n with parent := q }

/-- `rb_set_color`; `rb_set_red` and `rb_set_black` with their color -/
def setColor (c : Color) : Option RbRoot := t.modify p fun n => { n with color := c }

/-- `p && rb_is_red(p)` -/
def isRed : Option Bool := if p = 0 then some false else (t.color p).map (· == .red)

/-- `!p || rb_is_black(p)` -/
def isBlack : Option Bool := if p = 0 then some true else (t.color p).map (· == .black)

/-- `if (p) rb_set_parent(p, q)` -/
def reparent (q : Addr) : Option RbRoot := if p ≠ 0 then t.setParent p q else some t

/-- The link to `old` becomes one to `new`: that of `parent`, tried on side `d` first, or the
root. -/
def relink (d : Dir) (parent old new : Addr) : Option RbRoot := do
  if parent ≠ 0 then
    if (← t.child parent d) = old then t.setChild parent d new
    else t.setChild parent d.other new
  else return { t with rbNode := new }

end RbRoot

/-! ## `rbtree.c` -/

/-- `__rb_rotate_left`, and on the other side `__rb_rotate_right` -/
def rotate (d : Dir) (t : RbRoot) (node : Addr) : Option RbRoot := do
  let right ← t.child node d.other
  let parent ← t.parent node
  let x ← t.child right d
  let t ← t.setChild node d.other x
  let t ← t.reparent x node
  let t ← t.setChild right d node
  let t ← t.setParent right parent
  let t ← t.relink d parent node right
  t.setParent node right

def rbRotateLeft : RbRoot → Addr → Option RbRoot := rotate .left

def rbRotateRight : RbRoot → Addr → Option RbRoot := rotate .right

/-- The rotations of a round of `rb_insert_color`: at the parent, if the node is on its other side,
and at the grandparent. The node is then the one below. -/
def insertRotate (d : Dir) (t : RbRoot) (node parent gparent : Addr) :
    Option (RbRoot × Addr) := do
  let (t, node, parent) ←
    if (← t.child parent d.other) = node then
      (rotate d t parent).map fun t => (t, parent, node)
    else some (t, node, parent)
  let t ← t.setColor parent .black
  let t ← t.setColor gparent .red
  let t ← rotate d.other t gparent
  return (t, node)

/-- A round of `rb_insert_color`, where the parent is on side `d`: the node it goes on with. -/
def insertRound (d : Dir) (t : RbRoot) (node parent gparent : Addr) :
    Option (RbRoot × Addr) := do
  let uncle ← t.child gparent d.other
  if ← t.isRed uncle then
    let t ← t.setColor uncle .black
    let t ← t.setColor parent .black
    let t ← t.setColor gparent .red
    return (t, gparent)
  else insertRotate d t node parent gparent

/-- The loop of `rb_insert_color` -/
def insertLoop : Nat → RbRoot → Addr → Option RbRoot
  | 0, _, _ => none
  | fuel + 1, t, node => do
    let parent ← t.parent node
    if ← t.isRed parent then
      let gparent ← t.parent parent
      let (t, node) ←
        if parent = (← t.child gparent .left) then insertRound .left t node parent gparent
        else insertRound .right t node parent gparent
      insertLoop fuel t node
    else return t

/-- `rb_insert_color` -/
def rbInsertColor (fuel : Nat) (t : RbRoot) (node : Addr) : Option RbRoot := do
  let t ← insertLoop fuel t node
  t.setColor t.rbNode .black

/-- `__rb_erase_color` where `other` is red: the parent gets a black one. -/
def eraseRed (d : Dir) (t : RbRoot) (parent other : Addr) : Option (RbRoot × Addr) := do
  let t ← t.setColor other .black
  let t ← t.setColor parent .red
  let t ← rotate d t parent
  let other ← t.child parent d.other
  return (t, other)

/-- Where only the child of `other` on side `d` is red: it takes its place. -/
def eraseInner (d : Dir) (t : RbRoot) (parent other : Addr) : Option (RbRoot × Addr) := do
  let near ← t.child other d
  let t ← t.setColor near .black
  let t ← t.setColor other .red
  let t ← rotate d.other t other
  let other ← t.child parent d.other
  return (t, other)

/-- Where the child of `other` on the other side is red: the last rotation. -/
def eraseOuter (d : Dir) (t : RbRoot) (parent other : Addr) : Option RbRoot := do
  let color ← t.color parent
  let t ← t.setColor other color
  let t ← t.setColor parent .black
  let far ← t.child other d.other
  let t ← t.setColor far .black
  rotate d t parent

/-- Where `other` is black: whether the loop goes on from the parent. -/
def eraseBlack (d : Dir) (t : RbRoot) (parent other : Addr) : Option (RbRoot × Bool) := do
  let leftBlack ← t.isBlack (← t.child other .left)
  let rightBlack ← t.isBlack (← t.child other .right)
  if leftBlack && rightBlack then
    let t ← t.setColor other .red
    return (t, true)
  else
    let farBlack ← t.isBlack (← t.child other d.other)
    let (t, other) ← if farBlack then eraseInner d t parent other else some (t, other)
    let t ← eraseOuter d t parent other
    return (t, false)

/-- A round of `__rb_erase_color`, where the node is on side `d` of the parent. -/
def eraseRound (d : Dir) (t : RbRoot) (parent : Addr) : Option (RbRoot × Bool) := do
  let other ← t.child parent d.other
  let color ← t.color other
  if color = .red then
    let (t, other) ← eraseRed d t parent other
    eraseBlack d t parent other
  else eraseBlack d t parent other

/-- The loop of `__rb_erase_color`, with the node after it -/
def eraseLoop : Nat → RbRoot → Addr → Addr → Option (RbRoot × Addr)
  | 0, _, _, _ => none
  | fuel + 1, t, node, parent => do
    if (← t.isBlack node) && node != t.rbNode then
      let (t, goesOn) ←
        if (← t.child parent .left) = node then eraseRound .left t parent
        else eraseRound .right t parent
      if goesOn then eraseLoop fuel t parent (← t.parent parent)
      else return (t, t.rbNode)
    else return (t, node)

/-- `__rb_erase_color` -/
def rbEraseColor (fuel : Nat) (t : RbRoot) (node parent : Addr) : Option RbRoot := do
  let (t, node) ← eraseLoop fuel t node parent
  if node ≠ 0 then t.setColor node .black else return t

/-- `while (n->rb_left) n = n->rb_left` -/
def leftmost : Nat → RbRoot → Addr → Option Addr
  | 0, _, _ => none
  | fuel + 1, t, n => do
    let left ← t.child n .left
    if left ≠ 0 then leftmost fuel t left else return n

/-- `rb_erase` of a node with no other child than `child` -/
def eraseOne (fuel : Nat) (t : RbRoot) (node child : Addr) : Option RbRoot := do
  let parent ← t.parent node
  let color ← t.color node
  let t ← t.reparent child parent
  let t ← t.relink .left parent node child
  if color = .black then rbEraseColor fuel t child parent else return t

/-- The part of `rb_erase` where the successor of `old` is not its child: it leaves its place for
the one above the right subtree. -/
def spliceOut (t : RbRoot) (old node child parent : Addr) : Option RbRoot := do
  let t ← t.reparent child parent
  let t ← t.setChild parent .left child
  let right ← t.child old .right
  let t ← t.setChild node .right right
  t.setParent right node

/-- The part where `node` gets the parent, the color and the left child of `old`. -/
def takePlace (t : RbRoot) (old node : Addr) : Option RbRoot := do
  let parent ← t.parent old
  let color ← t.color old
  let t ← t.modify node fun n => { n with parent := parent, color := color }
  let left ← t.child old .left
  let t ← t.setChild node .left left
  t.setParent left node

/-- `rb_erase` of a node with two children -/
def eraseTwo (fuel : Nat) (t : RbRoot) (old : Addr) : Option RbRoot := do
  let node ← leftmost fuel t (← t.child old .right)
  let t ← t.relink .left (← t.parent old) old node
  let child ← t.child node .right
  let parent ← t.parent node
  let color ← t.color node
  let (t, parent) ←
    if parent = old then some (t, node)
    else (spliceOut t old node child parent).map fun t => (t, parent)
  let t ← takePlace t old node
  if color = .black then rbEraseColor fuel t child parent else return t

/-- `rb_erase` -/
def rbErase (fuel : Nat) (t : RbRoot) (node : Addr) : Option RbRoot := do
  let left ← t.child node .left
  let right ← t.child node .right
  if left = 0 then eraseOne fuel t node right
  else if right = 0 then eraseOne fuel t node left
  else eraseTwo fuel t node

/-- `rb_first` -/
def rbFirst (fuel : Nat) (t : RbRoot) : Option Addr :=
  if t.rbNode = 0 then some 0 else leftmost fuel t t.rbNode

/-- `while ((parent = rb_parent(node)) && node == parent->rb_right) node = parent`, with the parent
after it -/
def climb : Nat → RbRoot → Addr → Option Addr
  | 0, _, _ => none
  | fuel + 1, t, node => do
    let parent ← t.parent node
    if parent = 0 then return 0
    else if node = (← t.child parent .right) then climb fuel t parent
    else return parent

/-- `rb_next` -/
def rbNext (fuel : Nat) (t : RbRoot) (node : Addr) : Option Addr := do
  let parent ← t.parent node
  if parent = node then return 0
  else
    let right ← t.child node .right
    if right ≠ 0 then leftmost fuel t right else climb fuel t node

/-- What `rb_link_node` is given as `rb_link`: the link of the root, or one of a node. -/
inductive Link where
  | root
  | child (p : Addr) (d : Dir)
deriving DecidableEq, Repr

def RbRoot.get (t : RbRoot) : Link → Option Addr
  | .root => some t.rbNode
  | .child p d => t.child p d

def RbRoot.put (t : RbRoot) (link : Link) (q : Addr) : Option RbRoot :=
  match link with
  | .root => some { t with rbNode := q }
  | .child p d => t.setChild p d q

/-- `rb_link_node` -/
def rbLinkNode (t : RbRoot) (node parent : Addr) (link : Link) : Option RbRoot := do
  let t ← t.modify node fun n => { n with parent := parent, color := .red, left := 0, right := 0 }
  t.put link node

/-! ## `myrbtree.c` -/

/-- The loop of `my_search` -/
def searchLoop (num : Int) : Nat → RbRoot → Addr → Option Addr
  | 0, _, _ => none
  | fuel + 1, t, node => do
    if node = 0 then return 0
    else
      let k ← t.num node
      if num < k then searchLoop num fuel t (← t.child node .left)
      else if num > k then searchLoop num fuel t (← t.child node .right)
      else return node

/-- `my_search` -/
def mySearch (fuel : Nat) (t : RbRoot) (num : Int) : Option Addr :=
  searchLoop num fuel t t.rbNode

/-- The loop of `my_insert`: the link and the parent it ends at, if the number is not there -/
def descend (num : Int) : Nat → RbRoot → Link → Addr → Option (Option (Link × Addr))
  | 0, _, _, _ => none
  | fuel + 1, t, tmp, parent => do
    let this ← t.get tmp
    if this = 0 then return some (tmp, parent)
    else
      let k ← t.num this
      if num < k then descend num fuel t (.child this .left) this
      else if num > k then descend num fuel t (.child this .right) this
      else return none

/-- `my_insert` -/
def myInsert (fuel : Nat) (t : RbRoot) (data : Addr) : Option (RbRoot × Int) := do
  let num ← t.num data
  match ← descend num fuel t .root 0 with
  | none => return (t, -1)
  | some (tmp, parent) =>
    let t ← rbLinkNode t data parent tmp
    let t ← rbInsertColor fuel t data
    return (t, 0)

/-- `my_delete` -/
def myDelete (fuel : Nat) (t : RbRoot) (num : Int) : Option RbRoot := do
  let data ← mySearch fuel t num
  if data = 0 then return t
  else
    let t ← rbErase fuel t data
    return { t with mem := t.mem.free data }

/-- The numbers that the loop of `print_rbtree` prints -/
def printLoop (fuel : Nat) : Nat → RbRoot → Addr → Option (List Int)
  | 0, _, _ => none
  | rounds + 1, t, node => do
    if node = 0 then return []
    else
      let num ← t.num node
      let next ← rbNext fuel t node
      let nums ← printLoop fuel rounds t next
      return num :: nums

/-- `print_rbtree` -/
def printRbtree (fuel : Nat) (t : RbRoot) : Option (List Int) := do
  printLoop fuel fuel t (← rbFirst fuel t)

/-! ## Sequences of calls -/

/-- `RB_ROOT` -/
def RbRoot.empty : RbRoot := ⟨0, fun _ => none⟩

/-- A node is allocated at `p`. -/
def RbRoot.alloc (t : RbRoot) (p : Addr) (data : MyType) : RbRoot :=
  { t with mem := t.mem.set p data }

/-- A call of `my_insert`, of a node at `p` with any fields, or of `my_delete`. -/
inductive Call where
  | insert (p : Addr) (data : MyType)
  | delete (num : Int)

/-- The node is one `malloc` can return. -/
def Call.Fresh (t : RbRoot) : Call → Prop
  | .insert p _ => p ≠ 0 ∧ t.mem p = none
  | .delete _ => True

/-- A call. The node of a number that is there is freed, as in `main`. -/
def Call.run (fuel : Nat) (t : RbRoot) : Call → Option RbRoot
  | .insert p data => do
    let (t, ret) ← myInsert fuel (t.alloc p data) p
    if ret < 0 then return { t with mem := t.mem.free p } else return t
  | .delete num => myDelete fuel t num

/-- Calls from `RB_ROOT`, with the tree after them. -/
inductive Calls (fuel : Nat) : List Call → RbRoot → Prop
  | nil : Calls fuel [] .empty
  | snoc {calls : List Call} {t t' : RbRoot} {c : Call} : Calls fuel calls t → c.Fresh t →
      c.run fuel t = some t' → Calls fuel (calls ++ [c]) t'

end RbTree
