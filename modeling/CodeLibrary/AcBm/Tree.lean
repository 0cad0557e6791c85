import Mathlib.Logic.Function.Basic
import Mathlib.Data.List.Basic

/-!
# The pattern tree of `ac_bm.c`

The tree `acbm_init` builds: `ACtree_build`, the bad-character table (`ACtree_compute_BCshifts`)
and the good-suffix shifts (`_init_GSshifts`, `compute_GSshift`, `ACtree_compute_GSshifts`).

The nodes are a heap: `Nodes` lists them in the order of their `malloc`, a pointer is an index,
the root is node 0 and a child slot is `none` for `NULL`, so the two slots of a case-insensitive
letter hold one node. `malloc` succeeds.
-/

namespace AcBm

/-- `PATTERN_LEN` -/
def patternLen : Nat := 1024

def isUpper (ch : UInt8) : Bool := 'A'.toUInt8 ≤ ch && ch ≤ 'Z'.toUInt8
def isLower (ch : UInt8) : Bool := 'a'.toUInt8 ≤ ch && ch ≤ 'z'.toUInt8

/-- `tolower` in the C locale. -/
def tolower (ch : UInt8) : UInt8 := if isUpper ch then ch + 32 else ch

/-- `pattern_data`: `data` holds the first `len` bytes of the source's array. -/
structure PatternData where
  data : List UInt8
  caseSen : Bool
deriving DecidableEq, Repr

def PatternData.len (pat : PatternData) : Nat := pat.data.length

/-- A byte as a pattern with flag `caseSen` spells it in the tree. -/
def foldCh (caseSen : Bool) (ch : UInt8) : UInt8 := if !caseSen then tolower ch else ch

/-- `pattern_tree_node` -/
structure PatternTreeNode where
  label : Int
  depth : Nat
  ch : UInt8
  caseSen : Bool
  gsShift : Int
  oneChild : UInt8
  childs : UInt8 → Option Nat
  nchild : Nat
  parent : Option Nat

/-- A node after `bzero`. -/
def PatternTreeNode.zero : PatternTreeNode where
  label := 0
  depth := 0
  ch := 0
  caseSen := false
  gsShift := 0
  oneChild := 0
  childs := fun _ => none
  nchild := 0
  parent := none

abbrev Nodes := List PatternTreeNode

/-- The node a pointer refers to. -/
def Nodes.node (nodes : Nodes) (n : Nat) : PatternTreeNode := nodes.getD n .zero

/-- `pattern_tree` -/
structure PatternTree where
  nodes : Nodes
  maxDepth : Nat
  minPatternSize : Nat
  bcShift : UInt8 → Int
  patternList : List PatternData

/-! ## `ACtree_build` -/

/-- The search for the branch adding point: the node reached and the bytes not yet in the tree. -/
def findAddingPoint (nodes : Nodes) (caseSen : Bool) : Nat → List UInt8 → Nat × List UInt8
  | parent, [] => (parent, [])
  | parent, c :: rest =>
    match (nodes.node parent).childs (foldCh caseSen c) with
    | none => (parent, c :: rest)
    | some child => findAddingPoint nodes caseSen child rest

/-- `childs` after the new node is hung into the slots of `ch`. -/
def hangChild (childs : UInt8 → Option Nat) (caseSen : Bool) (ch : UInt8) (node : Nat) :
    UInt8 → Option Nat :=
  let childs := Function.update childs ch (some node)
  if !caseSen && isLower ch then Function.update childs (ch - 32) (some node) else childs

/-- One round of the branch loop: a new node for `ch` under `parent`. -/
def addChild (nodes : Nodes) (caseSen : Bool) (parent depth : Nat) (ch : UInt8) : Nodes :=
  let node : PatternTreeNode :=
    { PatternTreeNode.zero with depth, ch, caseSen, label := -1, parent := some parent }
  (nodes ++ [node]).modify parent fun p =>
    { p with
      childs := hangChild p.childs caseSen ch nodes.length
      nchild := p.nchild + 1
      oneChild := ch }

/-- The branch loop: new nodes for the remaining bytes, from index `chI` of the pattern on. -/
def addBranch (caseSen : Bool) : Nodes → Nat → Nat → List UInt8 → Nodes × Nat
  | nodes, parent, _, [] => (nodes, parent)
  | nodes, parent, chI, c :: rest =>
    addBranch caseSen (addChild nodes caseSen parent (chI + 1) (foldCh caseSen c)) nodes.length
      (chI + 1) rest

/-- The tree while `ACtree_build` adds the patterns. -/
structure Build where
  nodes : Nodes
  maxPatternLen : Nat
  minPatternLen : Nat

/-- One round of the pattern loop: pattern number `i`. -/
def addPattern (b : Build) (i : Nat) (pat : PatternData) : Build :=
  if pat.len = 0 then b
  else
    let patLen := min pat.len patternLen
    let bytes := pat.data.take patLen
    let (parent, rest) := findAddingPoint b.nodes pat.caseSen 0 bytes
    let (nodes, last) := addBranch pat.caseSen b.nodes parent (patLen - rest.length) rest
    { nodes := nodes.modify last fun n => { n with label := i }
      maxPatternLen := if patLen > b.maxPatternLen then patLen else b.maxPatternLen
      minPatternLen := if patLen < b.minPatternLen then patLen else b.minPatternLen }

/-- The root node and the initial lengths. -/
def buildInit : Build where
  nodes := [{ PatternTreeNode.zero with label := -2 }]
  maxPatternLen := 0
  minPatternLen := patternLen

/-- The pattern loop from pattern number `i` on. -/
def addPatterns : Build → Nat → List PatternData → Build
  | b, _, [] => b
  | b, i, pat :: pats => addPatterns (addPattern b i pat) (i + 1) pats

/-- `ACtree_build`; the shift tables are still zero. -/
def acTreeBuild (patterns : List PatternData) : PatternTree :=
  let b := addPatterns buildInit 0 patterns
  { nodes := b.nodes
    maxDepth := b.maxPatternLen
    minPatternSize := b.minPatternLen
    bcShift := fun _ => 0
    patternList := patterns }

/-! ## The shift tables -/

/-- `pattern_list[0].case_sen` -/
def PatternTree.caseSen0 (t : PatternTree) : Bool :=
  match t.patternList with
  | [] => false
  | pat :: _ => pat.caseSen

/-- The inner round of `ACtree_compute_BCshifts`: `BCshift` of pattern byte `ch0` becomes `i`. -/
def setBCshift (caseSen0 : Bool) (bc : UInt8 → Int) (i : Nat) (ch0 : UInt8) : UInt8 → Int :=
  let ch := foldCh caseSen0 ch0
  let bc := Function.update bc ch (i : Int)
  if !caseSen0 && isLower ch then Function.update bc (ch - 32) (i : Int) else bc

/-- `ACtree_compute_BCshifts` for `i = n, …, 1`. -/
def computeBCshifts (caseSen0 : Bool) (pats : List PatternData) :
    Nat → (UInt8 → Int) → UInt8 → Int
  | 0, bc => bc
  | n + 1, bc => computeBCshifts caseSen0 pats n
      (pats.foldl (fun bc pat => setBCshift caseSen0 bc (n + 1) (pat.data.getD (n + 1) 0)) bc)

/-- `ACtree_compute_BCshifts` -/
def acTreeComputeBCshifts (t : PatternTree) : PatternTree :=
  { t with
    bcShift := computeBCshifts t.caseSen0 t.patternList (t.minPatternSize - 1)
      (fun _ => t.minPatternSize) }

/-- The 256 slots in the order of the loops over `childs`. -/
def allSlots : List UInt8 := (List.range 256).map UInt8.ofNat

/-- The slots `_init_GSshifts` passes over at a node. -/
def skipsSlot (caseSen : Bool) (i : UInt8) : Bool := !caseSen && isUpper i

/-- `_init_GSshifts`; `fuel` bounds the depth of the recursion (a child is a later node than its
parent, so the number of nodes is enough). -/
def initGSshifts (shift : Int) : Nat → Nodes → Nat → Nodes
  | 0, nodes, _ => nodes
  | fuel + 1, nodes, root =>
    let nodes :=
      if (nodes.node root).label ≠ -2 then nodes.modify root fun n => { n with gsShift := shift }
      else nodes
    allSlots.foldl
      (fun nodes i =>
        if skipsSlot (nodes.node root).caseSen i then nodes
        else match (nodes.node root).childs i with
          | none => nodes
          | some child => initGSshifts shift fuel nodes child)
      nodes

/-- `ACtree_init_GSshifts` -/
def acTreeInitGSshifts (t : PatternTree) : PatternTree :=
  { t with nodes := initGSshifts t.minPatternSize t.nodes.length t.nodes 0 }

/-- The node reached from `node` by the child slots of `bytes`. -/
def follow (nodes : Nodes) : Nat → List UInt8 → Option Nat
  | node, [] => some node
  | node, c :: rest =>
    match (nodes.node node).childs c with
    | none => none
    | some child => follow nodes child rest

/-- `set_GSshift` -/
def setGSshift (nodes : Nodes) (pat : List UInt8) (depth : Nat) (shift : Int) : Nodes :=
  match follow nodes 0 (pat.take depth) with
  | none => nodes
  | some node => nodes.modify node fun n =>
      { n with gsShift := if n.gsShift < shift then n.gsShift else shift }

/-- The loop that handles char 0: the first index from `i` on whose byte is not `firstChar`. -/
def charZeroShift (caseSen0 : Bool) (firstChar : UInt8) : Nat → List UInt8 → Nat
  | i, [] => i
  | i, c :: rest =>
    if foldCh caseSen0 c ≠ firstChar then i else charZeroShift caseSen0 firstChar (i + 1) rest

/-- The compare loop: how many bytes of `pat1` and of `pat2` from its index on agree. -/
def agreeLen (caseSen0 : Bool) : List UInt8 → List UInt8 → Nat
  | c1 :: rest1, c2 :: rest2 =>
    if foldCh caseSen0 c1 ≠ foldCh caseSen0 c2 then 0 else agreeLen caseSen0 rest1 rest2 + 1
  | _, _ => 0

/-- The `set_GSshift` calls for one offset, given where the compare loop stopped. -/
def offsetShifts (nodes : Nodes) (pat1 : List UInt8) (pat1Index pat2Left offset : Nat) : Nodes :=
  if pat1Index = pat1.length then nodes
  else if pat1Index = pat2Left then
    (List.range' pat1Index (pat1.length - pat1Index)).foldl
      (fun nodes j => setGSshift nodes pat1 (j + 1) offset) nodes
  else setGSshift nodes pat1 (pat1Index + 1) offset

/-- The offset loop of `compute_GSshift`, at index `i` of `pat2`, whose bytes from there on are
the last argument. -/
def offsetLoop (caseSen0 : Bool) (minPatternSize : Nat) (pat1 : List UInt8) (firstChar : UInt8) :
    Nodes → Nat → List UInt8 → Nodes
  | nodes, _, [] => nodes
  | nodes, i, c :: rest =>
    if foldCh caseSen0 c ≠ firstChar then
      offsetLoop caseSen0 minPatternSize pat1 firstChar nodes (i + 1) rest
    else if i > minPatternSize then nodes
    else
      let pat1Index := agreeLen caseSen0 pat1 (c :: rest)
      offsetLoop caseSen0 minPatternSize pat1 firstChar
        (offsetShifts nodes pat1 pat1Index (rest.length + 1) i) (i + 1) rest

/-- `compute_GSshift` -/
def computeGSshift (caseSen0 : Bool) (minPatternSize : Nat) (nodes : Nodes)
    (pat1 pat2 : List UInt8) : Nodes :=
  match pat1, pat2 with
  | c1 :: _, _ :: rest2 =>
    let firstChar := foldCh caseSen0 c1
    let nodes := setGSshift nodes pat1 1 (charZeroShift caseSen0 firstChar 1 rest2)
    offsetLoop caseSen0 minPatternSize pat1 firstChar nodes 1 rest2
  | _, _ => nodes

/-- `ACtree_compute_GSshifts` -/
def acTreeComputeGSshifts (t : PatternTree) : PatternTree :=
  { t with
    nodes := t.patternList.foldl
      (fun nodes patI => t.patternList.foldl
        (fun nodes patJ =>
          computeGSshift t.caseSen0 t.minPatternSize nodes patI.data patJ.data) nodes) t.nodes }

/-- `ACtree_compute_shifts` -/
def acTreeComputeShifts (t : PatternTree) : PatternTree :=
  acTreeComputeGSshifts (acTreeInitGSshifts (acTreeComputeBCshifts t))

/-- `acbm_init` -/
def acbmInit (patterns : List PatternData) : PatternTree :=
  acTreeComputeShifts (acTreeBuild patterns)

end AcBm
