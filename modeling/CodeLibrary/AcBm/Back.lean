import CodeLibrary.AcBm.Tree

/-!
# The backward pattern tree of `ac_bm.c`

The tree `acbmback_init` builds: `ACtreeback_build` enters every pattern from its last byte to its
first. The nodes' `case_sen` stays 0 and no shift is computed.
-/

namespace AcBm

/-- One round of the branch loop: a new node for `ch` under `parent`. -/
def addChildBack (nodes : Nodes) (caseSen : Bool) (parent depth : Nat) (ch : UInt8) : Nodes :=
  let node : PatternTreeNode :=
    { PatternTreeNode.zero with depth, ch, label := -1, parent := some parent }
  (nodes ++ [node]).modify parent fun p =>
    { p with
      childs := hangChild p.childs caseSen ch nodes.length
      nchild := p.nchild + 1
      oneChild := ch }

/-- The branch loop: new nodes for the remaining bytes, the next one at the index `rest.length` of
the pattern. -/
def addBranchBack (caseSen : Bool) : Nodes → Nat → List UInt8 → Nodes × Nat
  | nodes, parent, [] => (nodes, parent)
  | nodes, parent, c :: rest =>
    addBranchBack caseSen
      (addChildBack nodes caseSen parent (rest.length + 1) (foldCh caseSen c)) nodes.length rest

/-- One round of the pattern loop: pattern number `i`. -/
def addPatternBack (b : Build) (i : Nat) (pat : PatternData) : Build :=
  if pat.len = 0 then b
  else
    let patLen := min pat.len patternLen
    let bytes := (pat.data.take patLen).reverse
    let (parent, rest) := findAddingPoint b.nodes pat.caseSen 0 bytes
    let (nodes, last) := addBranchBack pat.caseSen b.nodes parent rest
    { nodes := nodes.modify last fun n => { n with label := i }
      maxPatternLen := if patLen > b.maxPatternLen then patLen else b.maxPatternLen
      minPatternLen := if patLen < b.minPatternLen then patLen else b.minPatternLen }

/-- The pattern loop from pattern number `i` on. -/
def addPatternsBack : Build → Nat → List PatternData → Build
  | b, _, [] => b
  | b, i, pat :: pats => addPatternsBack (addPatternBack b i pat) (i + 1) pats

/-- `ACtreeback_build` -/
def acTreeBackBuild (patterns : List PatternData) : PatternTree :=
  let b := addPatternsBack buildInit 0 patterns
  { nodes := b.nodes
    maxDepth := b.maxPatternLen
    minPatternSize := b.minPatternLen
    bcShift := fun _ => 0
    patternList := patterns }

/-- `acbmback_init` -/
def acbmBackInit (patterns : List PatternData) : PatternTree := acTreeBackBuild patterns

end AcBm
