import CodeLibrary.AcBm.Search

/-!
# The searches of `ac_bm.c` step by step

The two loops as one: a step evaluates the condition of the outer loop, or the condition of the
inner loop and what the source does from there to the next condition. Every access is checked:
a step ends in a `Fault` where the source would index `text` outside its bytes, follow a `NULL`
pointer, or write an entry behind the `nmax_index` of the output array. An index of `BCshift` is a
byte read from `text`, so a fault of the reading is one of the indexing.
-/

namespace AcBm

/-- An access a search may not make. -/
inductive Fault where
  | text (index : Int)
  | null
  | output (index : Nat)
deriving DecidableEq, Repr

/-- `text[index]` -/
def readText (text : List UInt8) (index : Int) : Except Fault UInt8 :=
  if 0 ≤ index then
    match text[index.toNat]? with
    | some c => .ok c
    | none => .error (.text index)
  else .error (.text index)

/-- `*child` -/
def deref (t : PatternTree) (child : Option Nat) : Except Fault PatternTreeNode :=
  match child with
  | some n => .ok (t.nodes.node n)
  | none => .error .null

/-- `matched_items[nmatched] = item` -/
def writeEntry {α : Type} (nmaxIndex : Nat) (matched : List α) (item : α) :
    Except Fault (List α) :=
  if matched.length < nmaxIndex then .ok (matched ++ [item])
  else .error (.output matched.length)

/-- Where a search stands: before the condition of its outer or of its inner loop. -/
inductive At (α : Type) where
  | outer (baseIndex : Int) (matched : List α)
  | inner (baseIndex : Int) (node : Nat) (curIndex : Int) (matched : List α)
deriving DecidableEq, Repr

/-- The entries written so far. -/
def At.matched {α : Type} : At α → List α
  | .outer _ matched => matched
  | .inner _ _ _ matched => matched

/-- `bc_shift` -/
def readBcShift (t : PatternTree) (text : List UInt8) (baseIndex curIndex : Int) :
    Except Fault Int :=
  if curIndex < text.length then do
    let c ← readText text curIndex
    return t.bcShift c + baseIndex - curIndex
  else return 1

/-- From the end of the inner loop at `node` to the outer loop. -/
def shiftBase {α : Type} (t : PatternTree) (text : List UInt8) (baseIndex : Int) (node : Nat)
    (curIndex : Int) (matched : List α) : Except Fault (At α ⊕ List α) :=
  if 0 < (t.nodes.node node).nchild then do
    let gsShift := (← deref t ((t.nodes.node node).childs (t.nodes.node node).oneChild)).gsShift
    let bcShift ← readBcShift t text baseIndex curIndex
    let realShift := if gsShift > bcShift then gsShift else bcShift
    return .inl (.outer (baseIndex - realShift) matched)
  else return .inl (.outer (baseIndex - 1) matched)

/-- From the child for `text[cur_index]`, its label seen to, to the next condition. -/
def enterChild {α : Type} (t : PatternTree) (text : List UInt8) (baseIndex : Int) (child : Nat)
    (curIndex : Int) (matched : List α) : Except Fault (At α ⊕ List α) :=
  if curIndex + 1 ≥ text.length then shiftBase t text baseIndex child (curIndex + 1) matched
  else return .inl (.inner baseIndex child (curIndex + 1) matched)

/-- The condition of the inner loop, and its body. -/
def innerStep {α : Type} (t : PatternTree) (text : List UInt8) (nmaxIndex : Nat)
    (entry : Nat → PatternTreeNode → α) (baseIndex : Int) (node : Nat) (curIndex : Int)
    (matched : List α) : Except Fault (At α ⊕ List α) := do
  let c ← readText text curIndex
  match (t.nodes.node node).childs c with
  | none => shiftBase t text baseIndex node curIndex matched
  | some child =>
    if 0 ≤ (t.nodes.node child).label then
      let matched ← writeEntry nmaxIndex matched (entry baseIndex.toNat (t.nodes.node child))
      if matched.length = nmaxIndex then return .inr matched
      else enterChild t text baseIndex child curIndex matched
    else enterChild t text baseIndex child curIndex matched

/-- A step that may fault as the step of a loop. -/
def orFault {σ ρ : Type} : Except Fault (σ ⊕ ρ) → σ ⊕ Except Fault ρ
  | .ok (.inl s) => .inl s
  | .ok (.inr r) => .inr (.ok r)
  | .error fault => .inr (.error fault)

/-- One step of either search. -/
def checkedStep {α : Type} (t : PatternTree) (text : List UInt8) (nmaxIndex : Nat)
    (entry : Nat → PatternTreeNode → α) : At α → At α ⊕ Except Fault (List α)
  | .outer baseIndex matched =>
    if 0 ≤ baseIndex then .inl (.inner baseIndex 0 baseIndex matched) else .inr (.ok matched)
  | .inner baseIndex node curIndex matched =>
    orFault (innerStep t text nmaxIndex entry baseIndex node curIndex matched)

/-- One step of `acbm_search_ex`. -/
def checkedEx (t : PatternTree) (text : List UInt8) (nmaxIndex : Nat) :
    At MatchedInfo → At MatchedInfo ⊕ Except Fault (List MatchedInfo) :=
  checkedStep t text nmaxIndex fun base node => ⟨node.label, base⟩

/-- One step of `acbm_search`. -/
def checkedSearch (t : PatternTree) (text : List UInt8) (nmaxIndex : Nat) :
    At Int → At Int ⊕ Except Fault (List Int) :=
  checkedStep t text nmaxIndex fun _ node => node.label

/-- The state before the outer loop: `text_len - min_pattern_size`, negative where the source
returns at once. -/
def checkedStart {α : Type} (t : PatternTree) (text : List UInt8) : At α :=
  .outer (text.length - t.minPatternSize) []

end AcBm
