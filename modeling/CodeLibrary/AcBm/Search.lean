import CodeLibrary.AcBm.Tree
import CodeLibrary.Lib.Loop

/-!
# The searches of `ac_bm.c`

`acbm_search_ex` and `acbm_search`. The inner loop walks down the tree along the text from
`base_index` (`walkEx`, `walk`) and records the labels it meets; the outer loop is a step function
on `base_index` and the entries recorded so far (`searchStepEx`, `searchStep`), which leaves with
the recorded entries, or with `none` where the source would follow a `NULL` pointer.
-/

namespace AcBm

/-- `matched_info_t` -/
structure MatchedInfo where
  patternI : Int
  offset : Nat
deriving DecidableEq, Repr

/-- The inner loop ends at a `goto ret`, or at a node and a `cur_index`. -/
inductive Walk (α : Type) where
  | ret (matched : List α)
  | stop (node curIndex : Nat) (matched : List α)
deriving DecidableEq, Repr

/-- The inner loop of both searches at `node` and `cur_index`, before the bytes of the text from
there on; `entry` is what is recorded of a node with a label. -/
def walk {α : Type} (t : PatternTree) (nmaxIndex : Nat) (entry : PatternTreeNode → α) :
    Nat → Nat → List α → List UInt8 → Walk α
  | node, curIndex, matched, [] => .stop node curIndex matched
  | node, curIndex, matched, c :: rest =>
    match (t.nodes.node node).childs c with
    | none => .stop node curIndex matched
    | some child =>
      if 0 ≤ (t.nodes.node child).label then
        let matched := matched ++ [entry (t.nodes.node child)]
        if matched.length = nmaxIndex then .ret matched
        else walk t nmaxIndex entry child (curIndex + 1) matched rest
      else walk t nmaxIndex entry child (curIndex + 1) matched rest

/-- `real_shift`, or 1 at a node without children; `none` where `one_child` has no node. -/
def shiftAt (t : PatternTree) (text : List UInt8) (baseIndex node curIndex : Nat) : Option Int :=
  if 0 < (t.nodes.node node).nchild then
    match (t.nodes.node node).childs (t.nodes.node node).oneChild with
    | none => none
    | some child =>
      let gsShift := (t.nodes.node child).gsShift
      let bcShift :=
        if h : curIndex < text.length then t.bcShift text[curIndex] + baseIndex - curIndex else 1
      some (if gsShift > bcShift then gsShift else bcShift)
  else some 1

/-- One round of the outer loop, for either search. -/
def scanStep {α : Type} (t : PatternTree) (text : List UInt8) (nmaxIndex : Nat)
    (entry : Nat → PatternTreeNode → α) :
    Int × List α → (Int × List α) ⊕ Option (List α)
  | (baseIndex, matched) =>
    if 0 ≤ baseIndex then
      let base := baseIndex.toNat
      match walk t nmaxIndex (entry base) 0 base matched (text.drop base) with
      | .ret matched => .inr (some matched)
      | .stop node curIndex matched =>
        match shiftAt t text base node curIndex with
        | none => .inr none
        | some realShift => .inl (baseIndex - realShift, matched)
    else .inr (some matched)

/-- One round of the outer loop of `acbm_search_ex`. -/
def searchStepEx (t : PatternTree) (text : List UInt8) (nmaxIndex : Nat) :
    Int × List MatchedInfo → (Int × List MatchedInfo) ⊕ Option (List MatchedInfo) :=
  scanStep t text nmaxIndex fun base node => ⟨node.label, base⟩

/-- One round of the outer loop of `acbm_search`. -/
def searchStep (t : PatternTree) (text : List UInt8) (nmaxIndex : Nat) :
    Int × List Int → (Int × List Int) ⊕ Option (List Int) :=
  scanStep t text nmaxIndex fun _ node => node.label

/-- The state before the outer loop: `text_len - min_pattern_size`, negative where the source
returns at once. -/
def searchStart {α : Type} (t : PatternTree) (text : List UInt8) : Int × List α :=
  (text.length - t.minPatternSize, [])

/-- `acbm_search_ex` returns, having written `r`. -/
def AcbmSearchEx (t : PatternTree) (text : List UInt8) (nmaxIndex : Nat)
    (r : List MatchedInfo) : Prop :=
  Loop.Returns (searchStepEx t text nmaxIndex) (searchStart t text) (some r)

/-- `acbm_search` returns, having written `r`. -/
def AcbmSearch (t : PatternTree) (text : List UInt8) (nmaxIndex : Nat) (r : List Int) : Prop :=
  Loop.Returns (searchStep t text nmaxIndex) (searchStart t text) (some r)

/-- `acbm_search_ex` for at most `fuel` rounds of its outer loop. -/
def acbmSearchEx (fuel : Nat) (t : PatternTree) (text : List UInt8) (nmaxIndex : Nat) :
    Option (Option (List MatchedInfo)) :=
  Loop.run (searchStepEx t text nmaxIndex) fuel (searchStart t text)

/-- The search returns what enough rounds of it give. -/
theorem acbmSearchEx_iff {t : PatternTree} {text : List UInt8} {nmaxIndex : Nat}
    {r : List MatchedInfo} :
    AcbmSearchEx t text nmaxIndex r ↔ ∃ fuel, acbmSearchEx fuel t text nmaxIndex = some (some r) :=
  Loop.returns_iff_run

end AcBm
