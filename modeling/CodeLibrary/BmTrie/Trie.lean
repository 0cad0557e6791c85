import CodeLibrary.Lib.CInt
import CodeLibrary.Lib.Loop
import Mathlib.Logic.Function.Basic

/-!
# The search of `ACBM.java`

`acbm` builds a trie of the reversed patterns (`buildRootNode`) and a map from a character to a
number of steps (`buildBacCharacterMap`). From an alignment in the text it walks down the trie
against the text (`matchCurrentNode`), records the position in every node of a pattern on the way,
and goes on by the steps of the character behind the alignment.

A `char` is a `UInt16`. A node keeps its children in the order they were put; a `HashMap` iterates
over them in an order of its own, so only the sets of positions of the result are the program's.
Maps with no iteration are functions. The alignment of the loop is an `int` and wraps around; the
other `int`s are indices and lengths of what there is.
-/

namespace BmTrie

open CInt

/-- A `String`, as `char[]`. -/
abbrev JString := List UInt16

/-- An array of patterns: it is not empty, and no pattern in it is. -/
structure PatternArray where
  list : List JString
  nonempty : list ≠ []
  patterns : ∀ p ∈ list, p ≠ []

/-- The fields of a `BMTrieNode` but its children. -/
structure NodeData where
  matchStr : JString
  matchPatternList : List Nat
  status : Nat
  matchPositionList : List Nat
deriving DecidableEq

/-- `BMTrieNode` -/
inductive BMTrieNode where
  | mk (data : NodeData) (subNodeList : List (UInt16 × BMTrieNode))

def BMTrieNode.data : BMTrieNode → NodeData
  | .mk data _ => data

def BMTrieNode.subNodeList : BMTrieNode → List (UInt16 × BMTrieNode)
  | .mk _ subNodeList => subNodeList

/-- A node with its string and nothing else. -/
def NodeData.new (matchStr : JString) : NodeData where
  matchStr
  matchPatternList := []
  status := 0
  matchPositionList := []

/-- `put` into a map that is iterated over. -/
def put {β : Type} (c : UInt16) (b : β) : List (UInt16 × β) → List (UInt16 × β)
  | [] => [(c, b)]
  | (d, b') :: rest => if d = c then (c, b) :: rest else (d, b') :: put c b rest

/-! ## The trie -/

/-- `addSubChar`, on the characters from the last one to the first. -/
def BMTrieNode.addSubChar : BMTrieNode → JString → BMTrieNode
  | node, [] => node
  | .mk data subNodeList, c :: cs =>
    let currentNode := (subNodeList.lookup c).getD (.mk (.new (c :: data.matchStr)) [])
    .mk data (put c (currentNode.addSubChar cs) subNodeList)

/-- `addSubString` -/
def BMTrieNode.addSubString (node : BMTrieNode) (pattern : JString) : BMTrieNode :=
  node.addSubChar pattern.reverse

/-- The loop of `buildMatchStr` over the patterns, for one node. -/
def NodeData.addPatterns (patternArray : List JString) (data : NodeData) : NodeData :=
  (List.range patternArray.length).foldl (fun data i =>
    if (patternArray.getD i []).isPrefixOf data.matchStr then
      { data with matchPatternList := data.matchPatternList ++ [i], status := 1 }
    else data) data

mutual

/-- `buildMatchStr` -/
def buildMatchStr (patternArray : List JString) : BMTrieNode → BMTrieNode
  | .mk data subNodeList =>
    .mk (data.addPatterns patternArray) (buildSubNodes patternArray subNodeList)

def buildSubNodes (patternArray : List JString) :
    List (UInt16 × BMTrieNode) → List (UInt16 × BMTrieNode)
  | [] => []
  | (c, node) :: rest => (c, buildMatchStr patternArray node) :: buildSubNodes patternArray rest

end

/-- `buildRootNode` -/
def buildRootNode (patternArray : List JString) : BMTrieNode :=
  buildMatchStr patternArray
    (patternArray.foldl BMTrieNode.addSubString (.mk (.new []) []))

/-! ## The map of the steps -/

/-- `getMinPatternLength` -/
def getMinPatternLength : List JString → Nat
  | [] => 0
  | pattern :: patterns =>
    patterns.foldl (fun minLength pattern =>
      if pattern.length < minLength then pattern.length else minLength) pattern.length

/-- The character of a pattern at distance `i` from its last one. -/
def charFromEnd (pattern : JString) (i : Nat) : UInt16 := pattern.getD (pattern.length - 1 - i) 0

/-- `buildBacCharacterMap` -/
def buildBacCharacterMap (patternArray : List JString) (minLength : Nat) : UInt16 → Option Nat :=
  patternArray.foldl (fun badCharacterMap pattern =>
    (List.range minLength).foldl (fun badCharacterMap i =>
      match badCharacterMap (charFromEnd pattern i) with
      | none => Function.update badCharacterMap (charFromEnd pattern i) (some (i + 1))
      | some _ => badCharacterMap) badCharacterMap) (fun _ => none)

/-! ## The walk -/

/-- `matchPositionList.add`, in a node of a pattern. -/
def BMTrieNode.record (compareAt : Nat) : BMTrieNode → BMTrieNode
  | .mk data subNodeList =>
    .mk (if data.status = 1 then
      { data with matchPositionList := data.matchPositionList ++ [compareAt] } else data)
      subNodeList

/-- `matchCurrentNode`, with `compareAt + 1`: the steps (`none` is `null`), and the node after
it. -/
def BMTrieNode.matchCurrentNode (textArray : JString) (alingnAt : Nat)
    (badCharacterMap : UInt16 → Option Nat) : Nat → BMTrieNode → Option Nat × BMTrieNode
  | 0, node => (some 1, node)
  | compareAt + 1, .mk data subNodeList =>
    if subNodeList.length = 0 then (some 1, .mk data subNodeList)
    else
      match subNodeList.lookup (textArray.getD compareAt 0) with
      | some preNode =>
        let r := (preNode.record compareAt).matchCurrentNode textArray alingnAt badCharacterMap
          compareAt
        (r.1, .mk data (put (textArray.getD compareAt 0) r.2 subNodeList))
      | none =>
        (if alingnAt + 1 ≥ textArray.length then some 1
          else badCharacterMap (textArray.getD (alingnAt + 1) 0), .mk data subNodeList)

/-! ## The result -/

/-- `Map<String, List<Integer>>` -/
abbrev ResultMap := JString → Option (List Nat)

/-- What `setNodeToMap` does for one node. -/
def setDataToMap (patternArray : List JString) (resultMap : ResultMap) (data : NodeData) :
    ResultMap :=
  if data.status = 1 ∧ data.matchPatternList.length > 0 ∧ data.matchPositionList.length > 0 then
    data.matchPatternList.foldl (fun resultMap pattern =>
      if pattern < patternArray.length then
        let key := patternArray.getD pattern []
        Function.update resultMap key
          (some (((resultMap key).getD []) ++ data.matchPositionList))
      else resultMap) resultMap
  else resultMap

mutual

/-- `setNodeToMap` -/
def setNodeToMap (patternArray : List JString) (resultMap : ResultMap) : BMTrieNode → ResultMap
  | .mk data subNodeList =>
    setSubNodesToMap patternArray (setDataToMap patternArray resultMap data) subNodeList

def setSubNodesToMap (patternArray : List JString) (resultMap : ResultMap) :
    List (UInt16 × BMTrieNode) → ResultMap
  | [] => resultMap
  | (_, node) :: rest =>
    setSubNodesToMap patternArray (setNodeToMap patternArray resultMap node) rest

end

/-- `genResultFromNode` -/
def genResultFromNode (root : BMTrieNode) (patternArray : List JString) : ResultMap :=
  setNodeToMap patternArray (fun _ => none) root

/-! ## `acbm` -/

/-- The variables of the loop: `alingnAt` and `root`. -/
abbrev Head := Int × BMTrieNode

/-- An iteration of the loop of `acbm`. Below the text `compareAt` is negative from the start. -/
def step (P : PatternArray) (textArray : JString) (h : Head) : Head ⊕ ResultMap :=
  let minLength := getMinPatternLength P.list
  if h.1 < textArray.length then
    let r := h.2.matchCurrentNode textArray h.1.toNat (buildBacCharacterMap P.list minLength)
      (h.1 + 1).toNat
    .inl (addInt h.1 (r.1.getD minLength : Nat), r.2)
  else .inr (genResultFromNode h.2 P.list)

/-- `acbm(text, patternArray)` returns `resultMap`. -/
def AcbmReturns (P : PatternArray) (text : JString) (resultMap : ResultMap) : Prop :=
  Loop.Returns (step P text) ((getMinPatternLength P.list : Int) - 1, buildRootNode P.list)
    resultMap

end BmTrie
