import CodeLibrary.Lib.CInt
import CodeLibrary.Lib.Loop
import Mathlib.Logic.Function.Basic

/-!
# The matcher of `multikeymatch.cpp`

An object is a `State`; `match_map` is a function from the block of two bytes (`getPos`) to the
`MatchStruct` it is mapped to. `addKey`, `matchInit` and `matchClear` are its methods, and
`MatchMainReturns` what `MatchMain` pushes; the loop of `AMatch` is the step function `aMatch`.

What `new char*[n]` holds before it is written, and the `max` of a new object, are a `Platform`. An
access beyond a `listarr` is remembered in it (`Arr.overrun`) where it is written, and ends the
search (`Search.fault`) where it is read; so does a read of the source outside of it in `AMatch`. In
`MatchByte` a byte outside of the source compares unequal. The index of `AMatch` is an `int` of 32
bits and wraps around (`addInt`); the other `int`s stay small, or below the length of the source,
itself an `int`.
-/

namespace MultiKey

open CInt

/-- A string as `char*`. -/
structure CString where
  bytes : List UInt8
  noNul : 0 ∉ bytes
deriving DecidableEq

/-- A string that `AddKey` accepts. -/
structure Key extends CString where
  accepted : 2 ≤ bytes.length ∧ bytes.length ≤ 1024
deriving DecidableEq

/-- `strlen` -/
def Key.length (k : Key) : Nat := k.bytes.length

/-- `k[j]` -/
def Key.byte (k : Key) (j : Nat) : UInt8 := k.bytes.getD j 0

/-- An element of a `listarr`: `NULL`, a stored key, or a pointer to neither. -/
inductive Slot where
  | null
  | key (k : Key)
  | wild
deriving DecidableEq

/-- A `listarr`; `NULL` is an array without elements. -/
structure Arr where
  slots : List Slot
  overrun : Bool
deriving DecidableEq

/-- The size of a pointer, what the `n`-th array holds at an index when it is allocated, and the
`max` of a new object. At an index of which the `memset` clears a part only, `null` is that the rest
of the pointer is zero. -/
structure Platform where
  ptrSize : Nat
  leftover : Nat → Nat → Slot
  max : Int

/-- `new char*[key_count]` and the `memset` of `key_count * 4` bytes. -/
def newArr (pf : Platform) (allocs keyCount : Nat) : Arr where
  slots := (List.range keyCount).map fun i =>
    if (i + 1) * pf.ptrSize ≤ keyCount * 4 then .null
    else if keyCount * 4 ≤ i * pf.ptrSize then pf.leftover allocs i
    else if pf.leftover allocs i = .null then .null else .wild
  overrun := false

/-- `match_struct` -/
structure MatchStruct where
  pos : UInt8 × UInt8
  space : Int
  listarr : Arr

/-- The object, with the number of arrays allocated. -/
structure State where
  max : Int
  count : Nat
  keyCount : Nat
  matchMap : UInt16 → Option MatchStruct
  matchFlag : Bool
  keylist : List Key
  allocs : Nat

/-- The constructor. -/
def State.new (pf : Platform) : State where
  max := pf.max
  count := 0
  keyCount := 0
  matchMap := fun _ => none
  matchFlag := false
  keylist := []
  allocs := 0

/-- `AddKey` -/
def addKey (s : State) (key : CString) : State × Nat :=
  if h : key.bytes.length > 1024 ∨ key.bytes.length < 2 then (s, 0)
  else
    ({ s with
        keylist := s.keylist ++ [⟨key, by omega⟩]
        keyCount := s.keyCount + 1
        matchFlag := true }, 1)

/-- `MatchClear` -/
def matchClear (s : State) : State :=
  { s with count := 0, keyCount := 0, keylist := [], matchMap := fun _ => none }

/-! ## `MatchInit` -/

/-- `GetMax` -/
def getMax (keylist : List Key) : Int :=
  keylist.foldl (fun max key => if (key.length : Int) < max ∨ max = -1 then key.length else max)
    (-1) - 1

/-- A `char` as an `unsigned short`. -/
def schar (c : UInt8) : UInt16 := c.toInt8.toInt16.toUInt16

/-- `GetPos` -/
def getPos (ch1 ch2 : UInt8) : UInt16 := (schar ch1 <<< 8) + schar ch2

/-- `match_map` with the number of arrays allocated. -/
structure Table where
  matchMap : UInt16 → Option MatchStruct
  allocs : Nat

/-- An iteration of `GetMatchMap`: the block at index `j` of `key`. -/
def addBlock (pf : Platform) (max : Int) (keyCount : Nat) (key : Key) (t : Table) (j : Nat) :
    Table :=
  let position := getPos (key.byte j) (key.byte (j + 1))
  let s : Int := key.length - j - 2
  match t.matchMap position with
  | none =>
    let space := if s < max then s else max
    if space = 0 then
      { matchMap := Function.update t.matchMap position
          (some ⟨(key.byte j, key.byte (j + 1)), space, newArr pf t.allocs keyCount⟩)
        allocs := t.allocs + 1 }
    else
      { t with
        matchMap := Function.update t.matchMap position
          (some ⟨(key.byte j, key.byte (j + 1)), space, ⟨[], false⟩⟩) }
  | some m =>
    if m.space > s then
      if s = 0 then
        { matchMap := Function.update t.matchMap position
            (some { m with space := s, listarr := newArr pf t.allocs keyCount })
          allocs := t.allocs + 1 }
      else { t with matchMap := Function.update t.matchMap position (some { m with space := s }) }
    else t

/-- The loop of `GetMatchMap` over the blocks of a key. -/
def addBlocks (pf : Platform) (max : Int) (keyCount : Nat) (t : Table) (key : Key) : Table :=
  (List.range (key.length - 1)).foldl (addBlock pf max keyCount key) t

/-- `GetMatchMap` -/
def getMatchMap (pf : Platform) (max : Int) (keyCount : Nat) (keylist : List Key) (t : Table) :
    Table :=
  keylist.foldl (addBlocks pf max keyCount) t

/-- The loop of `GetMatchKey`: `key` in the first of `keyCount` elements that is `NULL`; nothing if
there is none where the array ends. -/
def setFirst (key : Key) : Nat → List Slot → Option (List Slot)
  | 0, slots => some slots
  | _ + 1, [] => none
  | _ + 1, .null :: slots => some (.key key :: slots)
  | n + 1, slot :: slots => (setFirst key n slots).map (slot :: ·)

/-- `GetMatchKey` -/
def getMatchKey (keyCount : Nat) (listarr : Arr) (key : Key) : Arr :=
  match setFirst key keyCount listarr.slots with
  | none => { listarr with overrun := true }
  | some slots => { listarr with slots }

/-- The key ends in the two bytes. -/
def Key.endsIn (k : Key) (pos : UInt8 × UInt8) : Bool :=
  (k.byte (k.length - 2), k.byte (k.length - 1)) = pos

/-- An iteration of `GetMatchArr`. -/
def fillArr (keyCount : Nat) (keylist : List Key) (m : MatchStruct) : MatchStruct :=
  if m.space ≠ 0 then m
  else
    { m with
      listarr := keylist.foldl
        (fun listarr key => if key.endsIn m.pos then getMatchKey keyCount listarr key else listarr)
        m.listarr }

/-- `GetMatchArr` -/
def getMatchArr (keyCount : Nat) (keylist : List Key) (matchMap : UInt16 → Option MatchStruct) :
    UInt16 → Option MatchStruct :=
  fun position => (matchMap position).map (fillArr keyCount keylist)

/-- `MatchInit` -/
def matchInit (pf : Platform) (s : State) : State :=
  let max := getMax s.keylist
  let t := getMatchMap pf max s.keyCount s.keylist ⟨s.matchMap, s.allocs⟩
  { s with
    max
    count := s.keylist.foldl (fun count key => count + (key.length - 1)) s.count
    matchMap := getMatchArr s.keyCount s.keylist t.matchMap
    allocs := t.allocs }

/-! ## `MatchMain` -/

/-- `source[i]`, nothing outside of the source. -/
def byteAt (source : List UInt8) (i : Int) : Option UInt8 :=
  if i < 0 then none else source[i.toNat]?

/-- The loop of `MatchByte` from index `i` of the key down. -/
def matchFrom (source : List UInt8) (p : Key) : Nat → Int → Bool
  | 0, _ => true
  | i + 1, site =>
    if byteAt source (site + 1) ≠ some (p.byte (i + 1)) ∨ byteAt source site ≠ some (p.byte i) then
      false
    else matchFrom source p i (site - 1)

/-- `MatchByte` -/
def matchByte (source : List UInt8) (site : Int) (p : Key) : Bool :=
  matchFrom source p (p.length - 1) site

/-- How a search ends. -/
inductive Search where
  | found (key : Key) (site : Int)
  | notFound
  | fault
deriving DecidableEq

/-- The loop of `BackMatch` over the first `n` elements. -/
def backMatch (source : List UInt8) (site : Int) : Nat → List Slot → Search
  | 0, _ => .notFound
  | _ + 1, [] => .fault
  | _ + 1, .null :: _ => .notFound
  | _ + 1, .wild :: _ => .fault
  | n + 1, .key k :: slots =>
    if matchByte source site k then .found k site else backMatch source site n slots

/-- An iteration of `AMatch`. -/
def aMatch (s : State) (source : List UInt8) (i : Int) : Int ⊕ Search :=
  if i < source.length - 1 then
    match byteAt source i, byteAt source (i + 1) with
    | some ch1, some ch2 =>
      match s.matchMap (getPos ch1 ch2) with
      | none => .inl (addInt i s.max)
      | some m =>
        if m.space = 0 then
          match backMatch source i s.keyCount m.listarr.slots with
          | .notFound => .inl (addInt i 1)
          | r => .inr r
        else .inl (addInt i m.space)
    | _, _ => .inr .fault
  else .inr .notFound

/-- `result_struct` -/
structure Result where
  res : Int
  key : Key
deriving DecidableEq

/-- The head of the loop of `AMatch`, with what `MatchMain` pushed before it called it. -/
abbrev Head := Int × List Result

/-- The loops of `MatchMain` and `AMatch`: where `AMatch` returns a key it is called again from the
next index on. -/
def matchMain (s : State) (source : List UInt8) (h : Head) : Head ⊕ Option (List Result) :=
  match aMatch s source h.1 with
  | .inl i => .inl (i, h.2)
  | .inr (.found key site) => .inl (site + 1, h.2 ++ [⟨site - (key.length - 2), key⟩])
  | .inr .notFound => .inr (some h.2)
  | .inr .fault => .inr none

/-- `MatchMain(source, result, len)` returns and has pushed `r` (`none`: it read outside of the
source or of a `listarr`). -/
def MatchMainReturns (s : State) (source : List UInt8) (r : Option (List Result)) : Prop :=
  if s.matchFlag = false then r = some []
  else if (source.length : Int) ≤ s.max then r = some []
  else Loop.Returns (matchMain s source) (0, []) r

end MultiKey
