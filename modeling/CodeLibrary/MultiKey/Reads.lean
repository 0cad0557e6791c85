import CodeLibrary.MultiKey.Matcher

/-!
# The indices at which `MatchMain` reads the source

The functions of a search, told by the indices of the source they read, in their order. `||` does
not read its second operand where the first is true.
-/

namespace MultiKey

/-- The reads of the loop of `MatchByte` from index `i` of the key down. -/
def readsFrom (source : List UInt8) (p : Key) : Nat → Int → List Int
  | 0, _ => []
  | i + 1, site =>
    if byteAt source (site + 1) ≠ some (p.byte (i + 1)) then [site + 1]
    else if byteAt source site ≠ some (p.byte i) then [site + 1, site]
    else (site + 1) :: site :: readsFrom source p i (site - 1)

/-- The reads of `MatchByte` -/
def matchByteReads (source : List UInt8) (site : Int) (p : Key) : List Int :=
  readsFrom source p (p.length - 1) site

/-- The keys that `BackMatch` gives to `MatchByte`. -/
def tried (source : List UInt8) (site : Int) : Nat → List Slot → List Key
  | n + 1, .key k :: slots => k :: if matchByte source site k then [] else tried source site n slots
  | _, _ => []

/-- The keys tried in an iteration of `AMatch`. -/
def aMatchTried (s : State) (source : List UInt8) (i : Int) : List Key :=
  match byteAt source i, byteAt source (i + 1) with
  | some ch1, some ch2 =>
    match s.matchMap (getPos ch1 ch2) with
    | some m => if m.space = 0 then tried source i s.keyCount m.listarr.slots else []
    | none => []
  | _, _ => []

/-- The reads of an iteration of `AMatch` -/
def aMatchReads (s : State) (source : List UInt8) (i : Int) : List Int :=
  if i < source.length - 1 then
    i :: (i + 1) :: (aMatchTried s source i).flatMap (matchByteReads source i)
  else []

/-- `MatchMain(source, result, len)` reads `source[j]`. -/
def MatchMainReads (s : State) (source : List UInt8) (j : Int) : Prop :=
  s.matchFlag = true ∧ s.max < source.length ∧
    ∃ h, Loop.Visits (matchMain s source) (0, []) h ∧ j ∈ aMatchReads s source h.1

end MultiKey
