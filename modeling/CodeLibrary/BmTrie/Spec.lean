import CodeLibrary.BmTrie.Trie
import CodeLibrary.Lib.Occurs

/-!
# What the search is for

`IsCorrect P text resultMap`: every pattern is mapped to the positions at which it occurs. The
search finds an occurrence at an alignment it comes to (`Visited`) that ends it, or that ends a
longer suffix of a pattern that begins with it (`Covered`). It can miss one that it oversteps
(`Oversteps`): from an alignment before the end, the steps of the next character are more than its
distance from the end. It records an occurrence once for each alignment it comes to that ends such a
suffix (`CoveredOnce`).
-/

namespace BmTrie

/-- Every pattern is mapped to the positions at which it occurs, and to nothing if it does not. -/
def IsCorrect (P : PatternArray) (text : JString) (resultMap : ResultMap) : Prop :=
  ∀ p ∈ P.list, (∀ i, i ∈ (resultMap p).getD [] ↔ OccursAt p text i) ∧
    ((∀ i, ¬ OccursAt p text i) → resultMap p = none)

/-- The alignments stay in the range of `int`. -/
def IntSized (P : PatternArray) (text : JString) : Prop :=
  text.length + getMinPatternLength P.list ≤ 2 ^ 31

instance (P : PatternArray) (text : JString) : Decidable (IntSized P text) :=
  inferInstanceAs (Decidable (_ ≤ _))

/-- A suffix of a pattern: the string of a node. -/
def Word (patternArray : List JString) (w : JString) : Prop := ∃ p ∈ patternArray, w <:+ p

/-- The walk from `a` comes to a node that has children, but none for the character before. -/
def FallsOff (patternArray : List JString) (text : JString) (a : Nat) : Prop :=
  ∃ c w, EndsAt (c :: w) text a ∧ (∃ p ∈ patternArray, w <:+ p ∧ w.length < p.length) ∧
    ¬ Word patternArray (c :: w)

/-- The alignments, told from the patterns and the text: one step on, or the steps of the next
character. -/
inductive Visited (P : PatternArray) (text : JString) : Nat → Prop
  | start : Visited P text (getMinPatternLength P.list - 1)
  | next {a : Nat} : Visited P text a → a < text.length →
      ¬ (FallsOff P.list text a ∧ a + 1 < text.length) → Visited P text (a + 1)
  | skip {a : Nat} : Visited P text a → a + 1 < text.length → FallsOff P.list text a →
      Visited P text (a + (buildBacCharacterMap P.list (getMinPatternLength P.list)
        (text.getD (a + 1) 0)).getD (getMinPatternLength P.list))

/-- The alignment `a` ends a suffix of a pattern that begins with `p` at `i`. -/
def CoveredFrom (P : PatternArray) (text : JString) (p : JString) (i a : Nat) : Prop :=
  ∃ w, Word P.list w ∧ p <+: w ∧ Visited P text a ∧ EndsAt w text a ∧ i + w.length = a + 1

/-- An alignment ends a suffix of a pattern that begins with `p` at `i`. -/
def Covered (P : PatternArray) (text : JString) (p : JString) (i : Nat) : Prop :=
  ∃ a, CoveredFrom P text p i a

/-- From the alignment `a` the search oversteps `p` at `i`, which ends `d` characters behind the
next one: the steps of that character are more than those to the end. -/
def Oversteps (P : PatternArray) (text : JString) (p : JString) (i : Nat) : Prop :=
  ∃ a d steps, Visited P text a ∧ FallsOff P.list text a ∧ OccursAt p text i ∧
    i + p.length = a + 1 + d + 1 ∧
    buildBacCharacterMap P.list (getMinPatternLength P.list) (text.getD (a + 1) 0) = some steps ∧
    d + 1 < steps

/-! ## Occurrences recorded once -/

/-- No occurrence is covered from two alignments. -/
def CoveredOnce (P : PatternArray) (text : JString) : Prop :=
  ∀ p ∈ P.list, ∀ i a b, CoveredFrom P text p i a → CoveredFrom P text p i b → a = b

/-- No position list of the result has an element twice. -/
def NoRepeats (resultMap : ResultMap) : Prop := ∀ p l, resultMap p = some l → l.Nodup

end BmTrie
