import CodeLibrary.AcBm.Search
import CodeLibrary.Lib.Bytes
import Mathlib.Data.List.Find
import Mathlib.Data.List.Induction
import Mathlib.Data.List.Infix

/-!
# What the searches of `ac_bm.c` are for

* `occurrences`: the pairs (pattern, offset) a search is to report for patterns of one flag:
  highest offset first, at one offset shorter patterns first, a spelling once, under the highest
  index of a pattern that has it (`mem_occurrences`, `occurrences_pairwise`).
* `Hidden`, `Stuck`: a node the initialisation of the good-suffix shifts passes over, and a base
  index at which such a node stops the scan. `Stalls` is the latter read off the patterns, where
  all have one flag.
-/

namespace AcBm

/-- Bytes as a pattern with flag `cs` spells them. -/
def foldAll (cs : Bool) (s : List UInt8) : List UInt8 := s.map (foldCh cs)

/-- The highest index of a pattern that spells `w` (folded). -/
def lastIndex? (cs : Bool) (pats : List PatternData) (w : List UInt8) : Option Nat :=
  (List.range pats.length).reverse.find? fun i =>
    (pats[i]?.map fun pat => foldAll cs pat.data) = some w

/-- The label of a node that spells `w`. -/
def labelOf (cs : Bool) (pats : List PatternData) (w : List UInt8) : Int :=
  match lastIndex? cs pats w with
  | none => -1
  | some i => i

/-- The pairs at offset `base` whose pattern begins with `w`, already read, and goes on into
`rest`. -/
def hitsFrom (cs : Bool) (pats : List PatternData) (base : Nat) (w rest : List UInt8) :
    List MatchedInfo :=
  (List.range rest.length).filterMap fun k =>
    (lastIndex? cs pats (w ++ foldAll cs (rest.take (k + 1)))).map fun (i : Nat) =>
      (⟨i, base⟩ : MatchedInfo)

/-- The pairs at offset `base`, shorter patterns first. -/
def hitsAt (cs : Bool) (pats : List PatternData) (text : List UInt8) (base : Nat) :
    List MatchedInfo :=
  hitsFrom cs pats base [] (text.drop base)

/-- The pairs at offsets below `n`, higher offsets first. -/
def hitsBelow (cs : Bool) (pats : List PatternData) (text : List UInt8) : Nat → List MatchedInfo
  | 0 => []
  | n + 1 => hitsAt cs pats text n ++ hitsBelow cs pats text n

/-- All pairs (module doc). -/
def occurrences (cs : Bool) (pats : List PatternData) (text : List UInt8) : List MatchedInfo :=
  hitsBelow cs pats text text.length

/-- The pattern of pair `x` is shorter than that of pair `y`. -/
def Shorter (pats : List PatternData) (x y : MatchedInfo) : Prop :=
  ∃ (i j : Nat) (p q : PatternData), x.patternI = i ∧ y.patternI = j ∧ pats[i]? = some p ∧
    pats[j]? = some q ∧ p.len < q.len

/-- The order of the pairs: higher offsets first, at one offset shorter patterns first. -/
def Before (pats : List PatternData) (x y : MatchedInfo) : Prop :=
  y.offset < x.offset ∨ (y.offset = x.offset ∧ Shorter pats x y)

/-- A pattern of the lengths the matcher is given. -/
def PatternData.Sized (pat : PatternData) : Prop := 1 ≤ pat.len ∧ pat.len ≤ patternLen

instance (pat : PatternData) : Decidable pat.Sized := inferInstanceAs (Decidable (_ ∧ _))

/-- The node hangs, at some level, in an `'A'..'Z'` slot of a node with `case_sen` 0 that is not
the alias of a lower-case slot. -/
inductive Hidden (ns : Nodes) : Nat → Prop
  | slot {n m : Nat} {c : UInt8} : (ns.node n).childs c = some m → (ns.node n).caseSen = false →
      isUpper c = true → (ns.node m).ch = c → Hidden ns m
  | under {n m : Nat} {c : UInt8} : (ns.node n).childs c = some m → Hidden ns n → Hidden ns m

/-- The byte `c`, folded with the first pattern's flag, is at an index from 1 to `k` of a pattern,
or a pattern is no longer than `k`. -/
def NearByte (cs0 : Bool) (pats : List PatternData) (k : Nat) (c : UInt8) : Prop :=
  (∃ pat ∈ pats, pat.len ≤ k) ∨
    ∃ pat ∈ pats, ∃ i x, 1 ≤ i ∧ i ≤ k ∧ pat.data[i]? = some x ∧ foldCh cs0 x = foldCh cs0 c

/-- The walk from `base` stops inside the text, at a node whose `one_child` is hidden, before a
byte that is near. -/
def Stuck (pats : List PatternData) (text : List UInt8) (base : Nat) : Prop :=
  ∃ k c node child, follow (acbmInit pats).nodes 0 ((text.drop base).take k) = some node ∧
    (text.drop base)[k]? = some c ∧
    ((acbmInit pats).nodes.node node).childs c = none ∧
    ((acbmInit pats).nodes.node node).childs ((acbmInit pats).nodes.node node).oneChild =
      some child ∧
    Hidden (acbmInit pats).nodes child ∧ NearByte (acbmInit pats).caseSen0 pats k c

/-- With one flag: the part of the text at `base` that begins a pattern is a proper prefix of one,
starts with an `'A'..'Z'` byte where the case counts, and the byte after it is near. -/
def Stalls (cs : Bool) (pats : List PatternData) (text : List UInt8) (base : Nat) : Prop :=
  cs = true ∧ ∃ k c, (text.drop base)[k]? = some c ∧
    (∃ a, ((text.drop base).take k).head? = some a ∧ isUpper a = true) ∧
    (∃ pat ∈ pats, (text.drop base).take k <+: pat.data ∧ k < pat.len) ∧
    (∀ pat ∈ pats, ¬ (text.drop base).take (k + 1) <+: pat.data) ∧ NearByte cs pats k c

/-! ## The list of occurrences -/

@[simp] theorem foldAll_length (cs : Bool) (s : List UInt8) :
    (foldAll cs s).length = s.length := by simp [foldAll]

@[simp] theorem foldAll_nil (cs : Bool) : foldAll cs [] = [] := rfl

theorem foldAll_append (cs : Bool) (s s' : List UInt8) :
    foldAll cs (s ++ s') = foldAll cs s ++ foldAll cs s' := by simp [foldAll]

theorem foldAll_take (cs : Bool) (s : List UInt8) (k : Nat) :
    foldAll cs (s.take k) = (foldAll cs s).take k := by simp [foldAll, List.map_take]

theorem foldAll_drop (cs : Bool) (s : List UInt8) (k : Nat) :
    foldAll cs (s.drop k) = (foldAll cs s).drop k := by simp [foldAll, List.map_drop]

theorem lastIndex?_snoc (cs : Bool) (pats : List PatternData) (pat : PatternData)
    (w : List UInt8) : lastIndex? cs (pats ++ [pat]) w =
      if foldAll cs pat.data = w then some pats.length else lastIndex? cs pats w := by
  unfold lastIndex?
  rw [List.length_append, List.length_singleton, List.range_succ, List.reverse_append,
    List.reverse_singleton, List.singleton_append, List.find?_cons]
  simp only [List.getElem?_concat_length, Option.map_some, Option.some.injEq]
  split
  · rename_i h
    rw [if_pos (by simpa using h)]
  · rename_i h
    rw [if_neg (by simpa using h)]
    refine List.find?_congr fun i hi => ?_
    rw [List.mem_reverse, List.mem_range] at hi
    rw [List.getElem?_append_left hi]

theorem lastIndex?_eq_none {cs : Bool} {pats : List PatternData} {w : List UInt8} :
    lastIndex? cs pats w = none ↔ ∀ pat ∈ pats, foldAll cs pat.data ≠ w := by
  simp only [lastIndex?, List.find?_eq_none, List.mem_reverse, List.mem_range, decide_eq_true_eq]
  constructor
  · intro h pat hp he
    obtain ⟨i, hi, rfl⟩ := List.getElem_of_mem hp
    exact h i hi (by simp [hi, he])
  · intro h i hi he
    rw [List.getElem?_eq_getElem hi, Option.map_some, Option.some.injEq] at he
    exact h _ (List.getElem_mem hi) he

theorem lastIndex?_eq_some {cs : Bool} {w : List UInt8} : ∀ {pats : List PatternData} {i : Nat},
    lastIndex? cs pats w = some i ↔
      (∃ pat, pats[i]? = some pat ∧ foldAll cs pat.data = w) ∧
        ∀ j pat, i < j → pats[j]? = some pat → foldAll cs pat.data ≠ w := by
  intro pats
  induction pats using List.reverseRecOn with
  | nil => simp [lastIndex?]
  | append_singleton pats pat ih =>
    intro i
    rw [lastIndex?_snoc]
    have hlast : (pats ++ [pat])[pats.length]? = some pat := by simp
    split
    · rename_i h
      rw [Option.some.injEq]
      constructor
      · rintro rfl
        refine ⟨⟨pat, hlast, h⟩, fun j pat' hj hp => ?_⟩
        rw [List.getElem?_eq_none (by simp; omega)] at hp
        cases hp
      · intro hx
        obtain ⟨⟨pat', hp, -⟩, hmax⟩ := hx
        have hi := (List.getElem?_eq_some_iff.1 hp).1
        rw [List.length_append, List.length_singleton] at hi
        by_contra hne
        exact hmax pats.length pat (by omega) hlast h
    · rename_i h
      rw [ih]
      constructor
      · intro hx
        obtain ⟨⟨pat', hp, hw⟩, hmax⟩ := hx
        have hi := (List.getElem?_eq_some_iff.1 hp).1
        refine ⟨⟨pat', by rw [List.getElem?_append_left hi]; exact hp, hw⟩, fun j q hj hq => ?_⟩
        rcases Nat.lt_or_ge j pats.length with hjl | hjl
        · rw [List.getElem?_append_left hjl] at hq
          exact hmax j q hj hq
        · have hjs := (List.getElem?_eq_some_iff.1 hq).1
          rw [List.length_append, List.length_singleton] at hjs
          rw [show j = pats.length by omega, hlast] at hq
          cases hq
          exact h
      · intro hx
        obtain ⟨⟨pat', hp, hw⟩, hmax⟩ := hx
        have hi := (List.getElem?_eq_some_iff.1 hp).1
        rw [List.length_append, List.length_singleton] at hi
        have hil : i < pats.length := by
          by_contra hge
          rw [show i = pats.length by omega, hlast] at hp
          cases hp
          exact h hw
        rw [List.getElem?_append_left hil] at hp
        refine ⟨⟨pat', hp, hw⟩, fun j q hj hq => hmax j q hj ?_⟩
        rw [List.getElem?_append_left (List.getElem?_eq_some_iff.1 hq).1]
        exact hq

theorem hitsFrom_nil (cs : Bool) (pats : List PatternData) (base : Nat) (w : List UInt8) :
    hitsFrom cs pats base w [] = [] := rfl

theorem hitsFrom_cons (cs : Bool) (pats : List PatternData) (base : Nat) (w : List UInt8)
    (c : UInt8) (rest : List UInt8) :
    hitsFrom cs pats base w (c :: rest) =
      ((lastIndex? cs pats (w ++ [foldCh cs c])).map fun (i : Nat) =>
        (⟨i, base⟩ : MatchedInfo)).toList ++
        hitsFrom cs pats base (w ++ [foldCh cs c]) rest := by
  unfold hitsFrom
  rw [List.length_cons, List.range_succ_eq_map, List.filterMap_cons, List.filterMap_map]
  simp only [Function.comp_def, Nat.zero_add, List.take_succ_cons, List.take_zero, foldAll,
    List.map_cons, List.map_nil, Nat.succ_eq_add_one, List.append_assoc, List.singleton_append]
  cases lastIndex? cs pats (w ++ [foldCh cs c]) <;> rfl

theorem mem_hitsAt {cs : Bool} {pats : List PatternData} {text : List UInt8} {base : Nat}
    {x : MatchedInfo} : x ∈ hitsAt cs pats text base ↔ x.offset = base ∧
      ∃ k < text.length - base, ∃ i : Nat, x.patternI = i ∧
        lastIndex? cs pats (foldAll cs ((text.drop base).take (k + 1))) = some i := by
  unfold hitsAt hitsFrom
  simp only [List.mem_filterMap, List.mem_range, List.length_drop, List.nil_append,
    Option.map_eq_some_iff]
  constructor
  · intro h
    obtain ⟨k, hk, i, hi, rfl⟩ := h
    exact ⟨rfl, k, hk, i, rfl, hi⟩
  · intro h
    obtain ⟨hx, k, hk, i, hx', hi⟩ := h
    exact ⟨k, hk, i, hi, by cases x; simp_all⟩

theorem mem_hitsBelow {cs : Bool} {pats : List PatternData} {text : List UInt8}
    {x : MatchedInfo} : ∀ {n : Nat}, x ∈ hitsBelow cs pats text n ↔
      x.offset < n ∧ x ∈ hitsAt cs pats text x.offset
  | 0 => by simp [hitsBelow]
  | n + 1 => by
    rw [hitsBelow, List.mem_append, mem_hitsBelow (n := n)]
    constructor
    · intro hx
      rcases hx with h | ⟨h, h'⟩
      · have := (mem_hitsAt.1 h).1
        exact ⟨by omega, this ▸ h⟩
      · exact ⟨by omega, h'⟩
    · intro hx
      obtain ⟨h, h'⟩ := hx
      by_cases he : x.offset = n
      · exact .inl (he ▸ h')
      · exact .inr ⟨by omega, h'⟩

/-- **The pairs in `occurrences`**: the pattern occurs at the offset, and no pattern of a higher
index is spelled the same. -/
theorem mem_occurrences {cs : Bool} {pats : List PatternData} {text : List UInt8}
    (hs : ∀ pat ∈ pats, pat.Sized) {x : MatchedInfo} :
    x ∈ occurrences cs pats text ↔ ∃ (i : Nat) (pat : PatternData), x.patternI = i ∧
      pats[i]? = some pat ∧ foldAll cs pat.data <+: (foldAll cs text).drop x.offset ∧
      ∀ j q, i < j → pats[j]? = some q → foldAll cs q.data ≠ foldAll cs pat.data := by
  unfold occurrences
  rw [mem_hitsBelow, mem_hitsAt]
  constructor
  · intro h
    obtain ⟨-, -, k, hk, i, hi, hl⟩ := h
    obtain ⟨⟨pat, hp, hw⟩, hmax⟩ := lastIndex?_eq_some.1 hl
    refine ⟨i, pat, hi, hp, ?_, fun j q hj hq => by rw [hw]; exact hmax j q hj hq⟩
    rw [hw, foldAll_take, foldAll_drop]
    exact List.take_prefix _ _
  · intro h
    obtain ⟨i, pat, hi, hp, hpre, hmax⟩ := h
    have hsz := (hs pat (List.mem_of_getElem? hp)).1
    have hlen := hpre.length_le
    simp only [foldAll_length, List.length_drop] at hlen
    unfold PatternData.len at hsz
    refine ⟨by omega, rfl, pat.data.length - 1, by omega, i, hi, lastIndex?_eq_some.2
      ⟨⟨pat, hp, ?_⟩, fun j q hj hq => ?_⟩⟩
    all_goals
      have heq : foldAll cs ((text.drop x.offset).take (pat.data.length - 1 + 1)) =
          foldAll cs pat.data := by
        rw [foldAll_take, foldAll_drop, Nat.sub_add_cancel hsz]
        simpa using (List.prefix_iff_eq_take.1 hpre).symm
      rw [heq]
    exact hmax j q hj hq

/-- **The order of `occurrences`**: offsets descend, at one offset the patterns get longer. -/
theorem occurrences_pairwise (cs : Bool) (pats : List PatternData) (text : List UInt8) :
    (occurrences cs pats text).Pairwise (Before pats) := by
  have hat : ∀ base, (hitsAt cs pats text base).Pairwise (Before pats) := by
    intro base
    unfold hitsAt hitsFrom
    rw [List.pairwise_filterMap]
    apply (List.pairwise_lt_range (n := (text.drop base).length)).imp_of_mem
    intro k k' hk hk' hlt x hx y hy
    obtain ⟨i, hi, rfl⟩ := Option.map_eq_some_iff.1 hx
    obtain ⟨j, hj, rfl⟩ := Option.map_eq_some_iff.1 hy
    obtain ⟨⟨p, hp, hwp⟩, -⟩ := lastIndex?_eq_some.1 hi
    obtain ⟨⟨q, hq, hwq⟩, -⟩ := lastIndex?_eq_some.1 hj
    refine .inr ⟨rfl, i, j, p, q, rfl, rfl, hp, hq, ?_⟩
    have h1 := congrArg List.length hwp
    have h2 := congrArg List.length hwq
    rw [List.mem_range] at hk hk'
    simp only [foldAll_length, List.nil_append, List.length_take] at h1 h2
    unfold PatternData.len
    omega
  have hbelow : ∀ n, (hitsBelow cs pats text n).Pairwise (Before pats) := by
    intro n
    induction n with
    | zero => exact .nil
    | succ n ih =>
      refine List.pairwise_append.2 ⟨hat n, ih, fun x hx y hy => .inl ?_⟩
      rw [(mem_hitsAt.1 hx).1]
      exact (mem_hitsBelow.1 hy).1
  exact hbelow text.length

theorem occurrences_nodup (cs : Bool) (pats : List PatternData) (text : List UInt8) :
    (occurrences cs pats text).Nodup := by
  apply (occurrences_pairwise cs pats text).imp
  rintro x y (h | ⟨-, i, j, p, q, hi, hj, hp, hq, hlt⟩) rfl
  · omega
  · rw [hi] at hj
    cases hj
    rw [hp] at hq
    cases hq
    omega

/-- Offsets without pairs can be passed over. -/
theorem hitsBelow_skip {cs : Bool} {pats : List PatternData} {text : List UInt8} {lo : Nat} :
    ∀ {hi : Nat}, lo ≤ hi → (∀ q, lo ≤ q → q < hi → hitsAt cs pats text q = []) →
      hitsBelow cs pats text hi = hitsBelow cs pats text lo
  | 0, hle, _ => by rw [Nat.le_zero.1 hle]
  | hi + 1, hle, h => by
    by_cases he : lo = hi + 1
    · rw [he]
    · rw [hitsBelow, h hi (by omega) (by omega), List.nil_append]
      exact hitsBelow_skip (by omega) fun q h1 h2 => h q h1 (by omega)

/-- The pairs are those at offsets from `base` on and those below. -/
theorem occurrences_split (cs : Bool) (pats : List PatternData) (text : List UInt8) (base : Nat) :
    ∀ {n : Nat}, base ≤ n → hitsBelow cs pats text n =
      (hitsBelow cs pats text n).filter (fun x => base ≤ x.offset) ++ hitsBelow cs pats text base
  | 0, hle => by rw [Nat.le_zero.1 hle]; rfl
  | n + 1, hle => by
    by_cases he : base = n + 1
    · rw [List.filter_eq_nil_iff.2 fun x hx => ?_, he]
      · rfl
      · have := (mem_hitsBelow.1 hx).1
        simp
        omega
    · rw [hitsBelow, List.filter_append, List.append_assoc,
        ← occurrences_split cs pats text base (by omega)]
      congr 1
      refine (List.filter_eq_self.2 fun x hx => ?_).symm
      have := (mem_hitsAt.1 hx).1
      simp
      omega

end AcBm
