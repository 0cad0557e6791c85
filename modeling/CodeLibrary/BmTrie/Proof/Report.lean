import CodeLibrary.BmTrie.Proof.Record
import CodeLibrary.Lib.Bytes

/-!
# What the search finds

* `acbm_finds`: `acbm` returns, and the positions of a pattern in the result are the ones at which
  it is covered.
* `acbm_correct_iff`: the result is correct if and only if every occurrence that is overstepped is
  covered. `not_oversteps`: none is, if no pattern has a character nearer to its end than the first
  one that has it.
-/

namespace BmTrie

open CInt

section
variable (P : PatternArray) (text : JString)

/-! ## The steps -/

/-- The steps that `acbm` goes on by from an alignment. -/
def stepsAt (P : PatternArray) (text : JString) (a : Nat) : Nat :=
  let minLength := getMinPatternLength P.list
  ((buildRootNode P.list).matchCurrentNode text a (buildBacCharacterMap P.list minLength)
    (a + 1)).1.getD minLength

theorem stepsAt_falls {a : Nat} (ha : a + 1 < text.length) (h : FallsOff P.list text a) :
    stepsAt P text a = (buildBacCharacterMap P.list (getMinPatternLength P.list)
      (text.getD (a + 1) 0)).getD (getMinPatternLength P.list) := by
  have hroot := recorded_root P text
  unfold stepsAt
  dsimp only
  rw [(matchCurrentNode_fst text a _ (a + 1) _).1
    ((hroot.falls_iff (Nat.lt_of_succ_lt ha)).2 h), if_neg (by omega)]

theorem stepsAt_one {a : Nat} (ha : a < text.length)
    (h : ¬ (FallsOff P.list text a ∧ a + 1 < text.length)) : stepsAt P text a = 1 := by
  have hroot := recorded_root P text
  have hfst := matchCurrentNode_fst text a
    (buildBacCharacterMap P.list (getMinPatternLength P.list)) (a + 1) (buildRootNode P.list)
  rw [hroot.falls_iff ha] at hfst
  unfold stepsAt
  dsimp only
  by_cases hf : FallsOff P.list text a
  · rw [hfst.1 hf, if_pos (by by_contra hlt; exact h ⟨hf, by omega⟩)]
    rfl
  · rw [hfst.2 hf]
    rfl

theorem stepsAt_bounds {a : Nat} (ha : a < text.length) :
    0 < stepsAt P text a ∧ stepsAt P text a ≤ getMinPatternLength P.list := by
  by_cases h : FallsOff P.list text a ∧ a + 1 < text.length
  · rw [stepsAt_falls P text h.2 h.1]
    cases hs : buildBacCharacterMap P.list (getMinPatternLength P.list) (text.getD (a + 1) 0) with
    | none => exact ⟨minLength_pos P, Nat.le_refl _⟩
    | some s =>
      obtain ⟨i, rfl, -, -, hi, -⟩ := (badCharacterMap_ok P.list _).sound _ s hs
      exact ⟨Nat.succ_pos i, hi⟩
  · rw [stepsAt_one P text ha h]
    exact ⟨Nat.one_pos, minLength_pos P⟩

variable {P text}

/-- The walk in the course of the search goes on by the same steps as in the new trie. -/
theorem Recorded.steps {V : List Nat} {root : BMTrieNode} (h : Recorded P.list text V root)
    {a : Nat} (ha : a < text.length) :
    (root.matchCurrentNode text a (buildBacCharacterMap P.list (getMinPatternLength P.list))
      (a + 1)).1.getD (getMinPatternLength P.list) = stepsAt P text a := by
  have h1 := matchCurrentNode_fst text a
    (buildBacCharacterMap P.list (getMinPatternLength P.list)) (a + 1) root
  have h2 := matchCurrentNode_fst text a
    (buildBacCharacterMap P.list (getMinPatternLength P.list)) (a + 1) (buildRootNode P.list)
  rw [h.falls_iff ha] at h1
  rw [(recorded_root P text).falls_iff ha] at h2
  unfold stepsAt
  dsimp only
  by_cases hf : FallsOff P.list text a
  · rw [h1.1 hf, h2.1 hf]
  · rw [h1.2 hf, h2.2 hf]

/-! ## The run -/

theorem Visited.step {a : Nat} (h : Visited P text a) (ha : a < text.length) :
    Visited P text (a + stepsAt P text a) := by
  by_cases hf : FallsOff P.list text a ∧ a + 1 < text.length
  · rw [stepsAt_falls P text hf.2 hf.1]
    exact .skip h hf.2 hf.1
  · rw [stepsAt_one P text ha hf]
    exact .next h ha hf

/-- A run comes to its alignments step by step. -/
theorem Visited.induction {motive : Nat → Prop} (start : motive (getMinPatternLength P.list - 1))
    (step : ∀ a, Visited P text a → a < text.length → motive a → motive (a + stepsAt P text a))
    {a : Nat} (h : Visited P text a) : motive a := by
  induction h with
  | start => exact start
  | next hv ha hno ih =>
    have := step _ hv ha ih
    rwa [stepsAt_one P text ha hno] at this
  | skip hv ha hf ih =>
    have := step _ hv (Nat.lt_of_succ_lt ha) ih
    rwa [stepsAt_falls P text ha hf] at this

/-- `V` are the alignments before `a`. -/
structure VisitedTo (P : PatternArray) (text : JString) (V : List Nat) (a : Nat) : Prop where
  here : Visited P text a
  before : ∀ b ∈ V, Visited P text b ∧ b < text.length ∧ b < a
  first : getMinPatternLength P.list - 1 = a ∨ getMinPatternLength P.list - 1 ∈ V
  next : ∀ b ∈ V, b + stepsAt P text b = a ∨ b + stepsAt P text b ∈ V
  nodup : V.Nodup

theorem VisitedTo.step {V : List Nat} {a : Nat} (h : VisitedTo P text V a)
    (ha : a < text.length) : VisitedTo P text (V ++ [a]) (a + stepsAt P text a) := by
  have hpos := (stepsAt_bounds P text ha).1
  refine ⟨h.here.step ha, fun b hb => ?_, .inr ?_, fun b hb => ?_, ?_⟩
  · rcases List.mem_append.1 hb with hb | hb
    · obtain ⟨h1, h2, h3⟩ := h.before b hb
      exact ⟨h1, h2, by omega⟩
    · obtain rfl := List.mem_singleton.1 hb
      exact ⟨h.here, ha, by omega⟩
  · rcases h.first with hf | hf
    · exact List.mem_append_right _ (List.mem_singleton.2 hf)
    · exact List.mem_append_left _ hf
  · rcases List.mem_append.1 hb with hb | hb
    · rcases h.next b hb with hn | hn
      · exact .inr (List.mem_append_right _ (List.mem_singleton.2 hn))
      · exact .inr (List.mem_append_left _ hn)
    · obtain rfl := List.mem_singleton.1 hb
      exact .inl rfl
  · rw [List.nodup_append]
    refine ⟨h.nodup, by simp, fun b hb c hc => ?_⟩
    obtain rfl := List.mem_singleton.1 hc
    exact Nat.ne_of_lt (h.before b hb).2.2

/-- Behind the text, `V` are all alignments in it. -/
theorem VisitedTo.mem_iff {V : List Nat} {a : Nat} (h : VisitedTo P text V a)
    (ha : text.length ≤ a) (b : Nat) : b ∈ V ↔ Visited P text b ∧ b < text.length := by
  refine ⟨fun hb => ⟨(h.before b hb).1, (h.before b hb).2.1⟩, fun ⟨hb, hlt⟩ => ?_⟩
  refine Visited.induction (motive := fun b => b < text.length → b ∈ V) (fun hlt => ?_)
    (fun b _ hb ih hlt => ?_) hb hlt
  · rcases h.first with hf | hf
    · omega
    · exact hf
  · rcases h.next b (ih hb) with hn | hn
    · omega
    · exact hn

/-- The head of the loop, at the alignment after those of `V`. -/
def HeadAt (P : PatternArray) (text : JString) (hd : Head) : Prop :=
  ∃ V, ∃ a : Nat, hd.1 = a ∧ Recorded P.list text V hd.2 ∧ VisitedTo P text V a

theorem headAt_start (P : PatternArray) (text : JString) :
    HeadAt P text ((getMinPatternLength P.list : Int) - 1, buildRootNode P.list) := by
  have hpos := minLength_pos P
  refine ⟨[], getMinPatternLength P.list - 1, ?_, recorded_root P text, .start,
    fun b hb => absurd hb List.not_mem_nil, .inl rfl, fun b hb => absurd hb List.not_mem_nil,
    List.nodup_nil⟩
  dsimp only
  omega

/-- An iteration: the walk from the alignment, and the next one. -/
theorem step_headAt (hint : IntSized P text) {hd : Head} (h : HeadAt P text hd) :
    Sum.elim (fun hd' : Head => HeadAt P text hd' ∧
        (text.length - hd'.1).toNat < (text.length - hd.1).toNat)
      (fun r => ∃ V root, Recorded P.list text V root ∧ V.Nodup ∧
        (∀ b, b ∈ V ↔ Visited P text b ∧ b < text.length) ∧ r = genResultFromNode root P.list)
      (step P text hd) := by
  obtain ⟨a', root⟩ := hd
  obtain ⟨V, a, ha', hrec, hal⟩ := h
  dsimp only at ha' hrec
  subst ha'
  unfold step
  dsimp only
  by_cases ha : a < text.length
  · have hsteps := stepsAt_bounds P text ha
    have hroom : a + stepsAt P text a < 2 ^ 31 := by
      have : text.length + getMinPatternLength P.list ≤ 2 ^ 31 := hint
      omega
    rw [if_pos (Int.ofNat_lt.2 ha), Sum.elim_inl, Int.toNat_natCast,
      show ((a : Int) + 1).toNat = a + 1 from Int.toNat_natCast (a + 1), hrec.steps ha,
      addInt_of_lt (by omega) (by omega)]
    exact ⟨⟨V ++ [a], a + stepsAt P text a, rfl, hrec.walk ha _, hal.step ha⟩, by dsimp only; omega⟩
  · rw [if_neg (fun h => ha (Int.ofNat_lt.1 h)), Sum.elim_inr]
    exact ⟨V, root, hrec, hal.nodup, hal.mem_iff (Nat.le_of_not_lt ha), rfl⟩

/-- `acbm` returns what it reads off the trie after the walks from all alignments. -/
theorem acbm_returns (hint : IntSized P text) : ∃ V root, Recorded P.list text V root ∧
    V.Nodup ∧ (∀ b, b ∈ V ↔ Visited P text b ∧ b < text.length) ∧
    AcbmReturns P text (genResultFromNode root P.list) := by
  obtain ⟨r, hr, V, root, hrec, hn, hV, rfl⟩ := Loop.total_rule
    (fun hd : Head => (text.length - hd.1).toNat) (headAt_start P text)
    fun hd h => step_headAt hint h
  exact ⟨V, root, hrec, hn, hV, hr⟩

/-! ## The result -/

/-- The positions that one node adds to those of `q`. -/
def contribution (P : List JString) (q : JString) (d : NodeData) : List Nat :=
  if d.status = 1 then
    (d.matchPatternList.filter fun i => i < P.length ∧ P.getD i [] = q).flatMap
      fun _ => d.matchPositionList
  else []

theorem setDataToMap_getD (P : List JString) (q : JString) (m : ResultMap) (d : NodeData) :
    (setDataToMap P m d q).getD [] = (m q).getD [] ++ contribution P q d ∧
      (m q ≠ some [] → setDataToMap P m d q ≠ some []) := by
  have key : ∀ (l : List Nat) (m : ResultMap), d.matchPositionList ≠ [] →
      ((l.foldl (fun resultMap pattern =>
        if pattern < P.length then
          Function.update resultMap (P.getD pattern [])
            (some (((resultMap (P.getD pattern [])).getD []) ++ d.matchPositionList))
        else resultMap) m q).getD [] = (m q).getD [] ++
          (l.filter fun i => i < P.length ∧ P.getD i [] = q).flatMap
            (fun _ => d.matchPositionList)) ∧
      (m q ≠ some [] → l.foldl (fun resultMap pattern =>
        if pattern < P.length then
          Function.update resultMap (P.getD pattern [])
            (some (((resultMap (P.getD pattern [])).getD []) ++ d.matchPositionList))
        else resultMap) m q ≠ some []) := by
    intro l m hne
    induction l generalizing m with
    | nil => simp
    | cons i l ih =>
      rw [List.foldl_cons, List.filter_cons]
      by_cases hi : i < P.length
      · rw [if_pos hi]
        obtain ⟨h1, h2⟩ := ih (Function.update m (P.getD i [])
          (some (((m (P.getD i [])).getD []) ++ d.matchPositionList)))
        by_cases hq : P.getD i [] = q
        · subst hq
          rw [if_pos (by simpa using hi), List.flatMap_cons]
          rw [Function.update_self] at h1 h2
          refine ⟨by rw [h1]; simp, fun _ => h2 ?_⟩
          simp [hne]
        · rw [if_neg (by simpa using fun _ => hq)]
          rw [Function.update_of_ne (Ne.symm hq)] at h1 h2
          exact ⟨h1, h2⟩
      · rw [if_neg hi, if_neg (by simp [hi])]
        exact ih m
  unfold setDataToMap contribution
  by_cases hs : d.status = 1
  swap
  · rw [if_neg fun h => hs h.1, if_neg hs, List.append_nil]
    exact ⟨rfl, fun h => h⟩
  by_cases hp : d.matchPositionList = []
  · rw [if_neg (by simp [hp]), if_pos hs]
    simp [hp]
  by_cases hl : d.matchPatternList = []
  · rw [if_neg (by simp [hl]), if_pos hs]
    simp [hl]
  · rw [if_pos ⟨hs, List.length_pos_iff.2 hl, List.length_pos_iff.2 hp⟩, if_pos hs]
    exact key _ m hp

theorem genResult_getD (P : List JString) (q : JString) (root : BMTrieNode) :
    (genResultFromNode root P q).getD [] = root.nodes.flatMap (contribution P q) ∧
      genResultFromNode root P q ≠ some [] := by
  unfold genResultFromNode
  rw [setNodeToMap_eq]
  have key : ∀ (l : List NodeData) (m : ResultMap), m q ≠ some [] →
      (l.foldl (setDataToMap P) m q).getD [] = (m q).getD [] ++ l.flatMap (contribution P q) ∧
        l.foldl (setDataToMap P) m q ≠ some [] := by
    intro l
    induction l with
    | nil => exact fun m h => ⟨by simp, h⟩
    | cons d l ih =>
      intro m h
      obtain ⟨h1, h2⟩ := setDataToMap_getD P q m d
      obtain ⟨h3, h4⟩ := ih (setDataToMap P m d) (h2 h)
      rw [List.foldl_cons, h3, h1, List.flatMap_cons, List.append_assoc]
      exact ⟨rfl, h4⟩
  simpa using key root.nodes (fun _ => none) (by simp)

theorem mem_begins {P : List JString} {w : JString} {i : Nat} :
    i ∈ begins P w ↔ i < P.length ∧ P.getD i [] <+: w := by
  simp [begins]

/-- The nodes of the trie at the end. -/
theorem Recorded.mem_nodes {V : List Nat} {root : BMTrieNode} (h : Recorded P.list text V root)
    {d : NodeData} : d ∈ root.nodes ↔ ∃ w, Word P.list w ∧ d = .recorded P.list text V w := by
  rw [mem_nodes_iff h.ok]
  constructor
  · intro hx
    obtain ⟨π, hd⟩ := hx
    have hw : Word P.list π.reverse := (h.dataAt_ne_none π).1 (by rw [hd]; simp)
    exact ⟨π.reverse, hw, Option.some.inj (hd.symm.trans (h.word π hw))⟩
  · intro hx
    obtain ⟨w, hw, rfl⟩ := hx
    refine ⟨w.reverse, ?_⟩
    have := h.word w.reverse (by rwa [List.reverse_reverse])
    rwa [List.reverse_reverse] at this

theorem mem_positions {V : List Nat} {w : JString} {i : Nat} : i ∈ positions text V w ↔
    w ≠ [] ∧ ∃ a ∈ V, EndsAt w text a ∧ i + w.length = a + 1 := by
  unfold positions
  simp only [List.mem_map, List.mem_filter, decide_eq_true_eq]
  constructor
  · intro h
    obtain ⟨a, ⟨ha, hw, he⟩, rfl⟩ := h
    have hle : w.length ≤ a + 1 := he.1
    exact ⟨hw, a, ha, he, by omega⟩
  · intro h
    obtain ⟨hw, a, ha, he, hi⟩ := h
    exact ⟨a, ⟨ha, hw, he⟩, by omega⟩

/-- **The positions found** are the ones at which the pattern is covered. -/
theorem acbm_finds (hint : IntSized P text) : ∃ resultMap,
    AcbmReturns P text resultMap ∧ ∀ p ∈ P.list,
      (∀ i, i ∈ (resultMap p).getD [] ↔ Covered P text p i) ∧ resultMap p ≠ some [] := by
  obtain ⟨V, root, hrec, -, hV, hret⟩ := acbm_returns hint
  refine ⟨_, hret, fun p hp => ?_⟩
  obtain ⟨hget, hne⟩ := genResult_getD P.list p root
  refine ⟨fun i => ?_, hne⟩
  rw [hget, List.mem_flatMap]
  constructor
  · intro h
    obtain ⟨d, hd, hi⟩ := h
    obtain ⟨w, hw, rfl⟩ := hrec.mem_nodes.1 hd
    unfold contribution at hi
    split at hi
    swap
    · cases hi
    obtain ⟨j, hj, hi⟩ := List.mem_flatMap.1 hi
    obtain ⟨hj, hjp⟩ := List.mem_filter.1 hj
    have hjb : j ∈ begins P.list w := hj
    have hpre : p <+: w := by
      have := (mem_begins.1 hjb).2
      rwa [(of_decide_eq_true hjp).2] at this
    rw [NodeData.recorded, if_neg (List.ne_nil_of_mem hjb)] at hi
    obtain ⟨-, a, ha, he, hia⟩ := mem_positions.1 hi
    exact ⟨a, w, hw, hpre, ((hV a).1 ha).1, he, hia⟩
  · intro h
    obtain ⟨a, w, hw, hpre, hal, he, hia⟩ := h
    have hw0 : w ≠ [] := fun h0 => P.patterns p hp (List.prefix_nil.1 (h0 ▸ hpre))
    obtain ⟨j, hj, hjp⟩ := List.mem_iff_getElem.1 hp
    have hjp' : P.list.getD j [] = p := by
      rw [List.getD_eq_getElem?_getD, List.getElem?_eq_getElem hj, hjp]
      rfl
    have hjb : j ∈ begins P.list w := mem_begins.2 ⟨hj, by rwa [hjp']⟩
    refine ⟨_, hrec.mem_nodes.2 ⟨w, hw, rfl⟩, ?_⟩
    unfold contribution
    rw [if_pos ((status_recorded _ _ _ _).2 (List.ne_nil_of_mem hjb)), List.mem_flatMap]
    refine ⟨j, List.mem_filter.2 ⟨hjb, decide_eq_true ⟨hj, hjp'⟩⟩, ?_⟩
    rw [NodeData.recorded, if_neg (List.ne_nil_of_mem hjb)]
    exact mem_positions.2 ⟨hw0, a, (hV a).2 ⟨hal, he.lt hw0⟩, he, hia⟩

/-! ## Correct results -/

theorem Covered.occurs {p : JString} {i : Nat} (h : Covered P text p i) : OccursAt p text i := by
  obtain ⟨a, w, -, hpre, -, he, hi⟩ := h
  have hat := he.2
  rw [show a + 1 - w.length = i by omega] at hat
  exact hpre.trans hat

/-- The alignments come to every index, or jump over it. -/
theorem visited_or_jumped {e : Nat} (he : e < text.length) : ∀ {a : Nat}, Visited P text a → a ≤ e →
    Visited P text e ∨ ∃ a, Visited P text a ∧ a < e ∧ e < a + stepsAt P text a := by
  intro a hal hle
  induction hn : e - a using Nat.strongRecOn generalizing a with
  | ind n ih =>
    by_cases heq : a = e
    · exact .inl (heq ▸ hal)
    · have hlt : a < text.length := by omega
      have hpos := (stepsAt_bounds P text hlt).1
      by_cases hj : e < a + stepsAt P text a
      · exact .inr ⟨a, hal, by omega, hj⟩
      · exact ih (e - (a + stepsAt P text a)) (by omega) (hal.step hlt) (by omega) rfl

theorem charFromEnd_of_occursAt {p : JString} {i d : Nat} (h : OccursAt p text i)
    (hd : d < p.length) : charFromEnd p d = text.getD (i + p.length - 1 - d) 0 := by
  have := occursAt_iff.1 h (p.length - 1 - d) (by omega)
  unfold charFromEnd
  rw [List.getD_eq_getElem?_getD, List.getD_eq_getElem?_getD, ← this]
  congr 2
  omega

/-- Every occurrence of a pattern is covered, or overstepped. -/
theorem covered_or_overstepped {p : JString} (hp : p ∈ P.list) {i : Nat}
    (h : OccursAt p text i) : Covered P text p i ∨ Oversteps P text p i := by
  have hp0 := P.patterns p hp
  have hlen := List.length_pos_iff.2 hp0
  have hmin := minLength_le P hp
  have hminpos := minLength_pos P
  have hle := h.le_length hp0
  rcases visited_or_jumped (show i + p.length - 1 < text.length by omega)
    (.start (P := P)) (by omega) with hal | ⟨a, hal, hlt, hj⟩
  · refine .inl ⟨i + p.length - 1, p, ⟨p, hp, List.suffix_refl p⟩, List.prefix_refl p, hal, ?_,
      by omega⟩
    refine ⟨by omega, ?_⟩
    rwa [show i + p.length - 1 + 1 - p.length = i by omega]
  · right
    -- more than one step: those of the next character
    have hfalls : FallsOff P.list text a ∧ a + 1 < text.length := by
      by_contra hno
      rw [stepsAt_one P text (by omega) hno] at hj
      omega
    rw [stepsAt_falls P text hfalls.2 hfalls.1] at hj
    have hmap := badCharacterMap_ok P.list (getMinPatternLength P.list)
    cases hs : buildBacCharacterMap P.list (getMinPatternLength P.list) (text.getD (a + 1) 0) with
    | none =>
      -- the next character is one of the last of the pattern
      rw [hs, Option.getD_none] at hj
      have hc := charFromEnd_of_occursAt h
        (show i + p.length - 1 - (a + 1) < p.length by omega)
      rw [show i + p.length - 1 - (i + p.length - 1 - (a + 1)) = a + 1 by omega] at hc
      exact absurd hs (hmap.known _ _ ⟨p, hp, by omega, hc⟩)
    | some s =>
      rw [hs, Option.getD_some] at hj
      exact ⟨a, i + p.length - 1 - (a + 1), s, hal, hfalls.1, h, by omega, hs, by omega⟩

/-- A result with the positions at which each pattern is covered is correct if it is covered
wherever it occurs. -/
theorem isCorrect_of_covered {resultMap : ResultMap}
    (hfinds : ∀ p ∈ P.list, (∀ i, i ∈ (resultMap p).getD [] ↔ Covered P text p i) ∧
      resultMap p ≠ some [])
    (hcovered : ∀ p ∈ P.list, ∀ i, OccursAt p text i → Covered P text p i) :
    IsCorrect P text resultMap := by
  intro p hp
  obtain ⟨hmem, hne⟩ := hfinds p hp
  have hiff : ∀ i, i ∈ (resultMap p).getD [] ↔ OccursAt p text i := fun i => by
    rw [hmem]
    exact ⟨Covered.occurs, hcovered p hp i⟩
  refine ⟨hiff, fun hno => ?_⟩
  cases hl : resultMap p with
  | none => rfl
  | some l =>
    obtain ⟨i, hi⟩ := List.exists_mem_of_ne_nil l fun h0 => hne (by rw [hl, h0])
    exact absurd ((hiff i).1 (by rw [hl]; exact hi)) (hno i)

/-- No pattern has a character nearer to its end than the first one that has it among its last ones:
then no occurrence is overstepped, in any text. -/
theorem not_oversteps (hleast : ∀ p ∈ P.list, ∀ i < getMinPatternLength P.list,
    ∀ steps ∈ buildBacCharacterMap P.list (getMinPatternLength P.list) (charFromEnd p i),
      steps ≤ i + 1) {p : JString} (hp : p ∈ P.list) (i : Nat) : ¬ Oversteps P text p i := by
  intro h
  obtain ⟨a, d, s, -, -, hat, hd, hs, hlt⟩ := h
  -- the steps are no more than the distance
  obtain ⟨j, rfl, q, hq, hj, -⟩ := (badCharacterMap_ok P.list _).sound _ _ hs
  have hmin := minLength_le P hp
  have hc := charFromEnd_of_occursAt hat (show d < p.length by omega)
  rw [show i + p.length - 1 - d = a + 1 by omega] at hc
  have := hleast p hp d (by omega) _ (hc ▸ hs)
  omega

/-- **When the result is correct**: exactly when every occurrence of a pattern that is overstepped
is covered by an alignment further on. -/
theorem acbm_correct_iff (P : PatternArray) (text : JString) (hint : IntSized P text) :
    ∃ resultMap, AcbmReturns P text resultMap ∧ (IsCorrect P text resultMap ↔
      ∀ p ∈ P.list, ∀ i, Oversteps P text p i → Covered P text p i) := by
  obtain ⟨resultMap, hret, hfinds⟩ := acbm_finds hint
  refine ⟨resultMap, hret, fun h p hp i ho => ?_, fun h => ?_⟩
  · obtain ⟨a, d, s, -, -, hat, -⟩ := ho
    exact ((hfinds p hp).1 i).1 (((h p hp).1 i).2 hat)
  · apply isCorrect_of_covered hfinds
    intro p hp i hat
    rcases covered_or_overstepped hp hat with hc | ho
    · exact hc
    · exact h p hp i ho

end

/-- The patterns `"test"` and `"ab"`. -/
def patternsTestAb : PatternArray :=
  ⟨["test".asciiUnits, "ab".asciiUnits], by decide, by decide⟩

/-- The example of `main`. -/
theorem acbm_correct_testabtest : ∃ resultMap,
    AcbmReturns patternsTestAb "testabtest".asciiUnits resultMap ∧
      IsCorrect patternsTestAb "testabtest".asciiUnits resultMap := by
  obtain ⟨resultMap, hret, hiff⟩ :=
    acbm_correct_iff patternsTestAb "testabtest".asciiUnits (by decide)
  refine ⟨resultMap, hret, hiff.2 fun p hp i ho => ?_⟩
  exact absurd ho (not_oversteps (by decide +kernel) hp i)

/-- The patterns `"ba"` and `"cb"`. -/
def patternsBaCb : PatternArray :=
  ⟨["ba".asciiUnits, "cb".asciiUnits], by decide, by decide⟩

/-- The text `"xcb"`: the first pattern has its `'b'` at distance 1, so the second one is
overstepped from the `'c'`. -/
theorem acbm_misses_cb : ∃ resultMap, AcbmReturns patternsBaCb "xcb".asciiUnits resultMap ∧
    resultMap "cb".asciiUnits = none ∧ OccursAt "cb".asciiUnits "xcb".asciiUnits 1 := by
  obtain ⟨m, hret, hm⟩ : ∃ m, AcbmReturns patternsBaCb "xcb".asciiUnits m ∧
      m "cb".asciiUnits = none :=
    Loop.returns_of_run_any 4 (by decide +kernel)
  exact ⟨m, hret, hm, by decide +kernel⟩

end BmTrie
