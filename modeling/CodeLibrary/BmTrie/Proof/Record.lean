import CodeLibrary.BmTrie.Proof.Walk

/-!
# The steps, and the trie in the course of the search

* `badCharacterMap_ok`: the steps of a character are one more than a distance from the end of a
  pattern; every character among the last ones of the patterns has some.
* `Recorded P text V root`: the trie after the walks from the alignments `V` (`Recorded.walk`);
  `Recorded.falls_iff`: when a walk falls off it.
-/

namespace BmTrie

/-! ## The lengths and the steps -/

theorem foldl_minLength (ps : List JString) (n : Nat) :
    let m := ps.foldl (fun minLength pattern =>
      if pattern.length < minLength then pattern.length else minLength) n
    m ≤ n ∧ (∀ p ∈ ps, m ≤ p.length) ∧ (m = n ∨ ∃ p ∈ ps, m = p.length) := by
  induction ps generalizing n with
  | nil => exact ⟨Nat.le_refl n, fun p hp => absurd hp List.not_mem_nil, .inl rfl⟩
  | cons p ps ih =>
    rw [List.foldl_cons]
    obtain ⟨h1, h2, h3⟩ := ih (if p.length < n then p.length else n)
    refine ⟨?_, fun q hq => ?_, ?_⟩
    · apply Nat.le_trans h1
      split <;> omega
    · rcases List.mem_cons.1 hq with rfl | hq
      · apply Nat.le_trans h1
        split <;> omega
      · exact h2 q hq
    · rcases h3 with h3 | ⟨q, hq, h3⟩
      · rw [h3]
        split
        · exact .inr ⟨p, .head _, rfl⟩
        · exact .inl rfl
      · exact .inr ⟨q, .tail _ hq, h3⟩

theorem minLength_le (P : PatternArray) {p : JString} (hp : p ∈ P.list) :
    getMinPatternLength P.list ≤ p.length := by
  cases h : P.list with
  | nil => exact absurd h P.nonempty
  | cons q qs =>
    obtain ⟨h1, h2, -⟩ := foldl_minLength qs q.length
    rw [h] at hp
    rcases List.mem_cons.1 hp with rfl | hp
    · exact h1
    · exact h2 p hp

theorem minLength_pos (P : PatternArray) : 0 < getMinPatternLength P.list := by
  have hpos : ∀ p ∈ P.list, 0 < p.length := fun p hp => List.length_pos_iff.2 (P.patterns p hp)
  cases h : P.list with
  | nil => exact absurd h P.nonempty
  | cons q qs =>
    rw [h] at hpos
    obtain ⟨-, -, h3⟩ := foldl_minLength qs q.length
    rcases h3 with h3 | ⟨p, hp, h3⟩
    · exact Nat.lt_of_lt_of_eq (hpos q (.head _)) h3.symm
    · exact Nat.lt_of_lt_of_eq (hpos p (.tail _ hp)) h3.symm

/-- What `buildBacCharacterMap` keeps: the distances are of characters of the patterns, and every
character seen has one. -/
structure MapOk (Seen : UInt16 → Nat → Prop) (map : UInt16 → Option Nat) : Prop where
  sound : ∀ c s, map c = some s → ∃ i, s = i + 1 ∧ Seen c i
  known : ∀ c i, Seen c i → map c ≠ none

theorem MapOk.put {Seen : UInt16 → Nat → Prop} {map : UInt16 → Option Nat} (h : MapOk Seen map)
    (c : UInt16) (i : Nat) :
    MapOk (fun d j => Seen d j ∨ (d = c ∧ j = i)) (match map c with
      | none => Function.update map c (some (i + 1))
      | some _ => map) := by
  cases hc : map c with
  | none =>
    refine ⟨fun d s hd => ?_, fun d j hs => ?_⟩
    · simp only [Function.update_apply] at hd
      split at hd
      · rename_i hdc
        cases hd
        exact ⟨i, rfl, .inr ⟨hdc, rfl⟩⟩
      · obtain ⟨j, hj, hs⟩ := h.sound d s hd
        exact ⟨j, hj, .inl hs⟩
    · simp only [Function.update_apply]
      split
      · exact Option.some_ne_none _
      · rename_i hdc
        rcases hs with hs | ⟨hs, -⟩
        · exact h.known d j hs
        · exact absurd hs hdc
  | some s0 =>
    refine ⟨fun d s hd => ?_, fun d j hs => ?_⟩
    · obtain ⟨j, hj, hs⟩ := h.sound d s hd
      exact ⟨j, hj, .inl hs⟩
    · rcases hs with hs | ⟨rfl, -⟩
      · exact h.known d j hs
      · dsimp only
        rw [hc]
        exact Option.some_ne_none _

theorem MapOk.congr {Seen Seen' : UInt16 → Nat → Prop} {map : UInt16 → Option Nat}
    (h : MapOk Seen map) (hs : ∀ c i, Seen c i ↔ Seen' c i) : MapOk Seen' map :=
  ⟨fun c s hc =>
    let ⟨i, hi, hseen⟩ := h.sound c s hc
    ⟨i, hi, (hs c i).1 hseen⟩, fun c i hseen => h.known c i ((hs c i).2 hseen)⟩

/-- **The map of the steps**: one more than a distance from the end of a pattern, for every
character among the last ones of the patterns. -/
theorem badCharacterMap_ok (ps : List JString) (n : Nat) :
    MapOk (fun c i => ∃ p ∈ ps, i < n ∧ charFromEnd p i = c) (buildBacCharacterMap ps n) := by
  have hloop : ∀ (p : JString) (l : List Nat) (Seen : UInt16 → Nat → Prop)
      (map : UInt16 → Option Nat), MapOk Seen map →
      MapOk (fun c i => Seen c i ∨ (i ∈ l ∧ charFromEnd p i = c))
        (l.foldl (fun badCharacterMap i =>
          match badCharacterMap (charFromEnd p i) with
          | none => Function.update badCharacterMap (charFromEnd p i) (some (i + 1))
          | some _ => badCharacterMap) map) := by
    intro p l
    induction l with
    | nil => exact fun Seen map h => h.congr (by simp)
    | cons i l ih =>
      intro Seen map h
      rw [List.foldl_cons]
      apply (ih _ _ (h.put (charFromEnd p i) i)).congr
      intro c j
      simp only [List.mem_cons]
      constructor
      · intro hx
        rcases hx with (hs | ⟨rfl, rfl⟩) | ⟨hj, hc⟩
        · exact .inl hs
        · exact .inr ⟨.inl rfl, rfl⟩
        · exact .inr ⟨.inr hj, hc⟩
      · intro hx
        rcases hx with hs | ⟨rfl | hj, hc⟩
        · exact .inl (.inl hs)
        · exact .inl (.inr ⟨hc.symm, rfl⟩)
        · exact .inr ⟨hj, hc⟩
  have hps : ∀ (ps : List JString) (Seen : UInt16 → Nat → Prop) (map : UInt16 → Option Nat),
      MapOk Seen map → MapOk (fun c i => Seen c i ∨ ∃ p ∈ ps, i < n ∧ charFromEnd p i = c)
        (ps.foldl (fun badCharacterMap pattern =>
          (List.range n).foldl (fun badCharacterMap i =>
            match badCharacterMap (charFromEnd pattern i) with
            | none => Function.update badCharacterMap (charFromEnd pattern i) (some (i + 1))
            | some _ => badCharacterMap) badCharacterMap) map) := by
    intro ps
    induction ps with
    | nil => exact fun Seen map h => h.congr (by simp)
    | cons p ps ih =>
      intro Seen map h
      rw [List.foldl_cons]
      apply (ih _ _ (hloop p (List.range n) Seen map h)).congr
      intro c i
      simp only [List.mem_range, List.mem_cons, exists_eq_or_imp, or_assoc]
  have h0 : MapOk (fun _ _ => False) fun _ => none :=
    ⟨fun _ _ h => (nomatch h), fun _ _ h => h.elim⟩
  exact (hps ps _ _ h0).congr (by simp)

/-! ## The trie in the course of the search -/

/-- The starts of the word `w` at the alignments `V`. -/
def positions (text : JString) (V : List Nat) (w : JString) : List Nat :=
  (V.filter fun a => w ≠ [] ∧ EndsAt w text a).map fun a => a + 1 - w.length

/-- The node of `w` after the walks from the alignments `V`. -/
def NodeData.recorded (P : List JString) (text : JString) (V : List Nat) (w : JString) : NodeData :=
  { NodeData.built P w with
    matchPositionList := if begins P w = [] then [] else positions text V w }

/-- The trie after the walks from the alignments `V`. -/
structure Recorded (P : List JString) (text : JString) (V : List Nat) (root : BMTrieNode) :
    Prop where
  ok : root.Ok
  word : ∀ π, Word P π.reverse → root.dataAt π = some (.recorded P text V π.reverse)
  other : ∀ π, ¬ Word P π.reverse → root.dataAt π = none

theorem recorded_root (P : PatternArray) (text : JString) :
    Recorded P.list text [] (buildRootNode P.list) := by
  refine ⟨root_ok P.list, fun π hw => ?_, fun π => (dataAt_root P.nonempty π).2⟩
  rw [(dataAt_root P.nonempty π).1 hw]
  unfold NodeData.recorded NodeData.built positions
  split <;> rfl

theorem status_recorded (P : List JString) (text : JString) (V : List Nat) (w : JString) :
    (NodeData.recorded P text V w).status = 1 ↔ begins P w ≠ [] := by
  simp [NodeData.recorded, NodeData.built]

theorem recordAt_recorded {P : List JString} {text : JString} {a : Nat} (ha : a < text.length)
    (V : List Nat) (π : JString) :
    NodeData.recordAt text (a + 1) π (.recorded P text V π.reverse) =
      .recorded P text (V ++ [a]) π.reverse := by
  have hne : π.reverse ≠ [] ↔ π ≠ [] := by simp
  unfold NodeData.recordAt
  split
  · rename_i h
    rw [status_recorded, reads_iff_endsAt ha] at h
    obtain ⟨h1, h2, h3⟩ := h
    simp only [NodeData.recorded, if_neg h3, positions, List.filter_append, List.map_append]
    have hyes : π.reverse ≠ [] ∧ EndsAt π.reverse text a := ⟨hne.2 h1, h2⟩
    rw [List.filter_singleton, decide_eq_true hyes, cond_true, List.map_singleton,
      List.length_reverse]
  · rename_i h
    rw [status_recorded, reads_iff_endsAt ha] at h
    unfold NodeData.recorded
    split
    · rfl
    · rename_i hb
      have hno : ¬ (π.reverse ≠ [] ∧ EndsAt π.reverse text a) := fun h' =>
        h ⟨hne.1 h'.1, h'.2, hb⟩
      unfold positions
      rw [List.filter_append, List.filter_singleton, decide_eq_false hno, cond_false,
        List.append_nil]

section
variable {P : PatternArray} {text : JString} {V : List Nat} {root : BMTrieNode}
  (h : Recorded P.list text V root)
include h

theorem Recorded.dataAt_ne_none (π : JString) : root.dataAt π ≠ none ↔ Word P.list π.reverse := by
  by_cases hw : Word P.list π.reverse
  · rw [h.word π hw]
    simpa using hw
  · rw [h.other π hw]
    simpa using hw

theorem Recorded.walk {a : Nat} (ha : a < text.length) (map : UInt16 → Option Nat) :
    Recorded P.list text (V ++ [a]) (root.matchCurrentNode text a map (a + 1)).2 := by
  refine ⟨matchCurrentNode_ok text a map (a + 1) h.ok, fun π hw => ?_, fun π hw => ?_⟩
  · rw [dataAt_matchCurrentNode, h.word π hw, Option.map_some, recordAt_recorded ha]
  · rw [dataAt_matchCurrentNode, h.other π hw, Option.map_none]

/-- The walk falls off the trie, seen on the patterns. -/
theorem Recorded.falls_iff {a : Nat} (ha : a < text.length) :
    Falls text (a + 1) root ↔ FallsOff P.list text a := by
  have hproper : ∀ w : JString, (∃ d, Word P.list (d :: w)) ↔
      ∃ p ∈ P.list, w <:+ p ∧ w.length < p.length := by
    intro w
    constructor
    · intro hx
      obtain ⟨d, p, hp, hs⟩ := hx
      have hle := hs.length_le
      exact ⟨p, hp, (List.suffix_cons d w).trans hs, by rwa [List.length_cons] at hle⟩
    · intro hx
      obtain ⟨p, hp, ⟨t, rfl⟩, hlt⟩ := hx
      have ht : t ≠ [] := fun ht => by simp [ht] at hlt
      obtain ⟨t', d, rfl⟩ := (List.eq_nil_or_concat' t).resolve_left ht
      exact ⟨d, _, hp, t', by simp⟩
  have hrev : ∀ (π : JString) (c : UInt16), (π ++ [c]).reverse = c :: π.reverse := by simp
  unfold Falls FallsOff
  constructor
  · intro hx
    obtain ⟨π, c, hr, ⟨d, hd⟩, hc⟩ := hx
    rw [reads_iff_endsAt ha, hrev] at hr
    rw [h.dataAt_ne_none, hrev] at hd
    refine ⟨c, π.reverse, hr, (hproper _).1 ⟨d, hd⟩, fun hw => ?_⟩
    rw [← hrev, ← h.dataAt_ne_none] at hw
    exact hw hc
  · intro hx
    obtain ⟨c, w, he, hp, hw⟩ := hx
    obtain ⟨d, hd⟩ := (hproper w).2 hp
    obtain ⟨π, rfl⟩ : ∃ π : JString, w = π.reverse := ⟨w.reverse, by simp⟩
    refine ⟨π, c, ?_, ⟨d, ?_⟩, ?_⟩
    · rwa [reads_iff_endsAt ha, hrev]
    · rwa [h.dataAt_ne_none, hrev]
    · by_contra hne
      rw [← ne_eq, h.dataAt_ne_none, hrev] at hne
      exact hw hne

end

end BmTrie
