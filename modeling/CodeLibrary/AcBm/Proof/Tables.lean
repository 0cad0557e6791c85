import CodeLibrary.AcBm.Proof.Words

/-!
# Bounds from the shift tables

* `minPatternSize_le`, `minPatternSize_mem`: the length of a shortest pattern.
* `bcShift_le_iff`: `BCshift` of a byte is at most `k` where the byte is near (`NearByte`).
* `gsShift_le_min`, `gsShift_le_call`: a `GSshift` is at most the shortest length and the shift of
  every call for the node; it is one of these (`gsShift_mem`).
* `hidden_iff`: with one flag, the hidden nodes are those whose word starts with an `'A'..'Z'`
  byte, where the case counts.
-/

namespace AcBm

/-! ## The shortest pattern -/

theorem addPattern_min {b : Build} {i : Nat} {pat : PatternData} (hs : pat.Sized) :
    (addPattern b i pat).minPatternLen = min pat.len b.minPatternLen := by
  unfold addPattern
  rw [if_neg (by have := hs.1; omega)]
  dsimp only
  rw [Nat.min_eq_left hs.2]
  split <;> omega

theorem addPatterns_min : ∀ (pats : List PatternData) {b : Build} (i : Nat),
    (∀ pat ∈ pats, pat.Sized) → (addPatterns b i pats).minPatternLen ≤ b.minPatternLen ∧
      (∀ pat ∈ pats, (addPatterns b i pats).minPatternLen ≤ pat.len) ∧
      ((addPatterns b i pats).minPatternLen = b.minPatternLen ∨
        ∃ pat ∈ pats, pat.len = (addPatterns b i pats).minPatternLen)
  | [], b, i, _ => ⟨le_refl _, fun _ h => absurd h List.not_mem_nil, .inl rfl⟩
  | pat :: pats, b, i, hs => by
    obtain ⟨h1, h2, h3⟩ := addPatterns_min pats (b := addPattern b i pat) (i + 1)
      fun q hq => hs q (.tail _ hq)
    have hm := addPattern_min (b := b) (i := i) (hs pat (.head _))
    rw [addPatterns]
    refine ⟨by omega, fun q hq => ?_, ?_⟩
    · rcases List.mem_cons.1 hq with rfl | hq
      · omega
      · exact h2 q hq
    · rcases h3 with h3 | ⟨q, hq, h3⟩
      · rcases Nat.le_total pat.len b.minPatternLen with hle | hle
        · exact .inr ⟨pat, .head _, by omega⟩
        · exact .inl (by omega)
      · exact .inr ⟨q, .tail _ hq, h3⟩

section
variable {pats : List PatternData} (hs : ∀ pat ∈ pats, pat.Sized)
include hs

theorem minPatternSize_le {pat : PatternData} (hp : pat ∈ pats) :
    (acbmInit pats).minPatternSize ≤ pat.len :=
  (addPatterns_min pats (b := buildInit) 0 hs).2.1 pat hp

theorem minPatternSize_mem (hne : pats ≠ []) :
    ∃ pat ∈ pats, pat.len = (acbmInit pats).minPatternSize := by
  rcases (addPatterns_min pats (b := buildInit) 0 hs).2.2 with h | h
  · obtain ⟨pat, hp⟩ := List.exists_mem_of_ne_nil _ hne
    have h1 := minPatternSize_le hs hp
    have h2 := (hs pat hp).2
    have h3 : (acbmInit pats).minPatternSize = patternLen := h
    exact ⟨pat, hp, by omega⟩
  · exact h

theorem minPatternSize_pos (hne : pats ≠ []) : 0 < (acbmInit pats).minPatternSize := by
  obtain ⟨pat, hp, h⟩ := minPatternSize_mem hs hne
  have := (hs pat hp).1
  omega

end

/-! ## `BCshift` -/

theorem setBCshift_apply (cs0 : Bool) (bc : UInt8 → Int) (i : Nat) (ch0 c : UInt8) :
    setBCshift cs0 bc i ch0 c = if foldCh cs0 c = foldCh cs0 ch0 then (i : Int) else bc c := by
  cases cs0 with
  | true => by_cases h : c = ch0 <;> simp [setBCshift, h]
  | false =>
    have hiff := tolower_eq_iff (c := c) (isUpper_tolower ch0)
    by_cases hl : isLower (tolower ch0) = true
    · simp only [setBCshift, hl, foldCh_false, hiff, Bool.not_false, Bool.and_self, ↓reduceIte,
        Function.update_apply, true_and]
      by_cases h1 : c = tolower ch0 - 32
      · simp [h1]
      · by_cases h2 : c = tolower ch0 <;> simp [h1, h2]
    · simp [setBCshift, hl, hiff, Function.update_apply]

theorem foldl_setBCshift (cs0 : Bool) (i : Nat) (c : UInt8) : ∀ (pats : List PatternData)
    (bc : UInt8 → Int), (∀ pat ∈ pats, foldCh cs0 c ≠ foldCh cs0 (pat.data.getD i 0)) ∧
        pats.foldl (fun bc pat => setBCshift cs0 bc i (pat.data.getD i 0)) bc c = bc c ∨
      (∃ pat ∈ pats, foldCh cs0 c = foldCh cs0 (pat.data.getD i 0)) ∧
        pats.foldl (fun bc pat => setBCshift cs0 bc i (pat.data.getD i 0)) bc c = i
  | [], bc => .inl ⟨by simp, rfl⟩
  | pat :: pats, bc => by
    rw [List.foldl_cons]
    rcases foldl_setBCshift cs0 i c pats (setBCshift cs0 bc i (pat.data.getD i 0)) with
      ⟨h1, h2⟩ | ⟨⟨q, hq, hc⟩, h2⟩
    · rw [setBCshift_apply] at h2
      split at h2
      · rename_i hc
        exact .inr ⟨⟨pat, .head _, hc⟩, h2⟩
      · rename_i hc
        exact .inl ⟨by simpa using ⟨hc, h1⟩, h2⟩
    · exact .inr ⟨⟨q, .tail _ hq, hc⟩, h2⟩

/-- The entry of a byte: its least index from 1 to `n` in a pattern, or what it was. -/
theorem computeBCshifts_spec (cs0 : Bool) (pats : List PatternData) (c : UInt8) :
    ∀ (n : Nat) (bc : UInt8 → Int),
      (∀ i, 1 ≤ i → i ≤ n → (∃ pat ∈ pats, foldCh cs0 c = foldCh cs0 (pat.data.getD i 0)) →
        computeBCshifts cs0 pats n bc c ≤ i) ∧
      (computeBCshifts cs0 pats n bc c = bc c ∨
        ∃ i, 1 ≤ i ∧ i ≤ n ∧ (∃ pat ∈ pats, foldCh cs0 c = foldCh cs0 (pat.data.getD i 0)) ∧
          computeBCshifts cs0 pats n bc c = i)
  | 0, bc => ⟨fun i h1 h2 => by omega, .inl rfl⟩
  | n + 1, bc => by
    rw [computeBCshifts]
    obtain ⟨h1, h2⟩ := computeBCshifts_spec cs0 pats c n
      (pats.foldl (fun bc pat => setBCshift cs0 bc (n + 1) (pat.data.getD (n + 1) 0)) bc)
    have h3 := foldl_setBCshift cs0 (n + 1) c pats bc
    refine ⟨fun i hi hi' hp => ?_, ?_⟩
    · rcases Nat.lt_or_ge n i with hlt | hge
      · have hin : i = n + 1 := by omega
        subst hin
        rcases h3 with ⟨h3, -⟩ | ⟨-, h3⟩
        · obtain ⟨pat, hpat, hc⟩ := hp
          exact absurd hc (h3 pat hpat)
        · rcases h2 with h2 | ⟨j, -, hj, -, h2⟩ <;> omega
      · exact h1 i hi hge hp
    · rcases h2 with h2 | ⟨j, hj, hj', hp, h2⟩
      · rcases h3 with ⟨-, h3⟩ | ⟨hp, h3⟩
        · exact .inl (h2.trans h3)
        · exact .inr ⟨n + 1, by omega, le_refl _, hp, h2.trans h3⟩
      · exact .inr ⟨j, hj, by omega, hp, h2⟩

/-- **`BCshift` is at most `k`** for the bytes that are near. -/
theorem bcShift_le_iff {pats : List PatternData} (hs : ∀ pat ∈ pats, pat.Sized) (hne : pats ≠ [])
    (c : UInt8) (k : Nat) :
    (acbmInit pats).bcShift c ≤ k ↔ NearByte (acbmInit pats).caseSen0 pats k c := by
  have hmin := fun {pat} (hp : pat ∈ pats) => minPatternSize_le hs hp
  obtain ⟨h1, h2⟩ := computeBCshifts_spec (acbmInit pats).caseSen0 pats c
    ((acbmInit pats).minPatternSize - 1) (fun _ => (acbmInit pats).minPatternSize)
  have hbc : (acbmInit pats).bcShift c = computeBCshifts (acbmInit pats).caseSen0 pats
    ((acbmInit pats).minPatternSize - 1) (fun _ => (acbmInit pats).minPatternSize) c := rfl
  rw [← hbc] at h1 h2
  constructor
  · intro hle
    rcases h2 with h2 | ⟨i, hi, hi', ⟨pat, hp, hc⟩, h2⟩
    · obtain ⟨pat, hp, hpl⟩ := minPatternSize_mem hs hne
      exact .inl ⟨pat, hp, by omega⟩
    · have hl := hmin hp
      unfold PatternData.len at hl
      refine .inr ⟨pat, hp, i, pat.data.getD i 0, hi, by omega, ?_, hc.symm⟩
      rw [List.getD_eq_getElem?_getD, List.getElem?_eq_getElem (by omega)]
      rfl
  · intro hnear
    by_cases hk : (acbmInit pats).minPatternSize ≤ k
    · rcases h2 with h2 | ⟨i, -, hi, -, h2⟩ <;> omega
    · rcases hnear with ⟨pat, hp, hl⟩ | ⟨pat, hp, i, x, hi, hi', hx, hc⟩
      · have := hmin hp
        omega
      · have := h1 i hi (by omega) ⟨pat, hp, by
          rw [List.getD_eq_getElem?_getD, hx]
          exact hc.symm⟩
        omega

/-! ## `GSshift` -/

theorem gsShift_le_min {pats : List PatternData} (m : Nat) :
    ((acbmInit pats).nodes.node m).gsShift ≤ (acbmInit pats).minPatternSize := by
  obtain ⟨ns, calls, hpaint, hc, -⟩ := acbmInit_calls pats
  have hle := gs_lowerAll_le_init calls ((acTreeBuild_inv pats).same hpaint.same) m
  rw [hc]
  apply le_trans hle
  by_cases hS : Trav (acTreeBuild pats).nodes 0 m ∧ ((acTreeBuild pats).nodes.node m).label ≠ -2
  · rw [hpaint.on hS]
    exact le_refl _
  · rw [hpaint.off hS, acTreeBuild_zeroGs pats m]
    exact Int.natCast_nonneg _

/-- The shift of every call for a node bounds its `GSshift`. -/
theorem gsShift_le_call {pats : List PatternData} {p1 p2 : PatternData} (hp1 : p1 ∈ pats)
    (hp2 : p2 ∈ pats) {path : List UInt8} {s : Int} {m : Nat}
    (hg : GsCall (acbmInit pats).caseSen0 (acbmInit pats).minPatternSize p1.data p2.data path s)
    (hm : follow (acbmInit pats).nodes 0 path = some m) :
    ((acbmInit pats).nodes.node m).gsShift ≤ s := by
  obtain ⟨ns, calls, hpaint, hc, hmem⟩ := acbmInit_calls pats
  have hcall : (path, s) ∈ calls := (hmem path s).2 ⟨p1, hp1, p2, hp2, hg⟩
  have hfollow : follow ns 0 path = some m := by
    rw [follow_same (acbmInit_same pats)] at hm
    rw [follow_same hpaint.same]
    exact hm
  rw [hc]
  exact gs_lowerAll_le ((acTreeBuild_inv pats).same hpaint.same) hcall hfollow

/-- The `GSshift` of a node the traversal comes to is the shortest length or the shift of a call
for the node. -/
theorem gsShift_mem {pats : List PatternData} {m : Nat} {s : List UInt8}
    (hm : follow (acbmInit pats).nodes 0 s = some m) (h0 : 0 < m)
    (hh : ¬ Hidden (acbmInit pats).nodes m) :
    ((acbmInit pats).nodes.node m).gsShift = (acbmInit pats).minPatternSize ∨
      ∃ p1 ∈ pats, ∃ p2 ∈ pats, ∃ path, follow (acbmInit pats).nodes 0 path = some m ∧
        GsCall (acbmInit pats).caseSen0 (acbmInit pats).minPatternSize p1.data p2.data path
          ((acbmInit pats).nodes.node m).gsShift := by
  have h := acTreeBuild_inv pats
  have hsame := acbmInit_same pats
  obtain ⟨ns, calls, hpaint, hc, hmem⟩ := acbmInit_calls pats
  have ht : Trav (acTreeBuild pats).nodes 0 m :=
    ((trav_iff_not_hidden (acbmInit_inv pats) hm).2 hh).same hsame.symm
  rw [hc]
  rcases gs_lowerAll_mem calls (h.same hpaint.same) m with hgs | ⟨path, hpath, hcall⟩
  · rw [hpaint.on ⟨ht, h.label h0⟩] at hgs
    exact .inl hgs
  · obtain ⟨p1, hp1, p2, hp2, hg⟩ := (hmem _ _).1 hcall
    rw [follow_same hpaint.same, ← follow_same hsame, hc] at hpath
    exact .inr ⟨p1, hp1, p2, hp2, path, hpath, hg⟩

/-! ## The words of hidden nodes -/

/-- **With one flag**, a node is hidden where the case counts and its word starts with an
`'A'..'Z'` byte. -/
theorem hidden_iff {cs : Bool} {pats : List PatternData} {ns : Nodes} {words : List (List UInt8)}
    (h : Built cs pats ns words) {m : Nat} {w : List UInt8} (hm : words[m]? = some w) :
    Hidden ns m ↔ cs = true ∧ ∃ a, w.head? = some a ∧ isUpper a = true := by
  have hlt : ∀ {m w}, words[m]? = some w → m < ns.length := fun hm => by
    rw [← h.spells.len]
    exact (List.getElem?_eq_some_iff.1 hm).1
  constructor
  · intro hh
    induction hh generalizing w with
    | @slot n m c hc hn hu hch =>
      obtain ⟨v, hv, hm'⟩ := h.spells.slot.1 hc
      rw [hm, Option.some.injEq] at hm'
      have hflag := h.flag (Nat.pos_of_ne_zero (h.inv.ne_root hc)) (hlt hm)
      cases cs with
      | false =>
        -- a folded byte is no upper-case letter
        have := h.inv.folded hflag
        rw [hch, hu] at this
        cases this
      | true =>
        -- only the root has `case_sen` 0
        have hroot : n = 0 := by
          by_contra h0
          rw [h.flag (Nat.pos_of_ne_zero h0) (hlt hv)] at hn
          cases hn
        subst hroot
        rw [h.spells.root] at hv
        cases hv
        exact ⟨rfl, c, by rw [hm']; rfl, hu⟩
    | @under n m c hc hn ih =>
      obtain ⟨v, hv, hm'⟩ := h.spells.slot.1 hc
      rw [hm, Option.some.injEq] at hm'
      obtain ⟨hcs, a, ha, hu⟩ := ih hv
      refine ⟨hcs, a, ?_, hu⟩
      rw [hm', List.head?_append, ha]
      rfl
  · intro hx
    obtain ⟨rfl, a, ha, hu⟩ := hx
    induction w using List.reverseRecOn generalizing m with
    | nil => cases ha
    | append_singleton v c ih =>
      obtain ⟨n, hn⟩ := List.mem_iff_getElem?.1 (h.spells.closed (List.mem_of_getElem? hm))
      have hc : (ns.node n).childs c = some m := h.spells.slot.2 ⟨v, hn, hm⟩
      by_cases hv : v = []
      · subst hv
        simp only [List.nil_append, List.head?_cons, Option.some.injEq] at ha
        subst ha
        have h0 := h.spells.index_inj hn h.spells.root
        subst h0
        refine .slot hc h.inv.rootFlag hu ?_
        rcases h.inv.slot hc with hch | ⟨-, -, hf, -⟩
        · exact hch
        · rw [h.flag (Nat.pos_of_ne_zero (h.inv.ne_root hc)) (hlt hm)] at hf
          cases hf
      · refine .under hc (ih hn ?_)
        rw [List.head?_append_of_ne_nil _ hv] at ha
        exact ha

end AcBm
