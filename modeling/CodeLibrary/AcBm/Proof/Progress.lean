import CodeLibrary.AcBm.Proof.Tables

/-!
# When the searches of `ac_bm.c` make progress

For patterns of any flags: every round of the outer loop that does not return lowers `base_index`,
unless it starts at a base index that is `Stuck` (`shiftAt_pos_iff`). So a search makes progress on
every round and returns exactly when no such round of it starts at one
(`search_progresses_iff`).

The inner loop is deterministic: it stops where the text leaves the tree (`walk_stop`,
`follow_stop_unique`).
-/

namespace AcBm

/-- Every round that goes on lowers `base_index`, and the search returns. -/
def Progresses {α : Type} (step : Int × List α → (Int × List α) ⊕ Option (List α))
    (start : Int × List α) : Prop :=
  (∀ s s', Loop.Visits step start s → step s = .inl s' → s'.1 < s.1) ∧
    ∃ r, Loop.Returns step start (some r)

/-- No round that goes on starts at a base index that is stuck. -/
def NeverStuck {α : Type} (pats : List PatternData) (text : List UInt8)
    (step : Int × List α → (Int × List α) ⊕ Option (List α)) (start : Int × List α) : Prop :=
  ∀ s s', Loop.Visits step start s → step s = .inl s' → ¬ Stuck pats text s.1.toNat

/-! ## The inner loop -/

section
variable {α : Type} {t : PatternTree} {nmaxIndex : Nat} {entry : PatternTreeNode → α}

/-- Where the inner loop stops: at the node of the bytes read, before a byte without a slot or at
the end of the text. -/
theorem walk_stop : ∀ {rest : List UInt8} {node cur : Nat} {matched : List α} {node' cur' : Nat}
    {matched' : List α}, walk t nmaxIndex entry node cur matched rest = .stop node' cur' matched' →
    ∃ k, cur' = cur + k ∧ k ≤ rest.length ∧ follow t.nodes node (rest.take k) = some node' ∧
      ∀ c, rest[k]? = some c → (t.nodes.node node').childs c = none
  | [], node, cur, matched, node', cur', matched', h => by
    simp only [walk, Walk.stop.injEq] at h
    obtain ⟨rfl, rfl, -⟩ := h
    exact ⟨0, rfl, le_refl _, rfl, by simp⟩
  | c :: rest, node, cur, matched, node', cur', matched', h => by
    rw [walk] at h
    split at h
    · rename_i hc
      cases h
      refine ⟨0, rfl, by simp, rfl, fun c' hc' => ?_⟩
      simp only [List.getElem?_cons_zero, Option.some.injEq] at hc'
      rw [← hc', hc]
    · rename_i child hc
      have key : ∀ {m : List α}, walk t nmaxIndex entry child (cur + 1) m rest =
          .stop node' cur' matched' → ∃ k, cur' = cur + k ∧ k ≤ (c :: rest).length ∧
            follow t.nodes node ((c :: rest).take k) = some node' ∧
            ∀ c', (c :: rest)[k]? = some c' → (t.nodes.node node').childs c' = none := by
        intro m hm
        obtain ⟨k, hk, hkl, hf, hn⟩ := walk_stop hm
        refine ⟨k + 1, by omega, by simpa using hkl, ?_, by simpa using hn⟩
        rw [List.take_succ_cons, follow, hc]
        exact hf
      split at h
      · dsimp only at h
        split at h
        · cases h
        · exact key h
      · exact key h

end

theorem follow_take_succ (ns : Nodes) (p : Nat) {s : List UInt8} {k : Nat} {c : UInt8}
    (hc : s[k]? = some c) :
    follow ns p (s.take (k + 1)) = (follow ns p (s.take k)).bind fun q => (ns.node q).childs c := by
  rw [List.take_add_one, hc]
  exact follow_snoc ns _ c p

/-- A prefix of a path in the tree is one. -/
theorem follow_take_isSome {ns : Nodes} {p : Nat} {s : List UInt8} {k j : Nat} (hk : k ≤ j)
    (h : (follow ns p (s.take j)).isSome = true) : (follow ns p (s.take k)).isSome = true := by
  have hsplit : s.take j = s.take k ++ (s.take j).drop k := by
    conv => lhs; rw [← List.take_append_drop k (s.take j), List.take_take, Nat.min_eq_left hk]
  rw [hsplit, follow_append] at h
  cases hf : follow ns p (s.take k) with
  | none => rw [hf] at h; cases h
  | some q => rfl

/-- A text leaves the tree at one place. -/
theorem follow_stop_unique {ns : Nodes} {p : Nat} {s : List UInt8} {k k' n n' : Nat}
    (h1 : follow ns p (s.take k) = some n) (hk : k ≤ s.length)
    (h2 : ∀ c, s[k]? = some c → (ns.node n).childs c = none)
    (h1' : follow ns p (s.take k') = some n') (hk' : k' ≤ s.length)
    (h2' : ∀ c, s[k']? = some c → (ns.node n').childs c = none) : k = k' := by
  have key : ∀ {a b m m'}, follow ns p (s.take a) = some m →
      (∀ c, s[a]? = some c → (ns.node m).childs c = none) →
      follow ns p (s.take b) = some m' → b ≤ s.length → ¬ a < b := by
    intro a b m m' ha hn hb hbl hlt
    have hget : s[a]? = some s[a] := List.getElem?_eq_getElem (by omega)
    have := follow_take_isSome (k := a + 1) (j := b) (by omega) (by rw [hb]; rfl)
    rw [follow_take_succ ns p hget, ha, Option.bind_some, hn _ hget] at this
    cases this
  have := key h1 h2 h1' hk'
  have := key h1' h2' h1 hk
  omega

/-! ## The outer loop -/

/-- Rounds keep `base_index` where the source can go on, and never follow a `NULL` pointer. -/
theorem shiftAt_isSome {t : PatternTree} (h : TreeInv t.nodes) (text : List UInt8)
    (base node cur : Nat) : ∃ s, shiftAt t text base node cur = some s := by
  unfold shiftAt
  split
  · rename_i hn
    obtain ⟨m, hm⟩ := h.oneChild hn
    rw [hm]
    exact ⟨_, rfl⟩
  · exact ⟨1, rfl⟩

/-- What being stuck means at the node where the walk stopped. -/
theorem stuck_iff_of_stop {pats : List PatternData} {text : List UInt8} {base k node : Nat}
    (hk : k ≤ (text.drop base).length)
    (hf : follow (acbmInit pats).nodes 0 ((text.drop base).take k) = some node)
    (hstop : ∀ c, (text.drop base)[k]? = some c →
      ((acbmInit pats).nodes.node node).childs c = none) :
    Stuck pats text base ↔ ∃ c, (text.drop base)[k]? = some c ∧ ∃ child,
      ((acbmInit pats).nodes.node node).childs ((acbmInit pats).nodes.node node).oneChild =
        some child ∧
      Hidden (acbmInit pats).nodes child ∧ NearByte (acbmInit pats).caseSen0 pats k c := by
  constructor
  · intro hx
    obtain ⟨k', c, node', child, hf', hc, hn, ho, hh, hnear⟩ := hx
    have hk' : k' < (text.drop base).length := (List.getElem?_eq_some_iff.1 hc).1
    have hkk := follow_stop_unique hf hk hstop hf' (le_of_lt hk') fun c' hc' => by
      rw [hc] at hc'
      cases hc'
      exact hn
    subst hkk
    rw [hf] at hf'
    cases hf'
    exact ⟨c, hc, child, ho, hh, hnear⟩
  · intro hx
    obtain ⟨c, hc, child, ho, hh, hnear⟩ := hx
    exact ⟨k, c, node, child, hf, hc, hstop c hc, ho, hh, hnear⟩

section
variable {pats : List PatternData} (hs : ∀ pat ∈ pats, pat.Sized) (hne : pats ≠ [])
include hs hne

/-- The good-suffix shift of a child is not negative, and zero just where it is hidden. -/
theorem gsShift_child_pos_iff {path : List UInt8} {c : UInt8} {node child : Nat}
    (hf : follow (acbmInit pats).nodes 0 path = some node)
    (hchild : ((acbmInit pats).nodes.node node).childs c = some child) :
    0 ≤ ((acbmInit pats).nodes.node child).gsShift ∧
      (0 < ((acbmInit pats).nodes.node child).gsShift ↔ ¬ Hidden (acbmInit pats).nodes child) := by
  have hfc : follow (acbmInit pats).nodes 0 (path ++ [c]) = some child := by
    rw [follow_snoc, hf]
    exact hchild
  obtain ⟨hpos, hzero⟩ := acbmInit_gs (minPatternSize_pos hs hne) hfc
    (Nat.pos_of_ne_zero ((acbmInit_inv pats).ne_root hchild))
  by_cases hh : Hidden (acbmInit pats).nodes child
  · have h0 := hzero hh
    exact ⟨le_of_eq h0.symm, fun hlt => absurd h0 (ne_of_gt hlt), fun hn => absurd hh hn⟩
  · have h1 := hpos hh
    exact ⟨le_of_lt h1, fun _ => hh, fun _ => h1⟩

/-- **The shift of a round is positive** unless the base index is stuck; it is never negative. -/
theorem shiftAt_pos_iff {text : List UInt8} {base k node : Nat} {s : Int}
    (hk : k ≤ (text.drop base).length)
    (hf : follow (acbmInit pats).nodes 0 ((text.drop base).take k) = some node)
    (hstop : ∀ c, (text.drop base)[k]? = some c →
      ((acbmInit pats).nodes.node node).childs c = none)
    (h : shiftAt (acbmInit pats) text base node (base + k) = some s) :
    0 ≤ s ∧ (0 < s ↔ ¬ Stuck pats text base) := by
  have hI := acbmInit_inv pats
  rw [stuck_iff_of_stop hk hf hstop]
  unfold shiftAt at h
  by_cases hn : 0 < ((acbmInit pats).nodes.node node).nchild
  · rw [if_pos hn] at h
    obtain ⟨child, hchild⟩ := hI.oneChild hn
    rw [hchild] at h ⊢
    dsimp only at h
    obtain ⟨hgs, hgs'⟩ := gsShift_child_pos_iff hs hne hf hchild
    simp only [Option.some.injEq, exists_eq_left']
    by_cases hlt : base + k < text.length
    · rw [dif_pos hlt, Option.some.injEq] at h
      have hget : (text.drop base)[k]? = some text[base + k] := by
        rw [List.getElem?_drop, List.getElem?_eq_getElem hlt]
      have hbc := bcShift_le_iff hs hne text[base + k] k
      simp only [hget, Option.some.injEq, exists_eq_left']
      rw [← hbc, not_and_or, ← hgs']
      subst h
      push_cast
      split <;> omega
    · -- at the end of the text the shift is at least 1
      rw [dif_neg hlt, Option.some.injEq] at h
      have hget : (text.drop base)[k]? = none := by
        rw [List.getElem?_drop, List.getElem?_eq_none (by omega)]
      simp only [hget, reduceCtorEq, false_and, exists_false, not_false_eq_true, iff_true]
      subst h
      split <;> omega
  · -- a node without children has no `one_child`
    rw [if_neg hn, Option.some.injEq] at h
    have hnot : ¬ ∃ c, (text.drop base)[k]? = some c ∧ ∃ child,
        ((acbmInit pats).nodes.node node).childs ((acbmInit pats).nodes.node node).oneChild =
          some child ∧ Hidden (acbmInit pats).nodes child ∧
        NearByte (acbmInit pats).caseSen0 pats k c := by
      intro hx
      obtain ⟨c, -, child, hc, -⟩ := hx
      exact hn (hI.nchild hc)
    simp only [hnot, not_false_eq_true, iff_true]
    omega

/-- A round that goes on: its base index, and the shift. -/
theorem scanStep_next {α : Type} {text : List UInt8} {nmaxIndex : Nat}
    {entry : Nat → PatternTreeNode → α} {s s' : Int × List α}
    (h : scanStep (acbmInit pats) text nmaxIndex entry s = .inl s') (hlen : s.1 ≤ text.length) :
    0 ≤ s.1 ∧ s'.1 ≤ s.1 ∧ (s'.1 < s.1 ↔ ¬ Stuck pats text s.1.toNat) := by
  obtain ⟨baseIndex, matched⟩ := s
  unfold scanStep at h
  dsimp only at h hlen ⊢
  split at h
  · rename_i h0
    split at h
    · cases h
    · rename_i node cur matched' hw
      split at h
      · cases h
      · rename_i realShift hshift
        cases h
        obtain ⟨k, rfl, hk, hf, hstop⟩ := walk_stop hw
        have := shiftAt_pos_iff hs hne hk hf hstop hshift
        refine ⟨h0, by dsimp only; omega, ?_⟩
        rw [← this.2]
        dsimp only
        omega
  · cases h

/-- **A search makes progress** on every round that goes on and returns, exactly when none of
those rounds starts at a stuck base index. -/
theorem scan_progresses_iff {α : Type} (text : List UInt8) (nmaxIndex : Nat)
    (entry : Nat → PatternTreeNode → α) :
    Progresses (scanStep (acbmInit pats) text nmaxIndex entry)
        (searchStart (acbmInit pats) text) ↔
      NeverStuck pats text (scanStep (acbmInit pats) text nmaxIndex entry)
        (searchStart (acbmInit pats) text) := by
  -- `base_index` never grows, so it stays within the text
  have hlen : ∀ s, Loop.Visits (scanStep (acbmInit pats) text nmaxIndex entry)
      (searchStart (acbmInit pats) text) s → s.1 ≤ text.length := fun s hv =>
    hv.invariant (I := fun (s : Int × List α) => s.1 ≤ (text.length : Int))
      (by simp only [searchStart]; omega) fun a b ha hab =>
        le_trans (scanStep_next hs hne hab ha).2.1 ha
  have hnext := fun {s s'} (hv : Loop.Visits _ _ s)
    (h : scanStep (acbmInit pats) text nmaxIndex entry s = .inl s') =>
      scanStep_next hs hne h (hlen s hv)
  constructor
  · rintro ⟨hdown, -⟩ s s' hv h
    exact (hnext hv h).2.2.1 (hdown s s' hv h)
  · intro hnever
    refine ⟨fun s s' hv h => (hnext hv h).2.2.2 (hnever s s' hv h), ?_⟩
    obtain ⟨r, hr⟩ := Loop.returns_of_variant
      (I := fun s => Loop.Visits (scanStep (acbmInit pats) text nmaxIndex entry)
        (searchStart (acbmInit pats) text) s)
      (fun s => (s.1 + 1).toNat) (fun a b ha hab => by
        have h1 := hnext ha hab
        have h2 := h1.2.2.2 (hnever a b ha hab)
        exact ⟨ha.tail hab, by omega⟩) .refl
    -- it does not leave by a `NULL` pointer
    have hsome : r ≠ none := hr.post (I := fun _ => True) (Q := fun r => r ≠ none) trivial
      (fun _ _ _ _ => trivial) fun a q _ hq => by
        rintro rfl
        unfold scanStep at hq
        dsimp only at hq
        split at hq
        · split at hq
          · cases hq
          · split at hq
            · rename_i hnone
              obtain ⟨s, hs'⟩ := shiftAt_isSome (acbmInit_inv pats) text a.1.toNat _ _
              rw [hs'] at hnone
              cases hnone
            · cases hq
        · cases hq
    cases r with
    | none => exact absurd rfl hsome
    | some r => exact ⟨r, hr⟩

end

/-- **`acbm_search_ex` and `acbm_search` terminate** with `base_index` going down on every round
that does not return, exactly when none of these rounds starts at a stuck base index. -/
theorem search_progresses_iff {pats : List PatternData} (hne : pats ≠ [])
    (hs : ∀ pat ∈ pats, pat.Sized) (text : List UInt8) (nmaxIndex : Nat) :
    (Progresses (searchStepEx (acbmInit pats) text nmaxIndex)
        (searchStart (acbmInit pats) text) ↔
      NeverStuck pats text (searchStepEx (acbmInit pats) text nmaxIndex)
        (searchStart (acbmInit pats) text)) ∧
    (Progresses (searchStep (acbmInit pats) text nmaxIndex) (searchStart (acbmInit pats) text) ↔
      NeverStuck pats text (searchStep (acbmInit pats) text nmaxIndex)
        (searchStart (acbmInit pats) text)) :=
  ⟨scan_progresses_iff hs hne text nmaxIndex _, scan_progresses_iff hs hne text nmaxIndex _⟩

/-- The pattern `"ABC"`, where the case counts. -/
def patABC : PatternData := ⟨"ABC".asciiBytes, true⟩

/-- `"ABC"` and the text `"ABB"`: the only base index is stuck. -/
theorem search_progresses_iff_abb :
    (Progresses (searchStepEx (acbmInit [patABC]) "ABB".asciiBytes 1)
        (searchStart (acbmInit [patABC]) "ABB".asciiBytes) ↔
      NeverStuck [patABC] "ABB".asciiBytes
        (searchStepEx (acbmInit [patABC]) "ABB".asciiBytes 1)
        (searchStart (acbmInit [patABC]) "ABB".asciiBytes)) ∧
    (Progresses (searchStep (acbmInit [patABC]) "ABB".asciiBytes 1)
        (searchStart (acbmInit [patABC]) "ABB".asciiBytes) ↔
      NeverStuck [patABC] "ABB".asciiBytes
        (searchStep (acbmInit [patABC]) "ABB".asciiBytes 1)
        (searchStart (acbmInit [patABC]) "ABB".asciiBytes)) :=
  search_progresses_iff (by decide) (by decide) _ _

/-- The search for `"ABC"` in `"ABB"` stays at base index 0 and never returns. -/
theorem search_abb_stays :
    ¬ Progresses (searchStepEx (acbmInit [patABC]) "ABB".asciiBytes 1)
        (searchStart (acbmInit [patABC]) "ABB".asciiBytes) ∧
      ∀ r, ¬ Loop.Returns (searchStepEx (acbmInit [patABC]) "ABB".asciiBytes 1)
        (searchStart (acbmInit [patABC]) "ABB".asciiBytes) r := by
  have hstart : (searchStart (acbmInit [patABC]) "ABB".asciiBytes : Int × List MatchedInfo) =
      (0, []) := by decide +kernel
  have hstep : searchStepEx (acbmInit [patABC]) "ABB".asciiBytes 1 (0, []) = .inl (0, []) := by
    decide +kernel
  rw [hstart]
  refine ⟨fun h => absurd (h.1 _ _ .refl hstep) (lt_irrefl _), fun r => ?_⟩
  exact Loop.not_returns_of_trap (T := fun s => s = (0, []))
    (by rintro _ rfl; exact ⟨_, hstep, rfl⟩) rfl

end AcBm
