import CodeLibrary.AcBm.Steps
import CodeLibrary.AcBm.Proof.Progress

/-!
# The searches of `ac_bm.c` make no access outside what they are given

* `shiftBase_eq`: the end of a round of the checked search is that of the search, or a fault where
  the latter would follow a `NULL` pointer.
* `StepInv`: where the checked search stands. A step keeps it and never faults (`StepInv.step`).
* `walk_ends`, `scanStep_round`: the inner loop and a round of the search, in the steps of the
  checked one; so both return the same (`checked_returns_iff`).
* `search_safe`: for patterns of any flags, no step faults and at most `nmax_index` entries are
  written.
-/

namespace AcBm

/-! ## Accesses -/

theorem readText_of_lt {text : List UInt8} {i : Int} (h0 : 0 ≤ i) (h : i < text.length) :
    ∃ c, text[i.toNat]? = some c ∧ readText text i = .ok c := by
  have hlt : i.toNat < text.length := by omega
  refine ⟨text[i.toNat], List.getElem?_eq_getElem hlt, ?_⟩
  rw [readText, if_pos h0, List.getElem?_eq_getElem hlt]

theorem writeEntry_of_lt {α : Type} {nmaxIndex : Nat} {matched : List α}
    (h : matched.length < nmaxIndex) (item : α) :
    writeEntry nmaxIndex matched item = .ok (matched ++ [item]) :=
  if_pos h

/-- The bad-character term of `shiftAt`. -/
theorem readBcShift_eq (t : PatternTree) (text : List UInt8) {base cur : Int} (h0 : 0 ≤ base)
    (h1 : 0 ≤ cur) :
    readBcShift t text base cur = .ok (if h : cur.toNat < text.length then
      t.bcShift text[cur.toNat] + base.toNat - cur.toNat else 1) := by
  unfold readBcShift
  by_cases h : cur < text.length
  · have hlt : cur.toNat < text.length := by omega
    obtain ⟨c, hc, hread⟩ := readText_of_lt h1 h
    rw [List.getElem?_eq_getElem hlt] at hc
    cases hc
    rw [if_pos h, dif_pos hlt, hread]
    show Except.ok _ = Except.ok _
    congr 1
    omega
  · rw [if_neg h, dif_neg (by omega)]
    rfl

/-- The end of a round is that of `scanStep`. -/
theorem shiftBase_eq {α : Type} (t : PatternTree) (text : List UInt8) {base cur : Int}
    (h0 : 0 ≤ base) (h1 : 0 ≤ cur) (node : Nat) (matched : List α) :
    shiftBase t text base node cur matched =
      match shiftAt t text base.toNat node cur.toNat with
      | none => .error .null
      | some realShift => .ok (.inl (.outer (base - realShift) matched)) := by
  unfold shiftBase shiftAt
  by_cases hn : 0 < (t.nodes.node node).nchild
  · rw [if_pos hn, if_pos hn]
    cases hc : (t.nodes.node node).childs (t.nodes.node node).oneChild with
    | none => rfl
    | some child =>
      rw [readBcShift_eq t text h0 h1]
      rfl
  · rw [if_neg hn, if_neg hn]
    rfl

/-! ## A step inside the text -/

/-- A step of the inner loop inside the text: no fault but that of a missing `one_child`. -/
theorem innerStep_eq {α : Type} (t : PatternTree) (entry : Nat → PatternTreeNode → α)
    (base : Int) {text : List UInt8} {nmaxIndex : Nat} {cur : Int} (h1 : 0 ≤ cur)
    (hcur : cur < text.length) {matched : List α} (hroom : matched.length < nmaxIndex)
    (node : Nat) :
    ∃ c, text[cur.toNat]? = some c ∧
      innerStep t text nmaxIndex entry base node cur matched =
        match (t.nodes.node node).childs c with
        | none => shiftBase t text base node cur matched
        | some child =>
          if 0 ≤ (t.nodes.node child).label then
            if matched.length + 1 = nmaxIndex then
              .ok (.inr (matched ++ [entry base.toNat (t.nodes.node child)]))
            else enterChild t text base child cur
              (matched ++ [entry base.toNat (t.nodes.node child)])
          else enterChild t text base child cur matched := by
  obtain ⟨c, hc, hread⟩ := readText_of_lt h1 hcur
  refine ⟨c, hc, ?_⟩
  unfold innerStep
  rw [hread]
  simp only [writeEntry_of_lt hroom]
  show (match (t.nodes.node node).childs c with
    | none => _
    | some child => _) = _
  cases (t.nodes.node node).childs c with
  | none => rfl
  | some child =>
    dsimp only
    split
    · show (if (matched ++ [_]).length = nmaxIndex then _ else _) = _
      rw [List.length_append, List.length_singleton]
      rfl
    · rfl

/-! ## No step faults -/

/-- Where the checked search stands. -/
def StepInv {α : Type} (pats : List PatternData) (text : List UInt8) (nmaxIndex : Nat) :
    At α → Prop
  | .outer base matched => base < text.length ∧ matched.length < nmaxIndex
  | .inner base node cur matched =>
    matched.length < nmaxIndex ∧ 0 ≤ base ∧ cur < text.length ∧ ∃ k : Nat, cur = base + k ∧
      follow (acbmInit pats).nodes 0 ((text.drop base.toNat).take k) = some node

section
variable {pats : List PatternData} (hne : pats ≠ []) (hs : ∀ pat ∈ pats, pat.Sized)
  {α : Type} {text : List UInt8} {nmaxIndex : Nat}
include hne hs

/-- A round ends without a fault, and does not raise `base_index`. -/
theorem shiftBase_safe {base : Int} (h0 : 0 ≤ base) {k node : Nat}
    (hk : k ≤ (text.drop base.toNat).length)
    (hf : follow (acbmInit pats).nodes 0 ((text.drop base.toNat).take k) = some node)
    (hstop : ∀ c, (text.drop base.toNat)[k]? = some c →
      ((acbmInit pats).nodes.node node).childs c = none) (matched : List α) :
    ∃ base' ≤ base, shiftBase (acbmInit pats) text base node (base + k) matched =
      .ok (.inl (.outer base' matched)) := by
  rw [shiftBase_eq _ _ h0 (by omega), show (base + k).toNat = base.toNat + k by omega]
  obtain ⟨s, hshift⟩ := shiftAt_isSome (acbmInit_inv pats) text base.toNat node (base.toNat + k)
  have hpos := (shiftAt_pos_iff hs hne hk hf hstop hshift).1
  rw [hshift]
  exact ⟨base - s, by omega, rfl⟩

/-- The step into a child ends without a fault. -/
theorem enterChild_safe {base : Int} (h0 : 0 ≤ base) {k child : Nat}
    (hcur : base + k < text.length)
    (hf : follow (acbmInit pats).nodes 0 ((text.drop base.toNat).take (k + 1)) = some child)
    {matched : List α} (hroom : matched.length < nmaxIndex) :
    ∃ s, enterChild (acbmInit pats) text base child (base + k) matched = .ok (.inl s) ∧
      StepInv pats text nmaxIndex s := by
  unfold enterChild
  split
  · -- the end of the text
    have hlen : k + 1 = (text.drop base.toNat).length := by
      rw [List.length_drop]
      omega
    obtain ⟨base', hle, h⟩ := shiftBase_safe hne hs h0 (le_of_eq hlen) hf (fun c hc => by
      rw [List.getElem?_eq_none (by omega)] at hc
      cases hc) matched
    rw [Nat.cast_add, Nat.cast_one, ← add_assoc] at h
    exact ⟨.outer base' matched, h, by omega, hroom⟩
  · rename_i hlt
    exact ⟨.inner base child (base + k + 1) matched, rfl, hroom, h0, by omega, k + 1,
      by push_cast; omega, hf⟩

/-- **A step is safe**: it keeps `StepInv`, or returns with room for what it wrote. -/
theorem StepInv.step (entry : Nat → PatternTreeNode → α) (s : At α)
    (h : StepInv pats text nmaxIndex s) : Sum.elim (StepInv pats text nmaxIndex)
      (fun r => ∃ r', r = .ok r' ∧ r'.length ≤ nmaxIndex)
      (checkedStep (acbmInit pats) text nmaxIndex entry s) := by
  cases s with
  | outer base matched =>
    obtain ⟨hlen, hroom⟩ := h
    rw [checkedStep]
    split
    · rename_i h0
      exact ⟨hroom, h0, hlen, 0, by simp, rfl⟩
    · exact ⟨_, rfl, le_of_lt hroom⟩
  | inner base node cur matched =>
    obtain ⟨hroom, h0, hcur, k, rfl, hf⟩ := h
    obtain ⟨c, hc, hinner⟩ := innerStep_eq (acbmInit pats) entry base (by omega) hcur
      hroom node
    have hget : (text.drop base.toNat)[k]? = some c := by
      rw [List.getElem?_drop, ← hc]
      congr 1
      omega
    rw [checkedStep, hinner]
    cases hchild : ((acbmInit pats).nodes.node node).childs c with
    | none =>
      have hk : k < (text.drop base.toNat).length := (List.getElem?_eq_some_iff.1 hget).1
      obtain ⟨base', hle, h⟩ := shiftBase_safe hne hs h0 (le_of_lt hk) hf (fun c' hc' => by
        rw [hget] at hc'
        cases hc'
        exact hchild) matched
      dsimp only
      rw [h]
      exact ⟨by omega, hroom⟩
    | some child =>
      have hfc : follow (acbmInit pats).nodes 0 ((text.drop base.toNat).take (k + 1)) =
          some child := by
        rw [follow_take_succ _ _ hget, hf]
        exact hchild
      have henter : ∀ m : List α, m.length < nmaxIndex → Sum.elim (StepInv pats text nmaxIndex)
          (fun r => ∃ r', r = .ok r' ∧ r'.length ≤ nmaxIndex)
          (orFault (enterChild (acbmInit pats) text base child (base + k) m)) := by
        intro m hm
        obtain ⟨s, hs', hinv⟩ := enterChild_safe hne hs h0 hcur hfc hm
        rw [hs']
        exact hinv
      dsimp only
      split
      · split
        · rename_i hfull
          exact ⟨_, rfl, by simp [hfull]⟩
        · rename_i hfull
          exact henter _ (by rw [List.length_append, List.length_singleton]; omega)
      · exact henter _ hroom

theorem StepInv.next (entry : Nat → PatternTreeNode → α) (s s' : At α)
    (h : StepInv pats text nmaxIndex s)
    (hnext : checkedStep (acbmInit pats) text nmaxIndex entry s = .inl s') :
    StepInv pats text nmaxIndex s' := by
  have := StepInv.step hne hs entry s h
  rw [hnext] at this
  exact this

end

/-! ## A round in steps -/

/-- The checked search at `s` does what the inner loop does: it returns, or comes to the step that
ends the round. -/
def Ends {α : Type} (t : PatternTree) (text : List UInt8) (nmaxIndex : Nat)
    (entry : Nat → PatternTreeNode → α) (base : Int) (s : At α) : Walk α → Prop
  | .ret matched => Loop.Returns (checkedStep t text nmaxIndex entry) s (.ok matched)
  | .stop node cur matched => ∃ s', Loop.Visits (checkedStep t text nmaxIndex entry) s s' ∧
      checkedStep t text nmaxIndex entry s' = orFault (shiftBase t text base node cur matched)

theorem Ends.head {α : Type} {t : PatternTree} {text : List UInt8} {nmaxIndex : Nat}
    {entry : Nat → PatternTreeNode → α} {base : Int} {s s' : At α}
    (hs : checkedStep t text nmaxIndex entry s = .inl s') :
    ∀ {w : Walk α}, Ends t text nmaxIndex entry base s' w → Ends t text nmaxIndex entry base s w
  | .ret _, h => .next hs h
  | .stop _ _ _, h => by
    obtain ⟨s1, hv, hlast⟩ := h
    exact ⟨s1, .head hs hv, hlast⟩

/-- The inner loop in steps. -/
theorem walk_ends {α : Type} (t : PatternTree) (text : List UInt8) {nmaxIndex : Nat}
    (entry : Nat → PatternTreeNode → α) (base : Int) : ∀ {rest : List UInt8} (node : Nat)
    {cur : Nat} {matched : List α}, text.drop cur = rest → rest ≠ [] →
    matched.length < nmaxIndex →
    Ends t text nmaxIndex entry base (.inner base node cur matched)
      (walk t nmaxIndex (entry base.toNat) node cur matched rest)
  | [], _, _, _, _, hne, _ => absurd rfl hne
  | c :: rest, node, cur, matched, hdrop, _, hroom => by
    have hlen := congrArg List.length hdrop
    rw [List.length_drop, List.length_cons] at hlen
    have hget : text[cur]? = some c := by
      rw [← Nat.add_zero cur, ← List.getElem?_drop, hdrop]
      rfl
    have hcur : (cur : Int) < text.length := by omega
    obtain ⟨c', hc', hinner⟩ := innerStep_eq t entry base (Int.natCast_nonneg cur) hcur hroom node
    rw [Int.toNat_natCast, hget] at hc'
    cases hc'
    have hstep : checkedStep t text nmaxIndex entry (.inner base node cur matched) =
        orFault (innerStep t text nmaxIndex entry base node cur matched) := rfl
    rw [hinner] at hstep
    rw [walk]
    cases hchild : (t.nodes.node node).childs c with
    | none =>
      rw [hchild] at hstep
      exact ⟨_, .refl, hstep⟩
    | some child =>
      rw [hchild] at hstep
      dsimp only at hstep ⊢
      -- the step into the child, and the rest of the loop
      have key : ∀ m : List α, m.length < nmaxIndex →
          checkedStep t text nmaxIndex entry (.inner base node cur matched) =
            orFault (enterChild t text base child cur m) →
          Ends t text nmaxIndex entry base (.inner base node cur matched)
            (walk t nmaxIndex (entry base.toNat) child (cur + 1) m rest) := by
        intro m hm henter
        by_cases hrest : rest = []
        · subst hrest
          rw [enterChild, if_pos (by rw [List.length_nil] at hlen; omega)] at henter
          exact ⟨_, .refl, henter⟩
        · have hpos := List.length_pos_of_ne_nil hrest
          rw [enterChild, if_neg (by omega)] at henter
          have hdrop' : text.drop (cur + 1) = rest := by
            rw [← List.drop_drop, hdrop]
            rfl
          exact (walk_ends t text entry base child hdrop' hrest hm).head henter
      by_cases hlabel : 0 ≤ (t.nodes.node child).label
      · rw [if_pos hlabel] at hstep
        rw [if_pos hlabel, List.length_append, List.length_singleton]
        by_cases hfull : matched.length + 1 = nmaxIndex
        · rw [if_pos hfull] at hstep
          rw [if_pos hfull]
          exact .done hstep
        · rw [if_neg hfull] at hstep
          rw [if_neg hfull]
          exact key _ (by rw [List.length_append, List.length_singleton]; omega) hstep
      · rw [if_neg hlabel] at hstep
        rw [if_neg hlabel]
        exact key _ hroom hstep

/-- The state before the condition of the outer loop. -/
def outerAt {α : Type} (s : Int × List α) : At α := .outer s.1 s.2

/-- A search that leaves through a `NULL` pointer has faulted. -/
def orNull {α : Type} : Option α → Except Fault α
  | some r => .ok r
  | none => .error .null

section
variable {pats : List PatternData} (hne : pats ≠ []) (hs : ∀ pat ∈ pats, pat.Sized)
  {α : Type} (text : List UInt8) {nmaxIndex : Nat} (hpos : 1 ≤ nmaxIndex)
  (entry : Nat → PatternTreeNode → α)
include hne hs hpos

theorem checkedStart_inv :
    StepInv pats text nmaxIndex (checkedStart (acbmInit pats) text : At α) := by
  have := minPatternSize_pos hs hne
  exact ⟨by omega, hpos⟩

omit hpos in
/-- A round of the search in steps of the checked one. -/
theorem scanStep_round (s : Int × List α) (h : StepInv pats text nmaxIndex (outerAt s)) :
    Loop.Round (checkedStep (acbmInit pats) text nmaxIndex entry)
      (fun s => StepInv pats text nmaxIndex (outerAt s)) outerAt orNull s
      (scanStep (acbmInit pats) text nmaxIndex entry s) := by
  obtain ⟨base, matched⟩ := s
  unfold scanStep
  dsimp only
  by_cases h0 : 0 ≤ base
  · have hfirst : checkedStep (acbmInit pats) text nmaxIndex entry (.outer base matched) =
        .inl (.inner base 0 base matched) := if_pos h0
    have hinv := StepInv.next hne hs entry _ _ h hfirst
    have hdrop : text.drop base.toNat ≠ [] := by
      intro hnil
      have := congrArg List.length hnil
      rw [List.length_drop, List.length_nil] at this
      have := h.1
      dsimp only at this
      omega
    have hends := walk_ends (acbmInit pats) text entry base 0 rfl hdrop h.2
    rw [Int.toNat_of_nonneg h0] at hends
    rw [if_pos h0]
    cases hw : walk (acbmInit pats) nmaxIndex (entry base.toNat) 0 base.toNat matched
        (text.drop base.toNat) with
    | ret m =>
      rw [hw] at hends
      exact .next hfirst hends
    | stop node cur m =>
      rw [hw] at hends
      obtain ⟨s', hv, hlast⟩ := hends
      rw [shiftBase_eq _ _ h0 (Int.natCast_nonneg cur), Int.toNat_natCast] at hlast
      cases hshift : shiftAt (acbmInit pats) text base.toNat node cur with
      | none =>
        rw [hshift] at hlast
        dsimp only
        rw [hshift]
        exact .next hfirst (.of_visits hv (.done hlast))
      | some realShift =>
        rw [hshift] at hlast
        have hall := hv.tail hlast
        dsimp only
        rw [hshift]
        exact ⟨Loop.Visits.invariant hall hinv (StepInv.next hne hs entry), _, hfirst, hall⟩
  · rw [if_neg h0]
    exact .done (if_neg h0)

/-- **The checked search is the search**: it returns what the search returns. -/
theorem checked_returns_iff (r : List α) :
    Loop.Returns (checkedStep (acbmInit pats) text nmaxIndex entry)
        (checkedStart (acbmInit pats) text) (.ok r) ↔
      Loop.Returns (scanStep (acbmInit pats) text nmaxIndex entry)
        (searchStart (acbmInit pats) text) (some r) := by
  have hstart : StepInv pats text nmaxIndex (outerAt (searchStart (acbmInit pats) text) : At α) :=
    checkedStart_inv hne hs text hpos
  refine (Loop.returns_iff_of_rounds (scanStep_round hne hs text entry) hstart).trans ?_
  constructor
  · intro hx
    obtain ⟨q, hq, hr⟩ := hx
    cases q with
    | none => cases hq
    | some q =>
      cases hq
      exact hr
  · intro hr
    exact ⟨some r, rfl, hr⟩

end

/-! ## Safety -/

/-- No step of the run faults, and no more than `nmax_index` entries are written. -/
def Safe {α : Type} (step : At α → At α ⊕ Except Fault (List α)) (start : At α)
    (nmaxIndex : Nat) : Prop :=
  (∀ s fault, Loop.Visits step start s → step s ≠ .inr (.error fault)) ∧
    (∀ s, Loop.Visits step start s → s.matched.length ≤ nmaxIndex) ∧
    ∀ r, Loop.Returns step start (.ok r) → r.length ≤ nmaxIndex

theorem checked_safe {pats : List PatternData} (hne : pats ≠ []) (hs : ∀ pat ∈ pats, pat.Sized)
    {α : Type} (text : List UInt8) {nmaxIndex : Nat} (hpos : 1 ≤ nmaxIndex)
    (entry : Nat → PatternTreeNode → α) :
    Safe (checkedStep (acbmInit pats) text nmaxIndex entry)
      (checkedStart (acbmInit pats) text) nmaxIndex := by
  obtain ⟨hinv, hret⟩ := Loop.invariant_rule (G := fun _ => True)
    (checkedStart_inv hne hs text hpos)
    (fun a ha _ => StepInv.step hne hs entry a ha) fun _ _ => trivial
  refine ⟨fun s fault hv hf => ?_, fun s hv => ?_, fun r hr => ?_⟩
  · have := StepInv.step hne hs entry s (hinv s hv)
    rw [hf] at this
    obtain ⟨r, hr, -⟩ := this
    cases hr
  · have := hinv s hv
    cases s with
    | outer base matched => exact le_of_lt this.2
    | inner base node cur matched => exact le_of_lt this.1
  · obtain ⟨r', hr', hle⟩ := hret _ hr
    cases hr'
    exact hle

/-- **`acbm_search_ex` and `acbm_search` are safe**: for patterns of any flags, no step indexes
the text outside its bytes, follows a `NULL` child or writes behind the output array; and the
steps return what the searches return. -/
theorem search_safe {pats : List PatternData} (hne : pats ≠ []) (hs : ∀ pat ∈ pats, pat.Sized)
    (text : List UInt8) {nmaxIndex : Nat} (hpos : 1 ≤ nmaxIndex) :
    (Safe (checkedEx (acbmInit pats) text nmaxIndex) (checkedStart (acbmInit pats) text)
        nmaxIndex ∧
      ∀ r, Loop.Returns (checkedEx (acbmInit pats) text nmaxIndex)
        (checkedStart (acbmInit pats) text) (.ok r) ↔
          AcbmSearchEx (acbmInit pats) text nmaxIndex r) ∧
    (Safe (checkedSearch (acbmInit pats) text nmaxIndex) (checkedStart (acbmInit pats) text)
        nmaxIndex ∧
      ∀ r, Loop.Returns (checkedSearch (acbmInit pats) text nmaxIndex)
        (checkedStart (acbmInit pats) text) (.ok r) ↔
          AcbmSearch (acbmInit pats) text nmaxIndex r) :=
  ⟨⟨checked_safe hne hs text hpos _, checked_returns_iff hne hs text hpos _⟩,
    checked_safe hne hs text hpos _, checked_returns_iff hne hs text hpos _⟩

/-- The pattern `"ABC"` and the text `"ABB"`. -/
theorem search_safe_abb :
    (Safe (checkedEx (acbmInit [patABC]) "ABB".asciiBytes 1)
        (checkedStart (acbmInit [patABC]) "ABB".asciiBytes) 1 ∧
      ∀ r, Loop.Returns (checkedEx (acbmInit [patABC]) "ABB".asciiBytes 1)
        (checkedStart (acbmInit [patABC]) "ABB".asciiBytes) (.ok r) ↔
          AcbmSearchEx (acbmInit [patABC]) "ABB".asciiBytes 1 r) ∧
    (Safe (checkedSearch (acbmInit [patABC]) "ABB".asciiBytes 1)
        (checkedStart (acbmInit [patABC]) "ABB".asciiBytes) 1 ∧
      ∀ r, Loop.Returns (checkedSearch (acbmInit [patABC]) "ABB".asciiBytes 1)
        (checkedStart (acbmInit [patABC]) "ABB".asciiBytes) (.ok r) ↔
          AcbmSearch (acbmInit [patABC]) "ABB".asciiBytes 1 r) :=
  search_safe (by decide) (by decide) _ (by decide)

end AcBm
