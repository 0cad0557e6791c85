import CodeLibrary.AcBm.Proof.Skip

/-!
# What the searches of `ac_bm.c` report

For patterns of one flag:

* one walk records the pairs at its base index (`walk_spec`);
* a base index is `Stuck` exactly where it `Stalls` (`stuck_iff_stalls`);
* so a search that returns has written the first `nmax_index` occurrences exactly when no round
  starts at a base index where the scan stalls after it recorded something
  (`search_reports_iff`).
-/

namespace AcBm

/-! ## The walk -/

theorem hitsFrom_eq_nil {cs : Bool} {pats : List PatternData} {base : Nat} {w : List UInt8}
    {rest : List UInt8} (h : ∀ v, v ≠ [] → ∀ pat ∈ pats, foldAll cs pat.data ≠ w ++ v) :
    hitsFrom cs pats base w rest = [] := by
  unfold hitsFrom
  apply List.filterMap_eq_nil_iff.2
  intro k hk
  rw [List.mem_range] at hk
  have hv : foldAll cs (rest.take (k + 1)) ≠ [] := by
    intro he
    have := congrArg List.length he
    rw [foldAll_length, List.length_take, List.length_nil] at this
    omega
  rw [lastIndex?_eq_none.2 (h _ hv)]
  rfl

section
variable {cs : Bool} {pats : List PatternData} {t : PatternTree} {words : List (List UInt8)}
  (hb : Built cs pats t.nodes words)
include hb

/-- **One walk** from the node of `w` records the pairs whose pattern goes on from `w`, as many as
there is room for. -/
theorem walk_spec {nmaxIndex : Nat} (base : Nat) : ∀ (rest : List UInt8) {w : List UInt8}
    {node : Nat} (cur : Nat) {matched : List MatchedInfo}, words[node]? = some w →
    matched.length < nmaxIndex →
    match walk t nmaxIndex (fun n => ⟨n.label, base⟩) node cur matched rest with
    | .ret m => m = (matched ++ hitsFrom cs pats base w rest).take nmaxIndex ∧
        nmaxIndex ≤ (matched ++ hitsFrom cs pats base w rest).length
    | .stop _ _ m => m = matched ++ hitsFrom cs pats base w rest ∧ m.length < nmaxIndex
  | [], w, node, cur, matched, _, hlen => by
    simp only [walk, hitsFrom_nil, List.append_nil]
    exact ⟨trivial, hlen⟩
  | c :: rest, w, node, cur, matched, hw, hlen => by
    rw [walk]
    cases hc : (t.nodes.node node).childs c with
    | none =>
      -- no pattern begins with the bytes read
      have hnot := (hb.spells.slot_none hw).1 hc
      rw [hb.mem] at hnot
      have hnil : hitsFrom cs pats base w (c :: rest) = [] := by
        have hlong : ∀ v, ∀ pat ∈ pats, foldAll cs pat.data ≠ w ++ [foldCh cs c] ++ v :=
          fun v pat hp he => hnot (.inr ⟨pat, hp, he ▸ List.prefix_append _ _⟩)
        rw [hitsFrom_cons, lastIndex?_eq_none.2 fun pat hp => by simpa using hlong [] pat hp,
          hitsFrom_eq_nil fun v _ => hlong v]
        rfl
      simp only [hnil, List.append_nil]
      exact ⟨trivial, hlen⟩
    | some child =>
      dsimp only
      obtain ⟨v, hv, hchild⟩ := hb.spells.slot.1 hc
      rw [hw, Option.some.injEq] at hv
      subst hv
      have hlabel := hb.label hchild (by simp)
      have hrec := hitsFrom_cons cs pats base w c rest
      unfold labelOf at hlabel
      cases hl : lastIndex? cs pats (w ++ [foldCh cs c]) with
      | none =>
        rw [hl] at hlabel hrec
        rw [hlabel, if_neg (by decide), hrec]
        exact walk_spec base rest _ hchild hlen
      | some i =>
        rw [hl] at hlabel hrec
        simp only [Option.map_some, Option.toList_some, List.singleton_append] at hrec
        rw [hlabel, if_pos (Int.natCast_nonneg i), hrec]
        dsimp only
        have happ : matched ++ ⟨i, base⟩ :: hitsFrom cs pats base (w ++ [foldCh cs c]) rest =
            (matched ++ [⟨i, base⟩]) ++ hitsFrom cs pats base (w ++ [foldCh cs c]) rest := by simp
        rw [happ]
        by_cases hfull : (matched ++ [(⟨i, base⟩ : MatchedInfo)]).length = nmaxIndex
        · rw [if_pos hfull]
          refine ⟨?_, by rw [List.length_append]; omega⟩
          rw [List.take_append_of_le_length (by omega), List.take_of_length_le (by omega)]
        · rw [if_neg hfull]
          apply walk_spec base rest _ hchild
          rw [List.length_append, List.length_singleton] at hfull ⊢
          omega

end

/-- The walk of either search visits the same nodes. -/
theorem walk_map {α β : Type} {t : PatternTree} {nmaxIndex : Nat} {e : PatternTreeNode → α}
    {e' : PatternTreeNode → β} {f : α → β} (hf : ∀ n, f (e n) = e' n) :
    ∀ {rest : List UInt8} {node cur : Nat} {matched : List α},
    walk t nmaxIndex e' node cur (matched.map f) rest =
      match walk t nmaxIndex e node cur matched rest with
      | .ret m => .ret (m.map f)
      | .stop n c m => .stop n c (m.map f)
  | [], node, cur, matched => rfl
  | c :: rest, node, cur, matched => by
    rw [walk, walk]
    cases hc : (t.nodes.node node).childs c with
    | none => rfl
    | some child =>
      dsimp only
      have happ : matched.map f ++ [e' (t.nodes.node child)] =
          (matched ++ [e (t.nodes.node child)]).map f := by simp [hf]
      split
      · rw [happ, List.length_map]
        split
        · rfl
        · exact walk_map hf
      · exact walk_map hf

/-- **Both searches do the same**: `acbm_search` writes the labels of what `acbm_search_ex`
writes. -/
theorem acbmSearch_iff (t : PatternTree) (text : List UInt8) (nmaxIndex : Nat) (r' : List Int) :
    AcbmSearch t text nmaxIndex r' ↔
      ∃ r, AcbmSearchEx t text nmaxIndex r ∧ r' = r.map MatchedInfo.patternI := by
  -- the states of the two loops in lock step
  have hstep : ∀ (s : Int × List MatchedInfo),
      searchStep t text nmaxIndex (s.1, s.2.map MatchedInfo.patternI) =
        match searchStepEx t text nmaxIndex s with
        | .inl s' => .inl (s'.1, s'.2.map MatchedInfo.patternI)
        | .inr r => .inr (r.map (List.map MatchedInfo.patternI)) := by
    intro hx
    obtain ⟨b, m⟩ := hx
    unfold searchStep searchStepEx scanStep
    dsimp only
    split
    · rw [walk_map (e := fun n => ⟨n.label, b.toNat⟩) (f := MatchedInfo.patternI) fun _ => rfl]
      cases walk t nmaxIndex (fun n => ⟨n.label, b.toNat⟩) 0 b.toNat m (text.drop b.toNat) with
      | ret m' => rfl
      | stop n c m' =>
        dsimp only
        cases shiftAt t text b.toNat n c <;> rfl
    · rfl
  unfold AcbmSearch AcbmSearchEx
  constructor
  · intro h
    obtain ⟨q, hq, hQ⟩ := h.simulate (f := searchStepEx t text nmaxIndex)
      (R := fun s' s => s' = (s.1, s.2.map MatchedInfo.patternI))
      (Q := fun r' r => r' = r.map (List.map MatchedInfo.patternI)) (fun a b hab => by
        rw [hab, hstep]
        cases searchStepEx t text nmaxIndex b <;> rfl) (t := searchStart t text) rfl
    cases q with
    | none => cases hQ
    | some r => exact ⟨r, hq, Option.some.inj hQ⟩
  · intro hx
    obtain ⟨r, hr, rfl⟩ := hx
    obtain ⟨q, hq, hQ⟩ := hr.simulate (f := searchStep t text nmaxIndex)
      (R := fun s s' => s' = (s.1, s.2.map MatchedInfo.patternI))
      (Q := fun r r' => r' = r.map (List.map MatchedInfo.patternI)) (fun a b hab => by
        rw [hab, hstep]
        cases searchStepEx t text nmaxIndex a <;> rfl) (t := searchStart t text) rfl
    rw [hQ] at hq
    exact hq

/-! ## Where the scan stalls -/

section
variable {cs : Bool} {pats : List PatternData} (hne : pats ≠ [])
  (hs : ∀ pat ∈ pats, pat.Sized ∧ pat.caseSen = cs)
include hne hs

theorem stuck_iff_stalls (text : List UInt8) (base : Nat) :
    Stuck pats text base ↔ Stalls cs pats text base := by
  obtain ⟨words, hb⟩ := acbmInit_built hs
  have hcs0 := caseSen0_eq hne hs
  have hroot := fun {s n} => hb.spells.follow_iff hb.spells.root s (m := n)
  simp only [List.nil_append] at hroot
  constructor
  · intro h
    obtain ⟨k, c, node, child, hf, hc, hn, ho, hh, hnear⟩ := h
    rw [hcs0] at hnear
    have hnode := hroot.1 hf
    obtain ⟨w, hw, hchild⟩ := hb.spells.slot.1 ho
    rw [hnode, Option.some.injEq] at hw
    subst hw
    obtain ⟨rfl, a, ha, hu⟩ := (hidden_iff hb hchild).1 hh
    have hklt := (List.getElem?_eq_some_iff.1 hc).1
    have hklen : ((text.drop base).take k).length = k := by
      rw [List.length_take]; omega
    -- no byte is near before the first
    have hk0 : 0 < k := by
      rcases hnear with ⟨pat, hp, hl⟩ | ⟨_, _, i, _, hi, hi', _⟩
      · have := (hs pat hp).1.1
        omega
      · omega
    have hmem := (hb.mem _).1 (List.mem_of_getElem? hchild)
    have hnot := (hb.spells.slot_none hnode).1 hn
    rw [hb.mem] at hnot
    simp only [foldAll_true, foldCh_true] at ha hmem hnot
    rw [List.head?_append_of_ne_nil _ (by rintro he; rw [he] at hklen; simp at hklen; omega)] at ha
    refine ⟨rfl, k, c, hc, ⟨a, ha, hu⟩, ?_, fun pat hp hpre => ?_, hnear⟩
    · obtain hm | ⟨pat, hp, hpre⟩ := hmem
      · simp at hm
      · have := hpre.length_le
        rw [List.length_append, hklen] at this
        exact ⟨pat, hp, (List.prefix_append _ _).trans hpre, this⟩
    · refine hnot (.inr ⟨pat, hp, ?_⟩)
      rw [List.take_add_one, hc] at hpre
      exact hpre
  · intro h
    obtain ⟨rfl, k, c, hc, ⟨a, ha, hu⟩, ⟨pat, hp, hpre, hk⟩, hnot, hnear⟩ := h
    have hklt := (List.getElem?_eq_some_iff.1 hc).1
    have hklen : ((text.drop base).take k).length = k := by
      rw [List.length_take]; omega
    have hw : foldAll true ((text.drop base).take k) ∈ words :=
      (hb.mem _).2 (.inr ⟨pat, hp, by rw [foldAll_true, foldAll_true]; exact hpre⟩)
    obtain ⟨node, hnode⟩ := List.mem_iff_getElem?.1 hw
    -- the pattern goes on, so the node has a child
    obtain ⟨x, hx⟩ : ∃ x, pat.data[k]? = some x := ⟨_, List.getElem?_eq_getElem hk⟩
    have hnext : foldAll true ((text.drop base).take k) ++ [foldCh true x] ∈ words := by
      refine (hb.mem _).2 (.inr ⟨pat, hp, ?_⟩)
      rw [foldAll_true, foldAll_true, foldCh_true, List.prefix_iff_eq_take.1 hpre, hklen,
        show [x] = (pat.data[k]?).toList by rw [hx]; rfl, ← List.take_add_one]
      exact List.take_prefix _ _
    obtain ⟨child', hchild'⟩ := List.mem_iff_getElem?.1 hnext
    obtain ⟨child, hchild⟩ := hb.inv.oneChild
      (hb.inv.nchild (hb.spells.slot.2 ⟨_, hnode, hchild'⟩))
    obtain ⟨v, hv, hcw⟩ := hb.spells.slot.1 hchild
    rw [hnode, Option.some.injEq] at hv
    subst hv
    refine ⟨k, c, node, child, hroot.2 hnode, hc, (hb.spells.slot_none hnode).2 fun hmem => ?_,
      hchild, (hidden_iff hb hcw).2 ⟨rfl, a, ?_, hu⟩, by rw [hcs0]; exact hnear⟩
    · obtain hm | ⟨q, hq, hqp⟩ := (hb.mem _).1 hmem
      · simp at hm
      · apply hnot q hq
        rw [List.take_add_one, hc]
        simpa using hqp
    · rw [foldAll_true, List.head?_append, ha]
      rfl

/-! ## The outer loop -/

/-- One round at `base` with room for more: it returns full, or goes on after the pairs at `base`
were recorded. -/
theorem searchStepEx_spec (text : List UInt8) {nmaxIndex : Nat} {base : Int}
    {acc : List MatchedInfo} (hlen : acc.length < nmaxIndex) (h0 : 0 ≤ base) :
    (nmaxIndex ≤ (acc ++ hitsAt cs pats text base.toNat).length ∧
        searchStepEx (acbmInit pats) text nmaxIndex (base, acc) =
          .inr (some ((acc ++ hitsAt cs pats text base.toNat).take nmaxIndex))) ∨
      ((acc ++ hitsAt cs pats text base.toNat).length < nmaxIndex ∧ ∃ s : Int,
        searchStepEx (acbmInit pats) text nmaxIndex (base, acc) =
          .inl (base - s, acc ++ hitsAt cs pats text base.toNat) ∧
        0 ≤ s ∧ (0 < s ↔ ¬ Stalls cs pats text base.toNat) ∧
        ∀ q : Nat, (q : Int) < base → base - s < q → hitsAt cs pats text q = []) := by
  obtain ⟨words, hb⟩ := acbmInit_built hs
  have hw := walk_spec hb base.toNat (text.drop base.toNat) base.toNat hb.spells.root hlen
  unfold searchStepEx scanStep
  dsimp only
  rw [if_pos h0]
  cases hwalk : walk (acbmInit pats) nmaxIndex (fun n => ⟨n.label, base.toNat⟩) 0 base.toNat acc
      (text.drop base.toNat) with
  | ret m =>
    rw [hwalk] at hw
    exact .inl ⟨hw.2, by rw [hw.1]; rfl⟩
  | stop node cur m =>
    rw [hwalk] at hw
    obtain ⟨hm, hml⟩ := hw
    obtain ⟨k, rfl, hk, hf, hstop⟩ := walk_stop hwalk
    obtain ⟨s, hshift⟩ := shiftAt_isSome hb.inv text base.toNat node (base.toNat + k)
    obtain ⟨hs0, hs1⟩ := shiftAt_pos_iff (fun p hp => (hs p hp).1) hne hk hf hstop hshift
    rw [stuck_iff_stalls hne hs] at hs1
    rw [hm] at hml
    refine .inr ⟨hml, s, ?_, hs0, hs1, fun q hq hqs => ?_⟩
    · dsimp only
      rw [hshift, hm]
      rfl
    · exact shiftAt_safe hne hs hb hk hf hstop hshift (by omega) (by omega)

/-- What the rounds keep: the pairs recorded are those at offsets above `base_index`. -/
structure ScanInv (cs : Bool) (pats : List PatternData) (text : List UInt8) (nmaxIndex : Nat)
    (s : Int × List MatchedInfo) : Prop where
  base : s.1 ≤ text.length
  room : s.2.length < nmaxIndex
  done : s.2 ++ hitsBelow cs pats text (s.1 + 1).toNat = occurrences cs pats text

/-- The scan stalls at `base`, where it records pairs and has room for more. -/
def Repeats (cs : Bool) (pats : List PatternData) (text : List UInt8) (nmaxIndex : Nat)
    (base : Int) : Prop :=
  0 ≤ base ∧ Stalls cs pats text base.toNat ∧ hitsAt cs pats text base.toNat ≠ [] ∧
    ((occurrences cs pats text).filter fun x => base.toNat ≤ x.offset).length < nmaxIndex

omit hne hs in
/-- At a base index, the pairs recorded and those at it are the ones at offsets from it on. -/
theorem ScanInv.upTo {text : List UInt8} {nmaxIndex : Nat} {s : Int × List MatchedInfo}
    (h : ScanInv cs pats text nmaxIndex s) (h0 : 0 ≤ s.1) :
    s.2 ++ hitsAt cs pats text s.1.toNat ++ hitsBelow cs pats text s.1.toNat =
        occurrences cs pats text ∧
      s.2 ++ hitsAt cs pats text s.1.toNat =
        (occurrences cs pats text).filter fun x => s.1.toNat ≤ x.offset := by
  have hall := h.done
  rw [show (s.1 + 1).toNat = s.1.toNat + 1 by omega, hitsBelow, ← List.append_assoc] at hall
  refine ⟨hall, ?_⟩
  have hbase := h.base
  have hsplit := occurrences_split cs pats text s.1.toNat
    (n := text.length) (by omega)
  exact List.append_cancel_right (hall.trans hsplit)

theorem scanInv_start (text : List UInt8) {nmaxIndex : Nat} (hn : 1 ≤ nmaxIndex) :
    ScanInv cs pats text nmaxIndex (searchStart (acbmInit pats) text) := by
  refine ⟨by simp only [searchStart]; omega, hn, ?_⟩
  have hsz := fun p hp => (hs p hp).1
  have hpos := minPatternSize_pos hsz hne
  simp only [searchStart, List.nil_append]
  refine (hitsBelow_skip (by omega) fun q hq _ => ?_).symm
  -- no pattern fits behind the last base index
  by_contra hhit
  obtain ⟨pat, hp, hocc⟩ := hitsAt_ne_nil hhit
  have h1 := hocc.length_le (hsz pat hp)
  have h2 := minPatternSize_le hsz hp
  omega

/-- **One round keeps the invariant**, unless it stalls after it recorded pairs. -/
theorem ScanInv.step {text : List UInt8} {nmaxIndex : Nat} {s s' : Int × List MatchedInfo}
    (h : ScanInv cs pats text nmaxIndex s)
    (hstep : searchStepEx (acbmInit pats) text nmaxIndex s = .inl s')
    (hrep : ¬ Repeats cs pats text nmaxIndex s.1) : ScanInv cs pats text nmaxIndex s' := by
  obtain ⟨base, acc⟩ := s
  have h0 : 0 ≤ base := by
    by_contra hneg
    unfold searchStepEx scanStep at hstep
    dsimp only at hstep
    rw [if_neg hneg] at hstep
    cases hstep
  obtain ⟨hall, hfilter⟩ := h.upTo h0
  dsimp only at hall hfilter
  rcases searchStepEx_spec hne hs text h.room h0 with
    ⟨-, hr⟩ | ⟨hroom, shift, hr, hs0, hs1, hskip⟩
  · rw [hr] at hstep
    cases hstep
  rw [hr] at hstep
  cases hstep
  have hbase := h.base
  dsimp only at hbase
  by_cases hst : Stalls cs pats text base.toNat
  · -- it stays at `base`, where it recorded nothing
    have hshift : shift = 0 := by
      have := mt hs1.1 (not_not.2 hst)
      omega
    have hnil : hitsAt cs pats text base.toNat = [] := by
      by_contra hhit
      rw [hfilter] at hroom
      exact hrep ⟨h0, hst, hhit, hroom⟩
    rw [hnil, List.append_nil, hshift, sub_zero]
    exact h
  · refine ⟨by dsimp only; omega, hroom, ?_⟩
    have hpos := hs1.2 hst
    rw [← hall]
    congr 1
    exact (hitsBelow_skip (by omega) fun q hq hq' => hskip q (by omega) (by omega)).symm

/-- The round that leaves the scan has the first `nmaxIndex` occurrences. -/
theorem ScanInv.result {text : List UInt8} {nmaxIndex : Nat} {s : Int × List MatchedInfo}
    {r : List MatchedInfo} (h : ScanInv cs pats text nmaxIndex s)
    (hstep : searchStepEx (acbmInit pats) text nmaxIndex s = .inr (some r)) :
    r = (occurrences cs pats text).take nmaxIndex := by
  obtain ⟨base, acc⟩ := s
  by_cases h0 : 0 ≤ base
  · rcases searchStepEx_spec hne hs text h.room h0 with
      ⟨hfull, hr⟩ | ⟨-, shift, hr, -⟩
    · rw [hr, Sum.inr.injEq, Option.some.injEq] at hstep
      rw [← hstep, ← (h.upTo h0).1, List.take_append_of_le_length hfull]
    · rw [hr] at hstep
      cases hstep
  · -- all base indices are done
    unfold searchStepEx scanStep at hstep
    dsimp only at hstep
    rw [if_neg h0, Sum.inr.injEq, Option.some.injEq] at hstep
    have hdone := h.done
    dsimp only at hdone
    rw [show (base + 1).toNat = 0 by omega, hitsBelow, List.append_nil] at hdone
    rw [← hdone, ← hstep, List.take_of_length_le (le_of_lt h.room)]

/-- A scan that stalls where it records pairs records them again and again, up to the room. -/
theorem repeats_returns {text : List UInt8} {nmaxIndex : Nat} {base : Int} (h0 : 0 ≤ base)
    (hst : Stalls cs pats text base.toNat) (hhit : hitsAt cs pats text base.toNat ≠ [])
    {acc : List MatchedInfo} (hlen : acc.length < nmaxIndex) :
    ∃ r, Loop.Returns (searchStepEx (acbmInit pats) text nmaxIndex) (base, acc) (some r) ∧
      (acc ++ hitsAt cs pats text base.toNat).take nmaxIndex <+: r := by
  induction hm : nmaxIndex - acc.length using Nat.strongRecOn generalizing acc with
  | ind m ih =>
    rcases searchStepEx_spec hne hs text hlen h0 with
      ⟨-, hr⟩ | ⟨hroom, shift, hr, hs0, hs1, -⟩
    · exact ⟨_, .done hr, List.prefix_rfl⟩
    · have hshift : shift = 0 := by
        have := mt hs1.1 (not_not.2 hst)
        omega
      rw [hshift, sub_zero] at hr
      have hpos := List.length_pos_iff.2 hhit
      have hroom' := hroom
      rw [List.length_append] at hroom'
      obtain ⟨r, hret, hpre⟩ := ih _ (by rw [List.length_append]; omega) hroom rfl
      refine ⟨r, .next hr hret, List.IsPrefix.trans ?_ hpre⟩
      rw [List.take_of_length_le (le_of_lt hroom), List.take_append,
        List.take_of_length_le (le_of_lt hroom)]
      exact List.prefix_append _ _

/-- **What a search reports**: one that returns has written the first `nmaxIndex` occurrences, and
`acbm_search` their labels, exactly when no round starts where the scan stalls after it recorded
pairs. -/
theorem search_reports_iff (text : List UInt8) {nmaxIndex : Nat} (hn : 1 ≤ nmaxIndex) :
    ((∀ r, AcbmSearchEx (acbmInit pats) text nmaxIndex r →
        r = (occurrences cs pats text).take nmaxIndex) ∧
      ∀ r', AcbmSearch (acbmInit pats) text nmaxIndex r' ↔
        ∃ r, AcbmSearchEx (acbmInit pats) text nmaxIndex r ∧ r' = r.map MatchedInfo.patternI) ↔
    ∀ s, Loop.Visits (searchStepEx (acbmInit pats) text nmaxIndex)
      (searchStart (acbmInit pats) text) s → ¬ Repeats cs pats text nmaxIndex s.1 := by
  have hstart := scanInv_start hne hs text hn
  constructor
  · rintro ⟨hall, -⟩ s hv hrep
    -- the first round that repeats still has the invariant
    obtain ⟨s0, hv0, hinv, h0, hst, hhit, hroom⟩ : ∃ s0,
        Loop.Visits (searchStepEx (acbmInit pats) text nmaxIndex)
          (searchStart (acbmInit pats) text) s0 ∧ ScanInv cs pats text nmaxIndex s0 ∧
        Repeats cs pats text nmaxIndex s0.1 := by
      have key : ScanInv cs pats text nmaxIndex s ∨ ∃ s0,
          Loop.Visits (searchStepEx (acbmInit pats) text nmaxIndex)
            (searchStart (acbmInit pats) text) s0 ∧ ScanInv cs pats text nmaxIndex s0 ∧
          Repeats cs pats text nmaxIndex s0.1 := by
        clear hrep
        induction hv with
        | refl => exact .inl hstart
        | @tail a b hva hab ih =>
          rcases ih with hinv | hex
          · by_cases hr : Repeats cs pats text nmaxIndex a.1
            · exact .inr ⟨a, hva, hinv, hr⟩
            · exact .inl (hinv.step hne hs hab hr)
          · exact .inr hex
      rcases key with hinv | hex
      · exact ⟨s, hv, hinv, hrep⟩
      · exact hex
    obtain ⟨base, acc⟩ := s0
    obtain ⟨-, hfilter⟩ := hinv.upTo h0
    dsimp only at h0 hst hhit hroom hfilter
    rw [← hfilter] at hroom
    rcases searchStepEx_spec hne hs text (show acc.length < nmaxIndex from hinv.room) h0 with
      ⟨hfull, -⟩ | ⟨-, shift, hr, hs0, hs1, -⟩
    · omega
    have hshift : shift = 0 := by
      have := mt hs1.1 (not_not.2 hst)
      omega
    rw [hshift, sub_zero] at hr
    -- it returns with a pair twice
    obtain ⟨r, hret, hpre⟩ := repeats_returns hne hs h0 hst hhit hroom
    have hnodup : r.Nodup := by
      rw [hall r ((Loop.Returns.next hr hret).of_visits hv0)]
      exact (occurrences_nodup cs pats text).sublist (List.take_sublist _ _)
    have hdup := hnodup.sublist hpre.sublist
    obtain ⟨x, rest, hx⟩ := List.exists_cons_of_ne_nil hhit
    obtain ⟨j, hj⟩ : ∃ j, nmaxIndex - (acc ++ hitsAt cs pats text base.toNat).length = j + 1 :=
      ⟨_, (Nat.succ_pred_eq_of_pos (by omega)).symm⟩
    rw [List.take_append, List.take_of_length_le (le_of_lt hroom), hj, hx, List.take_succ_cons]
      at hdup
    have hmem := (List.nodup_append.1 hdup).2.2 x (by simp) x (.head _)
    exact hmem rfl
  · intro hnever
    refine ⟨fun r hr => ?_, acbmSearch_iff _ _ _⟩
    obtain ⟨s, hv, hlast⟩ := Loop.returns_iff_visits.1 hr
    have hinv : Loop.Visits (searchStepEx (acbmInit pats) text nmaxIndex)
        (searchStart (acbmInit pats) text) s ∧ ScanInv cs pats text nmaxIndex s :=
      hv.invariant (I := fun s => Loop.Visits (searchStepEx (acbmInit pats) text nmaxIndex)
        (searchStart (acbmInit pats) text) s ∧ ScanInv cs pats text nmaxIndex s) ⟨.refl, hstart⟩
        fun a b ha hab => ⟨ha.1.tail hab, ha.2.step hne hs hab (hnever a ha.1)⟩
    exact hinv.2.result hne hs hlast

end

/-- The patterns `"A"` and `"ABC"`, where the case counts. -/
def patsAABC : List PatternData := [⟨"A".asciiBytes, true⟩, ⟨"ABC".asciiBytes, true⟩]

/-- The patterns `"A"` and `"ABC"` and the text `"ABB"`. -/
theorem search_reports_iff_abb :
    ((∀ r, AcbmSearchEx (acbmInit patsAABC) "ABB".asciiBytes 2 r →
        r = (occurrences true patsAABC "ABB".asciiBytes).take 2) ∧
      ∀ r', AcbmSearch (acbmInit patsAABC) "ABB".asciiBytes 2 r' ↔
        ∃ r, AcbmSearchEx (acbmInit patsAABC) "ABB".asciiBytes 2 r ∧
          r' = r.map MatchedInfo.patternI) ↔
    ∀ s, Loop.Visits (searchStepEx (acbmInit patsAABC) "ABB".asciiBytes 2)
      (searchStart (acbmInit patsAABC) "ABB".asciiBytes) s →
        ¬ Repeats true patsAABC "ABB".asciiBytes 2 s.1 :=
  search_reports_iff (by decide) (by decide) _ (by decide)

/-- The search for `"A"` and `"ABC"` in `"ABB"` reports the one occurrence of `"A"` twice. -/
theorem search_abb_repeats :
    occurrences true patsAABC "ABB".asciiBytes = [⟨0, 0⟩] ∧
      AcbmSearchEx (acbmInit patsAABC) "ABB".asciiBytes 2 [⟨0, 0⟩, ⟨0, 0⟩] :=
  ⟨by decide +kernel, Loop.returns_of_run 5 (by decide +kernel)⟩

end AcBm
