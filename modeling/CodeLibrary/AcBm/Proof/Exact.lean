import CodeLibrary.AcBm.Proof.Tables
import Mathlib.Order.Bounds.Basic

/-!
# The shift tables of `ac_bm.c` are exact

* `Overlaps`: a pattern, moved, fits the word of a node without its last byte and then ends or
  goes on with another byte.
* `gsShift_le_overlap`, `GsCall.overlaps`: the calls of `set_GSshift` for a node are, up to the
  shortest length, the shifts at which a pattern overlaps.
* `acbmInit_exactShifts`: with case folding, both tables hold the least shift of their kind
  (`ExactShifts`).
-/

namespace AcBm

/-- The pattern `p` moved by `s` ends within the word `w`, or it fits `w` and goes on with a byte
other than `x` (folded). -/
def Overlaps (cs : Bool) (p w : List UInt8) (x : UInt8) (s : Nat) : Prop :=
  foldAll cs (p.drop s) <+: foldAll cs w ∨
    foldAll cs ((p.drop s).take w.length) = foldAll cs w ∧
      ∃ y, p[s + w.length]? = some y ∧ foldCh cs y ≠ foldCh cs x

/-- `v` is the least shift from 1 to `m` that is `m` or meets `P`. -/
def LeastShift (m : Nat) (P : Nat → Prop) (v : Int) : Prop :=
  ∃ s : Nat, v = s ∧ IsLeast {s | 1 ≤ s ∧ s ≤ m ∧ (s = m ∨ P s)} s

/-- The shift tables of `t` are those of the patterns, the shortest of length `m`, with case
folding. -/
structure ExactShifts (pats : List PatternData) (t : PatternTree) (m : Nat) : Prop where
  shortest : IsLeast {n | ∃ pat ∈ pats, pat.len = n} m
  gsShift : ∀ {w x node}, follow t.nodes 0 (w ++ [x]) = some node →
    LeastShift m (fun s => ∃ pat ∈ pats, Overlaps false pat.data w x s)
      (t.nodes.node node).gsShift
  bcShift : ∀ c, LeastShift m
    (fun i => ∃ pat ∈ pats, ∃ y, pat.data[i]? = some y ∧ tolower y = tolower c) (t.bcShift c)

/-! ## The compare loop and the first char -/

theorem foldAll_take_succ {cs : Bool} {l : List UInt8} {k : Nat} {c : UInt8}
    (h : l[k]? = some c) :
    foldAll cs (l.take (k + 1)) = foldAll cs (l.take k) ++ [foldCh cs c] := by
  rw [List.take_add_one, h, foldAll_append]
  rfl

/-- **Where the compare loop stops**: not before `k` where the first `k` bytes agree. -/
theorem le_agreeLen_iff {cs : Bool} : ∀ {k : Nat} {l l' : List UInt8}, k ≤ agreeLen cs l l' ↔
    k ≤ l.length ∧ foldAll cs (l.take k) = foldAll cs (l'.take k)
  | 0, _, _ => by simp
  | k + 1, [], _ => by simp [agreeLen]
  | k + 1, c :: l, [] => by simp [agreeLen, foldAll]
  | k + 1, c :: l, c' :: l' => by
    have ih := @le_agreeLen_iff cs k l l'
    simp only [foldAll, List.take_succ_cons, List.map_cons, List.cons.injEq, List.length_cons,
      Nat.succ_le_succ_iff] at ih ⊢
    rw [agreeLen]
    split
    · rename_i hne
      constructor
      · intro h
        omega
      · intro hx
        exact absurd hx.2.1 hne
    · rename_i heq
      rw [Nat.succ_le_succ_iff, ih, not_not.1 heq]
      simp

/-- Before the shift that handles char 0, the bytes are the first char. -/
theorem charZeroShift_agree {cs : Bool} {f : UInt8} : ∀ {rest : List UInt8} {i d : Nat}, i ≤ d →
    d < charZeroShift cs f i rest → ∃ y, rest[d - i]? = some y ∧ foldCh cs y = f
  | [], i, d, h, h' => by rw [charZeroShift] at h'; omega
  | c :: rest, i, d, h, h' => by
    rw [charZeroShift] at h'
    split at h'
    · omega
    · rename_i hc
      by_cases hd : d = i
      · exact ⟨c, by simp [hd], not_not.1 hc⟩
      · obtain ⟨y, hy, hf⟩ := charZeroShift_agree (i := i + 1) (by omega) h'
        refine ⟨y, ?_, hf⟩
        rw [show d - i = (d - (i + 1)) + 1 by omega, List.getElem?_cons_succ]
        exact hy

/-- At the shift that handles char 0, the byte is not the first char. -/
theorem charZeroShift_leave {cs : Bool} {f : UInt8} : ∀ {rest : List UInt8} {i : Nat} {y : UInt8},
    rest[charZeroShift cs f i rest - i]? = some y → foldCh cs y ≠ f
  | [], _, _, h => by simp at h
  | c :: rest, i, y, h => by
    rw [charZeroShift] at h
    split at h
    · rename_i hc
      rw [Nat.sub_self, List.getElem?_cons_zero, Option.some.injEq] at h
      exact h ▸ hc
    · have hge := charZeroShift_ge cs f rest (i + 1)
      rw [show charZeroShift cs f (i + 1) rest - i =
        (charZeroShift cs f (i + 1) rest - (i + 1)) + 1 by omega, List.getElem?_cons_succ] at h
      exact charZeroShift_leave h

/-! ## The calls and the overlaps -/

/-- A path of `j + 1` bytes of a pattern spells `w` and then `x`. -/
theorem foldAll_path {cs : Bool} {p w : List UInt8} {x : UInt8} {j : Nat} (hj : j < p.length)
    (h : foldAll cs (p.take (j + 1)) = foldAll cs w ++ [foldCh cs x]) :
    j = w.length ∧ foldAll cs (p.take j) = foldAll cs w ∧ foldCh cs p[j] = foldCh cs x := by
  rw [foldAll_take_succ (List.getElem?_eq_getElem hj)] at h
  obtain ⟨hw, hx⟩ := List.append_inj' h rfl
  have hlen := congrArg List.length hw
  simp only [foldAll_length, List.length_take] at hlen
  exact ⟨by omega, hw, List.singleton_inj.1 hx⟩

/-- **Every call is an overlap**: no spurious shift. -/
theorem GsCall.overlaps {cs : Bool} {mps : Nat} {p1 p2 path w : List UInt8} {x : UInt8} {s : Int}
    (h : GsCall cs mps p1 p2 path s) (hpath : foldAll cs path = foldAll cs w ++ [foldCh cs x]) :
    ∃ k : Nat, s = k ∧ Overlaps cs p2 w x k := by
  cases h with
  | @charZero c1 c2 rest1 rest2 h1 h2 =>
    refine ⟨_, rfl, ?_⟩
    subst h1 h2
    obtain ⟨hw, -, hx⟩ := foldAll_path (j := 0) (by simp) hpath
    have hw : w = [] := List.length_eq_zero_iff.1 hw.symm
    subst hw
    have hge := charZeroShift_ge cs (foldCh cs c1) rest2 1
    cases hy : (c2 :: rest2)[charZeroShift cs (foldCh cs c1) 1 rest2]? with
    | none =>
      rw [Overlaps, List.drop_eq_nil_of_le (List.getElem?_eq_none_iff.1 hy)]
      exact .inl (List.nil_prefix)
    | some y =>
      refine .inr ⟨rfl, y, hy, ?_⟩
      rw [show charZeroShift cs (foldCh cs c1) 1 rest2 =
        (charZeroShift cs (foldCh cs c1) 1 rest2 - 1) + 1 by omega,
        List.getElem?_cons_succ] at hy
      rw [← hx]
      exact charZeroShift_leave hy
  | @offset c1 c2 rest1 i j h1 hi hm hc hf hlt hj =>
    refine ⟨i, rfl, ?_⟩
    have hA := (agreeLen_le cs p1 (p2.drop i)).2
    rw [List.length_drop] at hA
    have hagree := (le_agreeLen_iff.1 (le_refl (agreeLen cs p1 (p2.drop i)))).2
    obtain ⟨rfl, hw, hx⟩ := foldAll_path (by omega) hpath
    by_cases hend : agreeLen cs p1 (p2.drop i) = p2.length - i
    · -- `p2` ends within `w`
      left
      rw [hend, List.take_of_length_le (l := p2.drop i) (by simp)] at hagree
      rw [← hagree, ← hw, foldAll_take, foldAll_take]
      exact List.take_prefix_take_left (by omega)
    · -- `p2` goes on with a byte that stops the compare loop
      have hj : w.length = agreeLen cs p1 (p2.drop i) := by omega
      obtain ⟨y, hy⟩ : ∃ y, (p2.drop i)[w.length]? = some y :=
        ⟨_, List.getElem?_eq_getElem (by rw [List.length_drop]; omega)⟩
      refine .inr ⟨?_, y, List.getElem?_drop ▸ hy, fun hyx => ?_⟩
      · rw [hj, ← hagree, ← hj]
        exact hw
      · have hmore : w.length + 1 ≤ agreeLen cs p1 (p2.drop i) := by
          rw [le_agreeLen_iff, foldAll_take_succ hy, hyx, hj, ← hagree, ← hj]
          exact ⟨by omega, hpath.trans (by rw [hw])⟩
        omega

section
variable {cs : Bool} {pats : List PatternData} (hne : pats ≠ [])
  (hs : ∀ pat ∈ pats, pat.Sized ∧ pat.caseSen = cs)
include hne hs

theorem caseSen0_eq : (acbmInit pats).caseSen0 = cs := by
  obtain ⟨pat, rest, rfl⟩ := List.exists_cons_of_ne_nil hne
  exact (hs pat (.head _)).2

omit hne hs in
/-- Below the root's children an overlap is the shift of a call. -/
theorem gsCall_of_overlaps {p1 p2 w : List UInt8} {x : UInt8} {s mps : Nat} (hw : 0 < w.length)
    (hj : w.length < p1.length)
    (hpath : foldAll cs (p1.take (w.length + 1)) = foldAll cs w ++ [foldCh cs x]) (h1 : 1 ≤ s)
    (hm : s ≤ mps) (h2 : s < p2.length) (h : Overlaps cs p2 w x s) :
    GsCall cs mps p1 p2 (p1.take (w.length + 1)) s := by
  obtain ⟨-, htake, hx⟩ := foldAll_path hj hpath
  have hA := (agreeLen_le cs p1 (p2.drop s)).2
  rw [List.length_drop] at hA
  -- where the compare loop stops
  have hstop : agreeLen cs p1 (p2.drop s) = w.length ∨
      agreeLen cs p1 (p2.drop s) = p2.length - s ∧ p2.length - s ≤ w.length := by
    rcases h with hpre | ⟨hfit, y, hy, hyx⟩
    · have hlen := hpre.length_le
      simp only [foldAll_length, List.length_drop] at hlen
      have hall : p2.length - s ≤ agreeLen cs p1 (p2.drop s) := by
        rw [le_agreeLen_iff, List.take_of_length_le (l := p2.drop s) (by simp)]
        refine ⟨by omega, ?_⟩
        have htake2 := List.prefix_iff_eq_take.1 hpre
        rw [foldAll_length, List.length_drop, ← htake, foldAll_take, List.take_take,
          Nat.min_eq_left hlen, ← foldAll_take] at htake2
        exact htake2.symm
      omega
    · have hge : w.length ≤ agreeLen cs p1 (p2.drop s) :=
        le_agreeLen_iff.2 ⟨le_of_lt hj, htake.trans hfit.symm⟩
      refine .inl (le_antisymm ?_ hge)
      by_contra hgt
      -- the next byte of `p2` is not that of the path
      have hmore := (le_agreeLen_iff.1
        (show w.length + 1 ≤ agreeLen cs p1 (p2.drop s) by omega)).2
      rw [hpath, foldAll_take_succ (List.getElem?_drop ▸ hy)] at hmore
      exact hyx (List.singleton_inj.1 (List.append_inj' hmore rfl).2).symm
  obtain ⟨c1, rest1, he1⟩ := List.exists_cons_of_length_pos (l := p1) (by omega)
  have hfirst : foldCh cs p2[s] = foldCh cs c1 := by
    have hone := (le_agreeLen_iff.1 (show 1 ≤ agreeLen cs p1 (p2.drop s) by omega)).2
    have hget : (p2.drop s)[0]? = some p2[s] := by
      rw [List.getElem?_drop]
      exact List.getElem?_eq_getElem h2
    rw [foldAll_take_succ hget, he1] at hone
    exact (List.singleton_inj.1 hone).symm
  refine .offset he1 h1 hm (List.getElem?_eq_getElem h2) hfirst (by omega) ?_
  rcases hstop with h | ⟨h, hle⟩
  · exact .inl h.symm
  · exact .inr ⟨h, hle, hj⟩

omit hne hs in
/-- At a child of the root an overlap is at least the shift that handles char 0. -/
theorem charZeroShift_le_of_overlaps {c1 c2 x : UInt8} {rest2 : List UInt8} {s : Nat} (h1 : 1 ≤ s)
    (h2 : s < (c2 :: rest2).length) (hc : foldCh cs c1 = foldCh cs x)
    (h : Overlaps cs (c2 :: rest2) [] x s) : charZeroShift cs (foldCh cs c1) 1 rest2 ≤ s := by
  by_contra hgt
  obtain ⟨y, hy, hfy⟩ := charZeroShift_agree h1
    (show s < charZeroShift cs (foldCh cs c1) 1 rest2 by omega)
  rcases h with hpre | ⟨-, z, hz, hzx⟩
  · have := hpre.length_le
    simp only [foldAll_length, List.length_drop, List.length_nil] at this
    omega
  · rw [List.length_nil, Nat.add_zero, show s = (s - 1) + 1 by omega,
      List.getElem?_cons_succ, hy] at hz
    cases hz
    exact hzx (hfy.trans hc)

/-- **No overlap is missing**: a `GSshift` is at most every shift at which a pattern overlaps the
node's word. -/
theorem gsShift_le_overlap {words : List (List UInt8)}
    (hb : Built cs pats (acbmInit pats).nodes words) {w : List UInt8} {x : UInt8} {node : Nat}
    (hnode : words[node]? = some (foldAll cs w ++ [foldCh cs x])) {p2 : PatternData}
    (hp2 : p2 ∈ pats) {s : Nat} (h1 : 1 ≤ s) (h : Overlaps cs p2.data w x s) :
    ((acbmInit pats).nodes.node node).gsShift ≤ s := by
  rcases Nat.lt_or_ge s (acbmInit pats).minPatternSize with hlt | hge
  swap
  · exact le_trans (gsShift_le_min node) (by omega)
  have h2 : s < p2.data.length :=
    lt_of_lt_of_le hlt (minPatternSize_le (fun p hp => (hs p hp).1) hp2)
  -- a pattern whose path goes through the node
  obtain ⟨p1, hp1, hpre⟩ : ∃ p1 ∈ pats, foldAll cs w ++ [foldCh cs x] <+: foldAll cs p1.data := by
    rcases (hb.mem _).1 (List.mem_of_getElem? hnode) with h | h
    · simp at h
    · exact h
  have hj := hpre.length_le
  have hpath := (List.prefix_iff_eq_take.1 hpre).symm
  rw [List.length_append, foldAll_length, List.length_singleton] at hj hpath
  rw [foldAll_length] at hj
  rw [← foldAll_take] at hpath
  have hfollow : follow (acbmInit pats).nodes 0 (p1.data.take (w.length + 1)) = some node := by
    rw [hb.spells.follow_iff hb.spells.root, List.nil_append, hpath]
    exact hnode
  have hcall := fun {v : Int} hg => (gsShift_le_call hp1 hp2 hg hfollow : _ ≤ v)
  rw [caseSen0_eq hne hs] at hcall
  by_cases hw : 0 < w.length
  · exact hcall (gsCall_of_overlaps hw (by omega) hpath h1 (le_of_lt hlt) h2 h)
  · have hw : w = [] := List.length_eq_zero_iff.1 (by omega)
    subst hw
    obtain ⟨c1, rest1, he1⟩ := List.exists_cons_of_length_pos (l := p1.data) (by omega)
    obtain ⟨c2, rest2, he2⟩ := List.exists_cons_of_length_pos (l := p2.data) (by omega)
    have hc : foldCh cs c1 = foldCh cs x := by
      rw [he1] at hpath
      exact List.singleton_inj.1 hpath
    rw [he2] at h h2
    have hle := charZeroShift_le_of_overlaps h1 h2 hc h
    exact le_trans (hcall (.charZero he1 he2)) (by omega)

end

/-! ## The tables -/

section
variable {pats : List PatternData} (hne : pats ≠ [])
  (hs : ∀ pat ∈ pats, pat.Sized ∧ pat.caseSen = false)
include hne hs

theorem gsShift_leastShift {w : List UInt8} {x : UInt8} {node : Nat}
    (hnode : follow (acbmInit pats).nodes 0 (w ++ [x]) = some node) :
    LeastShift (acbmInit pats).minPatternSize
      (fun s => ∃ pat ∈ pats, Overlaps false pat.data w x s)
      ((acbmInit pats).nodes.node node).gsShift := by
  obtain ⟨words, hb⟩ := acbmInit_built hs
  have hword := (hb.spells.follow_iff hb.spells.root _).1 hnode
  rw [List.nil_append, foldAll_append] at hword
  have hpos : 0 < node := by
    rw [follow_snoc, Option.bind_eq_some_iff] at hnode
    obtain ⟨n, -, hc⟩ := hnode
    exact Nat.pos_of_ne_zero (hb.inv.ne_root hc)
  have hhid : ¬ Hidden (acbmInit pats).nodes node := fun hh => by
    cases ((hidden_iff hb hword).1 hh).1
  have hmin := minPatternSize_pos (fun p hp => (hs p hp).1) hne
  have hlow : ∀ s : Nat, 1 ≤ s → (s = (acbmInit pats).minPatternSize ∨
      ∃ pat ∈ pats, Overlaps false pat.data w x s) →
      ((acbmInit pats).nodes.node node).gsShift ≤ s := by
    intro s h1 hx
    rcases hx with rfl | ⟨pat, hp, hov⟩
    · exact gsShift_le_min node
    · exact gsShift_le_overlap hne hs hb hword hp h1 hov
  rcases gsShift_mem hnode hpos hhid with hgs | ⟨p1, -, p2, hp2, path, hpath, hg⟩
  · refine ⟨_, hgs, ⟨hmin, le_refl _, .inl rfl⟩, fun s hx => ?_⟩
    have := hlow s hx.1 hx.2.2
    omega
  · -- the shift of a call
    rw [hb.spells.follow_iff hb.spells.root, List.nil_append] at hpath
    have hsame : foldAll false path = foldAll false w ++ [foldCh false x] :=
      Option.some.inj (hpath.symm.trans hword)
    rw [caseSen0_eq hne hs] at hg
    obtain ⟨k, hk, hov⟩ := hg.overlaps hsame
    have hkpos := hg.pos
    have hkmin := @gsShift_le_min pats node
    refine ⟨k, hk, ⟨by omega, by omega, .inr ⟨p2, hp2, hov⟩⟩, fun s hx => ?_⟩
    have := hlow s hx.1 hx.2.2
    omega

theorem bcShift_leastShift (c : UInt8) : LeastShift (acbmInit pats).minPatternSize
    (fun i => ∃ pat ∈ pats, ∃ y, pat.data[i]? = some y ∧ tolower y = tolower c)
    ((acbmInit pats).bcShift c) := by
  have hsz := fun p hp => (hs p hp).1
  have hle := bcShift_le_iff hsz hne c
  rw [caseSen0_eq hne hs] at hle
  have hpos : 1 ≤ (acbmInit pats).bcShift c := by
    by_contra h0
    rcases (hle 0).1 (by omega) with ⟨pat, hp, hl⟩ | ⟨pat, hp, i, y, hi, hi', -⟩
    · have := (hsz pat hp).1
      omega
    · omega
  obtain ⟨v, hv⟩ := Int.eq_ofNat_of_zero_le (le_trans Int.one_nonneg hpos)
  have hmin : v ≤ (acbmInit pats).minPatternSize := by
    obtain ⟨pat, hp, hl⟩ := minPatternSize_mem hsz hne
    have := (hle (acbmInit pats).minPatternSize).2 (.inl ⟨pat, hp, by omega⟩)
    omega
  refine ⟨v, hv, ⟨by omega, hmin, ?_⟩, fun s hx => ?_⟩
  · rcases (hle v).1 (by omega) with ⟨pat, hp, hl⟩ | ⟨pat, hp, i, y, hi, hi', hy, hyc⟩
    · have := minPatternSize_le hsz hp
      exact .inl (by omega)
    · -- the byte is at no smaller index
      have := (hle i).2 (.inr ⟨pat, hp, i, y, hi, le_refl _, hy, hyc⟩)
      obtain rfl : i = v := by omega
      exact .inr ⟨pat, hp, y, hy, hyc⟩
  · obtain ⟨h1, -, rfl | ⟨pat, hp, y, hy, hyc⟩⟩ := hx
    · exact hmin
    · have := (hle s).2 (.inr ⟨pat, hp, s, y, h1, le_refl _, hy, hyc⟩)
      omega

/-- **The shift tables of `acbm_init` are exact**, for patterns that all ignore the case: no shift
is too large and none too small. -/
theorem acbmInit_exactShifts :
    ExactShifts pats (acbmInit pats) (acbmInit pats).minPatternSize := by
  have hsz := fun p hp => (hs p hp).1
  refine ⟨⟨minPatternSize_mem hsz hne, fun n hn => ?_⟩, gsShift_leastShift hne hs,
    bcShift_leastShift hne hs⟩
  obtain ⟨pat, hp, rfl⟩ := hn
  exact minPatternSize_le hsz hp

end

/-- Two patterns that overlap each other and themselves. -/
def patsAbab : List PatternData := [⟨"abAB".asciiBytes, false⟩, ⟨"bab".asciiBytes, false⟩]

theorem acbmInit_exactShifts_abab :
    ExactShifts patsAbab (acbmInit patsAbab) (acbmInit patsAbab).minPatternSize :=
  acbmInit_exactShifts (by decide) (by decide)

end AcBm
