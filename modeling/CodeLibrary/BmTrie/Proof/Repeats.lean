import CodeLibrary.BmTrie.Proof.Report
import Mathlib.Data.List.Infix
import Mathlib.Data.List.Nodup
import Mathlib.Data.List.Pairwise

/-!
# Which occurrences are recorded twice

* `nodes_nodup`: a traversal of the trie meets every node once.
* `contribution_recorded`: a node adds no position twice, if the patterns are distinct.
* `acbm_noRepeats_iff`: the result has no position twice just when no occurrence is covered from two
  alignments; `coveredOnce_of_ends`: so it is if a pattern is in the patterns at their ends only.
-/

namespace BmTrie

variable {P : PatternArray} {text : JString}

/-! ## The nodes -/

theorem subNodes_eq : ∀ sub : List (UInt16 × BMTrieNode),
    subNodes sub = sub.flatMap fun x => x.2.nodes
  | [] => rfl
  | (_, node) :: rest => by rw [subNodes, subNodes_eq rest, List.flatMap_cons]

/-- A traversal meets no node twice, where no two paths come to the same data. -/
theorem nodes_nodup {node : BMTrieNode} (h : node.Ok)
    (hinj : ∀ π π' d, node.dataAt π = some d → node.dataAt π' = some d → π = π') :
    node.nodes.Nodup := by
  induction h with
  | @mk data sub hn hsub ih =>
    have hpath : ∀ x ∈ sub, ∀ d ∈ x.2.nodes,
        ∃ π, BMTrieNode.dataAt (.mk data sub) (x.1 :: π) = some d := fun x hx d hd => by
      obtain ⟨π, hπ⟩ := (mem_nodes_iff (hsub x hx)).1 hd
      exact ⟨π, Option.bind_eq_some_iff.2 ⟨_, lookup_of_mem hn hx, hπ⟩⟩
    rw [BMTrieNode.nodes, List.nodup_cons, subNodes_eq, List.nodup_flatMap]
    refine ⟨fun hd => ?_, fun x hx => ih x hx fun π π' d h1 h2 => ?_, ?_⟩
    · obtain ⟨x, hx, hd⟩ := List.mem_flatMap.1 hd
      obtain ⟨π, hπ⟩ := hpath x hx data hd
      exact nomatch hinj [] (x.1 :: π) data rfl hπ
    · have hbind : ∀ {π}, x.2.dataAt π = some d →
          BMTrieNode.dataAt (.mk data sub) (x.1 :: π) = some d := fun h =>
        Option.bind_eq_some_iff.2 ⟨_, lookup_of_mem hn hx, h⟩
      exact (List.cons.inj (hinj _ _ d (hbind h1) (hbind h2))).2
    · refine (List.pairwise_map.1 hn).imp_of_mem fun {x y} hx hy hne d h1 h2 => ?_
      obtain ⟨π, h1⟩ := hpath x hx d h1
      obtain ⟨π', h2⟩ := hpath y hy d h2
      exact hne (List.cons.inj (hinj _ _ d h1 h2)).1

theorem Recorded.nodes_nodup {V : List Nat} {root : BMTrieNode}
    (h : Recorded P.list text V root) : root.nodes.Nodup := by
  have hdata : ∀ {π d}, root.dataAt π = some d → d.matchStr = π.reverse := fun {π d} hd => by
    have hw : Word P.list π.reverse := (h.dataAt_ne_none π).1 (by rw [hd]; simp)
    rw [h.word π hw] at hd
    cases hd
    rfl
  refine BmTrie.nodes_nodup h.ok fun π π' d h1 h2 => ?_
  exact List.reverse_injective ((hdata h1).symm.trans (hdata h2))

/-! ## What one node adds -/

theorem nodup_positions {V : List Nat} (hV : V.Nodup) (w : JString) :
    (positions text V w).Nodup := by
  unfold positions
  refine List.Nodup.map_on (fun a ha b hb he => ?_) (hV.filter _)
  have ha := (of_decide_eq_true (List.mem_filter.1 ha).2).2.1
  have hb := (of_decide_eq_true (List.mem_filter.1 hb).2).2.1
  omega

/-- A node of `w` adds positions to those of `q` just once, or not at all. -/
theorem contribution_recorded (hP : P.list.Nodup) (V : List Nat) {q : JString} (hq : q ∈ P.list)
    (w : JString) : contribution P.list q (.recorded P.list text V w) =
      if q <+: w then positions text V w else [] := by
  obtain ⟨j, hj, rfl⟩ := List.mem_iff_getElem.1 hq
  have hget : ∀ {i : Nat} (hi : i < P.list.length), P.list.getD i [] = P.list[i] := fun {i} hi => by
    rw [List.getD_eq_getElem?_getD, List.getElem?_eq_getElem hi]
    rfl
  have hmem : j ∈ begins P.list w ↔ P.list[j] <+: w := by
    rw [mem_begins, hget hj, and_iff_right hj]
  have hone : ∀ i, (i < P.list.length ∧ P.list.getD i [] = P.list[j]) ↔ i = j := fun i => by
    refine ⟨fun ⟨hi, he⟩ => ?_, fun hi => ?_⟩
    · rw [hget hi] at he
      exact (List.Nodup.getElem_inj_iff hP).1 he
    · subst hi
      exact ⟨hj, hget hj⟩
  have hfilter : (begins P.list w).filter (fun i => decide (i < P.list.length ∧
      P.list.getD i [] = P.list[j])) = if P.list[j] <+: w then [j] else [] := by
    have hsame : (fun i => decide (i < P.list.length ∧ P.list.getD i [] = P.list[j])) =
        fun i => decide (i = j) := funext fun i => decide_eq_decide.2 (hone i)
    have hn : (begins P.list w).Nodup := List.nodup_range.filter _
    rw [hsame, List.filter_eq, hn.count]
    by_cases hb : P.list[j] <+: w
    · rw [if_pos (hmem.2 hb), if_pos hb, List.replicate_one]
    · rw [if_neg (mt hmem.1 hb), if_neg hb, List.replicate_zero]
  unfold contribution
  by_cases hb : P.list[j] <+: w
  · have hne : begins P.list w ≠ [] := List.ne_nil_of_mem (hmem.2 hb)
    rw [if_pos ((status_recorded _ _ _ _).2 hne), if_pos hb, NodeData.recorded, if_neg hne]
    dsimp only [NodeData.built]
    rw [hfilter, if_pos hb, List.flatMap_singleton]
  · rw [if_neg hb]
    split
    · rw [NodeData.recorded]
      dsimp only [NodeData.built]
      rw [hfilter, if_neg hb, List.flatMap_nil]
    · rfl

/-! ## The result -/

/-- An alignment that covers an occurrence is one of the run, and puts it among the positions of a
node. -/
theorem coveredFrom_iff {V : List Nat} (hV : ∀ b, b ∈ V ↔ Visited P text b ∧ b < text.length)
    {p : JString} (hp : p ≠ []) {i a : Nat} : CoveredFrom P text p i a ↔
      ∃ w, Word P.list w ∧ p <+: w ∧ a ∈ V ∧ EndsAt w text a ∧ i + w.length = a + 1 := by
  refine exists_congr fun w => and_congr_right fun _ => and_congr_right fun hpre => ?_
  have hw : w ≠ [] := fun h0 => hp (List.prefix_nil.1 (h0 ▸ hpre))
  rw [hV]
  exact ⟨fun ⟨ha, he, hi⟩ => ⟨⟨ha, he.lt hw⟩, he, hi⟩, fun ⟨⟨ha, _⟩, he, hi⟩ => ⟨ha, he, hi⟩⟩

/-- The positions of a pattern are all different just when none is covered twice. -/
theorem Recorded.nodup_result {V : List Nat} {root : BMTrieNode}
    (h : Recorded P.list text V root) (hP : P.list.Nodup) (hn : V.Nodup)
    (hV : ∀ b, b ∈ V ↔ Visited P text b ∧ b < text.length) {p : JString} (hp : p ∈ P.list) :
    (root.nodes.flatMap (contribution P.list p)).Nodup ↔
      ∀ i a b, CoveredFrom P text p i a → CoveredFrom P text p i b → a = b := by
  have hp0 := P.patterns p hp
  have hcontr : ∀ w, contribution P.list p (.recorded P.list text V w) = _ := fun w =>
    contribution_recorded hP V hp w
  have hadds : ∀ {w i}, Word P.list w →
      (i ∈ contribution P.list p (.recorded P.list text V w) ↔
        ∃ a ∈ V, p <+: w ∧ EndsAt w text a ∧ i + w.length = a + 1) := fun {w i} hw => by
    rw [hcontr]
    split
    · rename_i hpre
      have hw0 : w ≠ [] := fun h0 => hp0 (List.prefix_nil.1 (h0 ▸ hpre))
      rw [mem_positions, and_iff_right hw0]
      simp only [hpre, true_and]
    · rename_i hpre
      simp only [hpre, false_and, and_false, exists_const, List.not_mem_nil]
  rw [List.nodup_flatMap]
  refine ⟨fun ⟨_, hdisj⟩ i a b ha hb => ?_, fun honce => ⟨fun d hd => ?_, ?_⟩⟩
  · obtain ⟨w, hw, hpre, haV, hea, hia⟩ := (coveredFrom_iff hV hp0).1 ha
    obtain ⟨w', hw', hpre', hbV, heb, hib⟩ := (coveredFrom_iff hV hp0).1 hb
    by_contra hne
    -- the two suffixes are not equally long, and have a node each
    have hnodes : NodeData.recorded P.list text V w ≠ .recorded P.list text V w' := fun he => by
      have hww : w = w' := congrArg NodeData.matchStr he
      subst hww
      omega
    have hsymm : Std.Symm (Function.onFun List.Disjoint (contribution P.list p)) :=
      ⟨fun _ _ h _ hi hi' => h hi' hi⟩
    have := hdisj.forall (h.mem_nodes.2 ⟨w, hw, rfl⟩) (h.mem_nodes.2 ⟨w', hw', rfl⟩) hnodes
    exact this ((hadds hw).2 ⟨a, haV, hpre, hea, hia⟩) ((hadds hw').2 ⟨b, hbV, hpre', heb, hib⟩)
  · obtain ⟨w, -, rfl⟩ := h.mem_nodes.1 hd
    rw [hcontr]
    split
    · exact nodup_positions hn w
    · exact List.nodup_nil
  · refine h.nodes_nodup.imp_of_mem fun {d d'} hd hd' hne i hi hi' => hne ?_
    obtain ⟨w, hw, rfl⟩ := h.mem_nodes.1 hd
    obtain ⟨w', hw', rfl⟩ := h.mem_nodes.1 hd'
    obtain ⟨a, haV, hpre, hea, hia⟩ := (hadds hw).1 hi
    obtain ⟨b, hbV, hpre', heb, hib⟩ := (hadds hw').1 hi'
    obtain rfl := honce i a b ((coveredFrom_iff hV hp0).2 ⟨w, hw, hpre, haV, hea, hia⟩)
      ((coveredFrom_iff hV hp0).2 ⟨w', hw', hpre', hbV, heb, hib⟩)
    -- both end at the same alignment, and are equally long
    have hlen : w.length = w'.length := by omega
    have hww : w = w' := by
      have h1 := hea.2.take
      have h2 := heb.2.take
      rw [hlen] at h1
      exact h1.symm.trans h2
    rw [hww]

/-- **Occurrences recorded once**: for distinct patterns, no position list of the result has a
position twice just when no occurrence is covered from two alignments. -/
theorem acbm_noRepeats_iff (P : PatternArray) (hP : P.list.Nodup) (text : JString)
    (hint : IntSized P text) :
    ∃ resultMap, AcbmReturns P text resultMap ∧ (NoRepeats resultMap ↔ CoveredOnce P text) := by
  obtain ⟨V, root, hrec, hn, hV, hret⟩ := acbm_returns hint
  refine ⟨_, hret, fun h p hp => ?_, fun h p l hl => ?_⟩
  · apply (hrec.nodup_result hP hn hV hp).1
    obtain ⟨hget, -⟩ := genResult_getD P.list p root
    rw [← hget]
    cases hl : genResultFromNode root P.list p with
    | none => exact List.nodup_nil
    | some l => exact h p l hl
  · obtain ⟨hget, hne⟩ := genResult_getD P.list p root
    rw [hl, Option.getD_some] at hget
    rw [hget]
    by_cases hp : p ∈ P.list
    · exact (hrec.nodup_result hP hn hV hp).2 (h p hp)
    · -- a key of the map is a pattern
      have hnil : l = [] := by
        rw [hget, List.flatMap_eq_nil_iff]
        refine fun d _ => ?_
        unfold contribution
        split
        · rw [List.flatMap_eq_nil_iff]
          refine fun i hi => absurd ?_ hp
          obtain ⟨-, hi⟩ := List.mem_filter.1 hi
          obtain ⟨hi, he⟩ := of_decide_eq_true hi
          rw [← he, List.getD_eq_getElem?_getD, List.getElem?_eq_getElem hi]
          exact List.getElem_mem hi
        · rfl
      exact absurd (hl.trans (congrArg some hnil)) hne

/-- If a pattern is in the patterns at their ends only, no text makes it recorded twice. -/
theorem coveredOnce_of_ends (hends : ∀ p ∈ P.list, ∀ w, Word P.list w → p <+: w → w = p)
    (text : JString) : CoveredOnce P text := by
  rintro p hp i a b ⟨w, hw, hpre, -, -, hi⟩ ⟨w', hw', hpre', -, -, hi'⟩
  rw [hends p hp w hw hpre] at hi
  rw [hends p hp w' hw' hpre'] at hi'
  omega

/-! ## Runs -/

/-- The example of `main`, where `"test"` occurs twice. -/
theorem acbm_noRepeats_testabtest : ∃ resultMap,
    AcbmReturns patternsTestAb "testabtest".asciiUnits resultMap ∧ NoRepeats resultMap := by
  obtain ⟨resultMap, hret, hiff⟩ :=
    acbm_noRepeats_iff patternsTestAb (by decide) "testabtest".asciiUnits (by decide)
  have hends : ∀ p ∈ patternsTestAb.list, ∀ q ∈ patternsTestAb.list, ∀ w ∈ q.tails, p <+: w →
      w = p := by
    decide +kernel
  refine ⟨resultMap, hret, hiff.2 (coveredOnce_of_ends (fun p hp w hw hpre => ?_) _)⟩
  obtain ⟨q, hq, hsuf⟩ := hw
  exact hends p hp q hq w ((List.mem_tails w q).2 hsuf) hpre

/-- The patterns `"ba"`, `"xa"` and `"xab"`. -/
def patternsXab : PatternArray :=
  ⟨["ba".asciiUnits, "xa".asciiUnits, "xab".asciiUnits], by decide, by decide⟩

/-- The text `"zzxab"`: both `"xa"` and `"xab"` end at an alignment, and 2 is recorded twice. -/
theorem acbm_repeats_xa : patternsXab.list.Nodup ∧
    ∃ resultMap, AcbmReturns patternsXab "zzxab".asciiUnits resultMap ∧
      resultMap "xa".asciiUnits = some [2, 2] ∧ ¬ NoRepeats resultMap := by
  obtain ⟨m, hret, hm⟩ : ∃ m, AcbmReturns patternsXab "zzxab".asciiUnits m ∧
      m "xa".asciiUnits = some [2, 2] :=
    Loop.returns_of_run_any 8 (by decide +kernel)
  exact ⟨by decide, m, hret, hm, fun h => absurd (h _ _ hm) (by decide)⟩

end BmTrie
