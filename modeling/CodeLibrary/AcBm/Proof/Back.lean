import CodeLibrary.AcBm.Back
import CodeLibrary.AcBm.Proof.TreeInv

/-!
# The backward pattern tree of `ac_bm.c` and the forward one

* `Alike`: two trees with the same child slots, bytes, labels and links. `ACtreeback_build` builds
  the tree that `ACtree_build` builds from the reversed patterns (`acTreeBackBuild_alike`), with the
  same lengths (`acTreeBackBuild_sameTrie`).
* `acTreeBackBuild_noFlag`: no node of it has a flag.
-/

namespace AcBm

/-- The pattern backwards. -/
def PatternData.reversed (pat : PatternData) : PatternData := { pat with data := pat.data.reverse }

/-- The nodes `ns'` are the nodes `ns` with other `depth`s and flags. -/
def Alike (ns ns' : Nodes) : Prop :=
  ns'.length = ns.length ∧ ∀ m, ns'.node m =
    { ns.node m with depth := (ns'.node m).depth, caseSen := (ns'.node m).caseSen }

theorem Alike.refl (ns : Nodes) : Alike ns ns := ⟨rfl, fun _ => rfl⟩

theorem Alike.childs {ns ns' : Nodes} (h : Alike ns ns') (m : Nat) :
    (ns'.node m).childs = (ns.node m).childs := by rw [h.2]

theorem addChildBack_node {ns : Nodes} {p : Nat} (hp : p < ns.length) (cs : Bool) (d : Nat)
    (ch : UInt8) (m : Nat) :
    (addChildBack ns cs p d ch).node m =
      if m = p then
        { ns.node p with
          childs := hangChild (ns.node p).childs cs ch ns.length
          nchild := (ns.node p).nchild + 1
          oneChild := ch }
      else if m = ns.length then
        { PatternTreeNode.zero with depth := d, ch, label := -1, parent := some p }
      else ns.node m :=
  node_append_modify hp _ _ m

theorem addChildBack_length (ns : Nodes) (cs : Bool) (p d : Nat) (ch : UInt8) :
    (addChildBack ns cs p d ch).length = ns.length + 1 := by
  simp [addChildBack]

theorem Alike.addChild {ns ns' : Nodes} (h : Alike ns ns') {p : Nat} (hp : p < ns.length)
    (cs : Bool) (d d' : Nat) (ch : UInt8) :
    Alike (addChild ns cs p d ch) (addChildBack ns' cs p d' ch) := by
  refine ⟨by rw [addChildBack_length, addChild_length, h.1], fun m => ?_⟩
  rw [addChildBack_node (by rw [h.1]; exact hp), addChild_node hp, h.1, h.2 p]
  by_cases hmp : m = p
  · subst hmp
    simp
  · rw [if_neg hmp, if_neg hmp]
    by_cases hml : m = ns.length
    · simp [hml]
    · rw [if_neg hml, if_neg hml]
      exact h.2 m

theorem Alike.findAddingPoint {ns ns' : Nodes} (h : Alike ns ns') (cs : Bool) :
    ∀ (bytes : List UInt8) (p : Nat),
      findAddingPoint ns' cs p bytes = findAddingPoint ns cs p bytes
  | [], _ => rfl
  | c :: rest, p => by
    simp only [AcBm.findAddingPoint, h.childs]
    split
    · rfl
    · exact h.findAddingPoint cs rest _

theorem Alike.addBranch (cs : Bool) : ∀ (rest : List UInt8) {ns ns' : Nodes} {p : Nat} (chI : Nat),
    Alike ns ns' → p < ns.length →
    Alike (addBranch cs ns p chI rest).1 (addBranchBack cs ns' p rest).1 ∧
      (addBranchBack cs ns' p rest).2 = (addBranch cs ns p chI rest).2
  | [], _, _, _, _, h, _ => ⟨h, rfl⟩
  | c :: rest, ns, ns', p, chI, h, hp => by
    have h' := h.addChild hp cs (chI + 1) (rest.length + 1) (foldCh cs c)
    have hlt : ns.length < (AcBm.addChild ns cs p (chI + 1) (foldCh cs c)).length := by simp
    rw [AcBm.addBranch, addBranchBack, h.1]
    exact Alike.addBranch cs rest (chI + 1) h' hlt

theorem Alike.setLabel {ns ns' : Nodes} (h : Alike ns ns') {n : Nat} (hn : n < ns.length)
    (l : Int) : Alike (ns.modify n fun nd => { nd with label := l })
      (ns'.modify n fun nd => { nd with label := l }) := by
  refine ⟨by simp [h.1], fun m => ?_⟩
  rw [node_modify _ _ _ _ (by rw [h.1]; exact hn), node_modify _ _ _ _ hn]
  by_cases hm : m = n
  · rw [if_pos hm, if_pos hm, h.2 m]
  · rw [if_neg hm, if_neg hm]
    exact h.2 m

/-- A pattern entered backwards. -/
theorem addPatternBack_alike {b b' : Build} (hI : TreeInv b.nodes) (h : Alike b.nodes b'.nodes)
    (hmax : b'.maxPatternLen = b.maxPatternLen) (hmin : b'.minPatternLen = b.minPatternLen)
    (i : Nat) {pat : PatternData} (hlen : pat.len ≤ patternLen) :
    Alike (addPattern b i pat.reversed).nodes (addPatternBack b' i pat).nodes ∧
      (addPatternBack b' i pat).maxPatternLen = (addPattern b i pat.reversed).maxPatternLen ∧
      (addPatternBack b' i pat).minPatternLen = (addPattern b i pat.reversed).minPatternLen := by
  have hrev : pat.reversed.len = pat.len := List.length_reverse
  have hbytes : (pat.data.take (min pat.len patternLen)).reverse =
      pat.reversed.data.take (min pat.len patternLen) := by
    rw [Nat.min_eq_left hlen]
    show (pat.data.take pat.data.length).reverse = pat.data.reverse.take pat.data.length
    rw [List.take_length, List.take_of_length_le (by simp)]
  have hcs : pat.reversed.caseSen = pat.caseSen := rfl
  unfold addPattern addPatternBack
  rw [hrev, hcs]
  by_cases h0 : pat.len = 0
  · rw [if_pos h0, if_pos h0]
    exact ⟨h, hmax, hmin⟩
  · rw [if_neg h0, if_neg h0]
    dsimp only
    rw [hbytes, h.findAddingPoint, hmax, hmin]
    obtain ⟨pre, -, hf, hnone⟩ := findAddingPoint_spec b.nodes pat.caseSen
      (pat.reversed.data.take (min pat.len patternLen)) 0
    generalize findAddingPoint b.nodes pat.caseSen 0
      (pat.reversed.data.take (min pat.len patternLen)) = fp at hf hnone ⊢
    obtain ⟨p, rest⟩ := fp
    dsimp only at hf hnone ⊢
    have hp := (hI.follow_lt hf hI.pos).2
    have hinv := addBranch_inv (min pat.len patternLen - rest.length) hI hp hnone
    have hb := h.addBranch pat.caseSen rest (min pat.len patternLen - rest.length) hp
    rw [hb.2]
    exact ⟨hb.1.setLabel hinv.2.1 i, rfl, rfl⟩

theorem addPatternsBack_alike : ∀ (pats : List PatternData) {b b' : Build} (i : Nat),
    TreeInv b.nodes → Alike b.nodes b'.nodes → b'.maxPatternLen = b.maxPatternLen →
    b'.minPatternLen = b.minPatternLen → (∀ pat ∈ pats, pat.len ≤ patternLen) →
    Alike (addPatterns b i (pats.map PatternData.reversed)).nodes
        (addPatternsBack b' i pats).nodes ∧
      (addPatternsBack b' i pats).maxPatternLen =
        (addPatterns b i (pats.map PatternData.reversed)).maxPatternLen ∧
      (addPatternsBack b' i pats).minPatternLen =
        (addPatterns b i (pats.map PatternData.reversed)).minPatternLen
  | [], _, _, _, _, h, hmax, hmin, _ => ⟨h, hmax, hmin⟩
  | pat :: pats, _, _, i, hI, h, hmax, hmin, hlen => by
    obtain ⟨h', hmax', hmin'⟩ := addPatternBack_alike hI h hmax hmin i (hlen pat (.head _))
    exact addPatternsBack_alike pats (i + 1) (addPattern_inv hI i _) h' hmax' hmin'
      fun q hq => hlen q (.tail _ hq)

/-- **The backward tree** is the tree of the reversed patterns. -/
theorem acTreeBackBuild_alike {pats : List PatternData}
    (hlen : ∀ pat ∈ pats, pat.len ≤ patternLen) :
    Alike (acTreeBuild (pats.map PatternData.reversed)).nodes (acTreeBackBuild pats).nodes :=
  (addPatternsBack_alike pats 0 buildInit_inv (.refl _) rfl rfl hlen).1

/-- The same trie in two trees: corresponding nodes, which are those of one index, have the same
children in the same slots, and the same `ch`, `label`, `nchild` and `one_child`. -/
structure SameTrie (t t' : PatternTree) : Prop where
  length : t'.nodes.length = t.nodes.length
  childs : ∀ m, (t'.nodes.node m).childs = (t.nodes.node m).childs
  ch : ∀ m, (t'.nodes.node m).ch = (t.nodes.node m).ch
  label : ∀ m, (t'.nodes.node m).label = (t.nodes.node m).label
  nchild : ∀ m, (t'.nodes.node m).nchild = (t.nodes.node m).nchild
  oneChild : ∀ m, (t'.nodes.node m).oneChild = (t.nodes.node m).oneChild
  maxDepth : t'.maxDepth = t.maxDepth
  minPatternSize : t'.minPatternSize = t.minPatternSize

/-- **`ACtreeback_build` yields the trie of `ACtree_build`** for the reversed patterns. -/
theorem acTreeBackBuild_sameTrie (pats : List PatternData)
    (hlen : ∀ pat ∈ pats, pat.len ≤ patternLen) :
    SameTrie (acTreeBuild (pats.map PatternData.reversed)) (acTreeBackBuild pats) := by
  obtain ⟨⟨hlength, hnode⟩, hmax, hmin⟩ :=
    addPatternsBack_alike pats 0 buildInit_inv (.refl _) rfl rfl hlen
  exact ⟨hlength, fun m => congrArg (·.childs) (hnode m), fun m => congrArg (·.ch) (hnode m),
    fun m => congrArg (·.label) (hnode m), fun m => congrArg (·.nchild) (hnode m),
    fun m => congrArg (·.oneChild) (hnode m), hmax, hmin⟩

/-- Patterns that share and extend one another, of either flag, and one of length 0. -/
theorem acTreeBackBuild_sameTrie_mixed :
    SameTrie (acTreeBuild ([⟨[97, 98], false⟩, ⟨[], true⟩, ⟨[67, 98], true⟩, ⟨[98], false⟩].map
      PatternData.reversed))
      (acTreeBackBuild [⟨[97, 98], false⟩, ⟨[], true⟩, ⟨[67, 98], true⟩, ⟨[98], false⟩]) :=
  acTreeBackBuild_sameTrie _ (by decide)

/-! ## Flags -/

/-- No node has a flag. -/
def NoFlag (ns : Nodes) : Prop := ∀ nd ∈ ns, nd.caseSen = false

theorem NoFlag.node {ns : Nodes} (h : NoFlag ns) (m : Nat) : (ns.node m).caseSen = false := by
  unfold Nodes.node
  rw [List.getD_eq_getElem?_getD]
  cases hm : ns[m]? with
  | none => rfl
  | some nd => exact h nd (List.mem_of_getElem? hm)

theorem NoFlag.modify {ns : Nodes} (h : NoFlag ns) (n : Nat)
    {f : PatternTreeNode → PatternTreeNode} (hf : ∀ nd, (f nd).caseSen = nd.caseSen) :
    NoFlag (ns.modify n f) := by
  intro nd hnd
  obtain ⟨m, hm⟩ := List.mem_iff_getElem?.1 hnd
  rw [List.getElem?_modify] at hm
  cases hold : ns[m]? with
  | none =>
    rw [hold] at hm
    cases hm
  | some old =>
    have hflag := h old (List.mem_of_getElem? hold)
    rw [hold] at hm
    simp only [Option.map_eq_map, Option.map_some, Option.some.injEq] at hm
    subst hm
    split
    · rw [hf]
      exact hflag
    · exact hflag

theorem NoFlag.addBranchBack {cs : Bool} : ∀ (rest : List UInt8) {ns : Nodes} {p : Nat},
    NoFlag ns → NoFlag (addBranchBack cs ns p rest).1
  | [], _, _, h => h
  | c :: rest, ns, p, h => by
    have hnew : NoFlag (addChildBack ns cs p (rest.length + 1) (foldCh cs c)) := by
      unfold addChildBack
      refine NoFlag.modify (fun nd hnd => ?_) p fun _ => rfl
      rcases List.mem_append.1 hnd with hnd | hnd
      · exact h nd hnd
      · rw [List.mem_singleton.1 hnd]
        rfl
    exact NoFlag.addBranchBack rest hnew

theorem addPatternsBack_noFlag : ∀ (pats : List PatternData) {b : Build} (i : Nat),
    NoFlag b.nodes → NoFlag (addPatternsBack b i pats).nodes
  | [], _, _, h => h
  | pat :: pats, b, i, h => by
    apply addPatternsBack_noFlag pats (i + 1)
    unfold addPatternBack
    split
    · exact h
    · exact (NoFlag.addBranchBack _ h).modify _ fun _ => rfl

/-- **No node of the backward tree has a flag.** -/
theorem acTreeBackBuild_noFlag (pats : List PatternData) : NoFlag (acTreeBackBuild pats).nodes :=
  addPatternsBack_noFlag pats 0 fun nd hnd => by
    rw [List.mem_singleton.1 hnd]
    rfl

end AcBm
