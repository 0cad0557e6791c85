import CodeLibrary.AcBm.Spec

/-!
# The shape of the pattern tree

* Folding: `hangChild_apply` says which slots a new node is hung into, as the bytes that fold to
  its byte.
* `TreeInv`: what `ACtree_build` keeps for patterns of any flags. A child is a later node than its
  parent, hangs under one parent only, in the slot of its byte or in that slot's upper-case alias;
  `one_child` names a child wherever `nchild` is positive.
* `addBranch_inv`, `addPattern_inv`, `acTreeBuild_inv`: the build keeps it.
-/

namespace AcBm

/-! ## Folding -/

theorem isUpper_iff {c : UInt8} : isUpper c = true ↔ 65 ≤ c.toNat ∧ c.toNat ≤ 90 := by
  simp only [isUpper, UInt8.le_iff_toNat_le, Bool.and_eq_true, decide_eq_true_eq]
  rfl

theorem isLower_iff {c : UInt8} : isLower c = true ↔ 97 ≤ c.toNat ∧ c.toNat ≤ 122 := by
  simp only [isLower, UInt8.le_iff_toNat_le, Bool.and_eq_true, decide_eq_true_eq]
  rfl

theorem toNat_tolower (c : UInt8) :
    (tolower c).toNat = if isUpper c then c.toNat + 32 else c.toNat := by
  unfold tolower
  split
  · rename_i h
    have := isUpper_iff.1 h
    rw [UInt8.toNat_add, show (32 : UInt8).toNat = 32 by decide]
    omega
  · rfl

theorem isUpper_tolower (c : UInt8) : isUpper (tolower c) = false := by
  rw [Bool.eq_false_iff, ne_eq, isUpper_iff, toNat_tolower]
  by_cases h : isUpper c
  · have := isUpper_iff.1 h
    simp [h]
    omega
  · simpa [h] using mt isUpper_iff.2 h

theorem tolower_of_not_isUpper {c : UInt8} (h : isUpper c = false) : tolower c = c := by
  simp [tolower, h]

@[simp] theorem tolower_tolower (c : UInt8) : tolower (tolower c) = tolower c :=
  tolower_of_not_isUpper (isUpper_tolower c)

@[simp] theorem foldCh_foldCh (cs : Bool) (c : UInt8) : foldCh cs (foldCh cs c) = foldCh cs c := by
  cases cs <;> simp [foldCh]

@[simp] theorem foldCh_true (c : UInt8) : foldCh true c = c := rfl
@[simp] theorem foldCh_false (c : UInt8) : foldCh false c = tolower c := rfl

/-- The upper-case alias of a lower-case letter. -/
theorem toNat_sub_32 {c : UInt8} (h : isLower c = true) : (c - 32).toNat = c.toNat - 32 := by
  have := isLower_iff.1 h
  rw [UInt8.toNat_sub, show (32 : UInt8).toNat = 32 by decide]
  omega

theorem isUpper_sub_32 {c : UInt8} (h : isLower c = true) : isUpper (c - 32) = true := by
  have := isLower_iff.1 h
  rw [isUpper_iff, toNat_sub_32 h]
  omega

theorem sub_32_add_32 (c : UInt8) : c - 32 + 32 = c := by simp

theorem tolower_sub_32 {c : UInt8} (h : isLower c = true) : tolower (c - 32) = c := by
  simp [tolower, isUpper_sub_32 h]

/-- A byte folds to a lower-case letter from the letter itself or from its upper-case alias. -/
theorem tolower_eq_iff {c ch : UInt8} (hch : isUpper ch = false) :
    tolower c = ch ↔ c = ch ∨ (isLower ch = true ∧ c = ch - 32) := by
  constructor
  · intro h
    by_cases hc : isUpper c
    · refine .inr ⟨?_, ?_⟩
      · have h1 := isUpper_iff.1 hc
        have h2 := toNat_tolower c
        rw [isLower_iff, ← h, h2]
        simp [hc]
        omega
      · rw [← h]
        simp [tolower, hc]
    · exact .inl (by rw [← h, tolower_of_not_isUpper (by simpa using hc)])
  · intro hx
    rcases hx with rfl | ⟨hl, rfl⟩
    · exact tolower_of_not_isUpper hch
    · exact tolower_sub_32 hl

/-- A byte as `ACtree_build` folds it: no upper-case letter where the case does not count. -/
def Folded (cs : Bool) (ch : UInt8) : Prop := cs = false → isUpper ch = false

theorem folded_foldCh (cs : Bool) (c : UInt8) : Folded cs (foldCh cs c) := by
  rintro rfl
  exact isUpper_tolower c

theorem foldCh_of_folded {cs : Bool} {ch : UInt8} (h : Folded cs ch) : foldCh cs ch = ch := by
  cases cs with
  | false => exact tolower_of_not_isUpper (h rfl)
  | true => rfl

/-- **The slots a new node is hung into** are those of the bytes that fold to its byte. -/
theorem hangChild_apply {cs : Bool} {ch : UInt8} (hch : Folded cs ch)
    (childs : UInt8 → Option Nat) (node : Nat) (c : UInt8) :
    hangChild childs cs ch node c = if foldCh cs c = ch then some node else childs c := by
  cases cs with
  | true => by_cases h : c = ch <;> simp [hangChild, h]
  | false =>
    have hiff := tolower_eq_iff (c := c) (hch rfl)
    by_cases hl : isLower ch = true
    · simp only [hangChild, hl, foldCh_false, hiff, Bool.not_false, Bool.and_self, ↓reduceIte,
        Function.update_apply, true_and]
      by_cases h1 : c = ch - 32
      · simp [h1]
      · by_cases h2 : c = ch <;> simp [h1, h2]
    · simp [hangChild, hl, hiff, Function.update_apply]

@[simp] theorem foldAll_foldAll (cs : Bool) (s : List UInt8) :
    foldAll cs (foldAll cs s) = foldAll cs s := by simp [foldAll, Function.comp_def]

@[simp] theorem foldAll_true (s : List UInt8) : foldAll true s = s :=
  (List.map_congr_left fun _ _ => rfl).trans s.map_id

/-! ## Nodes -/

theorem node_of_le {ns : Nodes} {n : Nat} (h : ns.length ≤ n) : ns.node n = .zero := by
  simp [Nodes.node, List.getD_eq_getElem?_getD, List.getElem?_eq_none h]

theorem node_modify (ns : Nodes) (n m : Nat) (f : PatternTreeNode → PatternTreeNode)
    (hn : n < ns.length) :
    Nodes.node (ns.modify n f) m = if m = n then f (ns.node m) else ns.node m := by
  unfold Nodes.node
  rw [List.getD_eq_getElem?_getD, List.getD_eq_getElem?_getD, List.getElem?_modify]
  by_cases h : m = n
  · subst h
    simp [List.getElem?_eq_getElem hn]
  · simp [h, Ne.symm h]

theorem node_append (ns : Nodes) (nd : PatternTreeNode) (m : Nat) :
    Nodes.node (ns ++ [nd]) m = if m = ns.length then nd else ns.node m := by
  unfold Nodes.node
  rw [List.getD_eq_getElem?_getD, List.getD_eq_getElem?_getD]
  by_cases h : m = ns.length
  · subst h; simp
  · rcases Nat.lt_or_gt_of_ne h with h' | h'
    · simp [h, List.getElem?_append_left h']
    · rw [List.getElem?_eq_none (by simp; omega), List.getElem?_eq_none (by omega)]
      simp [h]

/-- A node appended, and its parent changed. -/
theorem node_append_modify {ns : Nodes} {p : Nat} (hp : p < ns.length) (nd : PatternTreeNode)
    (f : PatternTreeNode → PatternTreeNode) (m : Nat) :
    Nodes.node ((ns ++ [nd]).modify p f) m =
      if m = p then f (ns.node p) else if m = ns.length then nd else ns.node m := by
  rw [node_modify _ _ _ _ (by simp; omega), node_append]
  by_cases h : m = p
  · subst h
    simp [show m ≠ ns.length by omega]
  · simp [h]

@[simp] theorem addChild_length (ns : Nodes) (cs : Bool) (p d : Nat) (ch : UInt8) :
    (addChild ns cs p d ch).length = ns.length + 1 := by
  simp [addChild]

/-- The nodes after a round of the branch loop. -/
theorem addChild_node {ns : Nodes} {p : Nat} (hp : p < ns.length) (cs : Bool) (d : Nat)
    (ch : UInt8) (m : Nat) :
    (addChild ns cs p d ch).node m =
      if m = p then
        { ns.node p with
          childs := hangChild (ns.node p).childs cs ch ns.length
          nchild := (ns.node p).nchild + 1
          oneChild := ch }
      else if m = ns.length then
        { PatternTreeNode.zero with depth := d, ch, caseSen := cs, label := -1, parent := some p }
      else ns.node m :=
  node_append_modify hp _ _ m

/-- The new node of a round. -/
theorem addChild_new {ns : Nodes} {p : Nat} (hp : p < ns.length) (cs : Bool) (d : Nat)
    (ch : UInt8) : (addChild ns cs p d ch).node ns.length =
      { PatternTreeNode.zero with
        depth := d, ch, caseSen := cs, label := -1, parent := some p } := by
  rw [addChild_node hp, if_neg (by omega), if_pos rfl]

/-- What a round leaves as it is in the nodes that were there before. -/
theorem addChild_old {ns : Nodes} {p : Nat} (hp : p < ns.length) (cs : Bool) (d : Nat)
    (ch : UInt8) {m : Nat} (hm : m ≠ ns.length) :
    ((addChild ns cs p d ch).node m).ch = (ns.node m).ch ∧
      ((addChild ns cs p d ch).node m).caseSen = (ns.node m).caseSen ∧
      ((addChild ns cs p d ch).node m).parent = (ns.node m).parent ∧
      ((addChild ns cs p d ch).node m).label = (ns.node m).label := by
  rw [addChild_node hp]
  by_cases hmp : m = p <;> simp [hmp, hm]

/-! ## The invariant of the build -/

/-- The shape `ACtree_build` keeps (module doc). -/
structure TreeInv (ns : Nodes) : Prop where
  pos : 0 < ns.length
  rootLabel : (ns.node 0).label = -2
  rootFlag : (ns.node 0).caseSen = false
  childLt : ∀ {n c m}, (ns.node n).childs c = some m → n < m ∧ m < ns.length
  parent : ∀ {n c m}, (ns.node n).childs c = some m → (ns.node m).parent = some n
  slot : ∀ {n c m}, (ns.node n).childs c = some m → (ns.node m).ch = c ∨
    (isUpper c = true ∧ (ns.node m).ch = c + 32 ∧ (ns.node m).caseSen = false ∧
      (ns.node n).childs (c + 32) = some m)
  nchild : ∀ {n c m}, (ns.node n).childs c = some m → 0 < (ns.node n).nchild
  oneChild : ∀ {n}, 0 < (ns.node n).nchild → ∃ m, (ns.node n).childs (ns.node n).oneChild = some m
  label : ∀ {m}, 0 < m → (ns.node m).label ≠ -2
  folded : ∀ {m}, (ns.node m).caseSen = false → isUpper (ns.node m).ch = false

theorem TreeInv.ne_root {ns : Nodes} (h : TreeInv ns) {n : Nat} {c : UInt8} {m : Nat}
    (hc : (ns.node n).childs c = some m) : m ≠ 0 := by
  have := h.childLt hc
  omega

theorem TreeInv.lt_of_childs {ns : Nodes} (h : TreeInv ns) {n : Nat} {c : UInt8} {m : Nat}
    (hc : (ns.node n).childs c = some m) : n < ns.length := by
  have := h.childLt hc
  omega

/-- The slots of a new node below `p`, after and before. -/
theorem addChild_childs {ns : Nodes} {p : Nat} (hp : p < ns.length) {cs : Bool} {ch : UInt8}
    (hch : Folded cs ch) (d n : Nat) (c : UInt8) :
    ((addChild ns cs p d ch).node n).childs c =
      if n = p ∧ foldCh cs c = ch then some ns.length else (ns.node n).childs c := by
  rw [addChild_node hp]
  by_cases hn : n = p
  · subst hn
    simp only [↓reduceIte, hangChild_apply hch, true_and]
  · by_cases hn' : n = ns.length
    · subst hn'
      simp [hn, node_of_le, PatternTreeNode.zero]
    · simp [hn, hn']

section
variable {ns : Nodes} (h : TreeInv ns) {p : Nat} (hp : p < ns.length) {cs : Bool} {ch : UInt8}
  (hch : Folded cs ch)
include h hp hch

/-- The slots of a node are those of its byte, also of the new node. -/
theorem TreeInv.addChild_slot (hnone : (ns.node p).childs ch = none) (d : Nat) {n : Nat}
    {c : UInt8} {m : Nat} (hc : ((addChild ns cs p d ch).node n).childs c = some m) :
    ((addChild ns cs p d ch).node m).ch = c ∨
      (isUpper c = true ∧ ((addChild ns cs p d ch).node m).ch = c + 32 ∧
        ((addChild ns cs p d ch).node m).caseSen = false ∧
        ((addChild ns cs p d ch).node n).childs (c + 32) = some m) := by
  have hchilds := addChild_childs hp hch d
  rw [hchilds] at hc
  by_cases hn : n = p ∧ foldCh cs c = ch
  · rw [if_pos hn] at hc
    cases hc
    obtain ⟨rfl, hfold⟩ := hn
    rw [addChild_new hp]
    cases cs with
    | true => exact .inl hfold.symm
    | false =>
      rcases (tolower_eq_iff (hch rfl)).1 hfold with rfl | ⟨hl, rfl⟩
      · exact .inl rfl
      · refine .inr ⟨isUpper_sub_32 hl, by simp, rfl, ?_⟩
        rw [hchilds, sub_32_add_32, foldCh_of_folded hch]
        simp
  · rw [if_neg hn] at hc
    have hm : m ≠ ns.length := by
      have := h.childLt hc
      omega
    obtain ⟨hbyte, hflag, -, -⟩ := addChild_old hp cs d ch hm
    rw [hbyte, hflag]
    rcases h.slot hc with hs | ⟨hu, hs, hf, hl⟩
    · exact .inl hs
    · refine .inr ⟨hu, hs, hf, ?_⟩
      rw [hchilds, if_neg]
      · exact hl
      · -- the alias would be the slot of the new byte, which is empty
        rintro ⟨rfl, hfold⟩
        have hlow : isUpper (c + 32) = false := by
          have := isUpper_tolower c
          rwa [tolower, if_pos hu] at this
        have hself : foldCh cs (c + 32) = c + 32 := foldCh_of_folded fun _ => hlow
        rw [← hfold, hself, hl] at hnone
        cases hnone

/-- `one_child` names a child, also of the parent of the new node. -/
theorem TreeInv.addChild_oneChild (d : Nat) {n : Nat}
    (hn : 0 < ((addChild ns cs p d ch).node n).nchild) :
    ∃ m, ((addChild ns cs p d ch).node n).childs ((addChild ns cs p d ch).node n).oneChild =
      some m := by
  rw [addChild_node hp] at hn
  by_cases hnp : n = p
  · subst hnp
    refine ⟨ns.length, ?_⟩
    rw [addChild_childs hp hch, addChild_node hp]
    simp [foldCh_of_folded hch]
  · by_cases hnl : n = ns.length
    · rw [if_neg hnp, if_pos hnl] at hn
      exact absurd hn (by simp [PatternTreeNode.zero])
    · rw [if_neg hnp, if_neg hnl] at hn
      obtain ⟨m, hm⟩ := h.oneChild hn
      refine ⟨m, ?_⟩
      rw [addChild_node hp, if_neg hnp, if_neg hnl]
      exact hm

/-- A round of the branch loop keeps the shape, where the slot of the new byte is empty. -/
theorem TreeInv.addChild (hnone : (ns.node p).childs ch = none) (d : Nat) :
    TreeInv (addChild ns cs p d ch) := by
  have hchilds := addChild_childs hp hch d
  have hnew := addChild_new hp cs d ch
  have hold := fun {m} => addChild_old hp cs d ch (m := m)
  have hlt : ∀ {n c m}, (ns.node n).childs c = some m → m ≠ ns.length := fun hc => by
    have := h.childLt hc
    omega
  have hroot : 0 ≠ ns.length := by
    have := h.pos
    omega
  refine ⟨by simp, ?_, ?_, ?_, ?_, h.addChild_slot hp hch hnone d, ?_,
    h.addChild_oneChild hp hch d, ?_, ?_⟩
  · rw [(hold hroot).2.2.2]
    exact h.rootLabel
  · rw [(hold hroot).2.1]
    exact h.rootFlag
  · intro n c m hc
    rw [hchilds] at hc
    split at hc
    · rename_i hn
      cases hc
      exact ⟨by omega, by simp⟩
    · have := h.childLt hc
      exact ⟨this.1, by simp; omega⟩
  · intro n c m hc
    rw [hchilds] at hc
    split at hc
    · rename_i hn
      cases hc
      rw [hnew, hn.1]
    · rw [(hold (hlt hc)).2.2.1]
      exact h.parent hc
  · intro n c m hc
    rw [hchilds] at hc
    rw [addChild_node hp]
    by_cases hn : n = p
    · simp [hn]
    · simp only [hn, false_and, ↓reduceIte] at hc
      have := h.lt_of_childs hc
      simp only [hn, ↓reduceIte, show n ≠ ns.length by omega]
      exact h.nchild hc
  · intro m hm
    by_cases hml : m = ns.length
    · rw [hml, hnew]
      simp
    · rw [(hold hml).2.2.2]
      exact h.label hm
  · intro m hm
    by_cases hml : m = ns.length
    · rw [hml, hnew] at hm ⊢
      exact hch hm
    · rw [(hold hml).2.1] at hm
      rw [(hold hml).1]
      exact h.folded hm

end

/-- A label on a node that is not the root keeps the shape. -/
theorem TreeInv.setLabel {ns : Nodes} (h : TreeInv ns) {n : Nat} (hn : 0 < n)
    (hlt : n < ns.length) (i : Nat) :
    TreeInv (ns.modify n fun nd => { nd with label := i }) := by
  have hnode := fun m => node_modify ns n m (fun nd => { nd with label := (i : Int) }) hlt
  have hsame : ∀ m, ∃ l : Int, Nodes.node (ns.modify n fun nd => { nd with label := i }) m =
      { ns.node m with label := l } ∧ (l = (ns.node m).label ∨ (m = n ∧ l = i)) := fun m => by
    rw [hnode]
    by_cases hm : m = n
    · exact ⟨i, by simp [hm], .inr ⟨hm, rfl⟩⟩
    · exact ⟨(ns.node m).label, by simp [hm], .inl rfl⟩
  have hchilds : ∀ m, (Nodes.node (ns.modify n fun nd => { nd with label := i }) m).childs =
      (ns.node m).childs := fun m => by
    obtain ⟨l, hl, -⟩ := hsame m
    rw [hl]
  refine ⟨by simpa using h.pos, ?_, ?_, fun hc => ?_, fun {a c m} hc => ?_, fun {a c m} hc => ?_,
    fun {a c m} hc => ?_, fun {a} ha => ?_, fun {m} hm => ?_, fun {m} hm => ?_⟩
  · rw [hnode, if_neg (by omega)]
    exact h.rootLabel
  · rw [hnode, if_neg (by omega)]
    exact h.rootFlag
  · rw [hchilds] at hc
    simpa using h.childLt hc
  · rw [hchilds] at hc
    obtain ⟨l, hl, -⟩ := hsame m
    rw [hl]
    exact h.parent hc
  · rw [hchilds] at hc ⊢
    obtain ⟨l, hl, -⟩ := hsame m
    rw [hl]
    exact h.slot hc
  · rw [hchilds] at hc
    obtain ⟨l, hl, -⟩ := hsame a
    rw [hl]
    exact h.nchild hc
  · obtain ⟨l, hl, -⟩ := hsame a
    rw [hl] at ha ⊢
    exact h.oneChild ha
  · obtain ⟨l, hl, hcase⟩ := hsame m
    rw [hl]
    rcases hcase with rfl | ⟨-, rfl⟩
    · exact h.label hm
    · show (i : Int) ≠ -2
      omega
  · obtain ⟨l, hl, -⟩ := hsame m
    rw [hl] at hm ⊢
    exact h.folded hm

/-! ## Following the tree -/

theorem follow_append (ns : Nodes) : ∀ (s s' : List UInt8) (p : Nat),
    follow ns p (s ++ s') = (follow ns p s).bind fun q => follow ns q s'
  | [], _, _ => rfl
  | c :: s, s', p => by
    simp only [List.cons_append, follow]
    split
    · rfl
    · exact follow_append ns s s' _

theorem follow_snoc (ns : Nodes) (s : List UInt8) (c : UInt8) (p : Nat) :
    follow ns p (s ++ [c]) = (follow ns p s).bind fun q => (ns.node q).childs c := by
  rw [follow_append]
  congr 1
  funext q
  simp only [follow]
  split <;> simp_all

/-- **What `follow` finds**, where every node has a word of its own and `next` gives the word of a
child: the node of the word along the path. -/
theorem follow_iff_foldl {ns : Nodes} {words : List (List UInt8)}
    {next : List UInt8 → UInt8 → List UInt8} (hnodup : words.Nodup)
    (hclosed : ∀ {w c}, next w c ∈ words → w ∈ words)
    (hslot : ∀ {n c m}, (ns.node n).childs c = some m ↔
      ∃ w, words[n]? = some w ∧ words[m]? = some (next w c))
    {p : Nat} {w : List UInt8} (hp : words[p]? = some w) (s : List UInt8) :
    ∀ {m : Nat}, follow ns p s = some m ↔ words[m]? = some (s.foldl next w) := by
  induction s using List.reverseRecOn with
  | nil =>
    intro m
    simp only [follow, Option.some.injEq, List.foldl_nil]
    refine ⟨fun hm => hm ▸ hp, fun hm => ?_⟩
    exact (List.getElem?_inj (List.getElem?_eq_some_iff.1 hp).1 hnodup).1 (hp.trans hm.symm)
  | append_singleton s c ih =>
    intro m
    rw [follow_snoc, Option.bind_eq_some_iff, List.foldl_append, List.foldl_cons, List.foldl_nil]
    constructor
    · intro hx
      obtain ⟨q, hq, hc⟩ := hx
      obtain ⟨v, hv, hm⟩ := hslot.1 hc
      rw [ih.1 hq] at hv
      cases hv
      exact hm
    · intro hm
      obtain ⟨q, hq⟩ := List.mem_iff_getElem?.1 (hclosed (List.mem_of_getElem? hm))
      exact ⟨q, ih.2 hq, hslot.2 ⟨_, hq, hm⟩⟩

/-- Following the tree leads to later nodes. -/
theorem TreeInv.follow_lt {ns : Nodes} (h : TreeInv ns) : ∀ {s : List UInt8} {p q : Nat},
    follow ns p s = some q → p < ns.length → p + s.length ≤ q ∧ q < ns.length
  | [], p, q, hf, hp => by
    simp only [follow, Option.some.injEq] at hf
    subst hf
    exact ⟨by simp, hp⟩
  | c :: s, p, q, hf, hp => by
    simp only [follow] at hf
    split at hf
    · cases hf
    · rename_i child hc
      have h1 := h.childLt hc
      have h2 := h.follow_lt hf h1.2
      refine ⟨?_, h2.2⟩
      simp only [List.length_cons]
      omega

/-- The branch adding point: the bytes before it are in the tree, the next one is not. -/
theorem findAddingPoint_spec (ns : Nodes) (cs : Bool) : ∀ (bytes : List UInt8) (p : Nat),
    ∃ pre, bytes = pre ++ (findAddingPoint ns cs p bytes).2 ∧
      follow ns p (pre.map (foldCh cs)) = some (findAddingPoint ns cs p bytes).1 ∧
      ∀ c r, (findAddingPoint ns cs p bytes).2 = c :: r →
        (ns.node (findAddingPoint ns cs p bytes).1).childs (foldCh cs c) = none
  | [], p => ⟨[], by simp [findAddingPoint, follow]⟩
  | c :: rest, p => by
    unfold findAddingPoint
    split
    · rename_i hc
      exact ⟨[], by simp, by simp [follow], by rintro c' r ⟨⟩; exact hc⟩
    · rename_i child hc
      obtain ⟨pre, h1, h2, h3⟩ := findAddingPoint_spec ns cs rest child
      exact ⟨c :: pre, by rw [List.cons_append, ← h1], by simp [follow, hc, h2], h3⟩

/-! ## The build keeps the shape -/

theorem addBranch_inv {cs : Bool} : ∀ {rest : List UInt8} {ns : Nodes} {p : Nat} (chI : Nat),
    TreeInv ns → p < ns.length →
    (∀ c r, rest = c :: r → (ns.node p).childs (foldCh cs c) = none) →
    TreeInv (addBranch cs ns p chI rest).1 ∧
      (addBranch cs ns p chI rest).2 < (addBranch cs ns p chI rest).1.length ∧
      p + rest.length ≤ (addBranch cs ns p chI rest).2
  | [], _, _, _, h, hp, _ => ⟨h, hp, by simp [addBranch]⟩
  | c :: rest, ns, p, chI, h, hp, hnone => by
    have h' := h.addChild hp (folded_foldCh cs c) (hnone c rest rfl) (chI + 1)
    have hnew : ∀ c' r, rest = c' :: r →
        ((addChild ns cs p (chI + 1) (foldCh cs c)).node ns.length).childs (foldCh cs c') =
          none := by
      intro c' r _
      rw [addChild_new hp]
      rfl
    obtain ⟨h1, h2, h3⟩ := addBranch_inv (chI + 1) h' (by simp) hnew
    refine ⟨h1, h2, ?_⟩
    rw [addBranch, List.length_cons]
    omega

theorem addPattern_inv {b : Build} (h : TreeInv b.nodes) (i : Nat) (pat : PatternData) :
    TreeInv (addPattern b i pat).nodes := by
  unfold addPattern
  split
  · exact h
  rename_i hlen
  obtain ⟨pre, hpre, hf, hnone⟩ :=
    findAddingPoint_spec b.nodes pat.caseSen (pat.data.take (min pat.len patternLen)) 0
  have hq := h.follow_lt hf h.pos
  obtain ⟨h1, h2, h3⟩ := addBranch_inv (min pat.len patternLen - (findAddingPoint b.nodes
    pat.caseSen 0 (pat.data.take (min pat.len patternLen))).2.length) h hq.2 hnone
  refine h1.setLabel ?_ h2 i
  -- the pattern is not empty, so its last node is not the root
  have hl := congrArg List.length hpre
  simp only [List.length_take, List.length_append] at hl
  simp only [List.length_map] at hq
  have hpos : 0 < min (min pat.len patternLen) pat.data.length := by
    have : 0 < patternLen := by decide
    unfold PatternData.len at hlen ⊢
    omega
  omega

theorem addPatterns_inv : ∀ (pats : List PatternData) {b : Build} (i : Nat), TreeInv b.nodes →
    TreeInv (addPatterns b i pats).nodes
  | [], _, _, h => h
  | pat :: pats, _, i, h => addPatterns_inv pats (i + 1) (addPattern_inv h i pat)

theorem buildInit_inv : TreeInv buildInit.nodes := by
  have h0 : ∀ m, (Nodes.node buildInit.nodes m).childs = fun _ => none := fun m => by
    cases m <;> rfl
  refine ⟨by decide, rfl, rfl, ?_, ?_, ?_, ?_, ?_, ?_, ?_⟩
  · intro n c m hc; rw [h0] at hc; cases hc
  · intro n c m hc; rw [h0] at hc; cases hc
  · intro n c m hc; rw [h0] at hc; cases hc
  · intro n c m hc; rw [h0] at hc; cases hc
  · intro n hn
    have : (Nodes.node buildInit.nodes n).nchild = 0 := by cases n <;> rfl
    omega
  · intro m hm
    cases m with
    | zero => exact absurd hm (Nat.lt_irrefl 0)
    | succ m => show (0 : Int) ≠ -2; decide
  · intro m _
    cases m <;> rfl

/-- **`ACtree_build` keeps the shape**, for patterns of any flags. -/
theorem acTreeBuild_inv (pats : List PatternData) : TreeInv (acTreeBuild pats).nodes :=
  addPatterns_inv pats 0 buildInit_inv

/-! ## No shift is set by the build -/

/-- Every `GSshift` is still zero. -/
def ZeroGs (ns : Nodes) : Prop := ∀ m, (ns.node m).gsShift = 0

theorem ZeroGs.addChild {ns : Nodes} (h : ZeroGs ns) {p : Nat} (hp : p < ns.length) (cs : Bool)
    (d : Nat) (ch : UInt8) : ZeroGs (addChild ns cs p d ch) := by
  intro m
  rw [addChild_node hp]
  by_cases hmp : m = p
  · simpa [hmp] using h p
  · by_cases hml : m = ns.length
    · rw [if_neg hmp, if_pos hml]
      rfl
    · simpa [hmp, hml] using h m

theorem ZeroGs.addBranch {cs : Bool} : ∀ (rest : List UInt8) {ns : Nodes} {p : Nat} (chI : Nat),
    ZeroGs ns → p < ns.length → ZeroGs (addBranch cs ns p chI rest).1
  | [], _, _, _, h, _ => h
  | c :: rest, _, _, chI, h, hp =>
    ZeroGs.addBranch rest (chI + 1) (h.addChild hp cs (chI + 1) (foldCh cs c)) (by simp)

theorem addPattern_zeroGs {b : Build} (h : TreeInv b.nodes) (h0 : ZeroGs b.nodes) (i : Nat)
    (pat : PatternData) : ZeroGs (addPattern b i pat).nodes := by
  unfold addPattern
  split
  · exact h0
  obtain ⟨pre, hpre, hf, hnone⟩ :=
    findAddingPoint_spec b.nodes pat.caseSen (pat.data.take (min pat.len patternLen)) 0
  have hq := h.follow_lt hf h.pos
  obtain ⟨-, h2, -⟩ := addBranch_inv (min pat.len patternLen - (findAddingPoint b.nodes
    pat.caseSen 0 (pat.data.take (min pat.len patternLen))).2.length) h hq.2 hnone
  intro m
  dsimp only
  rw [node_modify _ _ _ _ h2]
  split
  · exact ZeroGs.addBranch _ _ h0 hq.2 _
  · exact ZeroGs.addBranch _ _ h0 hq.2 _

theorem addPatterns_zeroGs : ∀ (pats : List PatternData) {b : Build} (i : Nat), TreeInv b.nodes →
    ZeroGs b.nodes → ZeroGs (addPatterns b i pats).nodes
  | [], _, _, _, h0 => h0
  | pat :: pats, _, i, h, h0 =>
    addPatterns_zeroGs pats (i + 1) (addPattern_inv h i pat) (addPattern_zeroGs h h0 i pat)

theorem acTreeBuild_zeroGs (pats : List PatternData) : ZeroGs (acTreeBuild pats).nodes :=
  addPatterns_zeroGs pats 0 buildInit_inv fun m => by cases m <;> rfl

end AcBm
