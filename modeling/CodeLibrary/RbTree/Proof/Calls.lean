import CodeLibrary.RbTree.Proof.Insert
import CodeLibrary.RbTree.Proof.Locate

/-!
# Any calls of `my_insert` and `my_delete`

* `Refines t n M T`: the tree is a red–black tree of at most `n` nodes, those of `M` in the order of
  their numbers.
* `myInsert_there`, `myInsert_new`, `myDelete_spec`: a call; `rbtree_refines`: any calls.
-/

namespace RbTree

open NodeMem RedBlack RedBlack.BinTree

variable {F : Mem MyType} {L : List Entry} {t : RbRoot} {C : Ctx Entry} {T : BinTree Entry}
  {M : Nodes} {n fuel : Nat} {num : Int} {p : Addr} {data : MyType}

theorem represents_iff : Represents t T ↔ Holds (fun _ => none) T.toList t [] T :=
  ⟨fun h => ⟨h.root, trivial, h.rep, by simp [before, after], h.nodup, h.rest⟩,
    fun h => ⟨h.root, h.rep, h.nodup, h.rest⟩⟩

/-- The tree holds the nodes `M`, at most `n`. -/
structure Refines (t : RbRoot) (n : Nat) (M : Nodes) (T : BinTree Entry) : Prop where
  represents : Represents t T
  redBlack : RedBlackTree T
  increasing : Increasing T.toList
  length : T.toList.length ≤ n
  present : ∀ num p, (p, num) ∈ T.toList ↔ M num = some p

/-- A number is found, or there is a hole for it. -/
theorem Refines.locate (h : Refines t n M T) (num : Int) : ∃ D v, locate num [] T = (D, v) ∧
    plug D v = T ∧ (∀ x ∈ before D, x.2 < num) ∧ (∀ x ∈ after D, num < x.2) ∧
    ((v = .nil ∧ M num = none) ∨
      ∃ c l x r, v = .node c l x r ∧ x.2 = num ∧ M num = some x.1) := by
  have hinc : Increasing (before [] ++ T.toList ++ after []) := by
    rw [before, after, List.nil_append, List.append_nil]
    exact h.increasing
  obtain ⟨D, v, hrun, hplug, hb, ha, hv⟩ := locate_spec T [] hinc
    (fun _ hx => absurd hx List.not_mem_nil) fun _ hx => absurd hx List.not_mem_nil
  rw [plug] at hplug
  refine ⟨D, v, hrun, hplug, hb, ha, ?_⟩
  have hT := toList_plug D v
  rw [hplug] at hT
  rcases hv with rfl | ⟨c, l, x, r, rfl, hx⟩
  · refine .inl ⟨rfl, ?_⟩
    cases hM : M num with
    | none => rfl
    | some q =>
      have hmem := (h.present num q).2 hM
      rw [hT, toList, List.append_nil] at hmem
      rcases List.mem_append.1 hmem with hmem | hmem
      · exact absurd (hb _ hmem) (Int.lt_irrefl _)
      · exact absurd (ha _ hmem) (Int.lt_irrefl _)
  · refine .inr ⟨c, l, x, r, rfl, hx, (h.present num x.1).1 ?_⟩
    rw [hT, ← hx]
    simp [toList]

/-! ## `my_search` -/

theorem mySearch_spec (h : Refines t n M T) (hf : n < fuel) (num : Int) :
    mySearch fuel t num = some ((M num).getD 0) := by
  have hlen := h.length
  obtain ⟨D, v, hrun, -, -, -, hv⟩ := h.locate num
  rw [mySearch, h.represents.root, searchLoop_spec fuel (represents_iff.1 h.represents) (by omega),
    hrun]
  rcases hv with ⟨rfl, hM⟩ | ⟨c, l, x, r, rfl, -, hM⟩
  · rw [hM]
    rfl
  · rw [hM]
    rfl

/-! ## `my_insert` -/

/-- `rb_link_node` puts a red node in the hole. -/
theorem rbLinkNode_spec (h : Holds F L t C .nil) (hp0 : p ≠ 0) (hpL : p ∉ L.map Prod.fst)
    (hdata : t.mem p = some data) : ∃ t', rbLinkNode t p (above 0 C) (linkOf C) = some t' ∧
      Holds F (before C ++ (p, data.num) :: after C) t' C
        (branch .left .red .nil (p, data.num) .nil) := by
  have hpC : p ∉ ctxAddrs C := fun hp => hpL (h.mem_list.2 (.inl hp))
  have hmod := modify_of hdata fun n =>
    { n with parent := above 0 C, color := .red, left := 0, right := 0 }
  have hseg := h.seg.frame fun q hq => Mem.set_ne (ne_of_mem_of_not_mem hq hpC)
    (⟨above 0 C, .red, 0, 0, data.num⟩ : MyType)
  obtain ⟨t', hput, hseg', hroot', hm'⟩ := put_spec (t := ⟨t.rbNode, t.mem.set p _⟩) hseg h.root
    h.nodup_ctx p
  have hperm : ((before C ++ (p, data.num) :: after C).map Prod.fst).Perm (p :: ctxAddrs C) :=
    List.perm_middle.map Prod.fst
  refine ⟨t', bind_of hmod hput, hroot', hseg', ⟨hp0, (hm' p hpC).trans (Mem.set_same ..), trivial,
    trivial⟩, by simp [branch, toList], ?_, fun q hq => ?_⟩
  · rw [hperm.nodup_iff, List.nodup_cons]
    exact ⟨hpC, h.nodup_ctx⟩
  · rw [hperm.mem_iff, List.mem_cons, not_or] at hq
    rw [hm' q hq.2, ← h.rest q]
    · exact Mem.set_ne hq.1 _
    · rw [h.mem_list, not_or]
      exact ⟨hq.2, List.not_mem_nil⟩

/-- The entries with a new one in the hole. -/
theorem increasing_insert {D : Ctx Entry} (h : Increasing (before D ++ after D))
    (hb : ∀ x ∈ before D, x.2 < num) (ha : ∀ x ∈ after D, num < x.2) :
    Increasing (before D ++ (p, num) :: after D) := by
  obtain ⟨hB, hA, hBA⟩ := List.pairwise_append.1 h
  refine List.pairwise_append.2 ⟨hB, List.pairwise_cons.2 ⟨ha, hA⟩, fun x hx y hy => ?_⟩
  rcases List.mem_cons.1 hy with rfl | hy
  · exact hb x hx
  · exact hBA x hx y hy

theorem Represents.not_mem (h : Represents t T) (hp : t.mem p = none) : p ∉ addrs T := by
  intro hmem
  have := h.rep.isSome hmem
  rw [hp] at this
  cases this

theorem holds_alloc (h : Represents t T) (hp : t.mem p = none) (data : MyType) :
    Holds (Mem.set (fun _ => none) p data) T.toList (t.alloc p data) [] T := by
  have hpT := h.not_mem hp
  have h' := represents_iff.1 h
  refine ⟨h'.root, trivial, h.rep.frame fun q hq => Mem.set_ne (ne_of_mem_of_not_mem hq hpT) _,
    h'.inorder, h'.nodup, fun q hq => ?_⟩
  by_cases hqp : q = p
  · rw [hqp, Mem.set_same]
    exact Mem.set_same ..
  · rw [Mem.set_ne hqp]
    exact (Mem.set_ne hqp _).trans (h.rest q hq)

/-- **`my_insert`** of a number that is there. -/
theorem myInsert_there (h : Refines t n M T) (hf : n < fuel) (hp : t.mem p = none) {q : Addr}
    (hM : M data.num = some q) :
    myInsert fuel (t.alloc p data) p = some (t.alloc p data, -1) := by
  have hlen := h.length
  have hmem : (t.alloc p data).mem p = some data := Mem.set_same ..
  have hdescend : descend data.num fuel _ (linkOf []) (above 0 []) = _ :=
    descend_spec fuel (holds_alloc h.represents hp data) (by omega)
  obtain ⟨D, v, hrun, -, -, -, hv⟩ := h.locate data.num
  rw [hrun] at hdescend
  rcases hv with ⟨-, hn⟩ | ⟨c, l, x, r, rfl, -, -⟩
  · exact absurd (hM.symm.trans hn) (Option.some_ne_none q)
  · exact bind_of (num_of hmem) (bind_of hdescend rfl)

/-- The nodes with a new one. -/
theorem present_insert {A B : List Entry} (h : ∀ k q, (q, k) ∈ A ++ B ↔ M k = some q)
    (hM : M num = none) (k : Int) (q : Addr) :
    (q, k) ∈ A ++ (p, num) :: B ↔ Function.update M num (some p) k = some q := by
  have hiff := h k q
  rw [List.mem_append] at hiff
  rw [List.mem_append, List.mem_cons, Prod.mk.injEq]
  by_cases hk : k = num
  · subst hk
    rw [hM] at hiff
    rw [Function.update_self, Option.some.injEq]
    have hno : ¬ _ := fun h => Option.some_ne_none _ (hiff.1 h).symm
    rw [not_or] at hno
    simp only [hno.1, hno.2, and_true, or_false, false_or]
    exact eq_comm
  · rw [Function.update_of_ne hk, ← hiff]
    simp only [hk, and_false, false_or]

/-- **`my_insert`** of a number that is not there. -/
theorem myInsert_new (h : Refines t n M T) (hf : n < fuel) (hp0 : p ≠ 0) (hp : t.mem p = none)
    (hM : M data.num = none) : ∃ t' T', myInsert fuel (t.alloc p data) p = some (t', 0) ∧
      Refines t' (n + 1) (Function.update M data.num (some p)) T' := by
  have hlen := h.length
  have hh := holds_alloc h.represents hp data
  have hmem : (t.alloc p data).mem p = some data := Mem.set_same ..
  have hdescend : descend data.num fuel _ (linkOf []) (above 0 []) = _ :=
    descend_spec fuel hh (by omega)
  obtain ⟨D, v, hrun, hplug, hb, ha, hv⟩ := h.locate data.num
  rw [hrun] at hdescend
  rcases hv with ⟨rfl, -⟩ | ⟨c, l, x, r, -, -, hx⟩
  · have hD : Holds (Mem.set (fun _ => none) p data) T.toList (t.alloc p data) D .nil := by
      rw [holds_plug, hplug]
      exact hh
    have hT : T.toList = before D ++ after D := by
      rw [← hplug, toList_plug, toList, List.append_nil]
    obtain ⟨t₁, hlink, h₁⟩ := rbLinkNode_spec hD hp0 (h.represents.not_mem hp) hmem
    -- a red leaf fits in the hole but for its color
    have hrb := h.redBlack
    rw [← hplug] at hrb
    obtain ⟨k, hfit, hk, -⟩ := fits_of_plug hrb
    obtain rfl : k = 0 := by
      cases hk
      rfl
    have hlen₁ := h₁.length_le
    simp only [branch, toList, List.length_append, List.length_cons] at hlen₁
    rw [hT, List.length_append] at hlen
    obtain ⟨t', T', hcolor, hT', hrb'⟩ := rbInsertColor_spec h₁ (show D.length < fuel by omega)
      (color_branch ..) (balanced_red.2 ⟨.nil, .nil, rfl, rfl⟩) hfit
    rw [addr_branch] at hcolor
    have hlist := hT'.toList_eq
    refine ⟨t', T', bind_of (num_of hmem) (bind_of hdescend (bind_of hlink (bind_of hcolor rfl))),
      ⟨hT'.root, hT'.rep, by rw [addrs, hlist]; exact hT'.nodup, fun q hq => ?_⟩, hrb', ?_, ?_, ?_⟩
    · rw [addrs, hlist] at hq
      rw [hT'.rest q hq, Mem.set_ne fun he => hq (by rw [he]; simp)]
    · rw [hlist]
      exact increasing_insert (hT ▸ h.increasing) hb ha
    · rw [hlist, List.length_append, List.length_cons]
      omega
    · rw [hlist]
      exact present_insert (hT ▸ h.present) hM
  · exact absurd (hx.symm.trans hM) (Option.some_ne_none x.1)

/-! ## `my_delete` -/

/-- The entries but one. -/
theorem mem_erase_iff {a b : List Entry} {x : Entry} (h : Increasing (a ++ x :: b)) {y : Entry} :
    y ∈ a ++ b ↔ y ∈ a ++ x :: b ∧ y.2 ≠ x.2 := by
  obtain ⟨-, hxb, hax⟩ := List.pairwise_append.1 h
  have hb := (List.pairwise_cons.1 hxb).1
  rw [List.mem_append, List.mem_append, List.mem_cons]
  refine ⟨fun hy => ?_, fun ⟨hy, hne⟩ => ?_⟩
  · rcases hy with hy | hy
    · exact ⟨.inl hy, Int.ne_of_lt (hax y hy x List.mem_cons_self)⟩
    · exact ⟨.inr (.inr hy), (Int.ne_of_lt (hb y hy)).symm⟩
  · rcases hy with hy | rfl | hy
    · exact .inl hy
    · exact absurd rfl hne
    · exact .inr hy

/-- The nodes without one. -/
theorem present_erase {A B : List Entry} {x : Entry}
    (h : ∀ k q, (q, k) ∈ A ++ x :: B ↔ M k = some q) (hinc : Increasing (A ++ x :: B))
    (k : Int) (q : Addr) :
    (q, k) ∈ A ++ B ↔ Function.update M x.2 none k = some q := by
  rw [mem_erase_iff hinc, h k q]
  by_cases hk : k = x.2
  · rw [hk, Function.update_self]
    exact iff_of_false (fun h => h.2 rfl) (Option.some_ne_none q).symm
  · rw [Function.update_of_ne hk]
    exact and_iff_left hk

/-- The node that was taken out of the tree is freed. -/
theorem Holds.represents_free {x : Addr} {data : MyType}
    (h : Holds (Mem.set (fun _ => none) x data) L t [] T) (hx : x ∉ addrs T) :
    Represents ⟨t.rbNode, t.mem.free x⟩ T := by
  have hlist := h.toList_eq
  have hfree : ∀ q, q ≠ x → (t.mem.free x) q = t.mem q := fun q hq => Mem.free_ne hq
  refine ⟨h.root, h.rep.frame fun q hq => hfree q (ne_of_mem_of_not_mem hq hx), ?_,
    fun q hq => ?_⟩
  · rw [addrs, hlist]
    exact h.nodup
  · by_cases hqx : q = x
    · rw [hqx]
      exact Mem.free_same ..
    · rw [addrs, hlist] at hq
      apply (hfree q hqx).trans
      rw [h.rest q hq, Mem.set_ne hqx]

/-- **`my_delete`** frees the node of the number, if there is one. -/
theorem myDelete_spec (h : Refines t n M T) (hf : n < fuel) (num : Int) :
    ∃ t' T', myDelete fuel t num = some t' ∧
      Refines t' n (Function.update M num none) T' := by
  have hlen := h.length
  have hsearch := mySearch_spec h hf num
  obtain ⟨D, v, -, hplug, -, -, hv⟩ := h.locate num
  rcases hv with ⟨rfl, hM⟩ | ⟨c, l, x, r, rfl, hx, hM⟩
  · rw [hM] at hsearch
    refine ⟨t, T, bind_of hsearch ((if_pos rfl).trans rfl), ?_⟩
    rw [← hM, Function.update_eq_self]
    exact h
  · rw [hM] at hsearch
    have hD : Holds (fun _ => none) T.toList t D (.node c l x r) := by
      rw [holds_plug, hplug]
      exact represents_iff.1 h.represents
    have hrb := h.redBlack
    rw [← hplug] at hrb
    have hfuel : T.toList.length < fuel := by omega
    obtain ⟨t₁, T', n₁, herase, hT', hrb'⟩ := rbErase_spec hD hrb hfuel
    have hT : T.toList = (before D ++ l.toList) ++ x :: (r.toList ++ after D) := by
      rw [← hplug, toList_plug]
      simp [toList]
    have hT₁ : T'.toList = (before D ++ l.toList) ++ (r.toList ++ after D) := by
      rw [hT'.toList_eq]
      simp
    have hinc := h.increasing
    rw [hT] at hinc hlen
    have hxT : x.1 ∉ addrs T' := by
      have hn := h.represents.nodup
      rw [addrs, hT, (List.perm_middle.map Prod.fst).nodup_iff, List.map_cons, List.nodup_cons,
        ← hT₁] at hn
      exact hn.1
    refine ⟨⟨t₁.rbNode, t₁.mem.free x.1⟩, T', ?_, hT'.represents_free hxT, hrb', ?_, ?_, ?_⟩
    · exact bind_of hsearch ((if_neg hD.rep.1).trans (bind_of herase rfl))
    · rw [hT₁]
      exact hinc.sublist ((List.Sublist.refl _).append (List.sublist_cons_self ..))
    · rw [hT₁]
      simp only [List.length_append, List.length_cons] at hlen ⊢
      omega
    · rw [hT₁, ← hx]
      exact present_erase (hT ▸ h.present) hinc

/-! ## Any calls -/

theorem Refines.mono {n' : Nat} (h : Refines t n M T) (hn : n ≤ n') : Refines t n' M T :=
  ⟨h.represents, h.redBlack, h.increasing, Nat.le_trans h.length hn, h.present⟩

theorem call_spec (h : Refines t n M T) (hf : n < fuel) {c : Call} (hc : c.Fresh t) :
    ∃ t' T', c.run fuel t = some t' ∧ Refines t' (n + 1) (c.apply M) T' := by
  cases c with
  | insert p data =>
    obtain ⟨hp0, hp⟩ := hc
    cases hM : M data.num with
    | none =>
      obtain ⟨t', T', hrun, h'⟩ := myInsert_new h hf hp0 hp hM
      refine ⟨t', T', bind_of hrun ((if_neg (by decide)).trans rfl), ?_⟩
      rw [Call.apply, hM]
      exact h'
    | some q =>
      have hs : (M data.num).isSome = true := by rw [hM]; rfl
      refine ⟨t, T, bind_of (myInsert_there h hf hp hM) ((if_pos (by decide)).trans ?_), ?_⟩
      · have hfree : (t.mem.set p data).free p = t.mem := funext fun q => by
          by_cases hq : q = p
          · rw [hq, Mem.free_same, hp]
          · rw [Mem.free_ne hq, Mem.set_ne hq]
        exact congrArg (fun m => some (RbRoot.mk t.rbNode m)) hfree
      · rw [Call.apply, if_pos hs]
        exact h.mono (Nat.le_succ n)
  | delete num =>
    obtain ⟨t', T', hrun, h'⟩ := myDelete_spec h hf num
    exact ⟨t', T', hrun, h'.mono (Nat.le_succ n)⟩

theorem present_concat (calls : List Call) (c : Call) :
    present (calls ++ [c]) = c.apply (present calls) := by
  rw [present, List.foldl_append]
  rfl

theorem calls_spec {calls : List Call} (hrun : Calls fuel calls t) (hf : calls.length ≤ fuel) :
    ∃ T, Refines t calls.length (present calls) T := by
  induction hrun with
  | nil =>
    exact ⟨.nil, ⟨rfl, trivial, List.nodup_nil, fun _ _ => rfl⟩, ⟨rfl, 0, .nil⟩, .nil,
      Nat.le_refl 0, fun _ _ => ⟨(nomatch ·), (nomatch ·)⟩⟩
  | @snoc calls t t' c _ hc hcall ih =>
    rw [List.length_append, List.length_singleton] at hf ⊢
    obtain ⟨T, h⟩ := ih (Nat.le_of_succ_le hf)
    obtain ⟨t₁, T₁, hcall₁, h₁⟩ := call_spec h hf hc
    rw [hcall] at hcall₁
    cases hcall₁
    rw [present_concat]
    exact ⟨T₁, h₁⟩

/-- **The tree is an ordered set**: after any calls of `my_insert` and `my_delete` on `RB_ROOT`,
with any nodes `malloc` can return, the memory holds a red–black tree with its links, whose numbers
increase, of just the nodes inserted and not deleted. `my_search` finds these, `print_rbtree` prints
their numbers in order, `my_insert` returns -1 just if the number is there, and then changes
nothing; and every further call returns. -/
theorem rbtree_refines {calls : List Call} (hf : calls.length < fuel)
    (hrun : Calls fuel calls t) : ∃ T, Represents t T ∧ RedBlackTree T ∧
      (nums T).Pairwise (· < ·) ∧ (∀ num p, (p, num) ∈ T.toList ↔ present calls num = some p) ∧
      (∀ num, mySearch fuel t num = some ((present calls num).getD 0)) ∧
      printRbtree fuel t = some (nums T) ∧
      (∀ p data, (Call.insert p data).Fresh t → ∃ t' ret,
        myInsert fuel (t.alloc p data) p = some (t', ret) ∧
        (ret = -1 ↔ (present calls data.num).isSome) ∧ (ret = -1 → t' = t.alloc p data)) ∧
      ∀ c : Call, c.Fresh t → (c.run fuel t).isSome := by
  obtain ⟨T, h⟩ := calls_spec hrun (Nat.le_of_lt hf)
  have hlen := h.length
  refine ⟨T, h.represents, h.redBlack, List.pairwise_map.2 h.increasing, h.present,
    mySearch_spec h hf, printRbtree_spec (represents_iff.1 h.represents) (by omega),
    fun p data hp => ?_, fun c hc => ?_⟩
  · cases hM : present calls data.num with
    | none =>
      obtain ⟨t', T', hins, -⟩ := myInsert_new h hf hp.1 hp.2 hM
      exact ⟨t', 0, hins, iff_of_false (by decide) Bool.false_ne_true, fun h => nomatch h⟩
    | some q =>
      exact ⟨_, -1, myInsert_there h hf hp.2 hM, iff_of_true rfl rfl, fun _ => rfl⟩
  · obtain ⟨t', T', hcall, -⟩ := call_spec h hf hc
    rw [hcall]
    rfl

/-- A new node of a number. -/
def newNode (num : Int) : MyType := ⟨0, .red, 0, 0, num⟩

/-- Two insertions of 5, then a 3, and the 5 deleted. -/
def someCalls : List Call :=
  [.insert 8 (newNode 5), .insert 16 (newNode 5), .insert 24 (newNode 3), .delete 5]

theorem rbtree_refines_some : ∃ t, Calls 5 someCalls t ∧ ∃ T, Represents t T ∧ RedBlackTree T ∧
    (nums T).Pairwise (· < ·) ∧ mySearch 5 t 3 = some ((present someCalls 3).getD 0) ∧
    printRbtree 5 t = some (nums T) := by
  have h1 : Calls 5 [.insert 8 (newNode 5)] _ := .snoc .nil ⟨by decide, rfl⟩ rfl
  have h2 : Calls 5 [.insert 8 (newNode 5), .insert 16 (newNode 5)] _ :=
    .snoc h1 ⟨by decide, rfl⟩ rfl
  have h3 : Calls 5 [.insert 8 (newNode 5), .insert 16 (newNode 5), .insert 24 (newNode 3)] _ :=
    .snoc h2 ⟨by decide, rfl⟩ rfl
  have h4 : Calls 5 someCalls _ := .snoc h3 trivial rfl
  obtain ⟨T, hT, hrb, hinc, -, hsearch, hprint, -⟩ := rbtree_refines (by decide) h4
  exact ⟨_, h4, T, hT, hrb, hinc, hsearch 3, hprint⟩

end RbTree
