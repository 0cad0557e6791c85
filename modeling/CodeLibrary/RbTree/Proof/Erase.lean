import CodeLibrary.RbTree.Proof.EraseColor
import Mathlib.Tactic.Tauto

/-!
# `rb_erase`

* `leftmost_spec`: the walk to the first node of a subtree.
* `unlink_spec`, `splice_spec`: a node with one child leaves its place to it, a node with two
  children to its successor.
* `rbErase_spec`: a red–black tree without the node.
-/

namespace RbTree

open NodeMem RedBlack RedBlack.BinTree

variable {F : Mem MyType} {L : List Entry} {t : RbRoot} {C : Ctx Entry} {d : Dir} {c : Color}
  {u l r z : BinTree Entry} {x y : Entry} {fuel : Nat} {par : Addr}

/-- The first node of a subtree. -/
theorem leftmost_spec : ∀ (fuel : Nat) {u : BinTree Entry} {par : Addr}, Rep t.mem par u →
    u ≠ .nil → u.toList.length ≤ fuel → ∃ S c y z, u = plug S (.node c .nil y z) ∧
      (∀ f ∈ S, f.dir = .left) ∧ leftmost fuel t (addr u) = some y.1
  | _, .nil, _, _, h0, _ => absurd rfl h0
  | 0, .node _ l _ _, _, _, _, hf => by simp [toList] at hf
  | fuel + 1, .node c l x r, par, h, _, hf => by
    have hl := child_of h.2.1 .left
    by_cases hne : l = .nil
    · subst hne
      refine ⟨[], c, x, r, rfl, fun _ hf => absurd hf List.not_mem_nil, ?_⟩
      exact bind_of hl ((if_neg fun h => h rfl).trans rfl)
    · have hlen : l.toList.length ≤ fuel := by
        simp only [toList, List.length_append, List.length_cons] at hf
        omega
      obtain ⟨S, c', y, z, hS, hleft, hrun⟩ := leftmost_spec fuel h.2.2.1 hne hlen
      refine ⟨S ++ [⟨.left, c, x, r⟩], c', y, z, ?_, fun f hf => ?_, ?_⟩
      · rw [plug_append, ← hS]
        rfl
      · rcases List.mem_append.1 hf with hf | hf
        · exact hleft f hf
        · rw [List.mem_singleton.1 hf]
      · exact bind_of hl ((if_pos (h.2.2.1.addr_ne_zero hne)).trans hrun)

/-! ## A node with one child -/

/-- The entries without that of a node. -/
theorem Holds.nodup_erase (h : Holds F L t C u) {k : List Entry} (hk : k.Sublist u.toList) :
    ((before C ++ k ++ after C).map Prod.fst).Nodup := by
  have hsub : (before C ++ k ++ after C).Sublist L := by
    rw [← h.inorder]
    exact ((List.Sublist.refl _).append hk).append (List.Sublist.refl _)
  exact h.nodup.sublist (hsub.map _)

theorem mem_erase_addrs {k : List Entry} {p : Addr} :
    p ∈ (before C ++ k ++ after C).map Prod.fst ↔ p ∈ ctxAddrs C ∨ p ∈ k.map Prod.fst := by
  rw [ctxAddrs]
  simp only [List.map_append, List.mem_append]
  tauto

/-- The child comes in the place of the node, which stays in the memory. -/
theorem unlink_spec (h : Holds F L t C (branch d c u x .nil)) : ∃ t₁ t₂ n,
    t.reparent (addr u) (above 0 C) = some t₁ ∧
      t₁.relink .left (above 0 C) x.1 (addr u) = some t₂ ∧
      Holds (F.set x.1 n) (before C ++ u.toList ++ after C) t₂ C u := by
  obtain ⟨hx0, hx, hu, -⟩ := rep_branch.1 h.rep
  obtain ⟨hxC, hxu, -, -⟩ := h.branch_disjoint
  have huC : ∀ p ∈ addrs u, p ∉ ctxAddrs C := fun p hp =>
    h.not_mem_ctx (mem_addrs_branch.2 (.inr (.inl hp)))
  have hseg := h.seg
  have hroot := h.root
  rw [addr_branch] at hseg hroot
  obtain ⟨t₁, h₁, hroot₁, hu₁, hm₁⟩ := reparent_spec hu (holds_side.1 h).nodup_tree (above 0 C)
  have hseg₁ : Seg t₁.mem 0 C x.1 := hseg.frame fun p hp => hm₁ p fun hu => huC p hu hp
  obtain ⟨t₂, h₂, hseg₂, hroot₂, hm₂⟩ := relink_spec hseg₁ (hroot₁.trans hroot) hx0 hxC h.nodup_ctx
    .left (addr u)
  have hm : ∀ p, p ∉ ctxAddrs C → p ∉ addrs u → t₂.mem p = t.mem p := fun p hC hu =>
    (hm₂ p hC).trans (hm₁ p hu)
  refine ⟨t₁, t₂, cell d (above 0 C) c x.2 (addr u) 0, h₁, h₂, hroot₂, hseg₂, ?_, rfl,
    h.nodup_erase ?_, fun p hp => ?_⟩
  · exact hu₁.frame fun p hp => hm₂ p (huC p hp)
  · cases d with
    | left => exact List.sublist_append_left ..
    | right => exact List.sublist_cons_self ..
  · rw [mem_erase_addrs, not_or] at hp
    rw [hm p hp.1 hp.2]
    by_cases hpx : p = x.1
    · rw [hpx, hx, Mem.set_same]
      rfl
    · rw [Mem.set_ne hpx, h.rest p]
      rw [h.mem_list, mem_addrs_branch, not_or, not_or, not_or]
      exact ⟨hp.1, hpx, hp.2, fun h => nomatch h⟩

/-- What is left of a red–black tree when the node in a hole goes. -/
theorem erase_cases {D : Ctx Entry} (hD : ∀ n, Fits C n → Fits D n)
    (h : RedBlackTree (plug C (branch d c u x .nil))) :
    (c = .red ∧ RedBlackTree (plug D u)) ∨ (c = .black ∧ Short D u) := by
  obtain ⟨n, hC, hb, -⟩ := fits_of_plug h
  have hC := hD n hC
  cases c with
  | red =>
    obtain ⟨hu, -, hcu, -⟩ := balanced_red.1 hb
    exact .inl ⟨rfl, balanced_plug D hC hu (.inl hcu)⟩
  | black =>
    obtain ⟨m, rfl⟩ := hb.succ
    exact .inr ⟨rfl, short_of_fits (balanced_black.1 hb).1 hC⟩

/-- The end of `rb_erase`: a black node leaves short paths. -/
theorem eraseEnd_spec (h : Holds F L t C u)
    (hrb : (c = .red ∧ RedBlackTree (plug C u)) ∨ (c = .black ∧ Short C u))
    (hfuel : C.length + 1 < fuel) : ∃ t' T,
      (if c = .black then rbEraseColor fuel t (addr u) (above 0 C) else some t) = some t' ∧
      Holds F L t' [] T ∧ RedBlackTree T := by
  rcases hrb with ⟨rfl, hrb⟩ | ⟨rfl, hs⟩
  · exact ⟨t, _, if_neg (nomatch ·), holds_plug.1 h, hrb⟩
  · obtain ⟨t', T, hrun, hT, hrb⟩ := rbEraseColor_spec h hs hfuel
    exact ⟨t', T, (if_pos rfl).trans hrun, hT, hrb⟩

theorem eraseOne_spec (h : Holds F L t C (branch d c u x .nil))
    (hrb : RedBlackTree (plug C (branch d c u x .nil))) (hfuel : C.length + 1 < fuel) :
    ∃ t' T n, eraseOne fuel t x.1 (addr u) = some t' ∧
      Holds (F.set x.1 n) (before C ++ u.toList ++ after C) t' [] T ∧ RedBlackTree T := by
  obtain ⟨t₁, t₂, n, h₁, h₂, hh⟩ := unlink_spec h
  obtain ⟨t', T, hrun, hT, hrb⟩ := eraseEnd_spec hh (erase_cases (fun _ => id) hrb) hfuel
  have hparent := parent_of h.root_mem
  have hcolor := color_of h.root_mem
  rw [cell_parent] at hparent
  rw [cell_color] at hcolor
  exact ⟨t', T, n, bind_of hparent (bind_of hcolor (bind_of h₁ (bind_of h₂ hrun))), hT, hrb⟩

/-! ## A node with two children -/

/-- The successor `y` of `x` leaves its place in the right subtree `plug S …`, which comes below it,
unless it is the root of it. -/
theorem spliceOut_spec {S : Ctx Entry} {c' : Color} (hS : ∀ f ∈ S, f.dir = .left)
    (h : Rep t.mem x.1 (plug S (.node c' .nil y z)))
    (hn : (addrs (plug S (.node c' .nil y z))).Nodup)
    (hx : x.1 ∉ addrs (plug S (.node c' .nil y z)))
    (hright : t.child x.1 .right = some (addr (plug S (.node c' .nil y z)))) :
    ∃ t' n, (if above x.1 S = x.1 then some (t, y.1)
        else (spliceOut t x.1 y.1 (addr z) (above x.1 S)).map fun t => (t, above x.1 S)) =
          some (t', above y.1 S) ∧
      t'.rbNode = t.rbNode ∧ Rep t'.mem y.1 (plug S z) ∧ t'.mem y.1 = some n ∧
      n.right = addr (plug S z) ∧ n.num = y.2 ∧
      ∀ p, p ∉ addrs (plug S (.node c' .nil y z)) → t'.mem p = t.mem p := by
  cases S with
  | nil =>
    obtain ⟨hy0, hy, -, hz⟩ := h
    exact ⟨t, _, if_pos rfl, rfl, hz, hy, rfl, rfl, fun _ _ => rfl⟩
  | cons f S =>
    have hd := hS f List.mem_cons_self
    obtain ⟨⟨hv0, hv, hs, hSeg⟩, hy0, hy, -, hz⟩ := rep_plug.1 h
    rw [hd] at hv
    -- the parts of the subtree are apart
    have hmem : ∀ {p}, p ∈ addrs (plug (f :: S) (.node c' .nil y z)) ↔
        p ∈ ctxAddrs (f :: S) ∨ p = y.1 ∨ p ∈ addrs z := fun {p} => by
      rw [(perm_addrs_plug ..).mem_iff, List.mem_append]
      exact or_congr_right (mem_addrs_branch (d := .left).trans (by simp [toList]))
    have hnz : (ctxAddrs (f :: S) ++ (y.1 :: addrs z)).Nodup :=
      (perm_addrs_plug _ (.node c' .nil y z)).nodup_iff.1 hn
    have hnr : (addrs (plug (f :: S) z)).Nodup :=
      (perm_addrs_plug ..).nodup_iff.2
        (hnz.sublist ((List.Sublist.refl _).append (List.sublist_cons_self ..)))
    rw [List.nodup_append, List.nodup_cons] at hnz
    obtain ⟨hnS, ⟨hyz, hnz⟩, hdisj⟩ := hnz
    have hyS : y.1 ∉ ctxAddrs (f :: S) := fun hp =>
      hdisj _ hp _ List.mem_cons_self rfl
    have hSz : ∀ p ∈ ctxAddrs (f :: S), p ∉ addrs z := fun p hp hz =>
      hdisj p hp p (List.mem_cons_of_mem _ hz) rfl
    rw [(perm_ctxAddrs_cons ..).nodup_iff, List.nodup_cons, List.mem_append, not_or] at hnS
    obtain ⟨⟨hvs, hvS⟩, -⟩ := hnS
    have hvC : f.val.1 ∈ ctxAddrs (f :: S) := mem_ctxAddrs_cons.2 (.inl rfl)
    have hyv : y.1 ≠ f.val.1 := fun he => hyS (he ▸ hvC)
    have hxv : x.1 ≠ f.val.1 := fun he => hx (hmem.2 (.inl (he ▸ hvC)))
    have hxy : x.1 ≠ y.1 := fun he => hx (hmem.2 (.inr (.inl he)))
    have hxz : x.1 ∉ addrs z := fun hp => hx (hmem.2 (.inr (.inr hp)))
    -- the child of the successor
    obtain ⟨t₂, h₂, hroot₂, hz₂, hm₂⟩ := reparent_spec hz hnz f.val.1
    let t₃ : RbRoot :=
      ⟨t₂.rbNode,
        t₂.mem.set f.val.1 (cell .left (above x.1 S) f.color f.val.2 (addr z) (addr f.sib))⟩
    have h₃ : t₂.setChild f.val.1 .left (addr z) = some t₃ :=
      modify_of ((hm₂ _ (hSz _ hvC)).trans hv) fun n => n.setChild .left (addr z)
    let n : MyType := ⟨f.val.1, c', top S f.val.1, 0, y.2⟩
    let t₄ : RbRoot := ⟨t₂.rbNode, t₃.mem.set y.1 n⟩
    have hm₄ : ∀ p, p ≠ y.1 → p ≠ f.val.1 → p ∉ addrs z → t₄.mem p = t.mem p := fun p hy hv hz =>
      ((Mem.set_ne hy _).trans (Mem.set_ne hv _)).trans (hm₂ p hz)
    have hx₃ : t₃.child x.1 .right = some (top S f.val.1) := by
      have hm₃ : t₃.mem x.1 = t.mem x.1 := (Mem.set_ne hxv _).trans (hm₂ _ hxz)
      rw [addr_plug] at hright
      rw [RbRoot.child, hm₃]
      exact hright
    have hy₃ : t₃.mem y.1 = some ⟨f.val.1, c', addr z, 0, y.2⟩ :=
      (Mem.set_ne hyv _).trans ((hm₂ _ hyz).trans hy)
    have h₄ : t₃.setChild y.1 .right (top S f.val.1) = some t₄ :=
      modify_of hy₃ fun n => n.setChild .right (top S f.val.1)
    -- what is left of the subtree comes below the successor
    have hseg₄ : Seg t₄.mem x.1 (f :: S) (addr z) := by
      refine ⟨hv0, ?_, hs.frame fun p hp => ?_, hSeg.frame fun p hp => ?_⟩
      · rw [hd]
        exact (Mem.set_ne hyv.symm _).trans (Mem.set_same ..)
      · have hpS : p ∈ ctxAddrs (f :: S) := mem_ctxAddrs_cons.2 (.inr (.inl hp))
        exact hm₄ p (ne_of_mem_of_not_mem hpS hyS) (ne_of_mem_of_not_mem hp hvs) (hSz p hpS)
      · have hpS : p ∈ ctxAddrs (f :: S) := mem_ctxAddrs_cons.2 (.inr (.inr hp))
        exact hm₄ p (ne_of_mem_of_not_mem hpS hyS) (ne_of_mem_of_not_mem hp hvS) (hSz p hpS)
    have hr₄ : Rep t₄.mem x.1 (plug (f :: S) z) :=
      rep_plug.2 ⟨hseg₄, hz₂.frame fun p hp => (Mem.set_ne (ne_of_mem_of_not_mem hp hyz) _).trans
        (Mem.set_ne (ne_of_mem_of_not_mem hp (hSz _ hvC)) _)⟩
    have hne : plug (f :: S) z ≠ .nil := fun h0 => by
      have htop := addr_plug (f :: S) z
      rw [h0] at htop
      exact hseg₄.top_mem.2 htop.symm
    obtain ⟨t₅, h₅, hroot₅, hr₅, hm₅⟩ := setParent_spec hr₄ hne hnr y.1
    have hmem₅ : ∀ {p}, p ∉ ctxAddrs (f :: S) → p ∉ addrs z →
        t₅.mem p = t₄.mem p := fun {p} hS hz => hm₅ p fun hp => by
      rw [(perm_addrs_plug ..).mem_iff, List.mem_append] at hp
      exact hp.elim hS hz
    rw [addr_plug] at h₅
    have hrun : spliceOut t x.1 y.1 (addr z) f.val.1 = some t₅ :=
      bind_of h₂ (bind_of h₃ (bind_of hx₃ (bind_of h₄ h₅)))
    refine ⟨t₅, n, (if_neg hxv.symm).trans ?_, hroot₅.trans hroot₂, hr₅,
      (hmem₅ hyS hyz).trans (Mem.set_same ..), (addr_plug (f :: S) z).symm, rfl, fun p hp => ?_⟩
    · rw [above, hrun]
      rfl
    · rw [hmem, not_or, not_or] at hp
      obtain ⟨hS, hy, hz⟩ := hp
      exact (hmem₅ hS hz).trans (hm₄ p hy (ne_of_mem_of_not_mem hvC hS).symm hz)

/-- The successor in the place of `x`. -/
theorem takePlace_spec {n n' : MyType} (hx : t.mem x.1 = some n) (hy : t.mem y.1 = some n')
    (hxy : x.1 ≠ y.1) (hl : Rep t.mem x.1 l) (hl0 : l ≠ .nil) (hnl : (addrs l).Nodup)
    (hyl : y.1 ∉ addrs l) (hleft : n.left = addr l) :
    ∃ t', takePlace t x.1 y.1 = some t' ∧ t'.rbNode = t.rbNode ∧
      t'.mem y.1 = some ⟨n.parent, n.color, n'.right, addr l, n'.num⟩ ∧ Rep t'.mem y.1 l ∧
      ∀ p, p ≠ y.1 → p ∉ addrs l → t'.mem p = t.mem p := by
  let t₁ : RbRoot := ⟨t.rbNode, t.mem.set y.1 { n' with parent := n.parent, color := n.color }⟩
  let t₂ : RbRoot := ⟨t.rbNode, t₁.mem.set y.1 ⟨n.parent, n.color, n'.right, addr l, n'.num⟩⟩
  have hm₂ : ∀ p, p ≠ y.1 → t₂.mem p = t.mem p := fun p hp =>
    (Mem.set_ne hp _).trans (Mem.set_ne hp _)
  have hl₂ : Rep t₂.mem x.1 l := hl.frame fun p hp => hm₂ p (ne_of_mem_of_not_mem hp hyl)
  obtain ⟨t₃, h₃, hroot₃, hl₃, hm₃⟩ := setParent_spec hl₂ hl0 hnl y.1
  have h₁ : (t.modify y.1 fun m => { m with parent := n.parent, color := n.color }) = some t₁ :=
    modify_of hy _
  have hx₁ : t₁.child x.1 .left = some (addr l) := by
    rw [child_of ((Mem.set_ne hxy _).trans hx), MyType.child, hleft]
  have h₂ : t₁.setChild y.1 .left (addr l) = some t₂ :=
    modify_of (t := t₁) (Mem.set_same ..) fun m => m.setChild .left (addr l)
  refine ⟨t₃, ?_, hroot₃, (hm₃ _ hyl).trans (Mem.set_same ..), hl₃, fun p hp hpl =>
    (hm₃ p hpl).trans (hm₂ p hp)⟩
  exact bind_of (parent_of hx) (bind_of (color_of hx) (bind_of h₁ (bind_of hx₁ (bind_of h₂ h₃))))

/-- The successor comes in the place of the node, which stays in the memory. -/
theorem splice_spec {S : Ctx Entry} {c' : Color} (hS : ∀ f ∈ S, f.dir = .left)
    (h : Holds F L t C (.node c l x (plug S (.node c' .nil y z)))) (hl0 : l ≠ .nil) :
    ∃ t₁ t₂ t₃ n, t.relink .left (above 0 C) x.1 y.1 = some t₁ ∧
      t₁.child y.1 .right = some (addr z) ∧ t₁.parent y.1 = some (above x.1 S) ∧
      t₁.color y.1 = some c' ∧
      (if above x.1 S = x.1 then some (t₁, y.1)
        else (spliceOut t₁ x.1 y.1 (addr z) (above x.1 S)).map fun t => (t, above x.1 S)) =
          some (t₂, above y.1 S) ∧
      takePlace t₂ x.1 y.1 = some t₃ ∧
      Holds (F.set x.1 n) (before C ++ (l.toList ++ (plug S (.node c' .nil y z)).toList) ++ after C)
        t₃ C (.node c l y (plug S z)) := by
  obtain ⟨hx0, hx, hl, hr⟩ := h.rep
  -- the parts are apart
  obtain ⟨hxC, hxl, hxr, hlr⟩ := Holds.branch_disjoint (d := .left) h
  have hfirst : addrs (plug S (.node c' .nil y z)) = y.1 :: addrs (plug S z) :=
    congrArg (List.map Prod.fst) (toList_first hS c' y z)
  have hmem : ∀ {p}, p ∈ addrs (.node c l x (plug S (.node c' .nil y z))) ↔
      p = x.1 ∨ p ∈ addrs l ∨ p ∈ addrs (plug S (.node c' .nil y z)) :=
    mem_addrs_branch (d := .left)
  have hyr : y.1 ∈ addrs (plug S (.node c' .nil y z)) := hfirst ▸ List.mem_cons_self
  have hxy : x.1 ≠ y.1 := fun he => hxr (he ▸ hyr)
  have hyl : y.1 ∉ addrs l := fun hp => hlr _ hp hyr
  have hlC : ∀ p ∈ addrs l, p ∉ ctxAddrs C := fun p hp => h.not_mem_ctx (hmem.2 (.inr (.inl hp)))
  have hrC : ∀ p ∈ addrs (plug S (.node c' .nil y z)), p ∉ ctxAddrs C := fun p hp =>
    h.not_mem_ctx (hmem.2 (.inr (.inr hp)))
  have hnl : (addrs l).Nodup := (holds_side (d := .left).1 h).nodup_tree
  have hnr : (addrs (plug S (.node c' .nil y z))).Nodup :=
    (holds_otherSide (d := .left).1 h).nodup_tree
  -- the link above
  obtain ⟨t₁, h₁, hseg₁, hroot₁, hm₁⟩ := relink_spec h.seg h.root hx0 hxC h.nodup_ctx .left y.1
  have hx₁ : t₁.mem x.1 = some ⟨above 0 C, c, addr (plug S (.node c' .nil y z)), addr l, x.2⟩ :=
    (hm₁ _ hxC).trans hx
  have hr₁ : Rep t₁.mem x.1 (plug S (.node c' .nil y z)) :=
    hr.frame fun p hp => hm₁ p (hrC p hp)
  obtain ⟨-, hy0, hy₁, -, -⟩ := rep_plug.1 hr₁
  -- the right subtree, and the rest
  obtain ⟨t₂, n, h₂, hroot₂, hz₂, hy₂, hright, hnum, hm₂⟩ :=
    spliceOut_spec hS hr₁ hnr hxr (child_of hx₁ .right)
  have hl₂ : Rep t₂.mem x.1 l := hl.frame fun p hp =>
    (hm₂ p (hlr p hp)).trans (hm₁ p (hlC p hp))
  obtain ⟨t₃, h₃, hroot₃, hy₃, hl₃, hm₃⟩ :=
    takePlace_spec ((hm₂ _ hxr).trans hx₁) hy₂ hxy hl₂ hl0 hnl hyl rfl
  rw [hright, hnum] at hy₃
  have hm₃' : ∀ p, p ≠ y.1 → p ∉ addrs l → p ∉ addrs (plug S (.node c' .nil y z)) →
      p ∉ ctxAddrs C → t₃.mem p = t.mem p := fun p hy hl hr hC =>
    ((hm₃ p hy hl).trans (hm₂ p hr)).trans (hm₁ p hC)
  rw [hfirst, List.nodup_cons] at hnr
  refine ⟨t₁, t₂, t₃, ⟨above 0 C, c, addr (plug S (.node c' .nil y z)), addr l, x.2⟩, h₁,
    child_of hy₁ _, parent_of hy₁, color_of hy₁, h₂, h₃, hroot₃.trans (hroot₂.trans hroot₁), ?_,
    ⟨hy0, hy₃, hl₃, ?_⟩, ?_, h.nodup_erase ?_, fun p hp => ?_⟩
  · apply hseg₁.frame
    intro p hp
    have hpr : p ∉ addrs (plug S (.node c' .nil y z)) := fun hr => hrC p hr hp
    exact (hm₃ p (fun he => hpr (he ▸ hyr)) fun hl => hlC p hl hp).trans (hm₂ p hpr)
  · refine hz₂.frame fun p hp => hm₃ p (ne_of_mem_of_not_mem hp hnr.1) fun hl => hlr p hl ?_
    rw [hfirst]
    exact List.mem_cons_of_mem _ hp
  · rw [toList_first hS]
    rfl
  · exact (List.Sublist.refl _).append (List.sublist_cons_self ..)
  · rw [mem_erase_addrs, List.map_append, List.mem_append, not_or, not_or] at hp
    obtain ⟨hpC, hpl, hpr⟩ := hp
    rw [hm₃' p (fun he => hpr (he ▸ hyr)) hpl hpr hpC]
    by_cases hpx : p = x.1
    · rw [hpx, hx, Mem.set_same]
    · rw [Mem.set_ne hpx, h.rest p]
      rw [h.mem_list, hmem, not_or, not_or, not_or]
      exact ⟨hpC, hpx, hpl, hpr⟩

theorem eraseTwo_spec (h : Holds F L t C (.node c l x r)) (hl0 : l ≠ .nil) (hr0 : r ≠ .nil)
    (hrb : RedBlackTree (plug C (.node c l x r))) (hfuel : L.length < fuel) :
    ∃ t' T n, eraseTwo fuel t x.1 = some t' ∧
      Holds (F.set x.1 n) (before C ++ (l.toList ++ r.toList) ++ after C) t' [] T ∧
      RedBlackTree T := by
  have hlen := h.length_le
  simp only [toList, List.length_append, List.length_cons] at hlen
  have hx := Holds.root_mem (d := .left) h
  obtain ⟨S, c', y, z, rfl, hS, hfirst⟩ := leftmost_spec fuel h.rep.2.2.2 hr0 (by omega)
  obtain ⟨t₁, t₂, t₃, n, h₁, hchild, hparent, hcolor, h₂, h₃, hh⟩ := splice_spec hS h hl0
  -- the hole the successor leaves
  have hh : Holds (F.set x.1 n)
      (before C ++ (l.toList ++ (plug S (.node c' .nil y z)).toList) ++ after C) t₃
      (S ++ ⟨.right, c, y, l⟩ :: C) z := (holds_append S).2 (holds_otherSide (d := .left).1 hh)
  have hrb : RedBlackTree (plug (S ++ ⟨.right, c, x, l⟩ :: C) (branch .right c' z y .nil)) := by
    rw [plug_append]
    exact hrb
  have hD : (S ++ ⟨.right, c, y, l⟩ :: C).length + 1 < fuel := by
    have hlen' := hh.length_le
    have hL := congrArg List.length h.inorder
    simp only [toList, List.length_append, List.length_cons] at hlen' hL ⊢
    omega
  obtain ⟨t', T, hrun, hT, hrb⟩ := eraseEnd_spec hh (erase_cases (fun _ => fits_val y) hrb) hD
  rw [above_append] at hrun
  refine ⟨t', T, n, ?_, hT, hrb⟩
  refine bind_of (child_of hx _) (bind_of hfirst (bind_of (parent_of hx) (bind_of h₁ ?_)))
  refine bind_of hchild (bind_of hparent (bind_of hcolor (bind_ite_of h₂ ?_)))
  exact bind_of h₃ hrun

/-- **`rb_erase`**: the other entries are in a red–black tree. -/
theorem rbErase_spec (h : Holds F L t C (.node c l x r))
    (hrb : RedBlackTree (plug C (.node c l x r))) (hfuel : L.length < fuel) :
    ∃ t' T n, rbErase fuel t x.1 = some t' ∧
      Holds (F.set x.1 n) (before C ++ (l.toList ++ r.toList) ++ after C) t' [] T ∧
      RedBlackTree T := by
  have hx := Holds.root_mem (d := .left) h
  have hleft := child_of hx .left
  have hright := child_of hx .right
  have hlen := h.length_le
  simp only [toList, List.length_append, List.length_cons] at hlen
  have hC : C.length + 1 < fuel := by omega
  by_cases hl : l = .nil
  · subst hl
    obtain ⟨t', T, n, hrun, hT⟩ := eraseOne_spec (d := .right) h hrb hC
    exact ⟨t', T, n, bind_of hleft (bind_of hright ((if_pos rfl).trans hrun)), hT⟩
  · have hl0 := h.rep.2.2.1.addr_ne_zero hl
    by_cases hr : r = .nil
    · subst hr
      obtain ⟨t', T, n, hrun, hT⟩ := eraseOne_spec (d := .left) h hrb hC
      refine ⟨t', T, n, ?_, by rw [toList, List.append_nil]; exact hT⟩
      exact bind_of hleft (bind_of hright ((if_neg hl0).trans ((if_pos rfl).trans hrun)))
    · have hr0 := h.rep.2.2.2.addr_ne_zero hr
      obtain ⟨t', T, n, hrun, hT⟩ := eraseTwo_spec h hl hr hrb hfuel
      refine ⟨t', T, n, bind_of hleft (bind_of hright ?_), hT⟩
      exact (if_neg hl0).trans ((if_neg hr0).trans hrun)

end RbTree
