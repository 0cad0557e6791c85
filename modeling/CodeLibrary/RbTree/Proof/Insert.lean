import CodeLibrary.RbTree.Proof.Memory

/-!
# `rb_insert_color`

* `insertRotate_outer`, `insertRotate_inner`: the rotations, where the new node is on the side of
  its parent, and where it is not.
* `insertLoop_spec`: from a red node that fits in its place but for the color, the loop ends with a
  balanced tree; `rbInsertColor_spec`: a red–black tree of the same entries.
-/

namespace RbTree

open NodeMem RedBlack RedBlack.BinTree

variable {F : Mem MyType} {L : List Entry} {t : RbRoot} {C : Ctx Entry} {e : Dir}
  {u v s m : BinTree Entry} {p q a : Entry}

/-! ## A round -/

/-- The parent is black, the grandparent red, and rotated to the other side. -/
theorem insertTop_spec (h : Holds F L t C (branch e .black (branch e .red u p s) q v)) :
    ∃ t₁ t₂ t₃, t.setColor p.1 .black = some t₁ ∧ t₁.setColor q.1 .red = some t₂ ∧
      rotate e.other t₂ q.1 = some t₃ ∧
      Holds F L t₃ C (branch e .black u p (branch e .red s q v)) := by
  obtain ⟨t₁, h₁, hh⟩ := (holds_side.1 h).setColor .black
  obtain ⟨t₂, h₂, hh⟩ := (holds_side.2 hh).setColor .red
  obtain ⟨t₃, h₃, hh⟩ := rotate_other_spec hh
  exact ⟨t₁, t₂, t₃, h₁, h₂, h₃, hh⟩

theorem insertRotate_outer (h : Holds F L t C (branch e .black (branch e .red u p s) q v))
    (hu : u ≠ .nil) : ∃ t', insertRotate e t (addr u) p.1 q.1 = some (t', addr u) ∧
      Holds F L t' C (branch e .black u p (branch e .red s q v)) := by
  obtain ⟨t₁, t₂, t₃, h₁, h₂, h₃, hh⟩ := insertTop_spec h
  obtain ⟨b, hb, hbu⟩ := (holds_side.1 (holds_side.1 h)).side_iff (.inl hu) e.other
  refine ⟨t₃, ?_, hh⟩
  have hne : b ≠ addr u := fun he => Dir.other_ne e (hbu.1 he).symm
  refine bind_of hb ((if_neg hne).trans (bind_of rfl ?_))
  exact bind_of h₁ (bind_of h₂ (bind_of h₃ rfl))

theorem insertRotate_inner
    (h : Holds F L t C (branch e .black (branch e .red s p (branch e .red u a m)) q v)) :
    ∃ t', insertRotate e t a.1 p.1 q.1 = some (t', p.1) ∧
      Holds F L t' C (branch e .black (branch e .red s p u) a (branch e .red m q v)) := by
  obtain ⟨t₀, h₀, hh⟩ := rotate_spec (holds_side.1 h)
  obtain ⟨t₁, t₂, t₃, h₁, h₂, h₃, hh⟩ := insertTop_spec (holds_side.2 hh)
  refine ⟨t₃, ?_, hh⟩
  have hb := child_of (holds_side.1 h).root_mem e.other
  rw [cell_child_other, addr_branch] at hb
  have h₀' : (rotate e t p.1).map (fun t => (t, p.1, a.1)) = some (t₀, p.1, a.1) := by
    rw [h₀]
    rfl
  refine bind_of hb ((if_pos rfl).trans (bind_of h₀' ?_))
  exact bind_of h₁ (bind_of h₂ (bind_of h₃ rfl))

/-- With a red uncle. -/
theorem insertRound_red (h : Holds F L t C (branch e .black u q (branch e .red s a v)))
    {d : Dir} {c : Color} {w : BinTree Entry} (hp : u = branch d c m p w) (node : Addr) :
    ∃ t', insertRound e t node p.1 q.1 = some (t', q.1) ∧
      Holds F L t' C (branch e .red (u.recolor .black) q (branch e .black s a v)) := by
  subst hp
  obtain ⟨t₁, h₁, hh⟩ := (holds_otherSide.1 h).setColor .black
  obtain ⟨t₂, h₂, hh⟩ := (holds_side.1 (holds_otherSide.2 hh)).setColor .black
  obtain ⟨t₃, h₃, hh⟩ := (holds_side.2 hh).setColor .red
  rw [recolor_branch]
  refine ⟨t₃, ?_, hh⟩
  have hred := isRed_addr (holds_otherSide.1 h).rep
  rw [addr_branch, color_branch] at hred
  unfold insertRound
  rw [child_of h.root_mem, cell_child_other, addr_branch]
  exact bind_of rfl (bind_of hred ((if_pos rfl).trans (bind_of h₁ (bind_of h₂ (bind_of h₃ rfl)))))

/-- With a black one, or none. -/
theorem insertRound_black (h : Holds F L t C (branch e .black u q v)) (hv : v.color = .black)
    (node parent : Addr) :
    insertRound e t node parent q.1 = insertRotate e t node parent q.1 := by
  have hred := isRed_addr (holds_otherSide.1 h).rep
  rw [hv] at hred
  unfold insertRound
  rw [child_of h.root_mem, cell_child_other]
  exact bind_of rfl (bind_of hred (if_neg Bool.false_ne_true))

/-- **A round** brings a red node up, or below a black one. -/
theorem insertRound_spec {d : Dir} {n : Nat}
    (h : Holds F L t (⟨d, .red, p, s⟩ :: ⟨e, .black, q, v⟩ :: C) u) (hu : u.color = .red)
    (hb : Balanced n u) (hf : Fits (⟨d, .red, p, s⟩ :: ⟨e, .black, q, v⟩ :: C) n) :
    ∃ t' C' u' n', insertRound e t (addr u) p.1 q.1 = some (t', addr u') ∧ Holds F L t' C' u' ∧
      C'.length < C.length + 2 ∧ u'.color = .red ∧ Balanced n' u' ∧ Fits C' n' := by
  obtain ⟨hs, hcs, -, hv, hC⟩ := hf
  have h := holds_side.2 (holds_side.2 h)
  by_cases hcv : v.color = .red
  · obtain ⟨l, a, r, rfl⟩ := exists_red e hcv
    obtain ⟨hl, hr, -, -⟩ := balanced_red.1 hv
    obtain ⟨t', hrun, hh⟩ := insertRound_red h rfl (addr u)
    rw [recolor_branch] at hh
    refine ⟨t', C, _, n + 1, by rw [hrun, addr_branch], hh, by omega, color_branch .., ?_, hC⟩
    apply balanced_red.2
    exact ⟨balanced_black.2 ⟨hb, hs⟩, balanced_black.2 ⟨hl, hr⟩, color_branch .., color_branch ..⟩
  · have hcv : v.color = .black := by
      cases hc : v.color with
      | red => exact absurd hc hcv
      | black => rfl
    rw [insertRound_black h hcv]
    rcases Dir.eq_or_other e d with rfl | rfl
    · have hne : u ≠ .nil := fun h0 => by rw [h0] at hu; cases hu
      obtain ⟨t', hrun, hh⟩ := insertRotate_outer h hne
      exact ⟨t', _, u, n, hrun, holds_side.1 hh, by simp, hu, hb,
        balanced_red.2 ⟨hs, hv, hcs, hcv⟩, hC⟩
    · obtain ⟨l, a, r, rfl⟩ := exists_red e hu
      obtain ⟨hl, hr, hcl, hcr⟩ := balanced_red.1 hb
      rw [branch_other] at h
      obtain ⟨t', hrun, hh⟩ := insertRotate_inner h
      refine ⟨t', _, _, n, by rw [addr_branch, hrun, addr_branch], holds_side.1 hh, by simp,
        color_branch .., balanced_red.2 ⟨hs, hl, hcs, hcl⟩, balanced_red.2 ⟨hr, hv, hcr, hcv⟩, hC⟩

/-! ## The loop -/

/-- **The loop** ends with a balanced tree, whose root may be red. -/
theorem insertLoop_spec : ∀ (fuel : Nat) {t : RbRoot} {C : Ctx Entry} {u : BinTree Entry} {n : Nat},
    Holds F L t C u → C.length < fuel → u.color = .red → Balanced n u → Fits C n →
    ∃ t' T k, insertLoop fuel t (addr u) = some t' ∧ Holds F L t' [] T ∧ Balanced k T
  | 0, _, _, _, _, _, hlt, _, _, _ => absurd hlt (Nat.not_lt_zero _)
  | fuel + 1, t, C, u, n, h, hlt, hu, hb, hf => by
    have hne : u ≠ .nil := fun h0 => by rw [h0] at hu; cases hu
    have hparent := h.parent_addr hne
    match C, h, hlt, hf, hparent with
    | [], h, _, _, hparent =>
      exact ⟨t, u, n, bind_of hparent (bind_of rfl (if_neg Bool.false_ne_true)), h, hb⟩
    | ⟨d, .black, x, s⟩ :: C, h, _, hf, hparent =>
      have hred := isRed_addr (holds_side.2 h).rep
      rw [addr_branch, color_branch] at hred
      obtain ⟨-, k, hk⟩ := balanced_plug _ hf hb (.inr rfl)
      exact ⟨t, _, k, bind_of hparent (bind_of hred (if_neg Bool.false_ne_true)),
        holds_plug.1 h, hk⟩
    | [⟨_, .red, _, _⟩], _, _, hf, _ => exact hf.2.2.1.elim
    | ⟨_, .red, _, _⟩ :: ⟨_, .red, _, _⟩ :: _, _, _, hf, _ => exact nomatch hf.2.2.1
    | ⟨d, .red, p, s⟩ :: ⟨e, .black, q, v⟩ :: C, h, hlt, hf, hparent =>
      have hp := holds_side.2 h
      have hred := isRed_addr hp.rep
      rw [addr_branch, color_branch] at hred
      have hgparent := parent_of hp.root_mem
      rw [cell_parent] at hgparent
      obtain ⟨b, hbl, hside⟩ := hp.side_iff (.inl fun h0 => by cases d <;> cases h0) .left
      rw [addr_branch] at hside
      obtain ⟨t', C', u', n', hround, hh, hlen, hu', hb', hf'⟩ := insertRound_spec h hu hb hf
      have hrest := insertLoop_spec fuel hh (by simp only [List.length_cons] at hlt; omega) hu' hb'
        hf'
      obtain ⟨t'', T, k, hrun, hT, hk⟩ := hrest
      refine ⟨t'', T, k, ?_, hT, hk⟩
      refine bind_of hparent (bind_of hred ((if_pos rfl).trans (bind_of hgparent (bind_of hbl ?_))))
      cases e with
      | left => exact (if_pos (hside.2 rfl).symm).trans (bind_of hround hrun)
      | right =>
        have hne : p.1 ≠ b := fun he => nomatch hside.1 he.symm
        exact (if_neg hne).trans (bind_of hround hrun)

/-- **`rb_insert_color`** of a red node that fits in its place but for the color. -/
theorem rbInsertColor_spec {fuel n : Nat} (h : Holds F L t C u) (hfuel : C.length < fuel)
    (hu : u.color = .red) (hb : Balanced n u) (hf : Fits C n) :
    ∃ t' T, rbInsertColor fuel t (addr u) = some t' ∧ Holds F L t' [] T ∧ RedBlackTree T := by
  obtain ⟨t₁, T, k, hloop, hT, hk⟩ := insertLoop_spec fuel h hfuel hu hb hf
  have hne : T ≠ .nil := fun h0 => by
    have hlist := congrArg List.length (h.inorder.trans hT.inorder.symm)
    obtain ⟨l, x, r, rfl⟩ := exists_red .left hu
    rw [h0] at hlist
    simp [branch, toList, before, after] at hlist
  obtain ⟨c, l, x, r, rfl⟩ := exists_branch .left hne
  obtain ⟨t₂, hset, hT'⟩ := hT.setColor .black
  have hrb := redBlackTree_recolor hk
  rw [recolor_branch] at hrb
  refine ⟨t₂, _, bind_of hloop ?_, hT', hrb⟩
  have hroot : t₁.rbNode = x.1 := by
    rw [hT.root, addr_branch]
    rfl
  rw [hroot]
  exact hset

end RbTree
