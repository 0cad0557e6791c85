import CodeLibrary.RbTree.Proof.Memory

/-!
# `__rb_erase_color`

* `eraseRed_spec`, `eraseInner_spec`, `eraseOuter_spec`: the recolorings and rotations.
* `eraseRound_spec`: a round brings the short paths up, or completes them.
* `rbEraseColor_spec`: from short paths through a place, the loop ends with a red–black tree of the
  same entries.
-/

namespace RbTree

open NodeMem RedBlack RedBlack.BinTree

variable {F : Mem MyType} {L : List Entry} {t : RbRoot} {C : Ctx Entry} {d : Dir} {c : Color}
  {u s near far : BinTree Entry} {x o y z : Entry}

/-! ## The cases of a round -/

/-- A red sibling comes above the parent. -/
theorem eraseRed_spec (h : Holds F L t C (branch d .black u x (branch d .red near o far))) :
    ∃ t', eraseRed d t x.1 o.1 = some (t', addr near) ∧
      Holds F L t' C (branch d .black (branch d .red u x near) o far) := by
  obtain ⟨t₁, h₁, hh⟩ := (holds_otherSide.1 h).setColor .black
  obtain ⟨t₂, h₂, hh⟩ := (holds_otherSide.2 hh).setColor .red
  obtain ⟨t₃, h₃, hh⟩ := rotate_spec hh
  have hchild := child_of (holds_side.1 hh).root_mem d.other
  rw [cell_child_other] at hchild
  exact ⟨t₃, bind_of h₁ (bind_of h₂ (bind_of h₃ (bind_of hchild rfl))), hh⟩

/-- A red child of the sibling on the side of the node takes its place. -/
theorem eraseInner_spec {l r : BinTree Entry}
    (h : Holds F L t C (branch d c u x (branch d .black (branch d .red l y r) o far))) :
    ∃ t', eraseInner d t x.1 o.1 = some (t', y.1) ∧
      Holds F L t' C (branch d c u x (branch d .black l y (branch d .red r o far))) := by
  have hnear := child_of (holds_otherSide.1 h).root_mem d
  rw [cell_child, addr_branch] at hnear
  obtain ⟨t₁, h₁, hh⟩ := (holds_side.1 (holds_otherSide.1 h)).setColor .black
  obtain ⟨t₂, h₂, hh⟩ := (holds_side.2 hh).setColor .red
  obtain ⟨t₃, h₃, hh⟩ := rotate_other_spec hh
  have hh := holds_otherSide.2 hh
  have hchild := child_of hh.root_mem d.other
  rw [cell_child_other, addr_branch] at hchild
  exact ⟨t₃, bind_of hnear (bind_of h₁ (bind_of h₂ (bind_of h₃ (bind_of hchild rfl)))), hh⟩

/-- With a red child on the other side, the sibling comes above the parent, in its color. -/
theorem eraseOuter_spec {c' : Color} {l r : BinTree Entry}
    (h : Holds F L t C (branch d c u x (branch d c' near o (branch d .red l z r)))) :
    ∃ t', eraseOuter d t x.1 o.1 = some t' ∧
      Holds F L t' C (branch d c (branch d .black u x near) o (branch d .black l z r)) := by
  have hcolor := color_of h.root_mem
  rw [cell_color] at hcolor
  obtain ⟨t₁, h₁, hh⟩ := (holds_otherSide.1 h).setColor c
  obtain ⟨t₂, h₂, hh⟩ := (holds_otherSide.2 hh).setColor .black
  have hh := holds_otherSide.1 hh
  have hfar := child_of hh.root_mem d.other
  rw [cell_child_other, addr_branch] at hfar
  obtain ⟨t₃, h₃, hh⟩ := (holds_otherSide.1 hh).setColor .black
  obtain ⟨t₄, h₄, hh⟩ := rotate_spec (holds_otherSide.2 (holds_otherSide.2 hh))
  exact ⟨t₄, bind_of hcolor (bind_of h₁ (bind_of h₂ (bind_of hfar (bind_of h₃ h₄)))), hh⟩

/-- The colors of the children, left and right. -/
theorem children_black (h : Holds F L t C (branch d c near o far)) :
    ∃ a b l r, t.child o.1 .left = some a ∧ t.isBlack a = some l ∧
      t.child o.1 .right = some b ∧ t.isBlack b = some r ∧
      (l && r) = (near.color == .black && far.color == .black) := by
  obtain ⟨-, hmem, hnear, hfar⟩ := rep_branch.1 h.rep
  cases d with
  | left => exact ⟨_, _, _, _, child_of hmem _, isBlack_addr hnear, child_of hmem _,
      isBlack_addr hfar, rfl⟩
  | right => exact ⟨_, _, _, _, child_of hmem _, isBlack_addr hfar, child_of hmem _,
      isBlack_addr hnear, Bool.and_comm ..⟩

/-! ## A round -/

/-- What a round that starts `len` nodes below the root ends with. -/
def RoundEnds (F : Mem MyType) (L : List Entry) (parent : Addr) (len : Nat) (t' : RbRoot) :
    Bool → Prop
  | true => ∃ C' u', addr u' = parent ∧ Holds F L t' C' u' ∧ Short C' u' ∧
    (u'.color = .red ∨ C'.length < len)
  | false => ∃ T k, Holds F L t' [] T ∧ Balanced k T

theorem eraseBlack_spec {n : Nat} (h : Holds F L t C (branch d c u x s)) (hu : Balanced n u)
    (hf : Fits (⟨d, c, x, s⟩ :: C) (n + 1)) (hs : Balanced (n + 1) s)
    (hcs : s.color = .black) {len : Nat} (hlen : c = .red ∨ C.length < len) :
    ∃ t' goesOn, eraseBlack d t x.1 (addr s) = some (t', goesOn) ∧
      RoundEnds F L x.1 len t' goesOn := by
  obtain ⟨near, o, far, rfl⟩ := exists_black d hs.ne_nil hcs
  obtain ⟨hnear, hfar⟩ := balanced_black.1 hs
  have hsib := holds_otherSide.1 h
  obtain ⟨a, b, l, r, ha, hl, hb, hr, hlr⟩ := children_black hsib
  rw [addr_branch]
  by_cases hblack : near.color = .black ∧ far.color = .black
  · obtain ⟨t₁, h₁, hh⟩ := hsib.setColor .red
    rw [hblack.1, hblack.2] at hlr
    refine ⟨t₁, true, ?_, C, _, addr_branch, holds_otherSide.2 hh,
      short_cons hu hf hblack.1 hblack.2, ?_⟩
    · refine bind_of ha (bind_of hl (bind_of hb (bind_of hr ((if_pos ?_).trans ?_))))
      · rw [hlr]
        rfl
      · exact bind_of h₁ rfl
    · rw [color_branch]
      exact hlen
  · -- a last rotation, with the child on the other side red
    have hlast : ∀ {t₁ : RbRoot} {near' : BinTree Entry} {o' : Entry} {far' : BinTree Entry},
        Holds F L t₁ C (branch d c u x (branch d .black near' o' far')) → Balanced n near' →
        Balanced n far' → far'.color = .red →
        ∃ t', eraseOuter d t₁ x.1 o'.1 = some t' ∧ ∃ T k, Holds F L t' [] T ∧ Balanced k T := by
      intro t₁ near' o' far' hh hn hf' hc
      obtain ⟨l, z, r, rfl⟩ := exists_red d hc
      obtain ⟨hl, hr, -, -⟩ := balanced_red.1 hf'
      obtain ⟨t', hrun, hh⟩ := eraseOuter_spec hh
      obtain ⟨-, k, hk⟩ := balanced_cons (e := d) (y := o') hf
        ((balanced_black (d := d)).2 ⟨hu, hn⟩) ((balanced_black (d := d)).2 ⟨hl, hr⟩)
        (color_branch ..) (color_branch ..)
      exact ⟨t', hrun, _, k, holds_plug.1 hh, hk⟩
    have hfalse : ¬ (l && r) = true := by
      rw [hlr]
      simpa using hblack
    have hfarChild := child_of hsib.root_mem d.other
    rw [cell_child_other] at hfarChild
    have hfarBlack := isBlack_addr (holds_otherSide.1 hsib).rep
    cases hcf : far.color with
    | red =>
      rw [hcf] at hfarBlack
      obtain ⟨t', hrun, hend⟩ := hlast h hnear hfar hcf
      refine ⟨t', false, ?_, hend⟩
      refine bind_of ha (bind_of hl (bind_of hb (bind_of hr ((if_neg hfalse).trans ?_))))
      refine bind_of hfarChild (bind_of hfarBlack ((if_neg Bool.false_ne_true).trans ?_))
      exact bind_of rfl (bind_of hrun rfl)
    | black =>
      rw [hcf] at hfarBlack
      have hcn : near.color = .red := by
        cases hc : near.color with
        | red => rfl
        | black => exact absurd ⟨hc, hcf⟩ hblack
      obtain ⟨l', y, r', rfl⟩ := exists_red d hcn
      obtain ⟨hl', hr', -, hcr'⟩ := balanced_red.1 hnear
      obtain ⟨t₁, hinner, hh⟩ := eraseInner_spec h
      obtain ⟨t', hrun, hend⟩ := hlast hh hl' (balanced_red.2 ⟨hr', hfar, hcr', hcf⟩)
        (color_branch ..)
      refine ⟨t', false, ?_, hend⟩
      refine bind_of ha (bind_of hl (bind_of hb (bind_of hr ((if_neg hfalse).trans ?_))))
      refine bind_of hfarChild (bind_of hfarBlack ((if_pos rfl).trans ?_))
      exact bind_of hinner (bind_of hrun rfl)

/-- **A round** from a short tree. -/
theorem eraseRound_spec {n : Nat} (h : Holds F L t (⟨d, c, x, s⟩ :: C) u) (hu : Balanced n u)
    (hf : Fits (⟨d, c, x, s⟩ :: C) (n + 1)) (hs : Balanced (n + 1) s) :
    ∃ t' goesOn, eraseRound d t x.1 = some (t', goesOn) ∧
      RoundEnds F L x.1 (C.length + 1) t' goesOn := by
  have h := holds_side.2 h
  have hother := child_of h.root_mem d.other
  rw [cell_child_other] at hother
  obtain ⟨c', near, o, far, rfl⟩ := exists_branch d hs.ne_nil
  have hcolor := color_of (holds_otherSide.1 h).root_mem
  rw [cell_color] at hcolor
  rw [addr_branch] at hother
  cases c' with
  | black =>
    obtain ⟨t', goesOn, hrun, hend⟩ := eraseBlack_spec h hu hf hs (color_branch ..)
      (.inr (Nat.lt_succ_self _))
    rw [addr_branch] at hrun
    exact ⟨t', goesOn, bind_of hother (bind_of hcolor ((if_neg (nomatch ·)).trans hrun)), hend⟩
  | red =>
    -- the parent of a red node is black
    cases c with
    | red =>
      have := hf.2.1
      rw [color_branch] at this
      cases this
    | black =>
      obtain ⟨hnear, hfar, hcn, hcf⟩ := balanced_red.1 hs
      obtain ⟨t₁, hred, hh⟩ := eraseRed_spec h
      have hf' : Fits (⟨d, .red, x, near⟩ :: ⟨d, .black, o, far⟩ :: C) (n + 1) :=
        ⟨hnear, hcn, rfl, hfar, hf.2⟩
      obtain ⟨t', goesOn, hrun, hend⟩ := eraseBlack_spec (holds_side.1 hh) hu hf' hnear hcn
        (.inl rfl)
      exact ⟨t', goesOn, bind_of hother (bind_of hcolor ((if_pos rfl).trans (bind_of hred hrun))),
        hend⟩

/-! ## The loop -/

/-- **The loop** ends at a node that completes the paths once it is black. -/
theorem eraseLoop_spec : ∀ (fuel : Nat) {t : RbRoot} {C : Ctx Entry} {u : BinTree Entry},
    Holds F L t C u → Short C u → 0 < fuel → (u.color = .black → C.length + 1 < fuel) →
    ∃ t' C' u', eraseLoop fuel t (addr u) (above 0 C) = some (t', addr u') ∧
      Holds F L t' C' u' ∧ RedBlackTree (plug C' (u'.recolor .black))
  | 0, _, _, _, _, _, h0, _ => absurd h0 (Nat.lt_irrefl 0)
  | fuel + 1, t, C, u, h, hshort, _, hlt => by
    have hblack := isBlack_addr h.rep
    rcases hshort with ⟨hc, hrb⟩ | ⟨n, hc, hu, hf⟩
    · rw [hc] at hblack
      exact ⟨t, C, u, bind_of hblack (if_neg Bool.false_ne_true), h, hrb⟩
    rw [hc] at hblack
    cases C with
    | nil =>
      -- the node is the root
      refine ⟨t, [], u, bind_of hblack ((if_neg ?_).trans rfl), h, redBlackTree_recolor hu⟩
      rw [h.root]
      simp [top]
    | cons f C =>
      obtain ⟨d, c, x, s⟩ := f
      have hs : Balanced (n + 1) s := by
        cases c with
        | red => exact hf.1
        | black => exact hf.1
      have hgo : ((Color.black == .black) && addr u != t.rbNode) = true := by
        simpa using h.addr_ne_root
      obtain ⟨b, hbl, hside⟩ := h.side_iff (.inr hs.ne_nil) .left
      obtain ⟨t', goesOn, hround, hend⟩ := eraseRound_spec h hu hf hs
      have hlen := hlt hc
      rw [List.length_cons] at hlen
      -- the round is made on the side of the node
      suffices hrest : ∃ t'' C'' u'', (if goesOn = true then
          (t'.parent x.1).bind fun q => eraseLoop fuel t' x.1 q else some (t', t'.rbNode)) =
            some (t'', addr u'') ∧
          Holds F L t'' C'' u'' ∧ RedBlackTree (plug C'' (u''.recolor .black)) by
        obtain ⟨t'', C'', u'', hrun, hh, hrb⟩ := hrest
        refine ⟨t'', C'', u'', bind_of hblack ((if_pos hgo).trans (bind_of hbl ?_)), hh, hrb⟩
        cases d with
        | left => exact (if_pos (hside.2 rfl)).trans (bind_of hround hrun)
        | right => exact (if_neg fun he => nomatch hside.1 he).trans (bind_of hround hrun)
      cases goesOn with
      | false =>
        obtain ⟨T, k, hT, hk⟩ := hend
        refine ⟨t', [], T, (if_neg Bool.false_ne_true).trans ?_, hT, redBlackTree_recolor hk⟩
        rw [hT.root]
        rfl
      | true =>
        obtain ⟨C', u', hx, hh, hshort', hlen'⟩ := hend
        have hne : u' ≠ .nil := fun h0 => by
          rw [h0] at hx
          exact h.seg.1 hx.symm
        have hparent := hh.parent_addr hne
        rw [hx] at hparent
        obtain ⟨t'', C'', u'', hrun, hh', hrb⟩ := eraseLoop_spec fuel hh hshort' (by omega)
          fun hcu => by
            have := hlen'.resolve_left fun hr => by rw [hcu] at hr; cases hr
            omega
        rw [hx] at hrun
        exact ⟨t'', C'', u'', (if_pos rfl).trans (bind_of hparent hrun), hh', hrb⟩

/-- **`__rb_erase_color`** where the paths through a place are short. -/
theorem rbEraseColor_spec {fuel : Nat} (h : Holds F L t C u) (hs : Short C u)
    (hfuel : C.length + 1 < fuel) : ∃ t' T, rbEraseColor fuel t (addr u) (above 0 C) = some t' ∧
      Holds F L t' [] T ∧ RedBlackTree T := by
  obtain ⟨t₁, C', u', hloop, hh, hrb⟩ := eraseLoop_spec fuel h hs (by omega) fun _ => hfuel
  by_cases hu : u' = .nil
  · subst hu
    exact ⟨t₁, _, bind_of hloop ((if_neg fun h => h rfl).trans rfl), holds_plug.1 hh, hrb⟩
  · obtain ⟨c, l, x, r, rfl⟩ := exists_branch .left hu
    obtain ⟨t₂, hset, hh'⟩ := hh.setColor .black
    have h0 : addr (branch .left c l x r) ≠ 0 := hh.rep.addr_ne_zero hu
    rw [recolor_branch] at hrb
    rw [← addr_branch (d := .left) (c := c) (u := l) (s := r)] at hset
    exact ⟨t₂, _, bind_of hloop ((if_pos h0).trans hset), holds_plug.1 hh', hrb⟩

end RbTree
