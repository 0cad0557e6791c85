import CodeLibrary.RbTree.Proof.Walk

/-!
# The walks of `my_search` and `my_insert`

`locate num C u` is where a walk for a number from `u` ends: at the node of the number, or at the
hole for it (`locate_spec`). `searchLoop_spec`, `descend_spec`: both loops walk there.
-/

namespace RbTree

open NodeMem RedBlack RedBlack.BinTree

variable {F : Mem MyType} {L : List Entry} {t : RbRoot} {num : Int}

/-- The numbers increase from left to right. -/
def Increasing (L : List Entry) : Prop := L.Pairwise fun x y => x.2 < y.2

/-- Where a walk for the number ends. -/
def locate (num : Int) : Ctx Entry → BinTree Entry → Ctx Entry × BinTree Entry
  | C, .nil => (C, .nil)
  | C, .node c l x r =>
    if num < x.2 then locate num (⟨.left, c, x, r⟩ :: C) l
    else if num > x.2 then locate num (⟨.right, c, x, l⟩ :: C) r
    else (C, .node c l x r)

/-- The walk ends at the node of the number, or in the hole for it. -/
theorem locate_spec : ∀ (u : BinTree Entry) (C : Ctx Entry),
    Increasing (before C ++ u.toList ++ after C) →
    (∀ x ∈ before C, x.2 < num) → (∀ x ∈ after C, num < x.2) →
    ∃ D v, locate num C u = (D, v) ∧ plug D v = plug C u ∧
      (∀ x ∈ before D, x.2 < num) ∧ (∀ x ∈ after D, num < x.2) ∧
      (v = .nil ∨ ∃ c l x r, v = .node c l x r ∧ x.2 = num)
  | .nil, C, _, hb, ha => ⟨C, .nil, rfl, rfl, hb, ha, .inl rfl⟩
  | .node c l x r, C, hinc, hb, ha => by
    have hl := before_cons_append_after ⟨.left, c, x, r⟩ C l
    have hr := before_cons_append_after ⟨.right, c, x, l⟩ C r
    -- `x` is after its left subtree, and before its right one
    have hu : Increasing (l.toList ++ x :: r.toList) :=
      (List.pairwise_append.1 (List.pairwise_append.1 hinc).1).2.1
    have hlx : ∀ y ∈ l.toList, y.2 < x.2 := fun y hy =>
      (List.pairwise_append.1 hu).2.2 y hy x List.mem_cons_self
    have hxr : ∀ y ∈ r.toList, x.2 < y.2 := fun y hy =>
      (List.pairwise_cons.1 (List.pairwise_append.1 hu).2.1).1 y hy
    rw [locate]
    by_cases hlt : num < x.2
    · rw [if_pos hlt]
      apply locate_spec l (⟨.left, c, x, r⟩ :: C) (by rw [hl]; exact hinc) hb
      intro y hy
      rcases List.mem_cons.1 hy with rfl | hy
      · exact hlt
      · rcases List.mem_append.1 hy with hy | hy
        · exact Int.lt_trans hlt (hxr y hy)
        · exact ha y hy
    · rw [if_neg hlt]
      by_cases hgt : num > x.2
      · rw [if_pos hgt]
        refine locate_spec r (⟨.right, c, x, l⟩ :: C) (by rw [hr]; exact hinc) (fun y hy => ?_) ha
        rcases List.mem_append.1 hy with hy | hy
        · exact hb y hy
        · rcases List.mem_append.1 hy with hy | hy
          · exact Int.lt_trans (hlx y hy) hgt
          · rw [List.mem_singleton.1 hy]
            exact hgt
      · rw [if_neg hgt]
        exact ⟨C, _, rfl, rfl, hb, ha, .inr ⟨c, l, x, r, rfl, by omega⟩⟩

/-- The loop of `my_search` walks there. -/
theorem searchLoop_spec : ∀ (fuel : Nat) {C : Ctx Entry} {u : BinTree Entry}, Holds F L t C u →
    u.toList.length < fuel → searchLoop num fuel t (addr u) = some (addr (locate num C u).2)
  | 0, _, _, _, hf => absurd hf (Nat.not_lt_zero _)
  | fuel + 1, C, .nil, _, _ => if_pos rfl
  | fuel + 1, C, .node c l x r, h, hf => by
    simp only [toList, List.length_append, List.length_cons] at hf
    have hx := Holds.root_mem (d := .left) h
    refine (if_neg h.rep.1).trans (bind_of (num_of hx) ?_)
    rw [locate, cell_num]
    by_cases hlt : num < x.2
    · rw [if_pos hlt, if_pos hlt]
      exact bind_of (child_of hx .left)
        (searchLoop_spec fuel (holds_side (d := .left).1 h) (by omega))
    · rw [if_neg hlt, if_neg hlt]
      by_cases hgt : num > x.2
      · rw [if_pos hgt, if_pos hgt]
        exact bind_of (child_of hx .right)
          (searchLoop_spec fuel (holds_otherSide (d := .left).1 h) (by omega))
      · rw [if_neg hgt, if_neg hgt]
        rfl

theorem get_linkOf {C : Ctx Entry} {u : BinTree Entry} (h : Holds F L t C u) :
    t.get (linkOf C) = some (addr u) := by
  cases C with
  | nil => exact congrArg some h.root
  | cons f C =>
    apply (child_of h.seg.2.1 f.dir).trans
    rw [cell_child]

/-- The link and the parent of the hole, if it is one. -/
def holeLink : Ctx Entry × BinTree Entry → Option (Link × Addr)
  | (C, .nil) => some (linkOf C, above 0 C)
  | (_, .node _ _ _ _) => none

/-- The loop of `my_insert` walks there. -/
theorem descend_spec : ∀ (fuel : Nat) {C : Ctx Entry} {u : BinTree Entry}, Holds F L t C u →
    u.toList.length < fuel →
    descend num fuel t (linkOf C) (above 0 C) = some (holeLink (locate num C u))
  | 0, _, _, _, hf => absurd hf (Nat.not_lt_zero _)
  | fuel + 1, C, .nil, h, _ => bind_of (get_linkOf h) (if_pos rfl)
  | fuel + 1, C, .node c l x r, h, hf => by
    simp only [toList, List.length_append, List.length_cons] at hf
    have hx := Holds.root_mem (d := .left) h
    refine bind_of (get_linkOf h) ((if_neg h.rep.1).trans (bind_of (num_of hx) ?_))
    rw [locate, cell_num]
    by_cases hlt : num < x.2
    · rw [if_pos hlt, if_pos hlt]
      exact descend_spec fuel (holds_side (d := .left).1 h) (by omega)
    · rw [if_neg hlt, if_neg hlt]
      by_cases hgt : num > x.2
      · rw [if_pos hgt, if_pos hgt]
        exact descend_spec fuel (holds_otherSide (d := .left).1 h) (by omega)
      · rw [if_neg hgt, if_neg hgt]
        rfl

end RbTree
