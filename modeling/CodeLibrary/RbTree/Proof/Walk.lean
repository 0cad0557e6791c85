import CodeLibrary.RbTree.Proof.Erase

/-!
# `rb_first`, `rb_next` and `print_rbtree`

* `rbNext_spec`: the next node is that of the next entry.
* `printRbtree_spec`: the numbers of all entries are printed, in their order.
-/

namespace RbTree

open NodeMem RedBlack RedBlack.BinTree

variable {F : Mem MyType} {L : List Entry} {t : RbRoot} {C : Ctx Entry} {c : Color}
  {u l r T : BinTree Entry} {x : Entry} {fuel : Nat}

/-- The node of the first entry, if there is one. -/
def first : List Entry → Addr
  | [] => 0
  | x :: _ => x.1

theorem leftmost_first {par : Addr} (h : Rep t.mem par u) (hu : u ≠ .nil)
    (hf : u.toList.length ≤ fuel) (k : List Entry) :
    leftmost fuel t (addr u) = some (first (u.toList ++ k)) := by
  obtain ⟨S, c, y, z, rfl, hS, hrun⟩ := leftmost_spec fuel h hu hf
  rw [hrun, toList_first hS]
  rfl

/-- Up to the first node that is on the left side of its parent. -/
theorem climb_spec : ∀ (fuel : Nat) {C : Ctx Entry} {u : BinTree Entry}, Holds F L t C u →
    u ≠ .nil → C.length < fuel → climb fuel t (addr u) = some (first (after C))
  | 0, _, _, _, _, hf => absurd hf (Nat.not_lt_zero _)
  | fuel + 1, [], _, h, hu, _ => bind_of (h.parent_addr hu) (if_pos rfl)
  | fuel + 1, ⟨d, c, x, s⟩ :: C, u, h, hu, hf => by
    have h0 : x.1 ≠ 0 := h.seg.1
    obtain ⟨a, ha, hside⟩ := h.side_iff (.inl hu) .right
    refine bind_of (h.parent_addr hu) ((if_neg h0).trans (bind_of ha ?_))
    have hup := holds_side.2 h
    have hne : branch d c u x s ≠ .nil := fun he => by cases d <;> cases he
    cases d with
    | left => exact if_neg fun he => nomatch hside.1 he.symm
    | right =>
      have hrest := climb_spec fuel hup hne (Nat.lt_of_succ_lt_succ hf)
      rw [addr_branch] at hrest
      exact (if_pos (hside.2 rfl).symm).trans hrest

/-- **`rb_next`** is the node of the next entry. -/
theorem rbNext_spec (h : Holds F L t C (.node c l x r)) (hf : L.length < fuel) :
    rbNext fuel t x.1 = some (first (r.toList ++ after C)) := by
  have hlen := h.length_le
  simp only [toList, List.length_append, List.length_cons] at hlen
  have hne : BinTree.node c l x r ≠ .nil := by
    intro he
    cases he
  have hx := Holds.root_mem (d := .left) h
  have hself : above 0 C ≠ x.1 := by
    cases C with
    | nil => exact h.rep.1.symm
    | cons f C =>
      have hxC := (Holds.branch_disjoint (d := .left) h).1
      exact fun he => hxC (mem_ctxAddrs_cons.2 (.inl he.symm))
  refine bind_of (parent_of hx) ((if_neg hself).trans (bind_of (child_of hx _) ?_))
  by_cases hr : r = .nil
  · subst hr
    exact (if_neg fun h => h rfl).trans (climb_spec fuel h hne (by omega))
  · have hr0 := h.rep.2.2.2.addr_ne_zero hr
    exact (if_pos hr0).trans (leftmost_first h.rep.2.2.2 hr (by omega) _)

theorem rbFirst_spec (h : Holds F L t [] T) (hf : L.length ≤ fuel) :
    rbFirst fuel t = some (first L) := by
  have hL := h.toList_eq
  have hroot : t.rbNode = addr T := h.root
  rw [rbFirst, hroot]
  by_cases hT : T = .nil
  · subst hT
    rw [← hL]
    rfl
  · rw [if_neg (h.rep.addr_ne_zero hT), leftmost_first h.rep hT (by rw [hL]; exact hf) [],
      List.append_nil, hL]

theorem printLoop_spec (h : Holds F L t [] T) (hf : L.length < fuel) :
    ∀ (rounds : Nat) (a b : List Entry), T.toList = a ++ b → b.length < rounds →
      printLoop fuel rounds t (first b) = some (b.map Prod.snd)
  | 0, _, _, _, hr => absurd hr (Nat.not_lt_zero _)
  | rounds + 1, a, [], _, _ => if_pos rfl
  | rounds + 1, a, x :: b, hT, hr => by
    obtain ⟨D, c, l, r, hplug, -, hafter⟩ := exists_ctx [] hT
    have hD : Holds F L t D (.node c l x r) := by
      rw [holds_plug, ← hplug]
      exact h
    have hnext := rbNext_spec hD hf
    rw [hafter, after, List.append_nil] at hnext
    have hrest := printLoop_spec h hf rounds (a ++ [x]) b (by rw [hT]; simp)
      (Nat.lt_of_succ_lt_succ hr)
    apply (if_neg hD.rep.1).trans
    exact bind_of (num_of hD.rep.2.1) (bind_of hnext (bind_of hrest rfl))

/-- **`print_rbtree`** prints the numbers in the order of the entries. -/
theorem printRbtree_spec (h : Holds F L t [] T) (hf : L.length < fuel) :
    printRbtree fuel t = some (nums T) := by
  have hL := h.toList_eq
  have hrun := printLoop_spec h hf fuel [] T.toList rfl (by rw [hL]; exact hf)
  rw [hL] at hrun
  apply bind_of (rbFirst_spec h (Nat.le_of_lt hf))
  rw [hrun, nums, hL]

end RbTree
