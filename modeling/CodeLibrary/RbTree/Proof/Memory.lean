import CodeLibrary.RbTree.Spec

/-!
# The tree in memory, around a hole

`Holds F L t C u`: the memory of `t` holds the tree with `u` in the hole of `C`, whose entries are
`L` from left to right; everywhere else it is `F`.

* `holds_cons`: the hole moves up and down.
* `Holds.setColor`, `rotate_spec`: a node gets a color, and a rotation; `relink_spec`,
  `reparent_spec`: the links at the root of a subtree.
-/

namespace RbTree

open NodeMem RedBlack RedBlack.BinTree

variable {m m' : Mem MyType} {par : Addr} {d : Dir} {c : Color} {x : Entry} {u s : BinTree Entry}

/-! ## Nodes -/

/-- A node with a child at `a` on side `d`, and one at `b` on the other. -/
def cell (d : Dir) (par : Addr) (c : Color) (k : Int) (a b : Addr) : MyType :=
  match d with
  | .left => ⟨par, c, b, a, k⟩
  | .right => ⟨par, c, a, b, k⟩

section
variable (d : Dir) (par : Addr) (c : Color) (k : Int) (a b q : Addr)

@[simp] theorem cell_child : (cell d par c k a b).child d = a := by cases d <;> rfl

@[simp] theorem cell_child_other : (cell d par c k a b).child d.other = b := by cases d <;> rfl

@[simp] theorem cell_setChild : (cell d par c k a b).setChild d q = cell d par c k q b := by
  cases d <;> rfl

@[simp] theorem cell_setChild_other :
    (cell d par c k a b).setChild d.other q = cell d par c k a q := by
  cases d <;> rfl

@[simp] theorem cell_parent : (cell d par c k a b).parent = par := by cases d <;> rfl

@[simp] theorem cell_color : (cell d par c k a b).color = c := by cases d <;> rfl

@[simp] theorem cell_num : (cell d par c k a b).num = k := by cases d <;> rfl

theorem cell_setParent : { cell d par c k a b with parent := q } = cell d q c k a b := by
  cases d <;> rfl

theorem cell_setColor (c' : Color) :
    { cell d par c k a b with color := c' } = cell d par c' k a b := by
  cases d <;> rfl

end

/-! ## Reads and writes -/

section
variable {t : RbRoot} {p : Addr} {n : MyType} (h : t.mem p = some n)
include h

theorem child_of (d : Dir) : t.child p d = some (n.child d) := by rw [RbRoot.child, h]; rfl

theorem parent_of : t.parent p = some n.parent := by rw [RbRoot.parent, h]; rfl

theorem color_of : t.color p = some n.color := by rw [RbRoot.color, h]; rfl

theorem num_of : t.num p = some n.num := by rw [RbRoot.num, h]; rfl

theorem modify_of (f : MyType → MyType) :
    t.modify p f = some { t with mem := t.mem.set p (f n) } := by
  rw [RbRoot.modify, h]
  rfl

end

/-- A step of a function, and the rest of it. -/
theorem bind_of {α β : Type} {o : Option α} {f : α → Option β} {a : α} {r : Option β}
    (h : o = some a) (hf : f a = r) : (o >>= f) = r := by
  rw [h]
  exact hf

theorem bind_ite_of {α β : Type} {p : Prop} [Decidable p] {o o' : Option α} {f : α → Option β}
    {a : α} {r : Option β} (h : (if p then o else o') = some a) (hf : f a = r) :
    (if p then o >>= f else o' >>= f) = r := by
  by_cases hp : p
  · rw [if_pos hp] at h ⊢
    exact bind_of h hf
  · rw [if_neg hp] at h ⊢
    exact bind_of h hf

/-! ## Subtrees -/

@[simp] theorem addr_branch : addr (branch d c u x s) = x.1 := by cases d <;> rfl

theorem rep_branch : Rep m par (branch d c u x s) ↔ x.1 ≠ 0 ∧
    m x.1 = some (cell d par c x.2 (addr u) (addr s)) ∧ Rep m x.1 u ∧ Rep m x.1 s := by
  cases d with
  | left => exact Iff.rfl
  | right => exact and_congr_right fun _ => and_congr_right fun _ => and_comm

theorem mem_addrs_branch {p : Addr} :
    p ∈ addrs (branch d c u x s) ↔ p = x.1 ∨ p ∈ addrs u ∨ p ∈ addrs s := by
  rw [((perm_toList_branch d c u x s).map Prod.fst).mem_iff, List.map_cons, List.map_append,
    List.mem_cons, List.mem_append]

theorem Rep.frame : ∀ {u : BinTree Entry} {par : Addr}, Rep m par u →
    (∀ p ∈ addrs u, m' p = m p) → Rep m' par u
  | .nil, _, _, _ => trivial
  | .node c l x r, par, ⟨h0, hx, hl, hr⟩, heq => by
    have hmem : ∀ {p}, p ∈ addrs (.node c l x r) ↔ p = x.1 ∨ p ∈ addrs l ∨ p ∈ addrs r :=
      mem_addrs_branch (d := .left)
    exact ⟨h0, (heq _ (hmem.2 (.inl rfl))).trans hx,
      hl.frame fun p hp => heq p (hmem.2 (.inr (.inl hp))),
      hr.frame fun p hp => heq p (hmem.2 (.inr (.inr hp)))⟩

/-- The root of a subtree is in it, unless it is a leaf. -/
theorem addr_cases : ∀ u : BinTree Entry, u = .nil ∨ addr u ∈ addrs u
  | .nil => .inl rfl
  | .node _ _ _ _ => .inr (mem_addrs_branch (d := .left).2 (.inl rfl))

theorem Rep.ne_zero : ∀ {u : BinTree Entry} {par p : Addr}, Rep m par u → p ∈ addrs u → p ≠ 0
  | .nil, _, _, _, hp => nomatch hp
  | .node _ _ _ _, _, _, ⟨h0, _, hl, hr⟩, hp => by
    rcases (mem_addrs_branch (d := .left)).1 hp with rfl | hp | hp
    · exact h0
    · exact hl.ne_zero hp
    · exact hr.ne_zero hp

theorem Rep.isSome : ∀ {u : BinTree Entry} {par p : Addr}, Rep m par u → p ∈ addrs u → (m p).isSome
  | .nil, _, _, _, hp => nomatch hp
  | .node _ _ _ _, _, _, ⟨_, hx, hl, hr⟩, hp => by
    rcases (mem_addrs_branch (d := .left)).1 hp with rfl | hp | hp
    · exact Option.isSome_of_eq_some hx
    · exact hl.isSome hp
    · exact hr.isSome hp

theorem Rep.addr_ne_zero (h : Rep m par u) (hu : u ≠ .nil) : addr u ≠ 0 :=
  h.ne_zero ((addr_cases u).resolve_left hu)

/-- Subtrees of different nodes have different roots, unless both are leaves. -/
theorem addr_ne (hu : Rep m par u) {q : Addr} (hs : Rep m q s) (hus : ∀ p ∈ addrs u, p ∉ addrs s)
    (hne : u ≠ .nil ∨ s ≠ .nil) : addr u ≠ addr s := fun he => by
  rcases addr_cases u with rfl | hmem
  · exact hs.addr_ne_zero (hne.resolve_left fun h => h rfl) he.symm
  · rcases addr_cases s with rfl | hmem'
    · exact hu.ne_zero hmem he
    · exact hus _ hmem (he ▸ hmem')

theorem isRed_addr {t : RbRoot} : ∀ {u : BinTree Entry} {par : Addr}, Rep t.mem par u →
    t.isRed (addr u) = some (u.color == .red)
  | .nil, _, _ => rfl
  | .node c l x r, _, ⟨h0, hx, _, _⟩ => by
    have hc : t.color (addr (.node c l x r)) = some c := color_of hx
    rw [RbRoot.isRed, if_neg (show ¬ addr (.node c l x r) = 0 from h0), hc]
    rfl

theorem isBlack_addr {t : RbRoot} : ∀ {u : BinTree Entry} {par : Addr}, Rep t.mem par u →
    t.isBlack (addr u) = some (u.color == .black)
  | .nil, _, _ => rfl
  | .node c l x r, _, ⟨h0, hx, _, _⟩ => by
    have hc : t.color (addr (.node c l x r)) = some c := color_of hx
    rw [RbRoot.isBlack, if_neg (show ¬ addr (.node c l x r) = 0 from h0), hc]
    rfl

/-- `rb_set_parent` at the root of a subtree, if there is one. -/
theorem reparent_spec {t : RbRoot} (h : Rep t.mem par u) (hn : (addrs u).Nodup) (q : Addr) :
    ∃ t', t.reparent (addr u) q = some t' ∧ t'.rbNode = t.rbNode ∧ Rep t'.mem q u ∧
      ∀ p, p ∉ addrs u → t'.mem p = t.mem p := by
  cases u with
  | nil => exact ⟨t, rfl, rfl, trivial, fun _ _ => rfl⟩
  | node c l x r =>
    obtain ⟨h0, hx, hl, hr⟩ := h
    have hn' := ((perm_toList_branch .left c l x r).map Prod.fst).nodup_iff.1 hn
    rw [List.map_cons, List.nodup_cons, List.map_append, List.mem_append, not_or] at hn'
    obtain ⟨⟨hxl, hxr⟩, -⟩ := hn'
    refine ⟨_, (if_pos h0).trans (modify_of hx _), rfl, ⟨h0, Mem.set_same .., ?_, ?_⟩, ?_⟩
    · exact hl.frame fun p hp => Mem.set_ne (ne_of_mem_of_not_mem hp hxl) _
    · exact hr.frame fun p hp => Mem.set_ne (ne_of_mem_of_not_mem hp hxr) _
    · intro p hp
      refine Mem.set_ne (fun he => hp ?_) _
      exact (mem_addrs_branch (d := .left)).2 (.inl he)

/-- The same, where there is a root. -/
theorem setParent_spec {t : RbRoot} (h : Rep t.mem par u) (hu : u ≠ .nil) (hn : (addrs u).Nodup)
    (q : Addr) : ∃ t', t.setParent (addr u) q = some t' ∧ t'.rbNode = t.rbNode ∧
      Rep t'.mem q u ∧ ∀ p, p ∉ addrs u → t'.mem p = t.mem p := by
  obtain ⟨t', hrun, h'⟩ := reparent_spec h hn q
  rw [RbRoot.reparent, if_pos (h.addr_ne_zero hu)] at hrun
  exact ⟨t', hrun, h'⟩

/-! ## Contexts -/

/-- The node above the hole; `par` is above the root. -/
def above (par : Addr) : Ctx Entry → Addr
  | [] => par
  | f :: _ => f.val.1

theorem above_append (f : Frame Entry) (C : Ctx Entry) :
    ∀ S : Ctx Entry, above par (S ++ f :: C) = above f.val.1 S
  | [] => rfl
  | _ :: _ => rfl

/-- The root, with `a` in the hole. -/
def top : Ctx Entry → Addr → Addr
  | [], a => a
  | f :: C, _ => top C f.val.1

def ctxAddrs (C : Ctx Entry) : List Addr := (before C ++ after C).map Prod.fst

/-- The nodes of a context are in the memory, with `a` in the hole. -/
def Seg (m : Mem MyType) (par : Addr) : Ctx Entry → Addr → Prop
  | [], _ => True
  | f :: C, a => f.val.1 ≠ 0 ∧
    m f.val.1 = some (cell f.dir (above par C) f.color f.val.2 a (addr f.sib)) ∧
    Rep m f.val.1 f.sib ∧ Seg m par C f.val.1

theorem perm_ctxAddrs_cons (f : Frame Entry) (C : Ctx Entry) :
    (ctxAddrs (f :: C)).Perm (f.val.1 :: (addrs f.sib ++ ctxAddrs C)) := by
  have := (perm_around_cons f C).map Prod.fst
  simp only [List.map_append, List.map_cons] at this
  simpa only [ctxAddrs, List.map_append] using this

theorem mem_ctxAddrs_cons {f : Frame Entry} {C : Ctx Entry} {p : Addr} :
    p ∈ ctxAddrs (f :: C) ↔ p = f.val.1 ∨ p ∈ addrs f.sib ∨ p ∈ ctxAddrs C := by
  rw [(perm_ctxAddrs_cons f C).mem_iff, List.mem_cons, List.mem_append]

theorem Seg.frame : ∀ {C : Ctx Entry} {a : Addr}, Seg m par C a →
    (∀ p ∈ ctxAddrs C, m' p = m p) → Seg m' par C a
  | [], _, _, _ => trivial
  | _ :: _, _, ⟨h0, hf, hs, hC⟩, heq =>
    ⟨h0, (heq _ (mem_ctxAddrs_cons.2 (.inl rfl))).trans hf,
      hs.frame fun p hp => heq p (mem_ctxAddrs_cons.2 (.inr (.inl hp))),
      hC.frame fun p hp => heq p (mem_ctxAddrs_cons.2 (.inr (.inr hp)))⟩

/-- A tree is a context and what is in its hole. -/
theorem rep_plug : ∀ {C : Ctx Entry} {u : BinTree Entry},
    Rep m par (plug C u) ↔ Seg m par C (addr u) ∧ Rep m (above par C) u
  | [], _ => (and_iff_right trivial).symm
  | f :: C, u => by
    rw [plug, rep_plug, Frame.fill, rep_branch, addr_branch]
    constructor
    · intro h
      obtain ⟨hC, h0, hf, hu, hs⟩ := h
      exact ⟨⟨h0, hf, hs, hC⟩, hu⟩
    · intro h
      obtain ⟨⟨h0, hf, hs, hC⟩, hu⟩ := h
      exact ⟨hC, h0, hf, hu, hs⟩

theorem addr_plug : ∀ (C : Ctx Entry) (u : BinTree Entry), addr (plug C u) = top C (addr u)
  | [], _ => rfl
  | f :: C, u => by
    rw [plug, addr_plug, Frame.fill, addr_branch]
    rfl

theorem perm_addrs_plug (C : Ctx Entry) (u : BinTree Entry) :
    (addrs (plug C u)).Perm (ctxAddrs C ++ addrs u) := by
  rw [addrs, toList_plug, ctxAddrs, ← List.map_append, List.append_assoc, List.append_assoc]
  exact (List.perm_append_comm.append_left _).map _

/-- The link above the hole. -/
def linkOf : Ctx Entry → Link
  | [] => .root
  | f :: _ => .child f.val.1 f.dir

/-- The link above the hole, from `a` to `b`. -/
theorem put_spec {t : RbRoot} {C : Ctx Entry} {a : Addr} (h : Seg t.mem 0 C a)
    (hroot : t.rbNode = top C a) (hn : (ctxAddrs C).Nodup) (b : Addr) :
    ∃ t', t.put (linkOf C) b = some t' ∧ Seg t'.mem 0 C b ∧ t'.rbNode = top C b ∧
      ∀ p, p ∉ ctxAddrs C → t'.mem p = t.mem p := by
  cases C with
  | nil => exact ⟨{ t with rbNode := b }, rfl, trivial, rfl, fun _ _ => rfl⟩
  | cons f C =>
    obtain ⟨h0, hf, hs, hC⟩ := h
    have hn' := (perm_ctxAddrs_cons f C).nodup_iff.1 hn
    rw [List.nodup_cons, List.mem_append, not_or] at hn'
    obtain ⟨⟨hfs, hfC⟩, -⟩ := hn'
    have hcell := modify_of hf fun n => n.setChild f.dir b
    rw [cell_setChild] at hcell
    refine ⟨⟨t.rbNode, t.mem.set f.val.1 (cell f.dir (above 0 C) f.color f.val.2 b (addr f.sib))⟩,
      hcell, ⟨h0, Mem.set_same .., ?_, ?_⟩, hroot, ?_⟩
    · exact hs.frame fun p hp => Mem.set_ne (ne_of_mem_of_not_mem hp hfs) _
    · exact hC.frame fun p hp => Mem.set_ne (ne_of_mem_of_not_mem hp hfC) _
    · intro p hp
      exact Mem.set_ne (fun he => hp (mem_ctxAddrs_cons.2 (.inl he))) _

/-- `relink` tells on which side of its parent the hole is. -/
theorem relink_eq {t : RbRoot} {C : Ctx Entry} {a : Addr} (h : Seg t.mem 0 C a) (ha : a ≠ 0)
    (haC : a ∉ ctxAddrs C) (d : Dir) (b : Addr) :
    t.relink d (above 0 C) a b = t.put (linkOf C) b := by
  cases C with
  | nil => rfl
  | cons f C =>
    obtain ⟨h0, hf, -, -⟩ := h
    have hsib : addr f.sib ≠ a := fun he => by
      rcases addr_cases f.sib with hs | hs
      · rw [hs] at he
        exact ha he.symm
      · exact haC (mem_ctxAddrs_cons.2 (.inr (.inl (he ▸ hs))))
    rw [RbRoot.relink, above, if_pos h0, child_of hf]
    rcases Dir.eq_or_other f.dir d with rfl | rfl
    · rw [cell_child]
      exact if_pos rfl
    · rw [cell_child_other]
      apply (if_neg hsib).trans
      rw [Dir.other_other]
      rfl

theorem relink_spec {t : RbRoot} {C : Ctx Entry} {a : Addr} (h : Seg t.mem 0 C a)
    (hroot : t.rbNode = top C a) (ha : a ≠ 0) (haC : a ∉ ctxAddrs C) (hn : (ctxAddrs C).Nodup)
    (d : Dir) (b : Addr) : ∃ t', t.relink d (above 0 C) a b = some t' ∧ Seg t'.mem 0 C b ∧
      t'.rbNode = top C b ∧ ∀ p, p ∉ ctxAddrs C → t'.mem p = t.mem p := by
  rw [relink_eq h ha haC]
  exact put_spec h hroot hn b

theorem Seg.top_mem : ∀ {C : Ctx Entry} {f : Frame Entry} {a : Addr}, Seg m par (f :: C) a →
    top (f :: C) a ∈ ctxAddrs (f :: C) ∧ top (f :: C) a ≠ 0
  | [], _, _, ⟨h0, _, _, _⟩ => ⟨mem_ctxAddrs_cons.2 (.inl rfl), h0⟩
  | _ :: _, _, _, ⟨_, _, _, hC⟩ =>
    have h := hC.top_mem
    ⟨mem_ctxAddrs_cons.2 (.inr (.inr h.1)), h.2⟩

/-! ## A tree with a hole -/

/-- The tree with `u` in the hole of `C` is in the memory, in the order of `L`; the rest of it is
`F`. -/
structure Holds (F : Mem MyType) (L : List Entry) (t : RbRoot) (C : Ctx Entry)
    (u : BinTree Entry) : Prop where
  root : t.rbNode = top C (addr u)
  seg : Seg t.mem 0 C (addr u)
  rep : Rep t.mem (above 0 C) u
  inorder : before C ++ u.toList ++ after C = L
  nodup : (L.map Prod.fst).Nodup
  rest : ∀ p, p ∉ L.map Prod.fst → t.mem p = F p

variable {F : Mem MyType} {L : List Entry} {t : RbRoot} {C : Ctx Entry}

/-- With the hole at the root, the entries are those of the tree in it. -/
theorem Holds.toList_eq (h : Holds F L t [] u) : u.toList = L := by
  rw [← h.inorder, before, after, List.nil_append, List.append_nil]

/-- The hole moves up and down. -/
theorem holds_cons {f : Frame Entry} : Holds F L t (f :: C) u ↔ Holds F L t C (f.fill u) := by
  have hin := before_cons_append_after f C u
  refine ⟨fun h => ?_, fun h => ?_⟩
  · obtain ⟨h0, hf, hs, hC⟩ := h.seg
    refine ⟨?_, ?_, rep_branch.2 ⟨h0, hf, h.rep, hs⟩, hin ▸ h.inorder, h.nodup, h.rest⟩
    · rw [h.root, Frame.fill, addr_branch]
      rfl
    · rw [Frame.fill, addr_branch]
      exact hC
  · obtain ⟨h0, hf, hu, hs⟩ := rep_branch.1 h.rep
    have hC := h.seg
    have hroot := h.root
    rw [Frame.fill, addr_branch] at hC hroot
    exact ⟨hroot, ⟨h0, hf, hs, hC⟩, hu, hin ▸ h.inorder, h.nodup, h.rest⟩

theorem holds_append : ∀ (S : Ctx Entry) {u : BinTree Entry},
    Holds F L t (S ++ C) u ↔ Holds F L t C (plug S u)
  | [], _ => Iff.rfl
  | _ :: S, _ => holds_cons.trans (holds_append S)

theorem holds_side : Holds F L t C (branch d c u x s) ↔ Holds F L t (⟨d, c, x, s⟩ :: C) u :=
  (holds_cons (f := ⟨d, c, x, s⟩)).symm

theorem holds_otherSide :
    Holds F L t C (branch d c u x s) ↔ Holds F L t (⟨d.other, c, x, u⟩ :: C) s := by
  rw [← branch_other]
  exact holds_side (d := d.other)

theorem holds_plug : Holds F L t C u ↔ Holds F L t [] (plug C u) := by
  rw [← holds_append, List.append_nil]

namespace Holds

/-- The node at the root of a subtree. -/
theorem root_mem (h : Holds F L t C (branch d c u x s)) :
    t.mem x.1 = some (cell d (above 0 C) c x.2 (addr u) (addr s)) := (rep_branch.1 h.rep).2.1

/-- The node above the hole. -/
theorem above_mem {e : Dir} (h : Holds F L t (⟨e, c, x, s⟩ :: C) u) :
    t.mem x.1 = some (cell e (above 0 C) c x.2 (addr u) (addr s)) := h.seg.2.1

/-- The entries around the hole and those in it are different nodes. -/
theorem disjoint (h : Holds F L t C u) : (ctxAddrs C ++ addrs u).Nodup := by
  rw [← (perm_addrs_plug C u).nodup_iff, addrs, toList_plug, h.inorder]
  exact h.nodup

theorem nodup_ctx (h : Holds F L t C u) : (ctxAddrs C).Nodup := (List.nodup_append.1 h.disjoint).1

theorem nodup_tree (h : Holds F L t C u) : (addrs u).Nodup := (List.nodup_append.1 h.disjoint).2.1

theorem not_mem_ctx (h : Holds F L t C u) {p : Addr} (hp : p ∈ addrs u) : p ∉ ctxAddrs C :=
  fun hC => (List.nodup_append.1 h.disjoint).2.2 p hC p hp rfl

theorem mem_list (h : Holds F L t C u) {p : Addr} :
    p ∈ L.map Prod.fst ↔ p ∈ ctxAddrs C ∨ p ∈ addrs u := by
  rw [← List.mem_append, ← (perm_addrs_plug C u).mem_iff, addrs, toList_plug, h.inorder]

theorem length_le (h : Holds F L t C u) : C.length + u.toList.length ≤ L.length := by
  rw [← h.inorder, ← toList_plug]
  exact length_plug C u

/-- A subtree and the node above it. -/
theorem branch_disjoint (h : Holds F L t C (branch d c u x s)) :
    x.1 ∉ ctxAddrs C ∧ x.1 ∉ addrs u ∧ x.1 ∉ addrs s ∧ ∀ p ∈ addrs u, p ∉ addrs s := by
  have hn := ((perm_toList_branch d c u x s).map Prod.fst).nodup_iff.1 h.nodup_tree
  rw [List.map_cons, List.map_append, List.nodup_cons, List.mem_append, not_or] at hn
  obtain ⟨⟨hu, hs⟩, hus⟩ := hn
  refine ⟨h.not_mem_ctx (mem_addrs_branch.2 (.inl rfl)), hu, hs, fun p hp hps => ?_⟩
  exact (List.nodup_append.1 hus).2.2 p hp p hps rfl

theorem parent_addr (h : Holds F L t C u) (hu : u ≠ .nil) :
    t.parent (addr u) = some (above 0 C) := by
  obtain ⟨c, l, x, r, rfl⟩ := exists_branch .left hu
  rw [addr_branch, parent_of h.root_mem, cell_parent]

/-- The root is not below another node. -/
theorem addr_ne_root {f : Frame Entry} (h : Holds F L t (f :: C) u) : addr u ≠ t.rbNode := by
  obtain ⟨hmem, h0⟩ := h.seg.top_mem
  rw [h.root]
  rcases addr_cases u with rfl | hu
  · exact h0.symm
  · exact fun he => h.not_mem_ctx hu (he ▸ hmem)

/-- The node above the hole tells on which side it is. -/
theorem side_iff {e : Dir} (h : Holds F L t (⟨e, c, x, s⟩ :: C) u) (hne : u ≠ .nil ∨ s ≠ .nil)
    (d : Dir) : ∃ a, t.child x.1 d = some a ∧ (a = addr u ↔ e = d) := by
  have hdisj := (holds_cons.1 h).branch_disjoint.2.2.2
  rcases Dir.eq_or_other e d with rfl | rfl
  · exact ⟨addr u, by rw [child_of h.above_mem, cell_child], iff_of_true rfl rfl⟩
  · refine ⟨addr s, by rw [child_of h.above_mem, cell_child_other], iff_of_false ?_ ?_⟩
    · exact (addr_ne h.rep h.seg.2.2.1 hdisj hne).symm
    · exact (Dir.other_ne e).symm

/-- The subtree in the hole becomes another one of the same entries. -/
theorem update (h : Holds F L t C u) {t' : RbRoot} {u' : BinTree Entry}
    (hroot : t'.rbNode = top C (addr u')) (hseg : Seg t'.mem 0 C (addr u'))
    (hrep : Rep t'.mem (above 0 C) u') (hlist : u'.toList = u.toList)
    (hm : ∀ p, p ∉ ctxAddrs C → p ∉ addrs u → t'.mem p = t.mem p) : Holds F L t' C u' := by
  refine ⟨hroot, hseg, hrep, by rw [hlist, h.inorder], h.nodup, fun p hp => ?_⟩
  have hp' := mt h.mem_list.2 hp
  rw [not_or] at hp'
  rw [hm p hp'.1 hp'.2, h.rest p hp]

/-- `rb_set_color` -/
theorem setColor (h : Holds F L t C (branch d c u x s)) (c' : Color) :
    ∃ t', t.setColor x.1 c' = some t' ∧ Holds F L t' C (branch d c' u x s) := by
  obtain ⟨h0, hx, hu, hs⟩ := rep_branch.1 h.rep
  obtain ⟨hxC, hxu, hxs, -⟩ := h.branch_disjoint
  have hset := modify_of hx fun n => { n with color := c' }
  rw [cell_setColor] at hset
  refine ⟨_, hset, h.update ?_ ?_ ?_ ?_ fun p _ hp => ?_⟩
  · rw [addr_branch, ← addr_branch, h.root]
  · have hseg := h.seg
    rw [addr_branch] at hseg ⊢
    exact hseg.frame fun p hp => Mem.set_ne (ne_of_mem_of_not_mem hp hxC) _
  · refine rep_branch.2 ⟨h0, Mem.set_same .., ?_, ?_⟩
    · exact hu.frame fun p hp => Mem.set_ne (ne_of_mem_of_not_mem hp hxu) _
    · exact hs.frame fun p hp => Mem.set_ne (ne_of_mem_of_not_mem hp hxs) _
  · exact toList_recolor_branch ..
  · exact Mem.set_ne (fun he => hp (mem_addrs_branch.2 (.inl he))) _

end Holds

/-! ## Rotations -/

/-- **A rotation**: the child of `x` on the other side comes above it. -/
theorem rotate_spec {c' : Color} {y : Entry} {v : BinTree Entry}
    (h : Holds F L t C (branch d c u x (branch d c' v y s))) :
    ∃ t', rotate d t x.1 = some t' ∧ Holds F L t' C (branch d c' (branch d c u x v) y s) := by
  obtain ⟨hx0, hx, hu, hys⟩ := rep_branch.1 h.rep
  obtain ⟨hy0, hy, hv, hs⟩ := rep_branch.1 hys
  rw [addr_branch] at hx
  -- the parts are apart
  obtain ⟨hxC, hxu, hxb, hub⟩ := h.branch_disjoint
  have hinner := holds_otherSide.1 h
  obtain ⟨hyC', hyv, hys, hvs⟩ := hinner.branch_disjoint
  have hyC : y.1 ∉ ctxAddrs C := fun hp => hyC' (mem_ctxAddrs_cons.2 (.inr (.inr hp)))
  have hyu : y.1 ∉ addrs u := fun hp => hyC' (mem_ctxAddrs_cons.2 (.inr (.inl hp)))
  have hyx : y.1 ≠ x.1 := fun he => hyC' (mem_ctxAddrs_cons.2 (.inl he))
  have hxv : x.1 ∉ addrs v := fun hp => hxb (mem_addrs_branch.2 (.inr (.inl hp)))
  have hxs : x.1 ∉ addrs s := fun hp => hxb (mem_addrs_branch.2 (.inr (.inr hp)))
  have huC : ∀ p ∈ addrs u, p ∉ ctxAddrs C := fun p hp =>
    h.not_mem_ctx (mem_addrs_branch.2 (.inr (.inl hp)))
  have hvC : ∀ p ∈ addrs v, p ∉ ctxAddrs C := fun p hp =>
    h.not_mem_ctx (mem_addrs_branch.2 (.inr (.inr (mem_addrs_branch.2 (.inr (.inl hp))))))
  have hsC : ∀ p ∈ addrs s, p ∉ ctxAddrs C := fun p hp =>
    h.not_mem_ctx (mem_addrs_branch.2 (.inr (.inr (mem_addrs_branch.2 (.inr (.inr hp))))))
  have huv : ∀ p ∈ addrs u, p ∉ addrs v := fun p hp hp' =>
    hub p hp (mem_addrs_branch.2 (.inr (.inl hp')))
  have hseg := h.seg
  have hroot := h.root
  rw [addr_branch] at hseg hroot
  -- the child between them
  let t₁ : RbRoot := ⟨t.rbNode, t.mem.set x.1 (cell d (above 0 C) c x.2 (addr u) (addr v))⟩
  have hv₁ : Rep t₁.mem y.1 v :=
    hv.frame fun p hp => Mem.set_ne (ne_of_mem_of_not_mem hp hxv) _
  obtain ⟨t₂, hrun₂, hroot₂, hv₂, hm₂⟩ :=
    reparent_spec hv₁ (holds_side.1 hinner).nodup_tree x.1
  have hm₂' : ∀ p, p ≠ x.1 → p ∉ addrs v → t₂.mem p = t.mem p := fun p hp hp' =>
    (hm₂ p hp').trans (Mem.set_ne hp _)
  -- the node that comes up
  let t₃ : RbRoot := ⟨t₂.rbNode, t₂.mem.set y.1 (cell d x.1 c' y.2 x.1 (addr s))⟩
  let t₄ : RbRoot := ⟨t₂.rbNode, t₃.mem.set y.1 (cell d (above 0 C) c' y.2 x.1 (addr s))⟩
  have hm₄ : ∀ p, p ≠ y.1 → t₄.mem p = t₂.mem p := fun p hp =>
    (Mem.set_ne hp _).trans (Mem.set_ne hp _)
  have hseg₄ : Seg t₄.mem 0 C x.1 := hseg.frame fun p hp => by
    rw [hm₄ p (ne_of_mem_of_not_mem hp hyC),
      hm₂' p (ne_of_mem_of_not_mem hp hxC) fun hv => hvC p hv hp]
  obtain ⟨t₅, hrun₅, hseg₅, hroot₅, hm₅⟩ := relink_spec hseg₄ (hroot₂.trans hroot) hx0 hxC
    h.nodup_ctx d y.1
  have hx₅ : t₅.mem x.1 = some (cell d (above 0 C) c x.2 (addr u) (addr v)) := by
    rw [hm₅ _ hxC, hm₄ _ hyx.symm, hm₂ _ hxv]
    exact Mem.set_same ..
  let t₆ : RbRoot := ⟨t₅.rbNode, t₅.mem.set x.1 (cell d y.1 c x.2 (addr u) (addr v))⟩
  have hm₆ : ∀ p, p ∉ ctxAddrs C → p ≠ x.1 → p ≠ y.1 → t₆.mem p = t₂.mem p :=
    fun p hC hx hy => ((Mem.set_ne hx _).trans (hm₅ p hC)).trans (hm₄ p hy)
  have hrun : rotate d t x.1 = some t₆ := by
    have hset₁ := modify_of hx fun n => n.setChild d.other (addr v)
    have hy₂ : t₂.mem y.1 = some (cell d x.1 c' y.2 (addr v) (addr s)) :=
      (hm₂' _ hyx hyv).trans hy
    have hset₃ := modify_of hy₂ fun n => n.setChild d x.1
    have hset₄ := modify_of (t := t₃) (Mem.set_same ..) fun n => { n with parent := above 0 C }
    have hset₆ := modify_of hx₅ fun n => { n with parent := y.1 }
    rw [cell_setChild_other] at hset₁
    rw [cell_setChild] at hset₃
    rw [cell_setParent] at hset₄ hset₆
    unfold rotate
    simp only [Option.bind_eq_bind, child_of hx, parent_of hx, child_of hy, cell_child,
      cell_child_other, cell_parent, Option.bind_some]
    exact bind_of hset₁ (bind_of hrun₂ (bind_of hset₃ (bind_of hset₄ (bind_of hrun₅ hset₆))))
  refine ⟨t₆, hrun, h.update ?_ ?_ ?_ (toList_rotate ..) fun p hC hp => ?_⟩
  · rw [addr_branch]
    exact hroot₅
  · rw [addr_branch]
    exact hseg₅.frame fun p hp => Mem.set_ne (ne_of_mem_of_not_mem hp hxC) _
  · have hy₆ : t₆.mem y.1 = some (cell d (above 0 C) c' y.2 x.1 (addr s)) :=
      ((Mem.set_ne hyx _).trans (hm₅ _ hyC)).trans (Mem.set_same ..)
    refine rep_branch.2 ⟨hy0, by rw [addr_branch]; exact hy₆, rep_branch.2 ⟨hx0, Mem.set_same ..,
      hu.frame fun p hp => ?_, hv₂.frame fun p hp => ?_⟩, hs.frame fun p hp => ?_⟩
    · have hpx := ne_of_mem_of_not_mem hp hxu
      exact (hm₆ p (huC p hp) hpx (ne_of_mem_of_not_mem hp hyu)).trans (hm₂' p hpx (huv p hp))
    · exact hm₆ p (hvC p hp) (ne_of_mem_of_not_mem hp hxv) (ne_of_mem_of_not_mem hp hyv)
    · have hpx := ne_of_mem_of_not_mem hp hxs
      exact (hm₆ p (hsC p hp) hpx (ne_of_mem_of_not_mem hp hys)).trans
        (hm₂' p hpx fun hv => hvs p hv hp)
  · rw [mem_addrs_branch, mem_addrs_branch] at hp
    simp only [not_or] at hp
    exact (hm₆ p hC hp.1 hp.2.2.1).trans (hm₂' p hp.1 hp.2.2.2.1)

/-- The rotation to the other side undoes it. -/
theorem rotate_other_spec {c' : Color} {y : Entry} {v : BinTree Entry}
    (h : Holds F L t C (branch d c (branch d c' u y v) x s)) :
    ∃ t', rotate d.other t x.1 = some t' ∧
      Holds F L t' C (branch d c' u y (branch d c v x s)) := by
  have hh : Holds F L t C (branch d.other c s x (branch d.other c' v y u)) := by
    rw [branch_other, branch_other]
    exact h
  obtain ⟨t', hrun, hh⟩ := rotate_spec hh
  rw [branch_other, branch_other] at hh
  exact ⟨t', hrun, hh⟩

end RbTree
