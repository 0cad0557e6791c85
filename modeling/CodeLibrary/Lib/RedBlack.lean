/-!
# Red–black trees and their contexts

A tree and a path from a hole in it to its root (`Ctx`), innermost frame first; `branch` and the
frames take a direction, so that a fact about one side is one about both.

* `toList_plug`: the elements in order, before the hole, in it and after it.
* `toList_rotate`: a rotation leaves them as they are.
* `Balanced n t`: no red node of `t` has a red child, and every path to a leaf has `n` black nodes.
  `Fits C n`: a tree of black height `n` fits in the hole (`balanced_plug`, `fits_of_plug`).
-/

namespace RedBlack

inductive Dir where
  | left
  | right
deriving DecidableEq, Repr

def Dir.other : Dir → Dir
  | .left => .right
  | .right => .left

@[simp] theorem Dir.other_other : ∀ d : Dir, d.other.other = d
  | .left => rfl
  | .right => rfl

theorem Dir.eq_or_other (d e : Dir) : e = d ∨ e = d.other := by
  cases d <;> cases e <;> decide

theorem Dir.other_ne (d : Dir) : d.other ≠ d := by
  cases d <;> decide

inductive Color where
  | red
  | black
deriving DecidableEq, Repr

inductive BinTree (α : Type) where
  | nil
  | node (c : Color) (l : BinTree α) (x : α) (r : BinTree α)

variable {α : Type}

/-! ## Trees -/

namespace BinTree

/-- The color of the root: a leaf is black. -/
def color : BinTree α → Color
  | nil => .black
  | node c _ _ _ => c

/-- The elements in order. -/
def toList : BinTree α → List α
  | nil => []
  | node _ l x r => l.toList ++ x :: r.toList

/-- The root gets a color. -/
def recolor (c : Color) : BinTree α → BinTree α
  | nil => nil
  | node _ l x r => node c l x r

/-- A node with `t` on side `d`, and `s` on the other. -/
def branch : Dir → Color → BinTree α → α → BinTree α → BinTree α
  | .left, c, t, x, s => node c t x s
  | .right, c, t, x, s => node c s x t

end BinTree

open BinTree

theorem branch_other (d : Dir) (c : Color) (t : BinTree α) (x : α) (s : BinTree α) :
    branch d.other c t x s = branch d c s x t := by
  cases d <;> rfl

theorem exists_branch (d : Dir) : ∀ {t : BinTree α}, t ≠ nil → ∃ c u x s, t = branch d c u x s
  | nil, h => absurd rfl h
  | node c l x r, _ => by
    cases d with
    | left => exact ⟨c, l, x, r, rfl⟩
    | right => exact ⟨c, r, x, l, rfl⟩

@[simp] theorem color_branch (d : Dir) (c : Color) (t : BinTree α) (x : α) (s : BinTree α) :
    (branch d c t x s).color = c := by
  cases d <;> rfl

@[simp] theorem recolor_branch (d : Dir) (c c' : Color) (t : BinTree α) (x : α) (s : BinTree α) :
    (branch d c t x s).recolor c' = branch d c' t x s := by
  cases d <;> rfl

theorem toList_recolor_branch (d : Dir) (c c' : Color) (t : BinTree α) (x : α) (s : BinTree α) :
    (branch d c t x s).toList = (branch d c' t x s).toList := by
  cases d <;> rfl

theorem perm_toList_branch (d : Dir) (c : Color) (t : BinTree α) (x : α) (s : BinTree α) :
    (branch d c t x s).toList.Perm (x :: (t.toList ++ s.toList)) := by
  cases d with
  | left => exact List.perm_middle
  | right => exact List.perm_middle.trans (List.perm_append_comm.cons x)

/-- A rotation at `x`. -/
theorem toList_rotate (d : Dir) (c c' : Color) (t : BinTree α) (x : α) (m : BinTree α) (y : α)
    (u : BinTree α) : (branch d c' (branch d c t x m) y u).toList =
      (branch d c t x (branch d c' m y u)).toList := by
  cases d <;> simp [branch, toList]

/-! ## Contexts -/

/-- A node with a hole on side `dir`. -/
structure Frame (α : Type) where
  dir : Dir
  color : Color
  val : α
  sib : BinTree α

abbrev Ctx (α : Type) := List (Frame α)

def Frame.fill (f : Frame α) (t : BinTree α) : BinTree α := branch f.dir f.color t f.val f.sib

def plug : Ctx α → BinTree α → BinTree α
  | [], t => t
  | f :: C, t => plug C (f.fill t)

theorem plug_append : ∀ (S C : Ctx α) (t : BinTree α), plug (S ++ C) t = plug C (plug S t)
  | [], _, _ => rfl
  | _ :: S, C, _ => plug_append S C _

/-- The elements before the hole. -/
def before : Ctx α → List α
  | [] => []
  | ⟨.left, _, _, _⟩ :: C => before C
  | ⟨.right, _, x, s⟩ :: C => before C ++ (s.toList ++ [x])

/-- The elements after the hole. -/
def after : Ctx α → List α
  | [] => []
  | ⟨.left, _, x, s⟩ :: C => x :: s.toList ++ after C
  | ⟨.right, _, _, _⟩ :: C => after C

theorem before_cons_append_after (f : Frame α) (C : Ctx α) (t : BinTree α) :
    before (f :: C) ++ t.toList ++ after (f :: C) =
      before C ++ (f.fill t).toList ++ after C := by
  obtain ⟨d, c, x, s⟩ := f
  cases d <;> simp [before, after, Frame.fill, branch, toList]

/-- The elements around a hole one node further down. -/
theorem perm_around_cons (f : Frame α) (C : Ctx α) : (before (f :: C) ++ after (f :: C)).Perm
    (f.val :: (f.sib.toList ++ (before C ++ after C))) := by
  obtain ⟨d, c, x, s⟩ := f
  cases d with
  | left =>
    exact List.perm_middle.trans ((List.perm_append_comm_assoc ..).cons x)
  | right =>
    have he : before (⟨.right, c, x, s⟩ :: C) ++ after (⟨.right, c, x, s⟩ :: C) =
        before C ++ (s.toList ++ x :: after C) := by simp [before, after]
    rw [he]
    apply (List.perm_append_comm_assoc ..).trans
    exact (List.perm_middle.append_left _).trans List.perm_middle

theorem toList_plug : ∀ (C : Ctx α) (t : BinTree α),
    (plug C t).toList = before C ++ t.toList ++ after C
  | [], t => by rw [plug, before, after, List.nil_append, List.append_nil]
  | f :: C, t => by rw [plug, toList_plug C, before_cons_append_after]

/-- Nothing is before a hole down the left side. -/
theorem before_left : ∀ (S : Ctx α), (∀ f ∈ S, f.dir = .left) → before S = []
  | [], _ => rfl
  | ⟨.left, _, _, _⟩ :: S, h => before_left S fun f hf => h f (List.mem_cons_of_mem _ hf)
  | ⟨.right, _, _, _⟩ :: _, h => nomatch h _ List.mem_cons_self

/-- The first element, at the end of a way down the left side. -/
theorem toList_first {S : Ctx α} (hS : ∀ f ∈ S, f.dir = .left) (c : Color) (y : α) (z : BinTree α) :
    (plug S (.node c .nil y z)).toList = y :: (plug S z).toList := by
  rw [toList_plug, toList_plug, before_left S hS]
  rfl

/-- Where an element is in a tree. -/
theorem exists_ctx {e : α} : ∀ {t : BinTree α} {a b : List α} (C : Ctx α), t.toList = a ++ e :: b →
    ∃ D c l r, plug C t = plug D (.node c l e r) ∧ before D ++ l.toList = before C ++ a ∧
      r.toList ++ after D = b ++ after C
  | .nil, _, _, _, h => by simp [toList] at h
  | .node c l x r, a, b, C, h => by
    rcases List.append_eq_append_iff.1 h with ⟨k, ha, hk⟩ | ⟨k, hl, hk⟩
    · cases k with
      | nil =>
        obtain ⟨rfl, rfl⟩ := List.cons.inj hk
        rw [List.append_nil] at ha
        exact ⟨C, c, l, r, rfl, by rw [ha], rfl⟩
      | cons x' k =>
        obtain ⟨rfl, hr⟩ := List.cons.inj hk
        obtain ⟨D, c', l', r', hplug, hb, ha'⟩ := exists_ctx (⟨.right, c, x, l⟩ :: C) hr
        refine ⟨D, c', l', r', hplug, ?_, ha'⟩
        rw [hb, ha, before]
        simp
    · cases k with
      | nil =>
        obtain ⟨rfl, rfl⟩ := List.cons.inj hk
        rw [List.append_nil] at hl
        exact ⟨C, c, l, r, rfl, by rw [hl], rfl⟩
      | cons e' k =>
        obtain ⟨rfl, hb⟩ := List.cons.inj hk
        obtain ⟨D, c', l', r', hplug, hb', ha'⟩ := exists_ctx (⟨.left, c, x, r⟩ :: C) hl
        refine ⟨D, c', l', r', hplug, hb', ?_⟩
        rw [ha', hb, after]
        simp

/-- A node of the path each, and what is in the hole. -/
theorem length_plug : ∀ (C : Ctx α) (t : BinTree α),
    C.length + t.toList.length ≤ (plug C t).toList.length
  | [], _ => Nat.le_of_eq (Nat.zero_add _)
  | f :: C, t => by
    have h := length_plug C (f.fill t)
    have hp := (perm_toList_branch f.dir f.color t f.val f.sib).length_eq
    rw [List.length_cons, List.length_append] at hp
    rw [plug, List.length_cons]
    rw [Frame.fill] at h ⊢
    omega

/-! ## Balance -/

/-- No red node has a red child, and every path to a leaf has `n` black nodes. -/
inductive Balanced : Nat → BinTree α → Prop
  | nil : Balanced 0 .nil
  | red {n : Nat} {l r : BinTree α} {x : α} : Balanced n l → Balanced n r → l.color = .black →
      r.color = .black → Balanced n (.node .red l x r)
  | black {n : Nat} {l r : BinTree α} {x : α} : Balanced n l → Balanced n r →
      Balanced (n + 1) (.node .black l x r)

/-- A red–black tree. -/
def RedBlackTree (t : BinTree α) : Prop := t.color = .black ∧ ∃ n, Balanced n t

variable {n : Nat} {d : Dir} {t s : BinTree α} {x : α}

/-- A balanced tree is a red–black tree once its root is black. -/
theorem redBlackTree_recolor : Balanced n t → RedBlackTree (t.recolor .black)
  | .nil => ⟨rfl, 0, .nil⟩
  | .red h h' _ _ => ⟨rfl, _, .black h h'⟩
  | .black h h' => ⟨rfl, _, .black h h'⟩

theorem balanced_red : Balanced n (branch d .red t x s) ↔
    Balanced n t ∧ Balanced n s ∧ t.color = .black ∧ s.color = .black := by
  cases d with
  | left => exact ⟨fun | .red h h' hc hc' => ⟨h, h', hc, hc'⟩,
      fun ⟨h, h', hc, hc'⟩ => .red h h' hc hc'⟩
  | right => exact ⟨fun | .red h h' hc hc' => ⟨h', h, hc', hc⟩,
      fun ⟨h, h', hc, hc'⟩ => .red h' h hc' hc⟩

theorem balanced_black : Balanced (n + 1) (branch d .black t x s) ↔
    Balanced n t ∧ Balanced n s := by
  cases d with
  | left => exact ⟨fun | .black h h' => ⟨h, h'⟩, fun ⟨h, h'⟩ => .black h h'⟩
  | right => exact ⟨fun | .black h h' => ⟨h', h⟩, fun ⟨h, h'⟩ => .black h' h⟩

/-- A black node is counted. -/
theorem Balanced.succ (h : Balanced n (branch d .black t x s)) : ∃ m, n = m + 1 := by
  cases d with
  | left => cases h with | black => exact ⟨_, rfl⟩
  | right => cases h with | black => exact ⟨_, rfl⟩

theorem Balanced.ne_nil (h : Balanced (n + 1) t) : t ≠ .nil := fun ht => by
  rw [ht] at h
  cases h

/-- A red tree has a root, with black children. -/
theorem exists_red (d : Dir) (hc : t.color = .red) : ∃ u x s, t = branch d .red u x s := by
  have ht : t ≠ .nil := fun h => by rw [h] at hc; cases hc
  obtain ⟨c, u, x, s, rfl⟩ := exists_branch d ht
  rw [color_branch] at hc
  exact ⟨u, x, s, by rw [hc]⟩

/-- So has a black tree, unless it is a leaf. -/
theorem exists_black (d : Dir) (hn : t ≠ .nil) (hc : t.color = .black) :
    ∃ u x s, t = branch d .black u x s := by
  obtain ⟨c, u, x, s, rfl⟩ := exists_branch d hn
  rw [color_branch] at hc
  exact ⟨u, x, s, by rw [hc]⟩

/-- The node above the hole is black. -/
def TopBlack : Ctx α → Prop
  | [] => False
  | f :: _ => f.color = .black

/-- A tree of black height `n` fits in the hole: a red one, if the node above is black. -/
def Fits : Ctx α → Nat → Prop
  | [], _ => True
  | ⟨_, .red, _, s⟩ :: C, n => Balanced n s ∧ s.color = .black ∧ TopBlack C ∧ Fits C n
  | ⟨_, .black, _, s⟩ :: C, n => Balanced n s ∧ Fits C (n + 1)

theorem balanced_plug : ∀ (C : Ctx α) {n : Nat} {t : BinTree α}, Fits C n → Balanced n t →
    t.color = .black ∨ TopBlack C → RedBlackTree (plug C t)
  | [], n, _, _, h, hc => ⟨hc.resolve_right id, n, h⟩
  | ⟨d, .red, x, s⟩ :: C, n, t, ⟨hs, hcs, htop, hC⟩, h, hc => by
    have ht := hc.resolve_right fun h => (nomatch h)
    have hb : Balanced n (branch d .red t x s) := balanced_red.2 ⟨h, hs, ht, hcs⟩
    exact balanced_plug C hC hb (.inr htop)
  | ⟨d, .black, x, s⟩ :: C, n, t, ⟨hs, hC⟩, h, _ => by
    have hb : Balanced (n + 1) (branch d .black t x s) := balanced_black.2 ⟨h, hs⟩
    exact balanced_plug C hC hb (.inl (color_branch ..))

/-- The node above the hole gets new children. -/
theorem balanced_cons {C : Ctx α} {e : Dir} {c : Color} {y : α} {a b : BinTree α}
    (h : Fits (⟨d, c, x, s⟩ :: C) n) (ha : Balanced n a) (hb : Balanced n b)
    (hca : a.color = .black) (hcb : b.color = .black) :
    RedBlackTree (plug C (branch e c a y b)) := by
  cases c with
  | red => exact balanced_plug C h.2.2.2 (balanced_red.2 ⟨ha, hb, hca, hcb⟩) (.inr h.2.2.1)
  | black => exact balanced_plug C h.2 (balanced_black.2 ⟨ha, hb⟩) (.inl (color_branch ..))

/-- The paths through the hole are one black node short, or are complete once its red root is
black. -/
def Short (C : Ctx α) (t : BinTree α) : Prop :=
  (t.color = .red ∧ RedBlackTree (plug C (t.recolor .black))) ∨
    ∃ n, t.color = .black ∧ Balanced n t ∧ Fits C (n + 1)

theorem short_of_fits {C : Ctx α} (h : Balanced n t) (hf : Fits C (n + 1)) : Short C t := by
  cases hc : t.color with
  | black => exact .inr ⟨n, hc, h, hf⟩
  | red =>
    obtain ⟨l, x, r, rfl⟩ := exists_red .left hc
    obtain ⟨hl, hr, -, -⟩ := balanced_red.1 h
    refine .inl ⟨hc, balanced_plug C hf ?_ (.inl rfl)⟩
    exact (balanced_black (d := .left)).2 ⟨hl, hr⟩

/-- A short tree below a node, whose other child becomes red, makes the node short. -/
theorem short_cons {C : Ctx α} {c : Color} {a b : BinTree α} {y : α} (ht : Balanced n t)
    (hf : Fits (⟨d, c, x, branch d .black a y b⟩ :: C) (n + 1)) (ha : a.color = .black)
    (hb : b.color = .black) : Short C (branch d c t x (branch d .red a y b)) := by
  have hbal : ∀ {e}, Balanced (n + 1) (branch d .black a y b) →
      Balanced (n + 1) (branch e .black t x (branch d .red a y b)) := fun h => by
    obtain ⟨hba, hbb⟩ := balanced_black.1 h
    exact balanced_black.2 ⟨ht, balanced_red.2 ⟨hba, hbb, ha, hb⟩⟩
  cases c with
  | red =>
    refine .inl ⟨color_branch .., ?_⟩
    rw [recolor_branch]
    exact balanced_plug C hf.2.2.2 (hbal hf.1) (.inl (color_branch ..))
  | black => exact .inr ⟨n + 1, color_branch .., hbal hf.1, hf.2⟩

theorem fits_of_plug : ∀ {C : Ctx α} {t : BinTree α}, RedBlackTree (plug C t) →
    ∃ n, Fits C n ∧ Balanced n t ∧ (t.color = .black ∨ TopBlack C)
  | [], _, ⟨hc, n, h⟩ => ⟨n, trivial, h, .inl hc⟩
  | ⟨d, .red, x, s⟩ :: C, t, h => by
    obtain ⟨n, hC, hb, htop⟩ := fits_of_plug (C := C) (t := branch d .red t x s) h
    obtain ⟨ht, hs, hct, hcs⟩ := balanced_red.1 hb
    rw [color_branch] at htop
    exact ⟨n, ⟨hs, hcs, htop.resolve_left fun h => (nomatch h), hC⟩, ht, .inl hct⟩
  | ⟨d, .black, x, s⟩ :: C, t, h => by
    obtain ⟨n, hC, hb, -⟩ := fits_of_plug (C := C) (t := branch d .black t x s) h
    obtain ⟨m, rfl⟩ := hb.succ
    obtain ⟨ht, hs⟩ := balanced_black.1 hb
    exact ⟨m, ⟨hs, hC⟩, ht, .inr rfl⟩

/-- What fits does not depend on the elements on the path. -/
theorem fits_val (y : α) : ∀ {S C : Ctx α} {n : Nat} {d : Dir} {c : Color} {x : α} {s : BinTree α},
    Fits (S ++ ⟨d, c, x, s⟩ :: C) n → Fits (S ++ ⟨d, c, y, s⟩ :: C) n
  | [], _, _, _, .red, _, _, h => h
  | [], _, _, _, .black, _, _, h => h
  | ⟨_, .red, _, _⟩ :: [], _, _, _, _, _, _, ⟨hs, hcs, htop, hC⟩ =>
    ⟨hs, hcs, htop, fits_val y (S := []) hC⟩
  | ⟨_, .red, _, _⟩ :: g :: S, _, _, _, _, _, _, ⟨hs, hcs, htop, hC⟩ =>
    ⟨hs, hcs, htop, fits_val y (S := g :: S) hC⟩
  | ⟨_, .black, _, _⟩ :: _, _, _, _, _, _, _, ⟨hs, hC⟩ => ⟨hs, fits_val y hC⟩

end RedBlack
