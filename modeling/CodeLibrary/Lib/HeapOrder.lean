import Mathlib.Algebra.Group.Nat.Defs
import Mathlib.Logic.Relation
import Mathlib.Order.Defs.Unbundled

/-!
# Binary heaps in an array

The children of position `p` are `2 * p + 1` and `2 * p + 2`; a heap has every position before its
children in the order `r`.

* `OrderedOn r a P`: the positions in `P` are; `OrderedFrom r a k`: those from `k` on.
  `OrderedFrom.root`: the first element of a heap is the least one.
* `HoleOn r a P hole`: all of them but `hole`, which may come after its children. Sifting down keeps
  it (`HoleOn.swap`, for a set with the children of its positions) until it fills the hole
  (`HoleOn.fill`). `HoleOrdered` is that for the positions from `k` on.
* `InSubtree k p`: `p` is at or below `k`. On its level it is one of the `2 ^ d` positions from the
  leftmost one on (`inSubtree_iff`).
-/

namespace HeapOrder

variable {α : Type*}

/-- `c` is a child of `p`. -/
def IsChild (p c : Nat) : Prop := c = 2 * p + 1 ∨ c = 2 * p + 2

theorem IsChild.lt {p c : Nat} (h : IsChild p c) : p < c := by
  unfold IsChild at h
  omega

theorem IsChild.unique {p q c : Nat} (hp : IsChild p c) (hq : IsChild q c) : p = q := by
  unfold IsChild at hp hq
  omega

theorem exists_isChild {c : Nat} (h : 0 < c) : ∃ p, IsChild p c :=
  ⟨(c - 1) / 2, by unfold IsChild; omega⟩

variable (r : α → α → Prop)

/-- Position `i` comes no later than `j`, where both are in range. -/
def InOrder (a : Array α) (i j : Nat) : Prop :=
  ∀ x y, a[i]? = some x → a[j]? = some y → r x y

variable {r} in
theorem inOrder_iff {a : Array α} {i j : Nat} (hi : i < a.size) (hj : j < a.size) :
    InOrder r a i j ↔ r a[i] a[j] := by
  unfold InOrder
  rw [Array.getElem?_eq_getElem hi, Array.getElem?_eq_getElem hj]
  refine ⟨fun h => h _ _ rfl rfl, fun h x y hx hy => ?_⟩
  cases hx
  cases hy
  exact h

variable {r} in
theorem inOrder_of_size {a : Array α} {i j : Nat} (hj : a.size ≤ j) : InOrder r a i j := by
  intro x y _ hy
  rw [Array.getElem?_eq_none hj] at hy
  cases hy

variable {r} in
theorem inOrder_refl [Std.Refl r] (a : Array α) (i : Nat) : InOrder r a i i := by
  intro x y hx hy
  rw [hx] at hy
  cases hy
  exact Std.Refl.refl x

variable {r} in
theorem InOrder.trans [IsTrans α r] {a : Array α} {i j k : Nat} (h1 : InOrder r a i j)
    (h2 : InOrder r a j k) (hj : j < a.size) : InOrder r a i k := fun x y hx hy =>
  IsTrans.trans _ _ _ (h1 x _ hx (Array.getElem?_eq_getElem hj))
    (h2 _ y (Array.getElem?_eq_getElem hj) hy)

variable {r} in
/-- Positions that are not in order are in range, and in order the other way round. -/
theorem inOrder_of_not [Std.Total r] {a : Array α} {i j : Nat} (h : ¬ InOrder r a i j) :
    i < a.size ∧ j < a.size ∧ InOrder r a j i := by
  have hi : i < a.size := Nat.lt_of_not_le fun hle => h fun x _ hx _ => by
    rw [Array.getElem?_eq_none hle] at hx
    cases hx
  have hj : j < a.size := Nat.lt_of_not_le fun hle => h (inOrder_of_size hle)
  refine ⟨hi, hj, (inOrder_iff hj hi).2 ?_⟩
  exact (Std.Total.total a[i] a[j]).resolve_left fun hr => h ((inOrder_iff hi hj).2 hr)

/-- The positions in `P` come before their children. -/
def OrderedOn (a : Array α) (P : Nat → Prop) : Prop :=
  ∀ p c, P p → IsChild p c → InOrder r a p c

/-- The positions from `k` on come before their children. -/
def OrderedFrom (a : Array α) (k : Nat) : Prop :=
  ∀ p c, k ≤ p → IsChild p c → InOrder r a p c

/-- The positions in `P` other than `hole` come before their children, and the parent of `hole`
before the children of `hole`. -/
structure HoleOn (a : Array α) (P : Nat → Prop) (hole : Nat) : Prop where
  off : ∀ p c, P p → p ≠ hole → IsChild p c → InOrder r a p c
  above : ∀ p c, P p → IsChild p hole → IsChild hole c → InOrder r a p c

/-- The positions from `k` on other than `hole` come before their children, and the parent of
`hole` before the children of `hole`. -/
structure HoleOrdered (a : Array α) (k hole : Nat) : Prop where
  off : ∀ p c, k ≤ p → p ≠ hole → IsChild p c → InOrder r a p c
  above : ∀ p c, k ≤ p → IsChild p hole → IsChild hole c → InOrder r a p c

variable {r} {a : Array α} {P : Nat → Prop} {k hole : Nat}

theorem holeOn_iff : HoleOn r a (k ≤ ·) hole ↔ HoleOrdered r a k hole :=
  ⟨fun h => ⟨h.off, h.above⟩, fun h => ⟨h.off, h.above⟩⟩

theorem OrderedFrom.holeOrdered (h : OrderedFrom r a (k + 1)) : HoleOrdered r a k k where
  off p c hp hne hc := h p c (by omega) hc
  above p c hp hc _ := by
    have := hc.lt
    omega

/-- Past the last parent there is nothing to order. -/
theorem orderedFrom_of_size (h : a.size ≤ 2 * k + 1) : OrderedFrom r a k := by
  intro p c hp hc x y _ hy
  have := (Array.getElem?_eq_some_iff.1 hy).1
  unfold IsChild at hc
  omega

theorem HoleOn.fill (h : HoleOn r a P hole) (hle : ∀ c, IsChild hole c → InOrder r a hole c) :
    OrderedOn r a P := by
  intro p c hp hc
  by_cases hne : p = hole
  · subst hne
    exact hle c hc
  · exact h.off p c hp hne hc

theorem HoleOrdered.fill (h : HoleOrdered r a k hole)
    (hle : ∀ c, IsChild hole c → InOrder r a hole c) : OrderedFrom r a k :=
  (holeOn_iff.2 h).fill hle

/-- The hole moves down to its least child. -/
theorem HoleOn.swap [Std.Refl r] (h : HoleOn r a P hole) (hP : ∀ p c, P p → IsChild p c → P c)
    {m : Nat} (hk : P hole) (hm : m < a.size) (hh : hole < a.size) (hc : IsChild hole m)
    (hlt : r a[m] a[hole]) (hleast : ∀ c, IsChild hole c → InOrder r a m c) :
    HoleOn r (a.swap m hole) P m where
  off p c hp hne hpc x y hx hy := by
    have hmh := hc.lt
    have hcp := hpc.lt
    rw [Array.getElem?_swap] at hx hy
    rw [if_neg (Ne.symm hne)] at hx
    by_cases hph : hole = p
    · subst hph
      rw [if_pos rfl] at hx
      cases hx
      rw [if_neg (show ¬ hole = c by omega)] at hy
      split at hy
      · cases hy
        exact hlt
      · exact hleast c hpc _ _ (Array.getElem?_eq_getElem hm) hy
    · rw [if_neg hph] at hx
      have hcm : ¬ m = c := fun he => hph (hc.unique (he ▸ hpc))
      rw [if_neg hcm] at hy
      split at hy
      · rename_i hhc
        subst hhc
        cases hy
        exact h.above p m hp hpc hc _ _ hx (Array.getElem?_eq_getElem hm)
      · exact h.off p c hp (fun he => hph he.symm) hpc _ _ hx hy
  above p c hp hpm hmc x y hx hy := by
    have hmh := hc.lt
    have hcm := hmc.lt
    have : p = hole := hpm.unique hc
    subst this
    rw [Array.getElem?_swap, if_pos rfl] at hx
    rw [Array.getElem?_swap, if_neg (by omega), if_neg (by omega)] at hy
    cases hx
    exact h.off m c (hP p m hk hc) (by omega) hmc _ _ (Array.getElem?_eq_getElem hm) hy

theorem HoleOrdered.swap [Std.Refl r] (h : HoleOrdered r a k hole) {m : Nat} (hk : k ≤ hole)
    (hm : m < a.size) (hh : hole < a.size) (hc : IsChild hole m) (hlt : r a[m] a[hole])
    (hleast : ∀ c, IsChild hole c → InOrder r a m c) : HoleOrdered r (a.swap m hole) k m :=
  holeOn_iff.1 ((holeOn_iff.2 h).swap (fun _ _ hp hc => Nat.le_trans hp (Nat.le_of_lt hc.lt)) hk hm
    hh hc hlt hleast)

/-- The first element of a heap is the least one. -/
theorem OrderedFrom.root [Std.Refl r] [IsTrans α r] (h : OrderedFrom r a 0) {x : α}
    (hx : a[0]? = some x) : ∀ (i : Nat) (y : α), a[i]? = some y → r x y := by
  intro i
  induction i using Nat.strongRecOn with
  | ind i ih =>
    intro y hy
    by_cases hi : i = 0
    · subst hi
      rw [hx] at hy
      cases hy
      exact Std.Refl.refl x
    · obtain ⟨p, hp⟩ := exists_isChild (Nat.pos_of_ne_zero hi)
      have hlt := hp.lt
      have hsize := (Array.getElem?_eq_some_iff.1 hy).1
      have hpy := Array.getElem?_eq_getElem (show p < a.size by omega)
      exact IsTrans.trans _ _ _ (ih p hlt _ hpy) (h p i (Nat.zero_le p) hp _ _ hpy hy)

/-! ## Subtrees -/

/-- `p` is `k` or below it. -/
def InSubtree (k p : Nat) : Prop := Relation.ReflTransGen IsChild k p

theorem InSubtree.refl (k : Nat) : InSubtree k k := Relation.ReflTransGen.refl

theorem InSubtree.child {k p c : Nat} (h : InSubtree k p) (hc : IsChild p c) : InSubtree k c :=
  Relation.ReflTransGen.tail h hc

theorem InSubtree.le {k p : Nat} (h : InSubtree k p) : k ≤ p := by
  induction h with
  | refl => exact Nat.le_refl _
  | tail _ hc ih => exact Nat.le_trans ih (Nat.le_of_lt hc.lt)

/-- **The positions of a subtree**: counted from 1, half of one is its parent. -/
theorem inSubtree_iff {k : Nat} : ∀ {p : Nat}, InSubtree k p ↔ ∃ d, (p + 1) / 2 ^ d = k + 1 := by
  intro p
  constructor
  · intro h
    induction h with
    | refl => exact ⟨0, by simp⟩
    | tail _ hc ih =>
      obtain ⟨d, hd⟩ := ih
      refine ⟨d + 1, ?_⟩
      rw [Nat.pow_succ', ← Nat.div_div_eq_div_mul, ← hd]
      unfold IsChild at hc
      congr 1
      omega
  · intro hx
    obtain ⟨d, hd⟩ := hx
    induction d generalizing p with
    | zero =>
      rw [Nat.pow_zero, Nat.div_one] at hd
      obtain rfl : p = k := by omega
      exact .refl _
    | succ d ih =>
      rw [Nat.pow_succ', ← Nat.div_div_eq_div_mul] at hd
      have hp : 0 < p := by
        rcases Nat.eq_zero_or_pos p with rfl | hp
        · simp at hd
        · exact hp
      obtain ⟨q, hq⟩ := exists_isChild hp
      have hhalf : (p + 1) / 2 = q + 1 := by
        unfold IsChild at hq
        omega
      rw [hhalf] at hd
      exact (ih hd).child hq

end HeapOrder
