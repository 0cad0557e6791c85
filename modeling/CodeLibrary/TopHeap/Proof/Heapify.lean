import CodeLibrary.Lib.HeapOrder
import CodeLibrary.TopHeap.Heap

/-!
# `MinHeapify` and `MaxHeapify` sift down

For an order `r` that `before` tests strictly; `heapify_spec` and `heapCreat_spec` on an array of
less than `2 ^ 31` elements, where no index wraps.

* `heapifyStep_cases`: one call, wherever its children are; `isChild_toNat`: they are the children
  of the node below `2 ^ 31 - 1`, where `2 * currentNode + 2` does not wrap.
* `heapify_spec`: where the positions from `k` on are in heap order but for `currentNode`,
  `heapify` returns a permutation of the array that has them all in heap order.
* `heapCreat_spec`: the build loop returns a heap.
-/

namespace TopHeap

open HeapOrder

variable {r : UInt32 → UInt32 → Prop} {before : UInt32 → UInt32 → Bool} {heapSize : UInt32}
  {array : Array UInt32}

theorem less_iff (x y : UInt32) : less x y = true ↔ ¬ y ≤ x := by
  rw [less, decide_eq_true_eq, UInt32.not_le]

theorem greater_iff (x y : UInt32) : greater x y = true ↔ ¬ y ≥ x := by
  rw [greater, decide_eq_true_eq, ge_iff_le, UInt32.not_le]

/-- What the code takes for the children of a node. -/
def CodeChild (cur c : UInt32) : Prop := c = 2 * cur + 1 ∨ c = 2 * cur + 2

section
variable [Std.Total r] (hb : ∀ x y, before x y = true ↔ ¬ r y x)
  (hsize : heapSize.toNat = array.size)
include hb hsize

omit [Std.Total r] in
/-- The choice: `child`, unless `best` comes before it. -/
theorem earlier_spec (child : UInt32) {best : UInt32} (hbest : best.toNat < array.size) :
    ∃ m, earlier before array heapSize child best = some m ∧ m.toNat < array.size ∧
      (m = best ∧ InOrder r array best.toNat child.toNat ∨
        m = child ∧ ¬ InOrder r array best.toNat child.toNat) := by
  unfold earlier
  by_cases hc : child < heapSize
  · have hchild : child.toNat < array.size := by
      rw [← hsize]
      exact UInt32.lt_iff_toNat_lt.1 hc
    rw [if_pos hc, Array.getElem?_eq_getElem hchild, Array.getElem?_eq_getElem hbest,
      inOrder_iff hbest hchild]
    refine ⟨_, rfl, ?_⟩
    split
    · rename_i hlt
      exact ⟨hchild, .inr ⟨rfl, (hb _ _).1 hlt⟩⟩
    · rename_i hlt
      exact ⟨hbest, .inl ⟨rfl, Classical.not_not.1 (mt (hb _ _).2 hlt)⟩⟩
  · rw [if_neg hc]
    refine ⟨best, rfl, hbest, .inl ⟨rfl, inOrder_of_size ?_⟩⟩
    rw [← hsize]
    exact Nat.le_of_not_lt fun h => hc (UInt32.lt_iff_toNat_lt.2 h)

/-- **What a call does**: it returns where the node comes before what the code takes for its
children; else it goes on at the least of these, the left one where they are equal. -/
theorem heapifyStep_cases [IsTrans UInt32 r] {cur : UInt32} (hcur : cur.toNat < array.size) :
    (heapifyStep before heapSize (array, cur) = .inr (some array) ∧
      ∀ c, CodeChild cur c → InOrder r array cur.toNat c.toNat) ∨
    ∃ n, ∃ hn : n.toNat < array.size, heapifyStep before heapSize (array, cur) =
        .inl (array.swap n.toNat cur.toNat hn hcur, n) ∧
      (n = 2 * cur + 1 ∨ n = 2 * cur + 2 ∧ ((2 * cur + 1).toNat < array.size →
        ¬ InOrder r array (2 * cur + 1).toNat n.toNat)) ∧
      ¬ InOrder r array cur.toNat n.toNat ∧
      ∀ c, CodeChild cur c → InOrder r array n.toNat c.toNat := by
  have hrefl := fun i => inOrder_refl (r := r) array i
  obtain ⟨m, hm, hmlt, hmc⟩ := earlier_spec hb hsize (2 * cur + 1) hcur
  obtain ⟨n, hn, hnlt, hnc⟩ := earlier_spec hb hsize (2 * cur + 2) hmlt
  have hfirst : (do
      earlier before array heapSize (2 * cur + 2)
        (← earlier before array heapSize (2 * cur + 1) cur)) = some n := by
    rw [hm]
    exact hn
  simp only [heapifyStep, hfirst]
  have hboth : ∀ {i : Nat}, InOrder r array i (2 * cur + 1).toNat →
      InOrder r array i (2 * cur + 2).toNat → ∀ c, CodeChild cur c → InOrder r array i c.toNat := by
    intro i hl hr c hc
    rcases hc with rfl | rfl
    · exact hl
    · exact hr
  have hchoice : (n = cur ∧ ∀ c, CodeChild cur c → InOrder r array cur.toNat c.toNat) ∨
      (n = 2 * cur + 1 ∨ n = 2 * cur + 2 ∧ ((2 * cur + 1).toNat < array.size →
        ¬ InOrder r array (2 * cur + 1).toNat n.toNat)) ∧
      ¬ InOrder r array cur.toNat n.toNat ∧
      ∀ c, CodeChild cur c → InOrder r array n.toNat c.toNat := by
    rcases hmc with ⟨rfl, hcl⟩ | ⟨rfl, hcl⟩
    · rcases hnc with ⟨rfl, hcr⟩ | ⟨rfl, hcr⟩
      · exact .inl ⟨rfl, hboth hcl hcr⟩
      · have hrc := (inOrder_of_not hcr).2.2
        exact .inr ⟨.inr ⟨rfl, fun hl h => hcr (hcl.trans h hl)⟩, hcr,
          hboth (hrc.trans hcl hcur) (hrefl _)⟩
    · have hlc := (inOrder_of_not hcl).2.2
      rcases hnc with ⟨rfl, hlr⟩ | ⟨rfl, hlr⟩
      · exact .inr ⟨.inl rfl, hcl, hboth (hrefl _) hlr⟩
      · exact .inr ⟨.inr ⟨rfl, fun _ => hlr⟩, fun h => hlr (hlc.trans h hcur),
          hboth (inOrder_of_not hlr).2.2 (hrefl _)⟩
  rcases hchoice with ⟨rfl, hle⟩ | ⟨hwhich, hno, hle⟩
  · exact .inl ⟨by rw [if_neg fun h => h rfl], hle⟩
  · refine .inr ⟨n, hnlt, ?_, hwhich, hno, hle⟩
    have hne : n ≠ cur := fun he => by
      subst he
      exact hno (hrefl _)
    rw [if_pos hne, swap, dif_pos ⟨hnlt, hcur⟩]

end

/-- What `heapify` keeps: the array is a permutation of the one it began with, and the positions
from `k` on other than the current node are in heap order. -/
structure Sifting (r : UInt32 → UInt32 → Prop) (orig : Array UInt32) (k : Nat)
    (s : Array UInt32 × UInt32) : Prop where
  perm : s.1.Perm orig
  from_le : k ≤ s.2.toNat
  lt_size : s.2.toNat < orig.size
  ordered : HoleOrdered r s.1 k s.2.toNat

/-- What `heapify` returns. -/
def Sifted (r : UInt32 → UInt32 → Prop) (orig : Array UInt32) (k : Nat)
    (res : Option (Array UInt32)) : Prop :=
  ∃ a, res = some a ∧ a.Perm orig ∧ OrderedFrom r a k

theorem isChild_toNat {cur child : UInt32} (h : cur.toNat < 2 ^ 31 - 1) :
    IsChild cur.toNat child.toNat ↔ CodeChild cur child := by
  unfold IsChild CodeChild
  rw [← UInt32.toNat_inj, ← UInt32.toNat_inj]
  simp only [UInt32.toNat_add, UInt32.toNat_mul, UInt32.reduceToNat]
  omega

/-- Where no index wraps, what comes before the code's children comes before the children. -/
theorem inOrder_children {cur n : UInt32} (h : cur.toNat < 2 ^ 31 - 1)
    (hle : ∀ c, CodeChild cur c → InOrder r array n.toNat c.toNat) :
    ∀ c, IsChild cur.toNat c → InOrder r array n.toNat c := by
  intro c hc
  have hcn : (UInt32.ofNat c).toNat = c := UInt32.toNat_ofNat_of_lt' (by
    have : UInt32.size = 2 ^ 32 := rfl
    unfold IsChild at hc
    omega)
  rw [← hcn] at hc ⊢
  exact hle _ ((isChild_toNat h).1 hc)

section
variable [Std.Total r] [IsTrans UInt32 r] (hb : ∀ x y, before x y = true ↔ ¬ r y x)
  {orig : Array UInt32} {k : Nat} (hsize : heapSize.toNat = orig.size)
  (hlt : orig.size < 2 ^ 31)
include hb hsize hlt

theorem heapifyStep_spec (s : Array UInt32 × UInt32) (h : Sifting r orig k s) :
    Sum.elim (fun b => Sifting r orig k b ∧ orig.size - b.2.toNat < orig.size - s.2.toNat)
      (Sifted r orig k) (heapifyStep before heapSize s) := by
  obtain ⟨array, cur⟩ := s
  obtain ⟨hperm, hk, hcur, hord⟩ := h
  dsimp only at hperm hk hcur hord
  have hasize := hperm.size_eq
  rw [← hasize] at hsize hcur
  have hsmall : cur.toNat < 2 ^ 31 - 1 := by omega
  rcases heapifyStep_cases hb hsize hcur with ⟨hstep, hle⟩ | ⟨n, hn, hstep, hwhich, hno, hle⟩
  · rw [hstep]
    exact ⟨array, rfl, hperm, hord.fill (inOrder_children hsmall hle)⟩
  · rw [hstep]
    have hchild : IsChild cur.toNat n.toNat :=
      (isChild_toNat hsmall).2 (hwhich.imp_right And.left)
    have hlt := hchild.lt
    refine ⟨⟨(Array.swap_perm hn hcur).trans hperm, ?_, ?_, ?_⟩, ?_⟩
    · show k ≤ n.toNat
      omega
    · show n.toNat < orig.size
      omega
    · exact hord.swap hk hn hcur hchild ((inOrder_iff hn hcur).1 (inOrder_of_not hno).2.2)
        (inOrder_children hsmall hle)
    · show orig.size - n.toNat < orig.size - cur.toNat
      omega

/-- **Sift down**: the positions from `k` on are in heap order, `currentNode` too. -/
theorem heapify_spec {fuel : Nat} (hf : orig.size < fuel) {cur : UInt32} (hk : k ≤ cur.toNat)
    (hcur : cur.toNat < orig.size) (h : HoleOrdered r orig k cur.toNat) :
    Sifted r orig k (heapify before fuel orig heapSize cur) := by
  have h0 : Sifting r orig k (orig, cur) := ⟨.rfl, hk, hcur, h⟩
  obtain ⟨res, hrun, hres⟩ := Loop.run_rule (fun s => orig.size - s.2.toNat)
    (heapifyStep_spec hb hsize hlt) h0 (show orig.size - cur.toNat < fuel from by omega)
  rw [heapify, hrun]
  exact hres

end

section
variable [Std.Total r] [IsTrans UInt32 r] (hb : ∀ x y, before x y = true ↔ ¬ r y x)
include hb

theorem heapCreatFrom_spec {fuel : Nat} : ∀ (i : Nat) (array : Array UInt32),
    heapSize.toNat = array.size → array.size < 2 ^ 31 → array.size < fuel → i < array.size →
    OrderedFrom r array (i + 1) →
    Sifted r array 0 (heapCreatFrom before fuel heapSize i array)
  | 0, array, hsize, hlt, hf, hi, h =>
    heapify_spec hb hsize hlt hf (Nat.zero_le _) hi h.holeOrdered
  | i + 1, array, hsize, hlt, hf, hi, h => by
    have hi' : (UInt32.ofNat (i + 1)).toNat = i + 1 := UInt32.toNat_ofNat_of_lt' (by
      have : UInt32.size = 2 ^ 32 := rfl
      omega)
    have hs : Sifted r array (i + 1)
        (heapify before fuel array heapSize (UInt32.ofNat (i + 1))) :=
      heapify_spec hb hsize hlt hf (by rw [hi']) (by omega) (by rw [hi']; exact h.holeOrdered)
    obtain ⟨a, ha, hperm, hord⟩ := hs
    have hasize := hperm.size_eq
    have hr : Sifted r a 0 (heapCreatFrom before fuel heapSize i a) :=
      heapCreatFrom_spec i a (by omega) (by omega) (by omega) (by omega) hord
    obtain ⟨b, hb', hperm', hord'⟩ := hr
    refine ⟨b, ?_, hperm'.trans hperm, hord'⟩
    rw [heapCreatFrom, ha]
    exact hb'

/-- **Build**: the loop from the last parent down to the root leaves a heap. -/
theorem heapCreat_spec {fuel : Nat} (hsize : heapSize.toNat = array.size) (hne : 0 < array.size)
    (hlt : array.size < 2 ^ 31) (hf : array.size < fuel) :
    Sifted r array 0 (heapCreat before fuel array heapSize) := by
  have hhalf : (heapSize / 2).toNat = array.size / 2 := by
    rw [UInt32.toNat_div, hsize]
    rfl
  apply heapCreatFrom_spec hb _ array hsize hlt hf (by omega)
  exact orderedFrom_of_size (by omega)

end

end TopHeap
