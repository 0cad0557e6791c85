import CodeLibrary.TopHeap.Proof.Heapify
import Mathlib.Data.Nat.Prime.Pow

/-!
# `MinHeapify` and `MaxHeapify` where an index wraps

From node `2 ^ 31 - 1` on `2 * currentNode + 2` wraps, and what the code takes for a child is a node
further up.

* `heapify_of_not_escapes`: where the first element sinks to no node that has such a child before it
  (`Escapes`), the call puts the subtree in heap order and changes nothing else.
* `trap_not_ok`: where the subtree has nodes from `2 ^ 31 - 1` on in the heap, there is an array on
  which it does not.
* `heapify_iff`: both, for the two files.
-/

namespace TopHeap

open HeapOrder

/-- The arguments of a call: an array of `heapSize` elements, in which both subtrees below
`currentNode` are in heap order. -/
structure HeapInput (r : UInt32 → UInt32 → Prop) (array : Array UInt32)
    (heapSize currentNode : UInt32) : Prop where
  size : array.size = heapSize.toNat
  lt : currentNode.toNat < heapSize.toNat
  below : ∀ p c, InSubtree currentNode.toNat p → p ≠ currentNode.toNat → IsChild p c →
    InOrder r array p c

/-- The call returns, with the subtree at `currentNode` in heap order, the elements those of before,
and those outside of the subtree at their places. -/
def HeapifyOk (r : UInt32 → UInt32 → Prop)
    (call : Nat → Array UInt32 → UInt32 → UInt32 → Option (Array UInt32)) (array : Array UInt32)
    (heapSize currentNode : UInt32) : Prop :=
  ∃ fuel a, call fuel array heapSize currentNode = some a ∧
    OrderedOn r a (InSubtree currentNode.toNat) ∧ a.Perm array ∧
    ∀ p, ¬ InSubtree currentNode.toNat p → a[p]? = array[p]?

/-- The nodes of the subtree that are in the heap are below `2 ^ 31 - 1`. -/
def NoWrap (heapSize currentNode : UInt32) : Prop :=
  ∀ v, InSubtree currentNode.toNat v → v < heapSize.toNat → v < 2 ^ 31 - 1

/-- The element at `q` comes before `x`. -/
def EarlierAt (before : UInt32 → UInt32 → Bool) (array : Array UInt32) (x : UInt32) (q : Nat) :
    Prop :=
  ∃ y, array[q]? = some y ∧ before y x = true

/-- `x` at `p` changes places with the child at `c`: the least one, the left one of equals. -/
def Sinks (before : UInt32 → UInt32 → Bool) (array : Array UInt32) (x : UInt32) (p c : Nat) :
    Prop :=
  ∃ y, array[c]? = some y ∧ before y x = true ∧
    (c = 2 * p + 1 ∧ (∀ z, array[2 * p + 2]? = some z → before z y = false) ∨
      c = 2 * p + 2 ∧ ∀ z, array[2 * p + 1]? = some z → before y z = true)

/-- The element at `k` sinks along the children to a node `v` with `2 * v + 1` or `2 * v + 2` out of
the range of an index, and the node `w` these wrap to comes before it, or was its own. -/
def Escapes (before : UInt32 → UInt32 → Bool) (array : Array UInt32) (k : Nat) : Prop :=
  ∃ x v w, array[k]? = some x ∧ Relation.ReflTransGen (Sinks before array x) k v ∧
    (w + 2 ^ 32 = 2 * v + 1 ∨ w + 2 ^ 32 = 2 * v + 2) ∧ w ≠ v ∧ w < array.size ∧
    (w = k ∨ EarlierAt before array x w)

/-! ## The moves -/

section
variable {before : UInt32 → UInt32 → Bool} {array : Array UInt32} {x : UInt32}

theorem Sinks.isChild {p c : Nat} (h : Sinks before array x p c) : IsChild p c := by
  obtain ⟨_, _, _, h | h⟩ := h
  · exact .inl h.1
  · exact .inr h.1

theorem inSubtree_of_sinks {k v : Nat}
    (h : Relation.ReflTransGen (Sinks before array x) k v) : InSubtree k v :=
  Relation.ReflTransGen.mono (fun _ _ => Sinks.isChild) k v h

/-- **A move** of `x` from `cur` up to an earlier element: the places of the earlier ones, with that
of `x`, are those of before. -/
theorem earlierAt_swap {n cur : Nat} (hn : n < array.size) (hcur : cur < array.size)
    (hx : array[cur] = x) (hno : before x x = false) (hbe : before array[n] x = true) (q : Nat) :
    EarlierAt before (array.swap n cur) x q ∨ q = n ↔ EarlierAt before array x q ∨ q = cur := by
  have hne : n ≠ cur := fun he => by
    subst he
    rw [hx, hno] at hbe
    cases hbe
  unfold EarlierAt
  rw [Array.getElem?_swap]
  by_cases hqn : q = n
  · subst hqn
    exact iff_of_true (.inr rfl) (.inl ⟨_, Array.getElem?_eq_getElem hn, hbe⟩)
  · by_cases hqc : q = cur
    · subst hqc
      exact iff_of_true (.inl ⟨array[n], if_pos rfl, hbe⟩) (.inr rfl)
    · rw [if_neg (Ne.symm hqc), if_neg (Ne.symm hqn)]
      simp [hqn, hqc]

end

section
variable {r : UInt32 → UInt32 → Prop} [Std.Total r] [IsTrans UInt32 r]
  {before : UInt32 → UInt32 → Bool} (hb : ∀ x y, before x y = true ↔ ¬ r y x)
  {heapSize : UInt32}
include hb

omit [IsTrans UInt32 r] in
theorem before_self (x : UInt32) : before x x = false := by
  rw [← Bool.not_eq_true, hb, not_not]
  exact Std.Refl.refl x

/-- What every call keeps: `x` is at the node, and the places of the earlier elements and of `x` are
those of before. -/
structure Carries (before : UInt32 → UInt32 → Bool) (orig : Array UInt32) (k : Nat) (x : UInt32)
    (s : Array UInt32 × UInt32) : Prop where
  perm : s.1.Perm orig
  lt_size : s.2.toNat < orig.size
  val : s.1[s.2.toNat]? = some x
  early : ∀ q, EarlierAt before s.1 x q ∨ q = s.2.toNat ↔ EarlierAt before orig x q ∨ q = k

omit [IsTrans UInt32 r] in
theorem Carries.swap {orig array : Array UInt32} {k : Nat} {x cur n : UInt32}
    (h : Carries before orig k x (array, cur)) (hn : n.toNat < array.size)
    (hcur : cur.toNat < array.size) (hno : ¬ InOrder r array cur.toNat n.toNat) :
    Carries before orig k x (array.swap n.toNat cur.toNat hn hcur, n) := by
  obtain ⟨hperm, -, hval, hearly⟩ := h
  dsimp only at hperm hval hearly
  rw [Array.getElem?_eq_getElem hcur, Option.some.injEq] at hval
  rw [inOrder_iff hcur hn, ← hb] at hno
  rw [hval] at hno
  have hne : n.toNat ≠ cur.toNat := fun he => by
    simp only [he, hval, before_self hb] at hno
    cases hno
  refine ⟨(Array.swap_perm hn hcur).trans hperm, hperm.size_eq ▸ hn, ?_, fun q => ?_⟩
  · dsimp only
    rw [Array.getElem?_swap, if_neg hne.symm, if_pos rfl, hval]
  · rw [← hearly q]
    exact earlierAt_swap hn hcur hval (before_self hb x) hno q

/-- **A call** carries the element on, or returns where it comes before what the code takes for the
children. -/
theorem heapifyStep_carries {orig : Array UInt32} {k : Nat} {x : UInt32}
    (hsize : orig.size = heapSize.toNat) {s : Array UInt32 × UInt32}
    (h : Carries before orig k x s) :
    Sum.elim (Carries before orig k x)
      (fun res => res = some s.1 ∧ ∀ c, CodeChild s.2 c → InOrder r s.1 s.2.toNat c.toNat)
      (heapifyStep before heapSize s) := by
  have hasize := h.perm.size_eq
  rcases heapifyStep_cases hb (hsize.symm.trans hasize.symm) (hasize ▸ h.lt_size) with
    ⟨hstep, hle⟩ | ⟨n, hn, hstep, -, hno, -⟩
  · rw [hstep]
    exact ⟨rfl, hle⟩
  · rw [hstep]
    exact h.swap hb hn _ hno

/-! ## Where nothing escapes -/

/-- What the calls keep while the element `x` of node `k` sinks. -/
structure Sinking (r : UInt32 → UInt32 → Prop) (before : UInt32 → UInt32 → Bool)
    (orig : Array UInt32) (k : Nat) (x : UInt32) (s : Array UInt32 × UInt32) : Prop
    extends Carries before orig k x s where
  path : Relation.ReflTransGen (Sinks before orig x) k s.2.toNat
  deeper : ∀ q, s.2.toNat < q → s.1[q]? = orig[q]?
  frame : ∀ q, ¬ InSubtree k q → s.1[q]? = orig[q]?
  hole : HoleOn r s.1 (InSubtree k) s.2.toNat

omit [IsTrans UInt32 r] in
/-- The element that the code moves up is that of the child `x` sinks to. -/
theorem sinks_of_chosen {array orig : Array UInt32} {x : UInt32} {cur n : UInt32}
    (hsmall : cur.toNat < 2 ^ 31 - 1) (hx : array[cur.toNat]? = some x)
    (hdeeper : ∀ q, cur.toNat < q → array[q]? = orig[q]?) (hn : n.toNat < array.size)
    (hwhich : n = 2 * cur + 1 ∨ n = 2 * cur + 2 ∧ ((2 * cur + 1).toNat < array.size →
      ¬ InOrder r array (2 * cur + 1).toNat n.toNat))
    (hno : ¬ InOrder r array cur.toNat n.toNat)
    (hle : ∀ c, CodeChild cur c → InOrder r array n.toNat c.toNat) :
    Sinks before orig x cur.toNat n.toNat := by
  have hcur := (inOrder_of_not hno).1
  have hl : (2 * cur + 1).toNat = 2 * cur.toNat + 1 := by
    simp only [UInt32.toNat_add, UInt32.toNat_mul, UInt32.reduceToNat]
    omega
  have hr : (2 * cur + 2).toNat = 2 * cur.toNat + 2 := by
    simp only [UInt32.toNat_add, UInt32.toNat_mul, UInt32.reduceToNat]
    omega
  have hny := Array.getElem?_eq_getElem hn
  rw [inOrder_iff hcur hn] at hno
  rw [Array.getElem?_eq_getElem hcur, Option.some.injEq] at hx
  rw [hx] at hno
  rcases hwhich with rfl | ⟨rfl, hleast⟩
  · refine ⟨_, by rw [← hdeeper _ (by omega)]; exact hny, (hb _ _).2 hno, .inl ⟨hl, ?_⟩⟩
    intro z hz
    rw [← hdeeper _ (by omega), ← hr] at hz
    have hrz := hle _ (.inr rfl) _ z hny hz
    rw [← Bool.not_eq_true, hb, not_not]
    exact hrz
  · refine ⟨_, by rw [← hdeeper _ (by omega)]; exact hny, (hb _ _).2 hno, .inr ⟨hr, ?_⟩⟩
    intro z hz
    rw [← hdeeper _ (by omega), ← hl] at hz
    obtain ⟨hlt, hz⟩ := Array.getElem?_eq_some_iff.1 hz
    have hno' := hleast hlt
    rw [inOrder_iff hlt hn, hz] at hno'
    exact (hb _ _).2 hno'

omit [IsTrans UInt32 r] in
/-- **The element sinks to a child.** -/
theorem Sinking.swap {orig array : Array UInt32} {k : Nat} {x cur n : UInt32}
    (h : Sinking r before orig k x (array, cur)) (hsmall : cur.toNat < 2 ^ 31 - 1)
    (hn : n.toNat < array.size) (hcur : cur.toNat < array.size)
    (hwhich : n = 2 * cur + 1 ∨ n = 2 * cur + 2 ∧ ((2 * cur + 1).toNat < array.size →
      ¬ InOrder r array (2 * cur + 1).toNat n.toNat))
    (hno : ¬ InOrder r array cur.toNat n.toNat)
    (hle : ∀ c, CodeChild cur c → InOrder r array n.toNat c.toNat) :
    cur.toNat < n.toNat ∧
      Sinking r before orig k x (array.swap n.toNat cur.toNat hn hcur, n) := by
  obtain ⟨hcarries, hpath, hdeeper, hframe, hhole⟩ := h
  dsimp only at hpath hdeeper hframe hhole
  have hsub := inSubtree_of_sinks hpath
  have hchild : IsChild cur.toNat n.toNat := (isChild_toNat hsmall).2 (hwhich.imp_right And.left)
  have hlt := hchild.lt
  have hother : ∀ q, q ≠ cur.toNat → q ≠ n.toNat →
      (array.swap n.toNat cur.toNat hn hcur)[q]? = array[q]? := fun q hq hq' => by
    rw [Array.getElem?_swap, if_neg (Ne.symm hq), if_neg (Ne.symm hq')]
  refine ⟨hlt, hcarries.swap hb hn hcur hno,
    hpath.tail (sinks_of_chosen hb hsmall hcarries.val hdeeper hn hwhich hno hle),
    fun q hq => ?_, fun q hq => ?_, ?_⟩
  · dsimp only at hq ⊢
    rw [hother q (by omega) (by omega)]
    exact hdeeper q (by omega)
  · dsimp only
    rw [hother q (fun he => hq (he ▸ hsub)) fun he => hq (he ▸ hsub.child hchild)]
    exact hframe q hq
  · exact hhole.swap (fun _ _ hp hc => hp.child hc) hsub hn hcur hchild
      ((inOrder_iff hn hcur).1 (inOrder_of_not hno).2.2) (inOrder_children hsmall hle)

/-- **A call where nothing escapes**: the element sinks to a child, or the subtree is in heap
order. -/
theorem heapifyStep_sinking {orig : Array UInt32} {k : Nat} {x : UInt32}
    (hsize : orig.size = heapSize.toNat) (hx : orig[k]? = some x)
    (hesc : ¬ Escapes before orig k) (s : Array UInt32 × UInt32)
    (h : Sinking r before orig k x s) :
    Sum.elim (fun b => Sinking r before orig k x b ∧ orig.size - b.2.toNat < orig.size - s.2.toNat)
      (fun res => ∃ a, res = some a ∧ OrderedOn r a (InSubtree k) ∧ a.Perm orig ∧
        ∀ p, ¬ InSubtree k p → a[p]? = orig[p]?) (heapifyStep before heapSize s) := by
  obtain ⟨array, cur⟩ := s
  have hasize := h.perm.size_eq
  have hcur := h.lt_size
  dsimp only at hasize hcur
  have hheap := heapSize.toNat_lt
  have hcur' : cur.toNat < array.size := by omega
  rcases heapifyStep_cases hb (show heapSize.toNat = array.size by omega) hcur' with
    ⟨hstep, hle⟩ | ⟨n, hn, hstep, hwhich, hno, hle⟩
  · rw [hstep]
    refine ⟨array, rfl, h.hole.fill fun c hc => ?_, h.perm, h.frame⟩
    rcases Nat.lt_or_ge cur.toNat (2 ^ 31 - 1) with hsmall | hbig
    · exact inOrder_children hsmall hle c hc
    · refine inOrder_of_size (show array.size ≤ c from ?_)
      unfold IsChild at hc
      dsimp only at hc
      omega
  · rw [hstep]
    rcases Nat.lt_or_ge cur.toNat (2 ^ 31 - 1) with hsmall | hbig
    · obtain ⟨hlt, hsinks⟩ := h.swap hb hsmall hn hcur' hwhich hno hle
      exact ⟨hsinks, by dsimp only; omega⟩
    · -- the node the code would go on at is one the element escapes to
      have hne : n.toNat ≠ cur.toNat := fun he => by
        rw [he] at hno
        exact hno (inOrder_refl _ _)
      have hearly := (h.toCarries.swap hb hn hcur' hno).early n.toNat
      refine absurd ⟨x, cur.toNat, n.toNat, hx, h.path, ?_, hne, by omega,
        (hearly.1 (.inr rfl)).symm⟩ hesc
      rcases hwhich with rfl | ⟨rfl, -⟩
      all_goals
        simp only [UInt32.toNat_add, UInt32.toNat_mul, UInt32.reduceToNat] at hn ⊢
        omega

/-- **Where nothing escapes** the call does what it is to do. -/
theorem heapify_of_not_escapes {array : Array UInt32} {cur : UInt32}
    (h : HeapInput r array heapSize cur) (hesc : ¬ Escapes before array cur.toNat) :
    HeapifyOk r (heapify before) array heapSize cur := by
  obtain ⟨hsize, hlt, hbelow⟩ := h
  rw [← hsize] at hlt
  have hx := Array.getElem?_eq_getElem hlt
  have h0 : Sinking r before array cur.toNat array[cur.toNat] (array, cur) :=
    ⟨⟨.rfl, hlt, hx, fun _ => Iff.rfl⟩, .refl, fun _ _ => rfl, fun _ _ => rfl,
      ⟨fun p c hp hne hc => hbelow p c hp hne hc, fun p c hp hc _ =>
        absurd hp.le (Nat.not_le_of_lt hc.lt)⟩⟩
  obtain ⟨res, hrun, a, rfl, hord, hperm, hframe⟩ := Loop.run_rule
    (fun s => array.size - s.2.toNat) (heapifyStep_sinking hb hsize hx hesc) h0
    (show array.size - cur.toNat < array.size + 1 from by omega)
  exact ⟨array.size + 1, a, by rw [heapify, hrun]; rfl, hord, hperm, hframe⟩

end

/-! ## Where an index wraps -/

/-- `q` is on the leftmost path down from `k`. -/
def OnChain (k q : Nat) : Prop := ∃ j, q + 1 = (k + 1) * 2 ^ j

theorem OnChain.parent {k p c : Nat} (h : OnChain k c) (hc : IsChild p c) (hp : k ≤ p) :
    OnChain k p := by
  obtain ⟨j, hj⟩ := h
  have hlt := hc.lt
  cases j with
  | zero => omega
  | succ j =>
    refine ⟨j, ?_⟩
    rw [Nat.pow_succ, ← Nat.mul_assoc] at hj
    unfold IsChild at hc
    omega

/-- A number without its highest bit does not begin with the bits the number begins with, where
zeros follow these. -/
theorem div_two_pow_ne {a d : Nat} (hlo : 2 ^ 31 < a * 2 ^ d) (hhi : a * 2 ^ d < 2 ^ 32)
    (e : Nat) : (a * 2 ^ d - 2 ^ 31) / 2 ^ e ≠ a := by
  intro he
  have ha : 0 < a := Nat.pos_of_ne_zero fun h => by simp [h] at hlo
  have hle : a * 2 ^ e ≤ a * 2 ^ d - 2 ^ 31 := by
    rw [← Nat.le_div_iff_mul_le (Nat.two_pow_pos e), he]
  have hed : e < d := by
    by_contra hge
    have := Nat.mul_le_mul_left a (Nat.pow_le_pow_right (by decide : 0 < 2) (Nat.le_of_not_lt hge))
    omega
  have he31 : e ≤ 31 := by
    by_contra hge
    have h1 := Nat.pow_le_pow_right (by decide : 0 < 2) (show 32 ≤ e by omega)
    have h2 := Nat.le_mul_of_pos_left (2 ^ e) ha
    omega
  obtain ⟨f, rfl⟩ := Nat.exists_eq_add_of_lt hed
  -- divided by `2 ^ e`, the subtraction is `a * 2 ^ (f + 1) - 2 ^ (31 - e) = a`
  have hdiv : a * 2 ^ (f + 1) - 2 ^ (31 - e) = a := by
    rw [show e + f + 1 = e + (f + 1) by omega, Nat.pow_add,
      show (2 : Nat) ^ 31 = 2 ^ e * 2 ^ (31 - e) by rw [← Nat.pow_add]; congr 1; omega,
      Nat.mul_left_comm, ← Nat.mul_sub, Nat.mul_div_cancel_left _ (Nat.two_pow_pos e)] at he
    exact he
  have hfac : a * (2 ^ (f + 1) - 1) = 2 ^ (31 - e) := by
    have := Nat.one_le_two_pow (n := 31 - e)
    rw [Nat.mul_sub, Nat.mul_one]
    omega
  -- an odd divisor of a power of two is one
  have hdvd : 2 ^ (f + 1) - 1 ∣ 2 ^ (31 - e) := ⟨a, by rw [Nat.mul_comm]; exact hfac.symm⟩
  obtain ⟨i, -, hi⟩ := (Nat.dvd_prime_pow Nat.prime_two).1 hdvd
  have hf : f = 0 := by
    have hpos := Nat.two_pow_pos f
    rw [Nat.pow_succ] at hi
    cases i with
    | zero =>
      rw [Nat.pow_zero] at hi
      exact (Nat.pow_eq_one.1 (show 2 ^ f = 1 by omega)).resolve_left (by decide)
    | succ i =>
      rw [Nat.pow_succ] at hi
      omega
  subst hf
  rw [Nat.zero_add, Nat.pow_one, Nat.mul_one] at hfac
  rw [hfac, ← Nat.pow_add, show 31 - e + (e + 0 + 1) = 32 by omega] at hhi
  exact lt_irrefl _ hhi

/-- With a node `v` from `2 ^ 31 - 1` on, the leftmost node on its level of the subtree is one. -/
theorem leftmost_ge {k v d : Nat} (hd : (v + 1) / 2 ^ d = k + 1) (hbig : 2 ^ 31 ≤ v + 1)
    (hlt : v + 1 < 2 ^ 32) : 2 ^ 31 ≤ (k + 1) * 2 ^ d := by
  have hd31 : d ≤ 31 := by
    by_contra hgt
    have h32 := Nat.pow_le_pow_right (by decide : 0 < 2) (show 32 ≤ d by omega)
    rw [Nat.div_eq_of_lt (by omega)] at hd
    omega
  have hsplit : (2 : Nat) ^ (31 - d) * 2 ^ d = 2 ^ 31 := by
    rw [← Nat.pow_add, Nat.sub_add_cancel hd31]
  rw [← hd, ← hsplit]
  exact Nat.mul_le_mul_right _
    ((Nat.le_div_iff_mul_le (Nat.two_pow_pos d)).2 (by rw [hsplit]; exact hbig))

/-- From every node of the leftmost path the code goes on: to the next node of the path, or by an
index that wraps to a node outside of the subtree or to the first one. -/
theorem exists_exit {heapSize cur u : UInt32} {v : Nat} (hv : InSubtree cur.toNat v)
    (hlt : v < heapSize.toNat) (hbig : 2 ^ 31 - 1 ≤ v) (hu : u.toNat < heapSize.toNat)
    (hchain : OnChain cur.toNat u.toNat) :
    ∃ w, CodeChild u w ∧ w ≠ u ∧ w.toNat < heapSize.toNat ∧
      (InSubtree cur.toNat w.toNat → OnChain cur.toNat w.toNat) := by
  have hheap := heapSize.toNat_lt
  obtain ⟨d, hd⟩ := inSubtree_iff.1 hv
  obtain ⟨j, hj⟩ := hchain
  have hl : (2 * u + 1).toNat = (2 * u.toNat + 1) % 2 ^ 32 := by
    simp [UInt32.toNat_add, UInt32.toNat_mul]
  have hr : (2 * u + 2).toNat = (2 * u.toNat + 2) % 2 ^ 32 := by
    simp [UInt32.toNat_add, UInt32.toNat_mul]
  have hdouble : ∀ i, (cur.toNat + 1) * 2 ^ (i + 1) = 2 * ((cur.toNat + 1) * 2 ^ i) := fun i => by
    rw [Nat.pow_succ, ← Nat.mul_assoc, Nat.mul_comm]
  -- the node of the path on the level of `v`
  have hle : (cur.toNat + 1) * 2 ^ d ≤ v + 1 := hd ▸ Nat.div_mul_le_self _ _
  have hge : 2 ^ 31 ≤ (cur.toNat + 1) * 2 ^ d := leftmost_ge hd (by omega) (by omega)
  rcases Nat.lt_or_ge j d with hjd | hjd
  · have hnext := Nat.mul_le_mul_left (cur.toNat + 1)
      (Nat.pow_le_pow_right (by decide : 0 < 2) (show j + 1 ≤ d from hjd))
    rw [hdouble, ← hj] at hnext
    refine ⟨2 * u + 1, .inl rfl, fun he => ?_, by omega, fun _ => ⟨j + 1, ?_⟩⟩
    · have := congrArg UInt32.toNat he
      omega
    · rw [hdouble, ← hj]
      omega
  · have hj' : j = d := by
      by_contra hne
      have hnext := Nat.mul_le_mul_left (cur.toNat + 1)
        (Nat.pow_le_pow_right (by decide : 0 < 2) (show d + 1 ≤ j by omega))
      rw [hdouble] at hnext
      omega
    subst hj'
    rcases Nat.eq_or_lt_of_le hge with heq | hgt
    · -- `2 * u + 2` wraps to the root
      refine ⟨2 * u + 2, .inr rfl, fun he => ?_, by omega, fun hsub => ⟨0, ?_⟩⟩
      · have := congrArg UInt32.toNat he
        omega
      · have := hsub.le
        omega
    · refine ⟨2 * u + 1, .inl rfl, fun he => ?_, by omega, fun hsub => ?_⟩
      · have := congrArg UInt32.toNat he
        omega
      · obtain ⟨e, he⟩ := inSubtree_iff.1 hsub
        cases e with
        | zero => exact ⟨0, by simpa using he⟩
        | succ e =>
          rw [Nat.pow_succ', ← Nat.div_div_eq_div_mul,
            show ((2 * u + 1).toNat + 1) / 2 = (cur.toNat + 1) * 2 ^ j - 2 ^ 31 by omega] at he
          exact absurd he (div_two_pow_ne hgt (by omega) e)

/-- An array in which the places of the elements `e`, and that of the one at `cur`, are the leftmost
path of the subtree and all outside of it; the others are `l`. -/
structure Trap (e l : UInt32) (heapSize cur : UInt32) (array : Array UInt32) : Prop where
  size : array.size = heapSize.toNat
  here : array[cur.toNat]? = some l
  path : ∀ q < heapSize.toNat, q ≠ cur.toNat → (InSubtree cur.toNat q → OnChain cur.toNat q) →
    array[q]? = some e
  off : ∀ q < heapSize.toNat, InSubtree cur.toNat q → ¬ OnChain cur.toNat q → array[q]? = some l

theorem exists_trap (e l : UInt32) {heapSize cur : UInt32} (hlt : cur.toNat < heapSize.toNat) :
    ∃ array, Trap e l heapSize cur array := by
  classical
  let f : Nat → UInt32 := fun q =>
    if q ≠ cur.toNat ∧ (InSubtree cur.toNat q → OnChain cur.toNat q) then e else l
  have hget : ∀ q < heapSize.toNat,
      (Array.ofFn fun i : Fin heapSize.toNat => f i)[q]? = some (f q) := fun q hq => by
    rw [Array.getElem?_eq_getElem (by simpa using hq), Array.getElem_ofFn]
  refine ⟨Array.ofFn fun i : Fin heapSize.toNat => f i, Array.size_ofFn, ?_, fun q hq hne hin => ?_,
    fun q hq hsub hoff => ?_⟩
  · rw [hget _ hlt]
    simp [f]
  · rw [hget _ hq]
    exact congrArg some (if_pos ⟨hne, hin⟩)
  · rw [hget _ hq]
    exact congrArg some (if_neg fun h => hoff (h.2 hsub))

section
variable {r : UInt32 → UInt32 → Prop} [Std.Total r] [IsTrans UInt32 r]
  {before : UInt32 → UInt32 → Bool} (hb : ∀ x y, before x y = true ↔ ¬ r y x)
  {heapSize cur : UInt32} (hlt : cur.toNat < heapSize.toNat) {e l : UInt32}
  (hel : before e l = true) {array : Array UInt32} (h : Trap e l heapSize cur array)
include hb hlt hel h

omit [IsTrans UInt32 r] in
theorem Trap.input : HeapInput r array heapSize cur := by
  refine ⟨h.size, hlt, fun p c hp hne hc x y hx hy => ?_⟩
  have hpc := hc.lt
  have hclt : c < heapSize.toNat := h.size ▸ (Array.getElem?_eq_some_iff.1 hy).1
  have hle : r e l := (Std.Total.total e l).resolve_right ((hb _ _).1 hel)
  have hrefl : ∀ z, r z z := fun z => Std.Refl.refl z
  by_cases hoff : OnChain cur.toNat p
  · rw [h.path p (by omega) hne fun _ => hoff] at hx
    cases hx
    by_cases hcoff : OnChain cur.toNat c
    · rw [h.path c hclt (by have := hp.le; omega) fun _ => hcoff] at hy
      cases hy
      exact hrefl _
    · rw [h.off c hclt (hp.child hc) hcoff] at hy
      cases hy
      exact hle
  · -- below a node off the path there are no others
    rw [h.off p (by omega) hp hoff] at hx
    rw [h.off c hclt (hp.child hc) fun hcon => hoff (hcon.parent hc hp.le)] at hy
    cases hx
    cases hy
    exact hrefl _

omit [IsTrans UInt32 r] hlt in
theorem Trap.earlierAt_iff {q : Nat} (hq : q < heapSize.toNat) :
    EarlierAt before array l q ∨ q = cur.toNat ↔
      (InSubtree cur.toNat q → OnChain cur.toNat q) := by
  constructor
  · intro hx hsub
    rcases hx with ⟨y, hy, hyl⟩ | rfl
    · by_contra hoff
      rw [h.off q hq hsub hoff, Option.some.injEq] at hy
      rw [← hy, before_self hb] at hyl
      cases hyl
    · exact ⟨0, by simp⟩
  · intro hin
    by_cases hne : q = cur.toNat
    · exact .inr hne
    · exact .inl ⟨e, h.path q hq hne hin, hel⟩

/-- **A trap**: where the subtree has a node from `2 ^ 31 - 1` on in the heap, the call moves an
element out of the subtree, or does not return. -/
theorem trap_not_ok {v : Nat} (hv : InSubtree cur.toNat v) (hvlt : v < heapSize.toNat)
    (hbig : 2 ^ 31 - 1 ≤ v) : ¬ HeapifyOk r (heapify before) array heapSize cur := by
  intro hok
  obtain ⟨fuel, a, hrun, -, -, hframe⟩ := hok
  have hret := Loop.returns_of_run fuel (Option.join_eq_some_iff.1 hrun)
  have hstart : Carries before array cur.toNat l (array, cur) :=
    ⟨.rfl, h.size ▸ hlt, h.here, fun _ => Iff.rfl⟩
  -- where a call returns, `l` is outside of the subtree
  obtain ⟨u, hul, hval, hout⟩ : ∃ u < heapSize.toNat, a[u]? = some l ∧
      ¬ InSubtree cur.toNat u := by
    obtain ⟨s, hvisits, hstep⟩ := Loop.returns_iff_visits.1 hret
    have hs : Carries before array cur.toNat l s := hvisits.invariant hstart fun s b hs hab => by
      have := heapifyStep_carries hb h.size hs
      rwa [hab] at this
    have hdone := heapifyStep_carries hb h.size hs
    rw [hstep] at hdone
    obtain ⟨ha, hle⟩ := hdone
    cases ha
    have hul : s.2.toNat < heapSize.toNat := h.size ▸ hs.lt_size
    refine ⟨s.2.toNat, hul, hs.val, fun hsub => ?_⟩
    have hchain := (h.earlierAt_iff hb hel hul).1 ((hs.early _).1 (.inr rfl)) hsub
    obtain ⟨w, hw, hne, hwl, hin⟩ := exists_exit hv hvlt hbig hul hchain
    have hwe := (hs.early w.toNat).2 ((h.earlierAt_iff hb hel hwl).2 hin)
    obtain ⟨y, hy, hyl⟩ := hwe.resolve_right fun he => hne (UInt32.toNat_inj.1 he)
    exact (hb _ _).1 hyl (hle w hw _ _ hs.val hy)
  have hne : u ≠ cur.toNat := fun he => hout (he ▸ .refl _)
  rw [hframe u hout, h.path u hul hne fun hsub => absurd hsub hout, Option.some.injEq] at hval
  rw [hval, before_self hb] at hel
  cases hel

end

/-! ## The two files -/

theorem lt_size_of_sinks {before : UInt32 → UInt32 → Bool} {array : Array UInt32} {x : UInt32}
    {k v : Nat} (hk : k < array.size) (h : Relation.ReflTransGen (Sinks before array x) k v) :
    v < array.size := by
  cases h with
  | refl => exact hk
  | tail _ hs =>
    obtain ⟨y, hy, -⟩ := hs
    exact (Array.getElem?_eq_some_iff.1 hy).1

/-- The call does what it is to do on all arrays exactly if no node of the subtree has children
whose indices wrap. -/
theorem heapify_ok_iff {r : UInt32 → UInt32 → Prop} [Std.Total r] [IsTrans UInt32 r]
    {before : UInt32 → UInt32 → Bool} (hb : ∀ x y, before x y = true ↔ ¬ r y x) {e l : UInt32}
    (hel : before e l = true) (heapSize cur : UInt32) :
    (∀ array, HeapInput r array heapSize cur → HeapifyOk r (heapify before) array heapSize cur) ↔
      NoWrap heapSize cur := by
  constructor
  · intro hok v hv hvlt
    by_contra hbig
    have hlt : cur.toNat < heapSize.toNat := lt_of_le_of_lt hv.le hvlt
    obtain ⟨array, h⟩ := exists_trap e l hlt
    exact trap_not_ok hb hlt hel h hv hvlt (Nat.le_of_not_lt hbig) (hok array (h.input hb hlt hel))
  · intro hno array h
    refine heapify_of_not_escapes hb h fun hesc => ?_
    obtain ⟨x, v, w, -, hpath, hw, -⟩ := hesc
    have := hno v (inSubtree_of_sinks hpath)
      (h.size ▸ lt_size_of_sinks (h.size.symm ▸ h.lt) hpath)
    omega

/-- **When `MinHeapify` and `MaxHeapify` restore the heap**: on every array, exactly if the nodes of
the subtree that are in the heap are below `2 ^ 31 - 1`; and on an array whose element at
`currentNode` does not escape. -/
theorem heapify_iff (heapSize currentNode : UInt32) :
    ((∀ array, HeapInput (· ≤ ·) array heapSize currentNode →
        HeapifyOk (· ≤ ·) minHeapify array heapSize currentNode) ↔ NoWrap heapSize currentNode) ∧
    ((∀ array, HeapInput (· ≥ ·) array heapSize currentNode →
        HeapifyOk (· ≥ ·) maxHeapify array heapSize currentNode) ↔ NoWrap heapSize currentNode) ∧
    (∀ array, HeapInput (· ≤ ·) array heapSize currentNode →
      ¬ Escapes less array currentNode.toNat →
        HeapifyOk (· ≤ ·) minHeapify array heapSize currentNode) ∧
    ∀ array, HeapInput (· ≥ ·) array heapSize currentNode →
      ¬ Escapes greater array currentNode.toNat →
        HeapifyOk (· ≥ ·) maxHeapify array heapSize currentNode :=
  ⟨heapify_ok_iff less_iff (e := 0) (l := 1) rfl heapSize currentNode,
    heapify_ok_iff greater_iff (e := 1) (l := 0) rfl heapSize currentNode,
    fun _ h hesc => heapify_of_not_escapes less_iff h hesc,
    fun _ h hesc => heapify_of_not_escapes greater_iff h hesc⟩

/-- A root with two children. -/
theorem heapify_iff_three : HeapifyOk (· ≤ ·) minHeapify #[5, 1, 2] 3 0 := by
  refine (heapify_iff 3 0).1.2 (fun v _ hv => ?_) #[5, 1, 2] ⟨rfl, by decide, fun p c _ hp hc => ?_⟩
  · have : (3 : UInt32).toNat = 3 := rfl
    omega
  · refine inOrder_of_size (show 3 ≤ c from ?_)
    have : p ≠ 0 := hp
    unfold IsChild at hc
    omega

/-- `n` elements 0 and a 1. -/
def wrapArray (n : Nat) : Array UInt32 := (Array.replicate n 0).push 1

theorem getElem?_wrapArray (n q : Nat) :
    (wrapArray n)[q]? = if q = n then some 1 else if q < n then some 0 else none := by
  rw [wrapArray, Array.getElem?_push, Array.size_replicate, Array.getElem?_replicate]

/-- **The index wraps**: at the last of `2 ^ 31` elements the code takes the root for the right
child. -/
theorem minHeapify_wraps :
    HeapInput (· ≤ ·) (wrapArray 0x7fffffff) 0x80000000 0x7fffffff ∧
      ¬ HeapifyOk (· ≤ ·) minHeapify (wrapArray 0x7fffffff) 0x80000000 0x7fffffff := by
  have hn : (0x80000000 : UInt32).toNat = 0x80000000 := rfl
  have hc : (0x7fffffff : UInt32).toNat = 0x7fffffff := rfl
  have h : Trap 0 1 0x80000000 0x7fffffff (wrapArray 0x7fffffff) := by
    refine ⟨by simp [wrapArray], ?_, fun q hq hne _ => ?_, fun q hq hsub hoff => ?_⟩
    · rw [getElem?_wrapArray, hc, if_pos rfl]
    · rw [getElem?_wrapArray, if_neg (by omega), if_pos (by omega)]
    · -- the subtree is the node alone
      have := hsub.le
      refine absurd ⟨0, ?_⟩ hoff
      omega
  exact ⟨h.input less_iff (by decide) rfl, trap_not_ok less_iff (by decide) rfl h (.refl _)
    (by decide) (by decide)⟩

end TopHeap
