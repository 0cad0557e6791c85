import CodeLibrary.AcBm.Clean
import CodeLibrary.AcBm.Proof.Shifts
import Mathlib.Data.List.Nodup
import Mathlib.Data.List.Pairwise

/-!
# What `acbm_clean` frees

* `treeFrees`: the nodes `_clean_tree` is to free, in its order. They are those in the slots of the
  nodes it comes to (`Linked.mem_treeFrees`), and no node is there twice unless a node it comes to
  holds it in two slots (`Linked.treeFrees_nodup_iff`).
* `cleanTree_spec`: it frees them, and faults just where a node is there twice.
* `cleansUp_iff`: `acbm_clean` frees every node once just where every node but the root is in one
  slot that is not passed over.
-/

namespace AcBm

/-- Children are later nodes and know their parent. -/
structure Linked (ns : Nodes) : Prop where
  pos : 0 < ns.length
  childLt : ∀ {n c m}, (ns.node n).childs c = some m → n < m ∧ m < ns.length
  parent : ∀ {n c m}, (ns.node n).childs c = some m → (ns.node m).parent = some n

/-- `_clean_tree` at `n` frees the node in the slot `c`. -/
def Frees (ns : Nodes) (n : Nat) (c : UInt8) (m : Nat) : Prop :=
  (ns.node n).childs c = some m ∧ skipsSlot (ns.node n).caseSen c = false

/-! ## The nodes in the order of the traversal -/

theorem nodup_allSlots : allSlots.Nodup := by
  apply List.Nodup.map_on _ List.nodup_range
  intro i hi j hj hij
  rw [List.mem_range] at hi hj
  have := congrArg UInt8.toNat hij
  simp only [UInt8.toNat_ofNat'] at this
  omega

/-- The nodes freed in the round for slot `i` of `root`. -/
def slotFrees (ns : Nodes) (below : Nat → List Nat) (root : Nat) (i : UInt8) : List Nat :=
  if skipsSlot (ns.node root).caseSen i then []
  else match (ns.node root).childs i with
    | none => []
    | some child => below child ++ [child]

/-- The nodes `_clean_tree` frees at `root`, in its order, if it does not fault. -/
def treeFrees (ns : Nodes) : Nat → Nat → List Nat
  | 0, _ => []
  | fuel + 1, root => allSlots.flatMap (slotFrees ns (treeFrees ns fuel) root)

theorem slotFrees_of_frees {ns : Nodes} {below : Nat → List Nat} {root child : Nat} {i : UInt8}
    (h : Frees ns root i child) : slotFrees ns below root i = below child ++ [child] := by
  rw [slotFrees, h.2, h.1]
  rfl

theorem mem_slotFrees {ns : Nodes} {below : Nat → List Nat} {root m : Nat} {i : UInt8} :
    m ∈ slotFrees ns below root i ↔
      ∃ child, Frees ns root i child ∧ (m ∈ below child ∨ m = child) := by
  unfold slotFrees Frees
  cases hs : skipsSlot (ns.node root).caseSen i with
  | true => simp
  | false =>
    cases hc : (ns.node root).childs i with
    | none => simp
    | some child => simp

section
variable {ns : Nodes} (h : Linked ns)
include h

theorem Linked.trav_le {n m : Nat} (ht : Trav ns n m) : n ≤ m := by
  induction ht with
  | here => exact le_refl _
  | down hc _ _ ih =>
    have := h.childLt hc
    omega

/-- Two children of one node have no node below both. -/
theorem Linked.trav_apart {root m m' : Nat} {i i' : UInt8}
    (hm : (ns.node root).childs i = some m) (hm' : (ns.node root).childs i' = some m')
    (hne : m ≠ m') : ∀ {x : Nat}, Trav ns m x → ¬ Trav ns m' x := by
  intro x
  induction x using Nat.strongRecOn with
  | ind x ih =>
    intro ht ht'
    have hlt := h.childLt hm
    have hlt' := h.childLt hm'
    rcases ht.last with rfl | ⟨n, c, hn, hc, -⟩
    · -- `m` itself: its parent is the root
      rcases ht'.last with rfl | ⟨n', c', hn', hc', -⟩
      · exact hne rfl
      · have hp := (h.parent hc').symm.trans (h.parent hm)
        cases hp
        have := h.trav_le hn'
        omega
    · rcases ht'.last with rfl | ⟨n', c', hn', hc', -⟩
      · have hp := (h.parent hc).symm.trans (h.parent hm')
        cases hp
        have := h.trav_le hn
        omega
      · have hp := (h.parent hc).symm.trans (h.parent hc')
        cases hp
        exact ih n (h.childLt hc).1 hn hn'

/-- **What the traversal comes to**: the nodes in the slots of those it reaches. -/
theorem Linked.mem_treeFrees : ∀ {fuel root m : Nat}, ns.length ≤ fuel + root →
    (m ∈ treeFrees ns fuel root ↔ ∃ n c, Trav ns root n ∧ Frees ns n c m) := by
  intro fuel
  induction fuel with
  | zero =>
    intro root m hf
    rw [treeFrees]
    simp only [List.not_mem_nil, false_iff]
    intro hx
    obtain ⟨n, c, ht, hc, -⟩ := hx
    have := h.trav_le ht
    have := h.childLt hc
    omega
  | succ fuel ih =>
    intro root m hf
    rw [treeFrees, List.mem_flatMap]
    constructor
    · intro hx
      obtain ⟨i, -, hi⟩ := hx
      obtain ⟨child, hchild, hm⟩ := mem_slotFrees.1 hi
      have := h.childLt hchild.1
      rcases hm with hm | rfl
      · obtain ⟨n, c, ht, hc⟩ := (ih (by omega)).1 hm
        exact ⟨n, c, .down hchild.1 hchild.2 ht, hc⟩
      · exact ⟨root, i, .here, hchild⟩
    · intro hx
      obtain ⟨n, c, ht, hc⟩ := hx
      cases ht with
      | here => exact ⟨c, mem_allSlots c, mem_slotFrees.2 ⟨m, hc, .inr rfl⟩⟩
      | @down _ child _ i hi hsk ht =>
        have := h.childLt hi
        exact ⟨i, mem_allSlots i, mem_slotFrees.2
          ⟨child, ⟨hi, hsk⟩, .inl ((ih (by omega)).2 ⟨n, c, ht, hc⟩)⟩⟩

theorem Linked.treeFrees_gt {fuel root m : Nat} (hf : ns.length ≤ fuel + root)
    (hm : m ∈ treeFrees ns fuel root) : root < m ∧ m < ns.length := by
  obtain ⟨n, c, ht, hc, -⟩ := (h.mem_treeFrees hf).1 hm
  have := h.trav_le ht
  have := h.childLt hc
  omega

/-- **When the traversal comes to no node twice**: where no node it reaches holds a node in two of
the slots it does not pass over. -/
theorem Linked.treeFrees_nodup_iff : ∀ {fuel root : Nat}, ns.length ≤ fuel + root →
    ((treeFrees ns fuel root).Nodup ↔ ∀ n, Trav ns root n → ∀ c c' m, Frees ns n c m →
      Frees ns n c' m → c = c') := by
  intro fuel
  induction fuel with
  | zero =>
    intro root hf
    rw [treeFrees]
    simp only [List.nodup_nil, true_iff]
    intro n ht c c' m hc _
    have := h.trav_le ht
    have := h.childLt hc.1
    omega
  | succ fuel ih =>
    intro root hf
    rw [treeFrees, List.nodup_flatMap]
    constructor
    · intro hx
      obtain ⟨hslot, hpair⟩ := hx
      intro n ht c c' m hc hc'
      cases ht with
      | here =>
        -- the node would be freed in the rounds of both slots
        by_contra hne
        have : Std.Symm (Function.onFun List.Disjoint
            (slotFrees ns (treeFrees ns fuel) root)) := ⟨fun _ _ hd _ hx hx' => hd hx' hx⟩
        have hd := hpair.forall (mem_allSlots c) (mem_allSlots c') hne
        exact hd (mem_slotFrees.2 ⟨m, hc, .inr rfl⟩) (mem_slotFrees.2 ⟨m, hc', .inr rfl⟩)
      | @down _ child _ i hi hsk ht =>
        have := h.childLt hi
        have hnd := hslot i (mem_allSlots i)
        rw [slotFrees_of_frees ⟨hi, hsk⟩] at hnd
        exact (ih (by omega)).1 (List.nodup_append.1 hnd).1 n ht c c' m hc hc'
    · intro hone
      -- what is freed in the round of a slot is reached from its child
      have htrav : ∀ {i x}, x ∈ slotFrees ns (treeFrees ns fuel) root i →
          ∃ child, Frees ns root i child ∧ Trav ns child x := by
        intro i x hx
        obtain ⟨child, hchild, hm⟩ := mem_slotFrees.1 hx
        refine ⟨child, hchild, ?_⟩
        rcases hm with hm | rfl
        · have := h.childLt hchild.1
          obtain ⟨n, c, ht, hc⟩ := (h.mem_treeFrees (by omega)).1 hm
          exact ht.trans (.down hc.1 hc.2 .here)
        · exact .here
      refine ⟨fun i _ => ?_, nodup_allSlots.pairwise_of_forall_ne fun i _ i' _ hne x hx hx' => ?_⟩
      · unfold slotFrees
        split
        · exact List.nodup_nil
        · rename_i hsk
          split
          · exact List.nodup_nil
          · rename_i child hc
            have := h.childLt hc
            rw [List.nodup_append]
            refine ⟨(ih (by omega)).2 fun n ht => hone n (.down hc (by simpa using hsk) ht),
              by simp, fun a ha b hb => ?_⟩
            have := h.treeFrees_gt (by omega) ha
            rw [List.mem_singleton.1 hb]
            omega
      · obtain ⟨child, hchild, ht⟩ := htrav hx
        obtain ⟨child', hchild', ht'⟩ := htrav hx'
        refine h.trav_apart hchild.1 hchild'.1 ?_ ht ht'
        rintro rfl
        exact hne (hone root .here i i' child hchild hchild')

end

/-! ## The traversal frees these nodes -/

/-- What cleaning at `root` comes to, from the heap `h`: the nodes `ns` freed, those that are
neither freed nor `root` left alone; or a fault, if a node was to be freed twice. -/
def Cleaned (root : Nat) (h : Heap) (frees : List Nat) : Option Heap → Prop
  | some h' => (h.freed ++ frees).Nodup ∧ h'.freed = h.freed ++ frees ∧
      h'.nodes.length = h.nodes.length ∧
      ∀ y, y ≠ root → y ∉ h'.freed → h'.nodes.node y = h.nodes.node y
  | none => ¬ (h.freed ++ frees).Nodup

/-- The heap before the rounds for the slots `L` of `root`. -/
structure Intact (ns : Nodes) (root : Nat) (L : List UInt8) (h : Heap) : Prop where
  len : h.nodes.length = ns.length
  nodup : h.freed.Nodup
  live : root ∉ h.freed
  below : ∀ y, root < y → y ∉ h.freed → h.nodes.node y = ns.node y
  caseSen : (h.nodes.node root).caseSen = (ns.node root).caseSen
  childs : ∀ i ∈ L, (h.nodes.node root).childs i = (ns.node root).childs i

theorem cleanTree_of_freed {h : Heap} {root : Nat} (hr : root ∈ h.freed) (fuel : Nat) :
    cleanTree fuel h root = none := by
  cases fuel with
  | zero => rfl
  | succ fuel =>
    have hread : h.read root = none := if_pos hr
    have hslots : allSlots = 0 :: allSlots.tail := by decide +kernel
    rw [cleanTree, hslots, List.foldlM_cons, cleanSlot, hread]
    rfl

theorem cleanSlot_eq (clean : Heap → Nat → Option Heap) {root : Nat} {h : Heap}
    (hlive : root ∉ h.freed) (i : UInt8) :
    cleanSlot clean root h i =
      if skipsSlot (h.nodes.node root).caseSen i then some h
      else match (h.nodes.node root).childs i with
        | none => some h
        | some child => (clean h child).bind fun h => (h.free child).bind fun h =>
          h.setNull root i := by
  have hread : h.read root = some (h.nodes.node root) := if_neg hlive
  unfold cleanSlot
  rw [hread]
  rfl

theorem Intact.tail {ns : Nodes} {root : Nat} {i : UInt8} {L : List UInt8} {h : Heap}
    (hh : Intact ns root (i :: L) h) : Intact ns root L h :=
  { hh with childs := fun j hj => hh.childs j (.tail _ hj) }

/-- A slot with no node to free. -/
theorem Intact.cleaned_nil {ns : Nodes} {root : Nat} {L : List UInt8} {h : Heap}
    (hh : Intact ns root L h) : Cleaned root h [] (some h) :=
  ⟨by rw [List.append_nil]; exact hh.nodup, (List.append_nil _).symm, rfl, fun _ _ _ => rfl⟩

theorem Cleaned.append {root : Nat} {h h1 : Heap} {vs us : List Nat}
    (hc : Cleaned root h vs (some h1)) : ∀ {r : Option Heap}, Cleaned root h1 us r →
      Cleaned root h (vs ++ us) r
  | none, hr => by
    obtain ⟨-, hfreed, -, -⟩ := hc
    rw [Cleaned, hfreed, List.append_assoc] at hr
    exact hr
  | some h', hr => by
    obtain ⟨-, hfreed, hlen, hsame⟩ := hc
    obtain ⟨hnd', hfreed', hlen', hsame'⟩ := hr
    have happ : h1.freed ++ us = h.freed ++ (vs ++ us) := by rw [hfreed, List.append_assoc]
    rw [happ] at hnd' hfreed'
    refine ⟨hnd', hfreed', hlen'.trans hlen, fun y hy hlive => ?_⟩
    rw [hsame' y hy hlive]
    apply hsame y hy
    rw [hfreed', ← happ, List.mem_append, not_or] at hlive
    exact hlive.1

/-- The heap after the child in slot `i` is freed and the slot is set to `NULL`. -/
def afterFree (root child : Nat) (i : UInt8) (h : Heap) : Heap where
  nodes := h.nodes.modify root fun node =>
    { node with childs := Function.update node.childs i none }
  freed := h.freed ++ [child]

theorem afterFree_eq {root child : Nat} {i : UInt8} {h : Heap} (hroot : root ∉ h.freed)
    (hchild : child ∉ h.freed) (hne : root ≠ child) :
    ((h.free child).bind fun h => h.setNull root i) = some (afterFree root child i h) := by
  have hfree : h.free child = some { h with freed := h.freed ++ [child] } := if_neg hchild
  have hroot' : root ∉ h.freed ++ [child] := by
    rw [List.mem_append, List.mem_singleton, not_or]
    exact ⟨hroot, hne⟩
  rw [hfree]
  exact if_neg hroot'

/-- The round of a slot with a child, given what the recursive call did. -/
theorem Intact.freeChild {ns : Nodes} {root child : Nat} {i : UInt8} {L : List UInt8} {h h1 : Heap}
    (hh : Intact ns root (i :: L) h) (hi : i ∉ L) (hrl : root < ns.length) (hlt : root < child)
    {below : List Nat} (hbelow : ∀ m ∈ below, child < m) (hlive : child ∉ h.freed)
    (hc : Cleaned child h below (some h1)) :
    ((h1.free child).bind fun h => h.setNull root i) = some (afterFree root child i h1) ∧
      Intact ns root L (afterFree root child i h1) ∧
      Cleaned root h (below ++ [child]) (some (afterFree root child i h1)) := by
  obtain ⟨hnd, hfreed, hlen, hsame⟩ := hc
  have hroot : root ∉ h1.freed := by
    rw [hfreed, List.mem_append, not_or]
    exact ⟨hh.live, fun hm => by have := hbelow _ hm; omega⟩
  have hchild : child ∉ h1.freed := by
    rw [hfreed, List.mem_append, not_or]
    exact ⟨hlive, fun hm => by have := hbelow _ hm; omega⟩
  have hfreed' : (afterFree root child i h1).freed = h.freed ++ (below ++ [child]) := by
    rw [← List.append_assoc, ← hfreed]
    rfl
  have hnode : ∀ y, (afterFree root child i h1).nodes.node y = if y = root then
      { h1.nodes.node y with childs := Function.update (h1.nodes.node y).childs i none }
      else h1.nodes.node y := fun y => node_modify _ _ _ _ (by rw [hlen, hh.len]; exact hrl)
  have hlen' : (afterFree root child i h1).nodes.length = h.nodes.length := by
    rw [← hlen]
    exact List.length_modify _ _ _
  have hnd' : (h.freed ++ (below ++ [child])).Nodup := by
    rw [← hfreed] at hnd
    rw [← List.append_assoc, ← hfreed]
    exact List.nodup_append.2 ⟨hnd, by simp, fun a ha b hb => by
      rw [List.mem_singleton.1 hb]
      rintro rfl
      exact hchild ha⟩
  -- the nodes that are not freed
  have hother : ∀ y, y ≠ root → y ∉ (afterFree root child i h1).freed →
      (afterFree root child i h1).nodes.node y = h.nodes.node y := by
    intro y hy hlive'
    have hlive1 : y ∉ h1.freed ∧ y ≠ child := by
      rw [afterFree, List.mem_append, List.mem_singleton, not_or] at hlive'
      exact hlive'
    rw [hnode, if_neg hy, hsame y hlive1.2 hlive1.1]
  have hrootNode := hsame root (by omega) hroot
  refine ⟨afterFree_eq hroot hchild (by omega), ⟨by rw [hlen', hh.len], by rw [hfreed']; exact hnd',
    ?_, ?_, ?_, ?_⟩, hnd', hfreed', hlen', hother⟩
  · rw [afterFree, List.mem_append, List.mem_singleton, not_or]
    exact ⟨hroot, by omega⟩
  · intro y hy hlive'
    rw [hother y (by omega) hlive']
    apply hh.below y hy
    rw [hfreed', List.mem_append, not_or] at hlive'
    exact hlive'.1
  · rw [hnode, if_pos rfl, hrootNode]
    exact hh.caseSen
  · intro j hj
    have hji : j ≠ i := by
      rintro rfl
      exact hi hj
    rw [hnode, if_pos rfl, hrootNode]
    show Function.update (h.nodes.node root).childs i none j = _
    rw [Function.update_of_ne hji]
    exact hh.childs j (.tail _ hj)

/-- What a recursive call is given to do. -/
def CleansBelow (ns : Nodes) (fuel root : Nat) : Prop :=
  ∀ {child : Nat} {h : Heap}, root < child → child < ns.length → Intact ns child allSlots h →
    Cleaned child h (treeFrees ns fuel child) (cleanTree fuel h child)

/-- Every node but the root is in exactly one slot that the traversal does not pass over. -/
def OneSlot (ns : Nodes) : Prop :=
  ∀ m, 0 < m → m < ns.length → ∃ n c, Frees ns n c m ∧
    ∀ n' c', Frees ns n' c' m → n' = n ∧ c' = c

section
variable {ns : Nodes} (hL : Linked ns)
include hL

/-- The round of one slot. -/
theorem cleanSlot_spec {fuel root : Nat} (hf : ns.length ≤ fuel + (root + 1)) {i : UInt8}
    {L : List UInt8} (hi : i ∉ L) {h : Heap} (hh : Intact ns root (i :: L) h)
    (ih : CleansBelow ns fuel root) :
    Cleaned root h (slotFrees ns (treeFrees ns fuel) root i)
        (cleanSlot (cleanTree fuel) root h i) ∧
      ∀ h', cleanSlot (cleanTree fuel) root h i = some h' → Intact ns root L h' := by
  rw [cleanSlot_eq _ hh.live, slotFrees, hh.caseSen, hh.childs i (.head _)]
  split
  · refine ⟨hh.tail.cleaned_nil, fun h' heq => ?_⟩
    cases heq
    exact hh.tail
  · split
    · refine ⟨hh.tail.cleaned_nil, fun h' heq => ?_⟩
      cases heq
      exact hh.tail
    · rename_i child hc
      have hlt := hL.childLt hc
      by_cases hlive : child ∈ h.freed
      · -- the child is freed already
        rw [cleanTree_of_freed hlive]
        refine ⟨fun hnd => ?_, fun h' heq => by cases heq⟩
        exact (List.nodup_append.1 hnd).2.2 child hlive child (by simp) rfl
      · have hchild : Intact ns child allSlots h := by
          refine ⟨hh.len, hh.nodup, hlive, fun y hy => hh.below y (by omega), ?_, fun j _ => ?_⟩
          · rw [hh.below child hlt.1 hlive]
          · rw [hh.below child hlt.1 hlive]
        have hcleaned := ih hlt.1 hlt.2 hchild
        cases hrun : cleanTree fuel h child with
        | none =>
          rw [hrun] at hcleaned
          refine ⟨fun hnd => hcleaned ?_, fun h' heq => by cases heq⟩
          rw [← List.append_assoc] at hnd
          exact (List.nodup_append.1 hnd).1
        | some h1 =>
          rw [hrun] at hcleaned
          obtain ⟨heq, hint, hclean⟩ := hh.freeChild hi (by omega) hlt.1
            (fun m hm => (hL.treeFrees_gt (by omega) hm).1) hlive hcleaned
          rw [Option.bind_some, heq]
          refine ⟨hclean, fun h' heq => ?_⟩
          cases heq
          exact hint

/-- The rounds of the slots `L`. -/
theorem cleanSlots_spec {fuel root : Nat} (hf : ns.length ≤ fuel + (root + 1))
    (ih : CleansBelow ns fuel root) : ∀ {L : List UInt8} {h : Heap}, L.Nodup →
      Intact ns root L h → Cleaned root h (L.flatMap (slotFrees ns (treeFrees ns fuel) root))
        (L.foldlM (cleanSlot (cleanTree fuel) root) h)
  | [], h, _, hh => hh.cleaned_nil
  | i :: L, h, hnd, hh => by
    obtain ⟨hi, hnd⟩ := List.nodup_cons.1 hnd
    obtain ⟨hclean, hint⟩ := cleanSlot_spec hL hf hi hh ih
    rw [List.foldlM_cons, List.flatMap_cons]
    cases hrun : cleanSlot (cleanTree fuel) root h i with
    | none =>
      rw [hrun] at hclean
      intro hnd'
      rw [← List.append_assoc] at hnd'
      exact hclean (List.nodup_append.1 hnd').1
    | some h1 =>
      rw [hrun] at hclean
      exact hclean.append (cleanSlots_spec hf ih hnd (hint h1 hrun))

/-- **What `_clean_tree` frees**, unless it is to free a node twice. -/
theorem cleanTree_spec : ∀ {fuel root : Nat} {h : Heap}, ns.length ≤ fuel + root →
    root < ns.length → Intact ns root allSlots h →
    Cleaned root h (treeFrees ns fuel root) (cleanTree fuel h root)
  | 0, root, h, hf, hr, _ => by omega
  | fuel + 1, root, h, hf, _, hh =>
    cleanSlots_spec hL (by omega) (fun hlt hcl hint => cleanTree_spec (by omega) hcl hint)
      nodup_allSlots hh

/-- Then the traversal comes to every node. -/
theorem OneSlot.trav (hone : OneSlot ns) {m : Nat} (hm : m < ns.length) : Trav ns 0 m := by
  induction m using Nat.strongRecOn with
  | ind m ih =>
    rcases Nat.eq_zero_or_pos m with rfl | hpos
    · exact .here
    · obtain ⟨n, c, hc, -⟩ := hone m hpos hm
      have := hL.childLt hc.1
      exact (ih n this.1 (by omega)).trans (.down hc.1 hc.2 .here)

/-- The nodes of the traversal and the root are all nodes, each once, if every node is in one
slot. -/
theorem oneSlot_iff : OneSlot ns ↔ (treeFrees ns ns.length 0).Nodup ∧
    (treeFrees ns ns.length 0 ++ [0]).Perm (List.range ns.length) := by
  have hmem : ∀ m, m ∈ treeFrees ns ns.length 0 ↔ ∃ n c, Trav ns 0 n ∧ Frees ns n c m :=
    fun m => hL.mem_treeFrees (by omega)
  have hgt : ∀ m ∈ treeFrees ns ns.length 0, 0 < m ∧ m < ns.length :=
    fun m hm => hL.treeFrees_gt (by omega) hm
  rw [hL.treeFrees_nodup_iff (by omega)]
  constructor
  · intro hone
    have hnd : ∀ n, Trav ns 0 n → ∀ c c' m, Frees ns n c m → Frees ns n c' m → c = c' := by
      intro n _ c c' m hc hc'
      have hm := hL.childLt hc.1
      obtain ⟨n0, c0, -, huniq⟩ := hone m (by omega) hm.2
      rw [(huniq n c hc).2, (huniq n c' hc').2]
    refine ⟨hnd, (List.perm_ext_iff_of_nodup ?_ List.nodup_range).2 fun m => ?_⟩
    · exact List.nodup_append.2 ⟨(hL.treeFrees_nodup_iff (by omega)).2 hnd, by simp,
        fun a ha b hb => by
          have := (hgt a ha).1
          rw [List.mem_singleton.1 hb]
          omega⟩
    · rw [List.mem_append, List.mem_singleton, List.mem_range]
      constructor
      · intro hx
        rcases hx with hm | rfl
        · exact (hgt m hm).2
        · exact hL.pos
      · intro hm
        rcases Nat.eq_zero_or_pos m with rfl | hpos
        · exact .inr rfl
        · obtain ⟨n, c, hc, -⟩ := hone m hpos hm
          have := hL.childLt hc.1
          exact .inl ((hmem m).2 ⟨n, c, hone.trav hL (by omega), hc⟩)
  · intro hx
    obtain ⟨hnd, hperm⟩ := hx
    intro m hpos hm
    have hin := hperm.mem_iff.2 (List.mem_range.2 hm)
    rw [List.mem_append, List.mem_singleton] at hin
    obtain ⟨n, c, ht, hc⟩ := (hmem m).1 (hin.resolve_right (by omega))
    refine ⟨n, c, hc, fun n' c' hc' => ?_⟩
    have hp := (hL.parent hc'.1).symm.trans (hL.parent hc.1)
    cases hp
    exact ⟨rfl, hnd n ht c' c m hc' hc⟩

end

/-- **When `acbm_clean` frees every node once** and touches none that is freed. -/
theorem cleansUp_iff {t : PatternTree} (hL : Linked t.nodes) : CleansUp t ↔ OneSlot t.nodes := by
  have hint : Intact t.nodes 0 allSlots ⟨t.nodes, []⟩ :=
    ⟨rfl, List.nodup_nil, by simp, fun _ _ _ => rfl, rfl, fun _ _ => rfl⟩
  have hspec : Cleaned 0 ⟨t.nodes, []⟩ (treeFrees t.nodes t.nodes.length 0)
      (cleanTree t.nodes.length ⟨t.nodes, []⟩ 0) := cleanTree_spec hL (by omega) hL.pos hint
  rw [oneSlot_iff hL]
  unfold CleansUp acbmClean
  cases hrun : cleanTree t.nodes.length ⟨t.nodes, []⟩ 0 with
  | none =>
    rw [hrun] at hspec
    constructor
    · intro hx
      obtain ⟨h, hh, -⟩ := hx
      cases hh
    · intro hx
      exact absurd hx.1 hspec
  | some h =>
    rw [hrun] at hspec
    obtain ⟨hnd, hfreed, -, -⟩ := hspec
    have hzero : (0 : Nat) ∉ h.freed := by
      intro hm
      rw [hfreed] at hm
      have := (hL.treeFrees_gt (by omega) hm).1
      omega
    have hfree : h.free 0 = some { h with freed := h.freed ++ [0] } := if_neg hzero
    show (∃ h', h.free 0 = some h' ∧ _) ↔ _
    rw [hfree]
    constructor
    · intro hx
      obtain ⟨h', heq, hperm⟩ := hx
      cases heq
      refine ⟨hnd, ?_⟩
      rw [hfreed] at hperm
      exact hperm
    · intro hx
      refine ⟨_, rfl, ?_⟩
      dsimp only
      rw [hfreed]
      exact hx.2

end AcBm
