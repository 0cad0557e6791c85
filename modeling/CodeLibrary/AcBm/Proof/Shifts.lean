import CodeLibrary.AcBm.Proof.TreeInv
import Mathlib.Algebra.Order.Ring.Int
import Mathlib.Data.List.Induction

/-!
# What the shift tables hold

* `SameShape`: the shift computations change nothing of a node but its `GSshift`, so the tree and
  what `follow` finds stay (`TreeInv.same`, `follow_same`).
* `initGSshifts_spec`: `_init_GSshifts` gives its shift to the nodes it reaches (`Trav`), which are
  those not under an `'A'..'Z'` slot it passes over (`trav_iff_not_hidden`).
* `computeGSshifts_calls`: the good-suffix computation is a sequence of `set_GSshift` calls, one
  for each `GsCall`; each lowers one node (`gs_lowerAll_le`, `gs_lowerAll_mem`,
  `gs_lowerAll_pos`).
-/

namespace AcBm

/-! ## Nodes that differ in their shifts -/

/-- The nodes `ns'` are the nodes `ns` with other `GSshift`s. -/
def SameShape (ns ns' : Nodes) : Prop :=
  ns'.length = ns.length ∧ ∀ m, ns'.node m = { ns.node m with gsShift := (ns'.node m).gsShift }

theorem SameShape.refl (ns : Nodes) : SameShape ns ns := ⟨rfl, fun _ => rfl⟩

theorem SameShape.trans {a b c : Nodes} (h1 : SameShape a b) (h2 : SameShape b c) :
    SameShape a c :=
  ⟨h2.1.trans h1.1, fun m => by rw [h2.2 m, h1.2 m]⟩

section
variable {ns ns' : Nodes} (h : SameShape ns ns') (m : Nat)
include h

theorem SameShape.childs : (ns'.node m).childs = (ns.node m).childs := by rw [h.2]
theorem SameShape.label : (ns'.node m).label = (ns.node m).label := by rw [h.2]
theorem SameShape.caseSen : (ns'.node m).caseSen = (ns.node m).caseSen := by rw [h.2]
theorem SameShape.ch : (ns'.node m).ch = (ns.node m).ch := by rw [h.2]
theorem SameShape.parent : (ns'.node m).parent = (ns.node m).parent := by rw [h.2]
theorem SameShape.nchild : (ns'.node m).nchild = (ns.node m).nchild := by rw [h.2]
theorem SameShape.oneChild : (ns'.node m).oneChild = (ns.node m).oneChild := by rw [h.2]

end

theorem TreeInv.same {ns ns' : Nodes} (h : TreeInv ns) (hs : SameShape ns ns') : TreeInv ns' := by
  refine ⟨by rw [hs.1]; exact h.pos, by rw [hs.label]; exact h.rootLabel,
    by rw [hs.caseSen]; exact h.rootFlag, ?_, ?_, ?_, ?_, ?_, ?_, ?_⟩
  · intro n c m hc
    rw [hs.childs] at hc
    rw [hs.1]
    exact h.childLt hc
  · intro n c m hc
    rw [hs.childs] at hc
    rw [hs.parent]
    exact h.parent hc
  · intro n c m hc
    rw [hs.childs] at hc
    rw [hs.ch, hs.caseSen, hs.childs]
    exact h.slot hc
  · intro n c m hc
    rw [hs.childs] at hc
    rw [hs.nchild]
    exact h.nchild hc
  · intro n hn
    rw [hs.nchild] at hn
    rw [hs.childs, hs.oneChild]
    exact h.oneChild hn
  · intro m hm
    rw [hs.label]
    exact h.label hm
  · intro m hm
    rw [hs.caseSen] at hm
    rw [hs.ch]
    exact h.folded hm

theorem follow_same {ns ns' : Nodes} (hs : SameShape ns ns') : ∀ (s : List UInt8) (p : Nat),
    follow ns' p s = follow ns p s
  | [], _ => rfl
  | c :: s, p => by
    simp only [follow, hs.childs]
    split
    · rfl
    · exact follow_same hs s _

theorem modifyGs_same (ns : Nodes) (n : Nat) (hn : n < ns.length) (f : Int → Int) :
    SameShape ns (ns.modify n fun nd => { nd with gsShift := f nd.gsShift }) :=
  ⟨by simp, fun m => by rw [node_modify _ _ _ _ hn]; split <;> rfl⟩

/-! ## The traversal of `_init_GSshifts` -/

/-- `_init_GSshifts` called at `n` comes to the second node. -/
inductive Trav (ns : Nodes) : Nat → Nat → Prop
  | here {n : Nat} : Trav ns n n
  | down {n m k : Nat} {c : UInt8} : (ns.node n).childs c = some m →
      skipsSlot (ns.node n).caseSen c = false → Trav ns m k → Trav ns n k

theorem Trav.same {ns ns' : Nodes} (hs : SameShape ns ns') {n k : Nat} (h : Trav ns n k) :
    Trav ns' n k := by
  induction h with
  | here => exact .here
  | down hc hsk _ ih => exact .down (by rw [hs.childs]; exact hc) (by rw [hs.caseSen]; exact hsk) ih

theorem Trav.trans {ns : Nodes} {n m k : Nat} (h1 : Trav ns n m) (h2 : Trav ns m k) :
    Trav ns n k := by
  induction h1 with
  | here => exact h2
  | down hc hsk _ ih => exact .down hc hsk (ih h2)

theorem SameShape.symm {ns ns' : Nodes} (hs : SameShape ns ns') : SameShape ns' ns :=
  ⟨hs.1.symm, fun m => by rw [hs.2 m]⟩

/-- The nodes in `S` get the shift, the others keep theirs. -/
structure Painted (shift : Int) (ns ns' : Nodes) (S : Nat → Prop) : Prop where
  same : SameShape ns ns'
  on : ∀ {m}, S m → (ns'.node m).gsShift = shift
  off : ∀ {m}, ¬ S m → (ns'.node m).gsShift = (ns.node m).gsShift

theorem Painted.trans {shift : Int} {a b c : Nodes} {S T : Nat → Prop} (h1 : Painted shift a b S)
    (h2 : Painted shift b c T) : Painted shift a c fun m => S m ∨ T m := by
  refine ⟨h1.same.trans h2.same, fun {m} hm => ?_, fun {m} hm => ?_⟩
  · by_cases hT : T m
    · exact h2.on hT
    · rw [h2.off hT]
      exact h1.on (hm.resolve_right hT)
  · rw [h2.off fun h => hm (.inr h), h1.off fun h => hm (.inl h)]

theorem Painted.congr {shift : Int} {a b : Nodes} {S T : Nat → Prop} (h : Painted shift a b S)
    (hST : ∀ m, S m ↔ T m) : Painted shift a b T :=
  ⟨h.same, fun hm => h.on ((hST _).2 hm), fun hm => h.off fun hs => hm ((hST _).1 hs)⟩

theorem mem_allSlots (c : UInt8) : c ∈ allSlots :=
  List.mem_map.2 ⟨c.toNat, List.mem_range.2 c.toNat_lt, by simp⟩

/-- The round of `_init_GSshifts` over the slots `L` of `root`, given what the calls on the
children do. -/
theorem slots_painted (shift : Int) (fuel root : Nat) {ns : Nodes}
    (hrec : ∀ {ns' c m}, SameShape ns ns' → (ns.node root).childs c = some m →
      Painted shift ns' (initGSshifts shift fuel ns' m)
        fun k => Trav ns m k ∧ (ns.node k).label ≠ -2) :
    ∀ (L : List UInt8) {ns' : Nodes}, SameShape ns ns' →
      Painted shift ns'
        (L.foldl (fun nodes i =>
          if skipsSlot (nodes.node root).caseSen i then nodes
          else match (nodes.node root).childs i with
            | none => nodes
            | some child => initGSshifts shift fuel nodes child) ns')
        fun k => ∃ c ∈ L, ∃ m, (ns.node root).childs c = some m ∧
          skipsSlot (ns.node root).caseSen c = false ∧ Trav ns m k ∧ (ns.node k).label ≠ -2
  | [], ns', hs => ⟨.refl _, fun ⟨c, hc, _⟩ => absurd hc List.not_mem_nil, fun _ => rfl⟩
  | c :: L, ns', hs => by
    rw [List.foldl_cons]
    -- the slot `c` on its own
    have h1 : Painted shift ns'
        (if skipsSlot (ns'.node root).caseSen c then ns'
          else match (ns'.node root).childs c with
            | none => ns'
            | some child => initGSshifts shift fuel ns' child)
        fun k => ∃ m, (ns.node root).childs c = some m ∧
          skipsSlot (ns.node root).caseSen c = false ∧ Trav ns m k ∧ (ns.node k).label ≠ -2 := by
      rw [hs.caseSen, hs.childs]
      split
      · rename_i hsk
        exact ⟨.refl _, fun ⟨m, _, h, _⟩ => absurd (hsk.symm.trans h) (by decide),
          fun _ => rfl⟩
      · rename_i hsk
        split
        · rename_i hn
          exact ⟨.refl _, fun ⟨m, h, _⟩ => absurd (hn.symm.trans h) (by simp), fun _ => rfl⟩
        · rename_i child hc
          refine (hrec hs hc).congr fun k => ⟨fun hk => ⟨child, hc, by simpa using hsk, hk⟩, ?_⟩
          intro hx
          obtain ⟨m, hm, -, hk⟩ := hx
          rw [hc] at hm
          cases hm
          exact hk
    apply (h1.trans (slots_painted shift fuel root hrec L (hs.trans h1.same))).congr
    intro k
    simp only [List.mem_cons, exists_eq_or_imp]

/-- **`_init_GSshifts` called at `root`** gives `shift` to the nodes it comes to, the root of the
tree apart. -/
theorem initGSshifts_spec (shift : Int) {ns : Nodes} (h : TreeInv ns) :
    ∀ (fuel : Nat) {root : Nat} {ns' : Nodes}, SameShape ns ns' → root < ns.length →
      ns.length - root ≤ fuel →
      Painted shift ns' (initGSshifts shift fuel ns' root)
        fun k => Trav ns root k ∧ (ns.node k).label ≠ -2
  | 0, root, _, _, hr, hf => by omega
  | fuel + 1, root, ns', hs, hr, hf => by
    unfold initGSshifts
    -- the node itself
    have h1 : Painted shift ns'
        (if (ns'.node root).label ≠ -2 then
          ns'.modify root fun n => { n with gsShift := shift } else ns')
        fun k => k = root ∧ (ns.node k).label ≠ -2 := by
      rw [hs.label]
      split
      · rename_i hl
        have hr' : root < ns'.length := by rw [hs.1]; exact hr
        refine ⟨modifyGs_same _ _ hr' fun _ => shift, fun {k} hk => ?_, fun {k} hk => ?_⟩
        · rw [node_modify _ _ _ _ hr', if_pos hk.1]
        · rw [node_modify _ _ _ _ hr']
          split
          · rename_i he
            exact absurd ⟨he, he ▸ hl⟩ hk
          · rfl
      · rename_i hl
        refine ⟨.refl _, fun {k} hk => ?_, fun _ => rfl⟩
        obtain ⟨rfl, hk⟩ := hk
        exact absurd hk hl
    have h2 := slots_painted shift fuel root
      (fun {ns'' c m} hs' hc => initGSshifts_spec shift h fuel hs' (h.childLt hc).2
        (by have := h.childLt hc; omega)) allSlots (hs.trans h1.same)
    refine (h1.trans h2).congr fun k => ⟨?_, ?_⟩
    · intro hx
      rcases hx with ⟨rfl, hl⟩ | ⟨c, -, m, hc, hsk, ht, hl⟩
      · exact ⟨.here, hl⟩
      · exact ⟨.down hc hsk ht, hl⟩
    · intro hx
      obtain ⟨ht, hl⟩ := hx
      cases ht with
      | here => exact .inl ⟨rfl, hl⟩
      | down hc hsk ht => exact .inr ⟨_, mem_allSlots _, _, hc, hsk, ht, hl⟩

/-! ## The nodes the traversal passes over -/

theorem Trav.last {ns : Nodes} {n k : Nat} (h : Trav ns n k) : n = k ∨
    ∃ m c, Trav ns n m ∧ (ns.node m).childs c = some k ∧
      skipsSlot (ns.node m).caseSen c = false := by
  induction h with
  | here => exact .inl rfl
  | down hc hsk _ ih =>
    rcases ih with rfl | ⟨m, c, hm, hc', hsk'⟩
    · exact .inr ⟨_, _, .here, hc, hsk⟩
    · exact .inr ⟨m, c, .down hc hsk hm, hc', hsk'⟩

theorem skipsSlot_eq_false {cs : Bool} {c : UInt8} :
    skipsSlot cs c = false ↔ cs = true ∨ isUpper c = false := by
  cases cs <;> simp [skipsSlot]

/-- The traversal does not come to a hidden node. -/
theorem Hidden.not_trav {ns : Nodes} (h : TreeInv ns) {m : Nat} (hm : Hidden ns m) :
    ¬ Trav ns 0 m := by
  induction hm with
  | @slot n m c hc hcs hu hch =>
    intro ht
    rcases ht.last with rfl | ⟨n', c', -, hc', hsk⟩
    · exact absurd rfl (h.ne_root hc)
    -- the node's only parent is `n`, where every slot it is in is an upper-case one
    have hp := (h.parent hc').symm.trans (h.parent hc)
    cases hp
    rw [hcs, skipsSlot_eq_false] at hsk
    rcases h.slot hc' with hch' | ⟨hu', -⟩
    · rw [hch] at hch'
      subst hch'
      simp [hu] at hsk
    · simp [hu'] at hsk
  | @under n m c hc _ ih =>
    intro ht
    rcases ht.last with rfl | ⟨n', c', ht', hc', -⟩
    · exact absurd rfl (h.ne_root hc)
    have hp := (h.parent hc').symm.trans (h.parent hc)
    cases hp
    exact ih ht'

/-- **The traversal comes to the nodes of the tree that are not hidden.** -/
theorem trav_iff_not_hidden {ns : Nodes} (h : TreeInv ns) {s : List UInt8} {m : Nat}
    (hm : follow ns 0 s = some m) : Trav ns 0 m ↔ ¬ Hidden ns m := by
  refine ⟨fun ht hh => hh.not_trav h ht, ?_⟩
  induction s using List.reverseRecOn generalizing m with
  | nil =>
    intro _
    simp only [follow, Option.some.injEq] at hm
    subst hm
    exact .here
  | append_singleton s c ih =>
    intro hh
    rw [follow_snoc, Option.bind_eq_some_iff] at hm
    obtain ⟨n, hn, hc⟩ := hm
    have htn := ih hn fun hn' => hh (.under hc hn')
    rcases h.slot hc with hch | ⟨hu, -, -, hl⟩
    · refine htn.trans (.down hc ?_ .here)
      rw [skipsSlot_eq_false]
      by_contra hcon
      simp only [not_or, Bool.not_eq_true, Bool.not_eq_false] at hcon
      exact hh (.slot hc hcon.1 hcon.2 hch)
    · -- the node is also in the slot of the lower-case letter
      refine htn.trans (.down hl ?_ .here)
      have := isUpper_tolower c
      rw [tolower, if_pos hu] at this
      exact skipsSlot_eq_false.2 (.inr this)

/-! ## The calls of `set_GSshift` -/

/-- `set_GSshift` at the node of a path. -/
def lower (ns : Nodes) (path : List UInt8) (shift : Int) : Nodes :=
  match follow ns 0 path with
  | none => ns
  | some node => ns.modify node fun n =>
      { n with gsShift := if n.gsShift < shift then n.gsShift else shift }

/-- A sequence of `set_GSshift` calls. -/
def lowerAll (ns : Nodes) (calls : List (List UInt8 × Int)) : Nodes :=
  calls.foldl (fun ns call => lower ns call.1 call.2) ns

theorem lowerAll_append (ns : Nodes) (l l' : List (List UInt8 × Int)) :
    lowerAll ns (l ++ l') = lowerAll (lowerAll ns l) l' := List.foldl_append

section
variable {ns : Nodes} (h : TreeInv ns)
include h

theorem lower_same (path : List UInt8) (shift : Int) : SameShape ns (lower ns path shift) := by
  unfold lower
  split
  · exact .refl _
  · rename_i n hn
    exact modifyGs_same _ _ (h.follow_lt hn h.pos).2 fun g => if g < shift then g else shift

/-- What a call does to a node's shift. -/
theorem gs_lower (path : List UInt8) (shift : Int) (m : Nat) :
    ((lower ns path shift).node m).gsShift =
      if follow ns 0 path = some m then min (ns.node m).gsShift shift
      else (ns.node m).gsShift := by
  unfold lower
  split
  · rename_i hn
    rw [hn, if_neg (by simp)]
  · rename_i n hn
    rw [node_modify _ _ _ _ (h.follow_lt hn h.pos).2, hn]
    by_cases hm : m = n
    · subst hm
      simp only [↓reduceIte]
      split <;> omega
    · rw [if_neg hm, if_neg fun he => hm (Option.some.inj he).symm]

end

theorem lowerAll_same : ∀ (calls : List (List UInt8 × Int)) {ns : Nodes}, TreeInv ns →
    SameShape ns (lowerAll ns calls)
  | [], _, _ => .refl _
  | call :: calls, _, h =>
    have h1 := lower_same h call.1 call.2
    h1.trans (lowerAll_same calls (h.same h1))

/-- Calls never raise a shift. -/
theorem gs_lowerAll_le_init : ∀ (calls : List (List UInt8 × Int)) {ns : Nodes}, TreeInv ns →
    ∀ m, ((lowerAll ns calls).node m).gsShift ≤ (ns.node m).gsShift
  | [], _, _, _ => le_refl _
  | call :: calls, ns, h, m => by
    have h1 := gs_lowerAll_le_init calls (h.same (lower_same h call.1 call.2)) m
    rw [gs_lower h] at h1
    apply le_trans h1
    split
    · exact min_le_left _ _
    · exact le_refl _

/-- A call's shift bounds the node's. -/
theorem gs_lowerAll_le {ns : Nodes} (h : TreeInv ns) {calls : List (List UInt8 × Int)}
    {path : List UInt8} {shift : Int} {m : Nat} (hc : (path, shift) ∈ calls)
    (hm : follow ns 0 path = some m) :
    ((lowerAll ns calls).node m).gsShift ≤ shift := by
  obtain ⟨l, l', rfl⟩ := List.append_of_mem hc
  rw [lowerAll_append]
  have hs := lowerAll_same l h
  have h' := h.same hs
  apply le_trans (gs_lowerAll_le_init l' (h'.same (lower_same h' path shift)) m)
  rw [gs_lower h', if_pos (by rw [follow_same hs]; exact hm)]
  exact min_le_right _ _

/-- Calls with positive shifts keep a node's shift positive, or zero. -/
theorem gs_lowerAll_pos : ∀ {calls : List (List UInt8 × Int)} {ns : Nodes}, TreeInv ns →
    (∀ call ∈ calls, 0 < call.2) → ∀ m,
      (0 < (ns.node m).gsShift → 0 < ((lowerAll ns calls).node m).gsShift) ∧
        ((ns.node m).gsShift = 0 → ((lowerAll ns calls).node m).gsShift = 0)
  | [], _, _, _, _ => ⟨id, id⟩
  | call :: calls, ns, h, hp, m => by
    have ih := gs_lowerAll_pos (h.same (lower_same h call.1 call.2))
      (fun c hc => hp c (.tail _ hc)) m
    have hcall := hp call (.head _)
    rw [gs_lower h] at ih
    refine ⟨fun hm => ih.1 ?_, fun hm => ih.2 ?_⟩
    · split
      · exact lt_min hm hcall
      · exact hm
    · rw [hm]
      split
      · exact min_eq_left (le_of_lt hcall)
      · rfl

/-- A shift is the one before the calls or that of a call for the node. -/
theorem gs_lowerAll_mem : ∀ (calls : List (List UInt8 × Int)) {ns : Nodes}, TreeInv ns → ∀ m,
    ((lowerAll ns calls).node m).gsShift = (ns.node m).gsShift ∨
      ∃ path, follow ns 0 path = some m ∧ (path, ((lowerAll ns calls).node m).gsShift) ∈ calls
  | [], _, _, _ => .inl rfl
  | call :: calls, ns, h, m => by
    have hs := lower_same h call.1 call.2
    rcases gs_lowerAll_mem calls (h.same hs) m with ih | ⟨path, hpath, hmem⟩
    · have hlower := gs_lower h call.1 call.2 m
      split at hlower
      · rename_i hm
        rcases min_choice (ns.node m).gsShift call.2 with hmin | hmin
        · exact .inl (ih.trans (hlower.trans hmin))
        · refine .inr ⟨call.1, hm, ?_⟩
          have heq : ((lowerAll ns (call :: calls)).node m).gsShift = call.2 :=
            ih.trans (hlower.trans hmin)
          rw [heq]
          exact .head _
      · exact .inl (ih.trans hlower)
    · rw [follow_same hs] at hpath
      exact .inr ⟨path, hpath, .tail _ hmem⟩

/-- The calls `compute_GSshift` makes for the patterns `pat1` and `pat2`. -/
inductive GsCall (cs : Bool) (minPatternSize : Nat) (pat1 pat2 : List UInt8) :
    List UInt8 → Int → Prop
  | charZero {c1 c2 : UInt8} {rest1 rest2 : List UInt8} : pat1 = c1 :: rest1 → pat2 = c2 :: rest2 →
      GsCall cs minPatternSize pat1 pat2 (pat1.take 1) (charZeroShift cs (foldCh cs c1) 1 rest2)
  | offset {c1 c2 : UInt8} {rest1 : List UInt8} {i j : Nat} : pat1 = c1 :: rest1 → 1 ≤ i →
      i ≤ minPatternSize → pat2[i]? = some c2 → foldCh cs c2 = foldCh cs c1 →
      agreeLen cs pat1 (pat2.drop i) < pat1.length →
      (j = agreeLen cs pat1 (pat2.drop i) ∨
        (agreeLen cs pat1 (pat2.drop i) = pat2.length - i ∧ pat2.length - i ≤ j ∧
          j < pat1.length)) →
      GsCall cs minPatternSize pat1 pat2 (pat1.take (j + 1)) i

theorem agreeLen_le (cs : Bool) : ∀ (l l' : List UInt8),
    agreeLen cs l l' ≤ l.length ∧ agreeLen cs l l' ≤ l'.length
  | [], l' => by simp [agreeLen]
  | c :: l, [] => by simp [agreeLen]
  | c :: l, c' :: l' => by
    unfold agreeLen
    split
    · simp
    · simpa using agreeLen_le cs l l'

theorem charZeroShift_ge (cs : Bool) (f : UInt8) : ∀ (rest : List UInt8) (i : Nat),
    i ≤ charZeroShift cs f i rest
  | [], i => by simp [charZeroShift]
  | c :: rest, i => by
    unfold charZeroShift
    split
    · exact le_refl _
    · exact le_trans (Nat.le_succ i) (charZeroShift_ge cs f rest (i + 1))

theorem GsCall.pos {cs : Bool} {mps : Nat} {pat1 pat2 path : List UInt8} {s : Int}
    (h : GsCall cs mps pat1 pat2 path s) : 0 < s := by
  cases h with
  | charZero _ _ =>
    rename_i c1 c2 rest1 rest2 _ _
    have := charZeroShift_ge cs (foldCh cs c1) rest2 1
    omega
  | offset _ hi _ _ _ _ _ => omega

/-- The calls of one offset. -/
theorem offsetShifts_calls (pat1 : List UInt8) (k left i : Nat) (hk : k ≤ pat1.length) :
    ∃ calls : List (List UInt8 × Int),
      (∀ ns, offsetShifts ns pat1 k left i = lowerAll ns calls) ∧
      ∀ path s, (path, s) ∈ calls ↔ s = i ∧ k < pat1.length ∧
        ∃ j, path = pat1.take (j + 1) ∧ (j = k ∨ (k = left ∧ k ≤ j ∧ j < pat1.length)) := by
  by_cases h1 : k = pat1.length
  · exact ⟨[], fun ns => by simp [offsetShifts, h1, lowerAll], fun path s => by simp [h1]⟩
  have hlt : k < pat1.length := by omega
  by_cases h2 : k = left
  · refine ⟨(List.range' k (pat1.length - k)).map fun j => (pat1.take (j + 1), (i : Int)),
      fun ns => ?_, fun path s => ?_⟩
    · unfold offsetShifts lowerAll
      rw [if_neg h1, if_pos h2, List.foldl_map]
      rfl
    · simp only [List.mem_map, List.mem_range'_1, Prod.mk.injEq]
      constructor
      · intro hx
        obtain ⟨j, hj, rfl, rfl⟩ := hx
        exact ⟨rfl, hlt, j, rfl, .inr ⟨h2, hj.1, by omega⟩⟩
      · intro hx
        obtain ⟨rfl, -, j, rfl, hj⟩ := hx
        exact ⟨j, by omega, rfl, rfl⟩
  · refine ⟨[(pat1.take (k + 1), (i : Int))], fun ns => ?_, fun path s => ?_⟩
    · unfold offsetShifts
      rw [if_neg h1, if_neg h2]
      rfl
    · simp only [List.mem_singleton, Prod.mk.injEq]
      constructor
      · intro hx
        obtain ⟨rfl, rfl⟩ := hx
        exact ⟨rfl, hlt, k, rfl, .inl rfl⟩
      · intro hx
        obtain ⟨rfl, -, j, rfl, rfl | ⟨h, -⟩⟩ := hx
        · exact ⟨rfl, rfl⟩
        · exact absurd h h2

/-- The calls of the offset loop, at the index `pre.length` of `pat2 = pre ++ rest`. -/
theorem offsetLoop_calls (cs : Bool) (mps : Nat) (pat1 : List UInt8) (first : UInt8)
    (pat2 : List UInt8) : ∀ (rest pre : List UInt8), pat2 = pre ++ rest →
    ∃ calls : List (List UInt8 × Int),
      (∀ ns, offsetLoop cs mps pat1 first ns pre.length rest = lowerAll ns calls) ∧
      ∀ path s, (path, s) ∈ calls ↔ ∃ i : Nat, s = i ∧ pre.length ≤ i ∧ i ≤ mps ∧
        (∃ c, pat2[i]? = some c ∧ foldCh cs c = first) ∧
        agreeLen cs pat1 (pat2.drop i) < pat1.length ∧
        ∃ j, path = pat1.take (j + 1) ∧ (j = agreeLen cs pat1 (pat2.drop i) ∨
          (agreeLen cs pat1 (pat2.drop i) = pat2.length - i ∧ pat2.length - i ≤ j ∧
            j < pat1.length))
  | [], pre, hpre => by
    refine ⟨[], fun ns => rfl, fun path s => ?_⟩
    simp only [List.not_mem_nil, false_iff]
    intro hx
    obtain ⟨i, -, hi, -, ⟨c, hc, -⟩, -⟩ := hx
    rw [hpre, List.append_nil, List.getElem?_eq_none hi] at hc
    cases hc
  | c :: rest, pre, hpre => by
    have hpre' : pat2 = (pre ++ [c]) ++ rest := by simp [hpre]
    have hget : pat2[pre.length]? = some c := by rw [hpre]; simp
    have hdrop : pat2.drop pre.length = c :: rest := by rw [hpre]; simp
    have hlen : pat2.length - pre.length = rest.length + 1 := by rw [hpre]; simp
    obtain ⟨calls, hcalls, hmem⟩ := offsetLoop_calls cs mps pat1 first pat2 rest _ hpre'
    simp only [List.length_append, List.length_singleton] at hcalls hmem
    by_cases h1 : foldCh cs c ≠ first
    · refine ⟨calls, fun ns => ?_, fun path s => ?_⟩
      · rw [offsetLoop, if_pos h1]
        exact hcalls ns
      · rw [hmem]
        constructor
        · intro hx
          obtain ⟨i, hs, hi, hrest⟩ := hx
          exact ⟨i, hs, by omega, hrest⟩
        · intro hx
          obtain ⟨i, hs, hi, hm, ⟨c', hc', hf⟩, hrest⟩ := hx
          refine ⟨i, hs, ?_, hm, ⟨c', hc', hf⟩, hrest⟩
          rcases Nat.lt_or_ge pre.length i with h | h
          · omega
          · -- the byte at the index the loop passes over is not the first one
            rw [show i = pre.length by omega, hget] at hc'
            cases hc'
            exact absurd hf h1
    · by_cases h2 : pre.length > mps
      · refine ⟨[], fun ns => ?_, fun path s => ?_⟩
        · rw [offsetLoop, if_neg h1, if_pos h2]
          rfl
        · simp only [List.not_mem_nil, false_iff]
          intro hx
          obtain ⟨i, -, hi, hm, -⟩ := hx
          omega
      · obtain ⟨calls0, hcalls0, hmem0⟩ := offsetShifts_calls pat1
          (agreeLen cs pat1 (c :: rest)) (rest.length + 1) pre.length (agreeLen_le _ _ _).1
        refine ⟨calls0 ++ calls, fun ns => ?_, fun path s => ?_⟩
        · rw [offsetLoop, if_neg h1, if_neg h2, lowerAll_append, ← hcalls0]
          exact hcalls _
        · rw [List.mem_append, hmem0, hmem]
          constructor
          · intro hx
            rcases hx with ⟨hs, hlt, j, hj, hjk⟩ | ⟨i, hs, hi, hrest⟩
            · refine ⟨pre.length, hs, le_refl _, by omega, ⟨c, hget, by simpa using h1⟩, ?_, j,
                hj, ?_⟩
              · rw [hdrop]; exact hlt
              · rw [hdrop, hlen]
                rcases hjk with h | ⟨h, h', h''⟩
                · exact .inl h
                · exact .inr ⟨h, by omega, h''⟩
            · exact ⟨i, hs, by omega, hrest⟩
          · intro hx
            obtain ⟨i, hs, hi, hm, hc', hlt, j, hj, hjk⟩ := hx
            rcases Nat.lt_or_ge pre.length i with h | h
            · exact .inr ⟨i, hs, by omega, hm, hc', hlt, j, hj, hjk⟩
            · have hi' : i = pre.length := by omega
              subst hi'
              rw [hdrop] at hlt
              rw [hdrop, hlen] at hjk
              refine .inl ⟨hs, hlt, j, hj, ?_⟩
              rcases hjk with h | ⟨h, h', h''⟩
              · exact .inl h
              · exact .inr ⟨h, by omega, h''⟩

theorem computeGSshift_calls (cs : Bool) (mps : Nat) (pat1 pat2 : List UInt8) :
    ∃ calls : List (List UInt8 × Int),
      (∀ ns, computeGSshift cs mps ns pat1 pat2 = lowerAll ns calls) ∧
      ∀ path s, (path, s) ∈ calls ↔ GsCall cs mps pat1 pat2 path s := by
  rcases pat1 with _ | ⟨c1, rest1⟩
  · refine ⟨[], fun ns => rfl, fun path s => ⟨fun h => absurd h List.not_mem_nil, fun h => ?_⟩⟩
    cases h with
    | charZero h _ => cases h
    | offset h _ _ _ _ _ _ => cases h
  rcases pat2 with _ | ⟨c2, rest2⟩
  · refine ⟨[], fun ns => rfl, fun path s => ⟨fun h => absurd h List.not_mem_nil, fun h => ?_⟩⟩
    cases h with
    | charZero _ h => cases h
    | offset _ _ _ h _ _ _ => simp at h
  obtain ⟨calls, hcalls, hmem⟩ := offsetLoop_calls cs mps (c1 :: rest1) (foldCh cs c1)
    (c2 :: rest2) rest2 [c2] rfl
  refine ⟨((c1 :: rest1).take 1, (charZeroShift cs (foldCh cs c1) 1 rest2 : Int)) :: calls,
    fun ns => ?_, fun path s => ?_⟩
  · exact hcalls _
  · rw [List.mem_cons, hmem]
    constructor
    · intro hx
      rcases hx with h | ⟨i, rfl, hi, hm, ⟨c, hc, hf⟩, hlt, j, rfl, hj⟩
      · cases h
        exact .charZero rfl rfl
      · exact .offset rfl hi hm hc hf hlt hj
    · intro h
      cases h with
      | charZero h1 h2 => cases h1; cases h2; exact .inl rfl
      | offset h1 hi hm hc hf hlt hj =>
        cases h1
        exact .inr ⟨_, rfl, hi, hm, ⟨_, hc, hf⟩, hlt, _, rfl, hj⟩

/-- Rounds that are each a sequence of calls are one, round after round. -/
theorem foldl_calls {α : Type} {f : Nodes → α → Nodes} {P : α → List UInt8 → Int → Prop}
    (hf : ∀ a, ∃ calls : List (List UInt8 × Int), (∀ ns, f ns a = lowerAll ns calls) ∧
      ∀ path s, (path, s) ∈ calls ↔ P a path s) :
    ∀ l : List α, ∃ calls : List (List UInt8 × Int), (∀ ns, l.foldl f ns = lowerAll ns calls) ∧
      ∀ path s, (path, s) ∈ calls ↔ ∃ a ∈ l, P a path s
  | [] => ⟨[], fun _ => rfl, fun _ _ => by simp⟩
  | a :: l => by
    obtain ⟨c1, h1, m1⟩ := hf a
    obtain ⟨c2, h2, m2⟩ := foldl_calls hf l
    refine ⟨c1 ++ c2, fun ns => ?_, fun path s => ?_⟩
    · rw [List.foldl_cons, h1, h2, lowerAll_append]
    · rw [List.mem_append, m1, m2]
      simp

/-- **`ACtree_compute_GSshifts` is a sequence of `set_GSshift` calls**: those `compute_GSshift`
makes for the pairs of patterns. -/
theorem computeGSshifts_calls (t : PatternTree) :
    ∃ calls : List (List UInt8 × Int),
      (acTreeComputeGSshifts t).nodes = lowerAll t.nodes calls ∧
      ∀ path s, (path, s) ∈ calls ↔ ∃ p1 ∈ t.patternList, ∃ p2 ∈ t.patternList,
        GsCall t.caseSen0 t.minPatternSize p1.data p2.data path s := by
  obtain ⟨calls, h, hmem⟩ := foldl_calls (fun p1 : PatternData =>
    foldl_calls (fun p2 : PatternData => computeGSshift_calls t.caseSen0 t.minPatternSize p1.data
      p2.data) t.patternList) t.patternList
  exact ⟨calls, h t.nodes, hmem⟩

/-! ## The tree `acbm_init` builds -/

/-- **`acbm_init`** sets the shift of the nodes the traversal comes to, and lowers it by the calls
of `set_GSshift`. -/
theorem acbmInit_calls (pats : List PatternData) : ∃ ns calls,
    Painted (acTreeBuild pats).minPatternSize (acTreeBuild pats).nodes ns (fun k =>
      Trav (acTreeBuild pats).nodes 0 k ∧ ((acTreeBuild pats).nodes.node k).label ≠ -2) ∧
    (acbmInit pats).nodes = lowerAll ns calls ∧
    ∀ path s, (path, s) ∈ calls ↔ ∃ p1 ∈ pats, ∃ p2 ∈ pats, GsCall (acbmInit pats).caseSen0
      (acbmInit pats).minPatternSize p1.data p2.data path s := by
  have h := acTreeBuild_inv pats
  have hpaint := initGSshifts_spec (acTreeBuild pats).minPatternSize h
    (acTreeBuild pats).nodes.length (.refl _) h.pos (by omega)
  obtain ⟨calls, hc, hmem⟩ :=
    computeGSshifts_calls (acTreeInitGSshifts (acTreeComputeBCshifts (acTreeBuild pats)))
  exact ⟨_, calls, hpaint, hc, hmem⟩

theorem acbmInit_same (pats : List PatternData) :
    SameShape (acTreeBuild pats).nodes (acbmInit pats).nodes := by
  obtain ⟨ns, calls, hpaint, hc, -⟩ := acbmInit_calls pats
  have hlower := lowerAll_same calls ((acTreeBuild_inv pats).same hpaint.same)
  exact hpaint.same.trans (hc ▸ hlower)

/-- **The tree of `acbm_init` has the shape of the build.** -/
theorem acbmInit_inv (pats : List PatternData) : TreeInv (acbmInit pats).nodes :=
  (acTreeBuild_inv pats).same (acbmInit_same pats)

/-- **Which shifts are set**: positive at a node the traversal comes to, zero at the others. -/
theorem acbmInit_gs {pats : List PatternData} (hmin : 0 < (acbmInit pats).minPatternSize)
    {s : List UInt8} {m : Nat} (hm : follow (acbmInit pats).nodes 0 s = some m) (h0 : 0 < m) :
    (¬ Hidden (acbmInit pats).nodes m → 0 < ((acbmInit pats).nodes.node m).gsShift) ∧
      (Hidden (acbmInit pats).nodes m → ((acbmInit pats).nodes.node m).gsShift = 0) := by
  have h := acTreeBuild_inv pats
  obtain ⟨ns, calls, hpaint, hc, hmem⟩ := acbmInit_calls pats
  have hcalls : ∀ call ∈ calls, 0 < call.2 := fun call hcall => by
    obtain ⟨p1, -, p2, -, hg⟩ := (hmem call.1 call.2).1 hcall
    exact hg.pos
  have hpos := gs_lowerAll_pos (h.same hpaint.same) hcalls m
  have hgs : ((acbmInit pats).nodes.node m).gsShift = ((lowerAll ns calls).node m).gsShift := by
    rw [hc]
  have ht : Trav (acTreeBuild pats).nodes 0 m ↔ ¬ Hidden (acbmInit pats).nodes m := by
    rw [← trav_iff_not_hidden (acbmInit_inv pats) hm]
    exact ⟨Trav.same (acbmInit_same pats), Trav.same (acbmInit_same pats).symm⟩
  rw [hgs]
  refine ⟨fun hh => hpos.1 ?_, fun hh => hpos.2 ?_⟩
  · rw [hpaint.on ⟨ht.2 hh, h.label h0⟩]
    exact_mod_cast hmin
  · rw [hpaint.off fun hk => absurd hh (ht.1 hk.1)]
    exact acTreeBuild_zeroGs pats m

end AcBm
