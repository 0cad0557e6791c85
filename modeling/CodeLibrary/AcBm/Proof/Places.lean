import CodeLibrary.AcBm.Places

/-!
# The places of the tree, for patterns of any flags

* `Stands`: every node has a place of its own, and a child's place is one byte longer: the byte
  under which its slot is found (`foundAs`). The branch loop keeps it (`Stands.addChild`,
  `Stands.addBranch`).
* `acTreeBuild_entered`: the places of the nodes are the beginnings of the patterns as they stand,
  a node has the flag of the first of them and the label of the last that ends there. So `follow`
  finds the place of a word (`Stands.follow_iff`).
-/

namespace AcBm

theorem getElem?_snoc_iff {α : Type} {l : List α} {x y : α} {n : Nat} :
    (l ++ [x])[n]? = some y ↔ l[n]? = some y ∨ (n = l.length ∧ y = x) := by
  rcases Nat.lt_trichotomy n l.length with hn | rfl | hn
  · rw [List.getElem?_append_left hn]
    simp [Nat.ne_of_lt hn]
  · simp [eq_comm]
  · rw [List.getElem?_eq_none (by simp; omega), List.getElem?_eq_none (by omega)]
    simp [Nat.ne_of_gt hn]

/-- Node `n` has the place `words[n]`; `flag` gives the flags of the nodes. -/
structure Stands (flag : List UInt8 → Option Bool) (ns : Nodes) (words : List (List UInt8)) :
    Prop where
  len : words.length = ns.length
  nodup : words.Nodup
  root : words[0]? = some []
  closed : ∀ {w c}, w ++ [c] ∈ words → w ∈ words
  flags : ∀ {w f}, flag w = some f ↔ ∃ n, words[n]? = some w ∧ (ns.node n).caseSen = f
  slot : ∀ {n c m}, (ns.node n).childs c = some m ↔
    ∃ w, words[n]? = some w ∧ words[m]? = some (w ++ [foundAs flag w c])

section
variable {flag : List UInt8 → Option Bool} {ns : Nodes} {words : List (List UInt8)}
  (h : Stands flag ns words)
include h

theorem Stands.index_inj {m m' : Nat} {w : List UInt8} (h1 : words[m]? = some w)
    (h2 : words[m']? = some w) : m = m' :=
  (List.getElem?_inj (List.getElem?_eq_some_iff.1 h1).1 h.nodup).1 (h1.trans h2.symm)

theorem Stands.lt {n : Nat} {w : List UInt8} (hn : words[n]? = some w) : n < ns.length := by
  rw [← h.len]
  exact (List.getElem?_eq_some_iff.1 hn).1

theorem Stands.flag_node {n : Nat} {w : List UInt8} (hn : words[n]? = some w) :
    flag w = some (ns.node n).caseSen := h.flags.2 ⟨n, hn, rfl⟩

theorem Stands.mem_iff {w : List UInt8} : w ∈ words ↔ (flag w).isSome = true := by
  rw [List.mem_iff_getElem?, Option.isSome_iff_exists]
  constructor
  · intro hx
    obtain ⟨n, hn⟩ := hx
    exact ⟨_, h.flag_node hn⟩
  · intro hx
    obtain ⟨f, hf⟩ := hx
    obtain ⟨n, hn, -⟩ := h.flags.1 hf
    exact ⟨n, hn⟩

/-- A node that is not the root has a place one byte below another. -/
theorem Stands.exists_snoc {m : Nat} (hpos : 0 < m) (hm : m < ns.length) :
    ∃ w b, words[m]? = some (w ++ [b]) := by
  rw [← h.len] at hm
  have hget : words[m]? = some words[m] := List.getElem?_eq_getElem hm
  rcases List.eq_nil_or_concat words[m] with hnil | ⟨w, b, hword⟩
  · rw [hnil] at hget
    have := h.index_inj hget h.root
    omega
  · rw [hword, List.concat_eq_append] at hget
    exact ⟨w, b, hget⟩

/-- **What `follow` finds**: the node at the place of the path. -/
theorem Stands.follow_iff {p : Nat} {w : List UInt8} (hp : words[p]? = some w) (s : List UInt8) :
    ∀ {m : Nat}, follow ns p s = some m ↔ words[m]? = some (placeFrom flag w s) := by
  intro m
  rw [placeFrom_eq_foldl]
  exact follow_iff_foldl h.nodup h.closed h.slot hp s

/-- An empty slot is found under its own byte, and no node has that place. -/
theorem Stands.slot_none {n : Nat} {w : List UInt8} (hn : words[n]? = some w) {c : UInt8}
    (hc : (ns.node n).childs c = none) : foundAs flag w c = c ∧ w ++ [c] ∉ words := by
  have hno : w ++ [foundAs flag w c] ∉ words := by
    intro hm
    obtain ⟨m, hm⟩ := List.mem_iff_getElem?.1 hm
    rw [h.slot.2 ⟨w, hn, hm⟩] at hc
    cases hc
  have hfound : foundAs flag w c = c := by
    unfold foundAs at hno ⊢
    split
    · rename_i hf
      rw [if_pos hf, h.mem_iff, hf] at hno
      exact absurd rfl hno
    · rfl
  rw [hfound] at hno
  exact ⟨hfound, hno⟩

/-- A place that no node has is not flagged. -/
theorem Stands.flag_eq_none {w : List UInt8} (hw : w ∉ words) : flag w = none := by
  cases hf : flag w with
  | none => rfl
  | some f => exact absurd (h.mem_iff.2 (by rw [hf]; rfl)) hw

/-- A byte below `w` that no node has is found under itself. -/
theorem Stands.eq_of_foundAs {w : List UInt8} {c ch : UInt8} (hnew : w ++ [ch] ∉ words)
    (hc : foundAs flag w c = ch) : c = ch := by
  unfold foundAs at hc
  split at hc
  · rename_i hf
    rw [hc, h.flag_eq_none hnew] at hf
    cases hf
  · exact hc

end

/-! ## A new node -/

section
variable {flag : List UInt8 → Option Bool} {ns : Nodes} {words : List (List UInt8)}
  (h : Stands flag ns words) {p : Nat} {v : List UInt8} (hp : words[p]? = some v) {cs : Bool}
  {ch : UInt8} (hch : Folded cs ch) (hnone : (ns.node p).childs ch = none)
include h hp hnone

/-- A flag given to the new place: how the bytes below `w` are found then. -/
theorem Stands.foundAs_update (cs : Bool) (w : List UInt8) (c : UInt8) :
    foundAs (Function.update flag (v ++ [ch]) (some cs)) w c =
      if w = v ∧ foldCh cs c = ch then ch else foundAs flag w c := by
  obtain ⟨hfound, hnew⟩ := h.slot_none hp hnone
  unfold foundAs
  by_cases hw : w ++ [tolower c] = v ++ [ch]
  · -- the lower-case byte is the new one
    obtain ⟨rfl, hc⟩ := List.append_inj' hw rfl
    rw [List.singleton_inj] at hc
    rw [hw, Function.update_self, h.flag_eq_none hnew]
    cases cs with
    | false => simp [hc]
    | true =>
      by_cases hcc : c = ch
      · simp [hcc]
      · simp [hcc]
  · rw [Function.update_of_ne hw]
    by_cases hx : w = v ∧ foldCh cs c = ch
    · obtain ⟨rfl, hc⟩ := hx
      cases cs with
      | false =>
        rw [foldCh_false] at hc
        rw [hc] at hw
        exact absurd rfl hw
      | true =>
        rw [foldCh_true] at hc
        subst hc
        exact hfound.trans (if_pos ⟨rfl, rfl⟩).symm
    · rw [if_neg hx]

/-- The flags of the nodes and the new one. -/
theorem Stands.addChild_flags (cs : Bool) (d : Nat) {w : List UInt8} {f : Bool} :
    Function.update flag (v ++ [ch]) (some cs) w = some f ↔
      ∃ n, (words ++ [v ++ [ch]])[n]? = some w ∧ ((addChild ns cs p d ch).node n).caseSen = f := by
  have hnew := (h.slot_none hp hnone).2
  have hold : ∀ {n}, n < ns.length →
      ((addChild ns cs p d ch).node n).caseSen = (ns.node n).caseSen := fun hn =>
    (addChild_old (h.lt hp) cs d ch (Nat.ne_of_lt hn)).2.1
  have hlast : ((addChild ns cs p d ch).node words.length).caseSen = cs := by
    rw [h.len, addChild_new (h.lt hp)]
  simp only [getElem?_snoc_iff]
  by_cases hw : w = v ++ [ch]
  · rw [hw, Function.update_self, Option.some.injEq]
    constructor
    · rintro rfl
      exact ⟨words.length, .inr ⟨rfl, rfl⟩, hlast⟩
    · intro hx
      obtain ⟨n, hn | ⟨rfl, -⟩, hf⟩ := hx
      · exact absurd (List.mem_of_getElem? hn) hnew
      · rw [← hlast, hf]
  · rw [Function.update_of_ne hw, h.flags]
    constructor
    · intro hx
      obtain ⟨n, hn, hf⟩ := hx
      exact ⟨n, .inl hn, by rw [hold (h.lt hn), hf]⟩
    · intro hx
      obtain ⟨n, hn | ⟨-, hw'⟩, hf⟩ := hx
      · exact ⟨n, hn, by rw [← hold (h.lt hn), hf]⟩
      · exact absurd hw' hw

include hch in
/-- The slots of the nodes and those of the new one. -/
theorem Stands.addChild_slot (d : Nat) {n : Nat} {c : UInt8} {m : Nat} :
    ((addChild ns cs p d ch).node n).childs c = some m ↔
      ∃ w, (words ++ [v ++ [ch]])[n]? = some w ∧ (words ++ [v ++ [ch]])[m]? =
        some (w ++ [foundAs (Function.update flag (v ++ [ch]) (some cs)) w c]) := by
  have hnew := (h.slot_none hp hnone).2
  simp only [addChild_childs (h.lt hp) hch, getElem?_snoc_iff, h.foundAs_update hp hnone]
  by_cases hn : n = p ∧ foldCh cs c = ch
  · -- the slots the new node is hung into
    obtain ⟨rfl, hc⟩ := hn
    rw [if_pos ⟨rfl, hc⟩, Option.some.injEq]
    constructor
    · rintro rfl
      refine ⟨v, .inl hp, .inr ⟨h.len.symm, ?_⟩⟩
      rw [if_pos ⟨rfl, hc⟩]
    · intro hx
      obtain ⟨w, hw | ⟨rfl, -⟩, hm⟩ := hx
      · rw [hp] at hw
        cases hw
        rw [if_pos ⟨rfl, hc⟩] at hm
        rcases hm with hm | ⟨rfl, -⟩
        · exact absurd (List.mem_of_getElem? hm) hnew
        · exact h.len.symm
      · have := h.lt hp
        rw [h.len] at this
        exact absurd this (lt_irrefl _)
  · rw [if_neg hn, h.slot]
    constructor
    · intro hx
      obtain ⟨w, hw, hm⟩ := hx
      refine ⟨w, .inl hw, .inl ?_⟩
      rw [if_neg]
      · exact hm
      · intro hx
        obtain ⟨rfl, hc⟩ := hx
        exact hn ⟨h.index_inj hw hp, hc⟩
    · intro hx
      obtain ⟨w, hw | ⟨-, rfl⟩, hm⟩ := hx
      · have hnw : ¬(w = v ∧ foldCh cs c = ch) := by
          intro hx
          obtain ⟨rfl, hc⟩ := hx
          exact hn ⟨h.index_inj hw hp, hc⟩
        rw [if_neg hnw] at hm
        rcases hm with hm | ⟨-, hm⟩
        · exact ⟨w, hw, hm⟩
        · obtain ⟨rfl, hc⟩ := List.append_inj' hm rfl
          have hcc := h.eq_of_foundAs hnew (List.singleton_inj.1 hc)
          exact absurd ⟨rfl, by rw [hcc]; exact foldCh_of_folded hch⟩ hnw
      · -- the new node has no children
        rcases hm with hm | ⟨-, hm⟩
        · exact absurd (h.closed (List.mem_of_getElem? hm)) hnew
        · simp at hm

include hch in
/-- A round of the branch loop adds the place of the new node. -/
theorem Stands.addChild (d : Nat) : Stands (Function.update flag (v ++ [ch]) (some cs))
    (addChild ns cs p d ch) (words ++ [v ++ [ch]]) := by
  have hnew := (h.slot_none hp hnone).2
  refine ⟨by simp [h.len], ?_, getElem?_snoc_iff.2 (.inl h.root), ?_,
    h.addChild_flags hp hnone cs d, h.addChild_slot hp hch hnone d⟩
  · exact List.nodup_append.2 ⟨h.nodup, by simp, by
      rintro a ha b hb rfl
      exact hnew (by simpa using (List.mem_singleton.1 hb) ▸ ha)⟩
  · intro w c hw
    rcases List.mem_append.1 hw with hw | hw
    · exact List.mem_append_left _ (h.closed hw)
    · have := (List.append_inj' (List.mem_singleton.1 hw) rfl).1
      subst this
      exact List.mem_append_left _ (List.mem_of_getElem? hp)

end

/-! ## The build -/

section
variable {flag : List UInt8 → Option Bool} {ns : Nodes} {words : List (List UInt8)}
  (h : Stands flag ns words)
include h

theorem Stands.mem_of_prefix {v w : List UInt8} (hv : v <+: w) (hw : w ∈ words) : v ∈ words := by
  obtain ⟨s, rfl⟩ := hv
  induction s using List.reverseRecOn with
  | nil => simpa using hw
  | append_singleton s c ih =>
    rw [← List.append_assoc] at hw
    exact ih (h.closed hw)

/-- Entering a place of the tree gives no flag. -/
theorem Stands.enterFlag_self {w : List UInt8} (hw : w ∈ words) (cs : Bool) :
    enterFlag flag cs w = flag := by
  funext v
  unfold enterFlag
  by_cases hv : v <+: w
  · obtain ⟨f, hf⟩ := Option.isSome_iff_exists.1 (h.mem_iff.1 (h.mem_of_prefix hv hw))
    rw [hf]
    rfl
  · rw [if_neg hv, Option.or_none]

/-- Entering a place goes byte by byte. -/
theorem Stands.enterFlag_cons {w : List UInt8} {c : UInt8} (hnew : w ++ [c] ∉ words) (cs : Bool)
    (s : List UInt8) :
    enterFlag (Function.update flag (w ++ [c]) (some cs)) cs (w ++ [c] ++ s) =
      enterFlag flag cs (w ++ c :: s) := by
  funext v
  unfold enterFlag
  rw [List.append_assoc, List.singleton_append]
  by_cases hv : v = w ++ [c]
  · subst hv
    rw [Function.update_self, h.flag_eq_none hnew, if_pos ⟨s, by simp⟩]
    rfl
  · rw [Function.update_of_ne hv]

/-- Below a place that no node has, bytes are found under themselves. -/
theorem Stands.placeFrom_new {s w : List UInt8} (hw : w ∉ words) :
    placeFrom flag w s = w ++ s := by
  induction s generalizing w with
  | nil => rw [placeFrom, List.append_nil]
  | cons c s ih =>
    have hfound : foundAs flag w c = c := by
      unfold foundAs
      rw [if_neg]
      intro hf
      exact hw (h.closed (h.mem_iff.2 (by rw [hf]; rfl)))
    rw [placeFrom, hfound, ih fun hx => hw (h.closed hx), List.append_assoc,
      List.singleton_append]

/-- The place of bytes below the branch adding point. -/
theorem Stands.placeFrom_branch {cs : Bool} {p : Nat} {w : List UInt8} (hp : words[p]? = some w) :
    ∀ {rest : List UInt8}, (∀ c r, rest = c :: r → (ns.node p).childs (foldCh cs c) = none) →
      placeFrom flag w (foldAll cs rest) = w ++ foldAll cs rest
  | [], _ => by rw [foldAll_nil, placeFrom, List.append_nil]
  | c :: rest, hnone => by
    obtain ⟨hfound, hnew⟩ := h.slot_none hp (hnone c rest rfl)
    show placeFrom flag (w ++ [foundAs flag w (foldCh cs c)]) (foldAll cs rest) = _
    rw [hfound, h.placeFrom_new hnew, List.append_assoc, List.singleton_append]
    rfl

end

/-- The places of the nodes the branch loop adds. -/
theorem Stands.addBranch {cs : Bool} : ∀ (rest : List UInt8) {flag : List UInt8 → Option Bool}
    {ns : Nodes} {words : List (List UInt8)} {p : Nat} {w : List UInt8} (chI : Nat),
    Stands flag ns words → words[p]? = some w →
    (∀ c r, rest = c :: r → (ns.node p).childs (foldCh cs c) = none) →
    ∃ new, Stands (enterFlag flag cs (w ++ foldAll cs rest)) (addBranch cs ns p chI rest).1
        (words ++ new) ∧
      (words ++ new)[(addBranch cs ns p chI rest).2]? = some (w ++ foldAll cs rest)
  | [], flag, ns, words, p, w, _, h, hp, _ => by
    refine ⟨[], ?_, by simpa [AcBm.addBranch] using hp⟩
    rw [foldAll_nil, List.append_nil, h.enterFlag_self (List.mem_of_getElem? hp), List.append_nil]
    exact h
  | c :: rest, flag, ns, words, p, w, chI, h, hp, hnone => by
    have hnone' := hnone c rest rfl
    have hnew := (h.slot_none hp hnone').2
    have h1 := h.addChild hp (folded_foldCh cs c) hnone' (chI + 1)
    have hlast : (words ++ [w ++ [foldCh cs c]])[ns.length]? = some (w ++ [foldCh cs c]) := by
      rw [← h.len]
      simp
    obtain ⟨new, hs, hl⟩ := Stands.addBranch rest (chI + 1) h1 hlast fun c' r _ => by
      rw [addChild_new (h.lt hp)]
      rfl
    rw [h.enterFlag_cons hnew] at hs
    rw [List.append_assoc] at hs hl
    refine ⟨[w ++ [foldCh cs c]] ++ new, hs, ?_⟩
    rw [AcBm.addBranch, hl]
    simp [foldAll]

/-- The labels of the nodes the branch loop adds. -/
theorem addBranch_label (cs : Bool) : ∀ (rest : List UInt8) {ns : Nodes} {p : Nat} (chI : Nat),
    p < ns.length →
    (∀ m, m < ns.length → ((addBranch cs ns p chI rest).1.node m).label = (ns.node m).label) ∧
      ∀ m, ns.length ≤ m → m < (addBranch cs ns p chI rest).1.length →
        ((addBranch cs ns p chI rest).1.node m).label = -1
  | [], _, _, _, _ => ⟨fun _ _ => rfl, fun m h1 h2 => absurd h2 (Nat.not_lt.2 h1)⟩
  | c :: rest, ns, p, chI, hp => by
    have hlt : ns.length < (addChild ns cs p (chI + 1) (foldCh cs c)).length := by simp
    obtain ⟨hold, hlab⟩ := addBranch_label cs rest (chI + 1) hlt
    simp only [addChild_length] at hold hlab
    refine ⟨fun m hm => ?_, fun m hm hm' => ?_⟩
    · rw [AcBm.addBranch, hold m (by omega)]
      exact (addChild_old hp cs (chI + 1) (foldCh cs c) (Nat.ne_of_lt hm)).2.2.2
    · rw [AcBm.addBranch] at hm' ⊢
      rcases Nat.lt_or_ge ns.length m with hlt | hge
      · exact hlab m hlt hm'
      · rw [hold m (by omega), show m = ns.length by omega, addChild_new hp]

/-- The tree of the patterns `pats` (module doc). -/
structure Entered (pats : List PatternData) (ns : Nodes) (words : List (List UInt8)) : Prop where
  inv : TreeInv ns
  stands : Stands (firstFlag (places pats)) ns words
  label : ∀ {m w}, words[m]? = some w → w ≠ [] →
    (ns.node m).label = labelOf true (places pats) w

/-- The beginnings of patterns are flagged. -/
theorem firstFlag_isSome {entered : List PatternData} {p : PatternData} (hp : p ∈ entered)
    {w : List UInt8} (hw : w <+: p.data) : (firstFlag entered w).isSome = true := by
  rw [firstFlag, Option.isSome_map, List.find?_isSome]
  exact ⟨p, .tail _ hp, by simpa using hw⟩

/-- A label on a node moves no place. -/
theorem Stands.setLabel {flag : List UInt8 → Option Bool} {ns : Nodes} {words : List (List UInt8)}
    (h : Stands flag ns words) {n : Nat} (hn : n < ns.length) (l : Int) :
    Stands flag (ns.modify n fun nd => { nd with label := l }) words := by
  have hnode := fun m => node_modify ns n m (fun nd => { nd with label := l }) hn
  refine ⟨by simpa using h.len, h.nodup, h.root, h.closed, ?_, ?_⟩
  · intro w f
    have hcase : ∀ m, (Nodes.node (ns.modify n fun nd => { nd with label := l }) m).caseSen =
        (ns.node m).caseSen := fun m => by rw [hnode]; split <;> rfl
    simp only [hcase]
    exact h.flags
  · intro m c k
    have hchilds : (Nodes.node (ns.modify n fun nd => { nd with label := l }) m).childs =
        (ns.node m).childs := by rw [hnode]; split <;> rfl
    rw [hchilds]
    exact h.slot

theorem Entered.addPattern {pats : List PatternData} {b : Build} {words : List (List UInt8)}
    (h : Entered pats b.nodes words) {pat : PatternData} (hs : pat.Sized) :
    ∃ words', Entered (pats ++ [pat]) (AcBm.addPattern b pats.length pat).nodes words' := by
  have hI' := addPattern_inv h.inv pats.length pat
  have htake : pat.data.take (min pat.len patternLen) = pat.data :=
    List.take_of_length_le (by rw [Nat.min_eq_left hs.2]; exact le_refl _)
  have hlen0 : pat.len ≠ 0 := by have := hs.1; omega
  unfold AcBm.addPattern at hI' ⊢
  rw [if_neg hlen0] at hI' ⊢
  dsimp only at hI' ⊢
  rw [htake] at hI' ⊢
  obtain ⟨pre, hpre, hf, hnone⟩ := findAddingPoint_spec b.nodes pat.caseSen pat.data 0
  generalize findAddingPoint b.nodes pat.caseSen 0 pat.data = fp at hpre hf hnone hI' ⊢
  obtain ⟨p, rest⟩ := fp
  dsimp only at hpre hf hnone hI' ⊢
  have hp := (h.stands.follow_iff h.stands.root _).1 hf
  -- the place of the new pattern
  have hplace : placeFrom (firstFlag (places pats)) [] (foldAll pat.caseSen pat.data) =
      placeFrom (firstFlag (places pats)) [] (foldAll pat.caseSen pre) ++
        foldAll pat.caseSen rest := by
    rw [hpre, foldAll_append, placeFrom_append]
    exact h.stands.placeFrom_branch hp hnone
  obtain ⟨new, hst, hlast⟩ :=
    Stands.addBranch rest (min pat.len patternLen - rest.length) h.stands hp hnone
  obtain ⟨hold, hlab⟩ := addBranch_label pat.caseSen rest
    (min pat.len patternLen - rest.length) (h.stands.lt hp)
  have hlast' := hlast
  rw [show pre.map (foldCh pat.caseSen) = foldAll pat.caseSen pre from rfl, ← hplace]
    at hst hlast
  have hflags : firstFlag (places (pats ++ [pat])) = enterFlag (firstFlag (places pats))
      pat.caseSen (placeFrom (firstFlag (places pats)) [] (foldAll pat.caseSen pat.data)) := by
    rw [places_snoc, enter, firstFlag_snoc]
  rw [← hflags] at hst
  refine ⟨words ++ new, hI', hst.setLabel (hst.lt hlast) _, ?_⟩
  intro m w hm hw
  rw [node_modify _ _ _ _ (hst.lt hlast), labelOf, places_snoc, enter, lastIndex?_snoc,
    foldAll_true]
  dsimp only
  by_cases hml : m = (AcBm.addBranch pat.caseSen b.nodes p
      (min pat.len patternLen - rest.length) rest).2
  · rw [hml, hlast] at hm
    cases hm
    rw [if_pos hml, if_pos rfl, places_length]
  · have hne : placeFrom (firstFlag (places pats)) [] (foldAll pat.caseSen pat.data) ≠ w := by
      rintro rfl
      exact hml (hst.index_inj hm hlast)
    rw [if_neg hml, if_neg hne]
    rcases Nat.lt_or_ge m words.length with hl | hl
    · rw [hold m (by rw [← h.stands.len]; exact hl)]
      rw [List.getElem?_append_left hl] at hm
      exact h.label hm hw
    · rw [hlab m (by rw [← h.stands.len]; exact hl) (hst.lt hm)]
      -- a new place is not that of an old pattern
      have hnot : w ∉ words := by
        intro hmem
        obtain ⟨m', hm'⟩ := List.mem_iff_getElem?.1 hmem
        have hl' := (List.getElem?_eq_some_iff.1 hm').1
        have := hst.index_inj hm (by rw [List.getElem?_append_left hl']; exact hm')
        omega
      rw [show lastIndex? true (places pats) w = none from lastIndex?_eq_none.2 fun q hq he =>
        hnot (h.stands.mem_iff.2 (firstFlag_isSome hq (by rw [← he, foldAll_true])))]

theorem Entered.addPatterns : ∀ (pats : List PatternData) {done : List PatternData} {b : Build}
    {words : List (List UInt8)}, Entered done b.nodes words → (∀ pat ∈ pats, pat.Sized) →
    ∃ words', Entered (done ++ pats) (AcBm.addPatterns b done.length pats).nodes words'
  | [], done, b, words, h, _ => ⟨words, by simpa [AcBm.addPatterns] using h⟩
  | pat :: pats, done, b, words, h, hp => by
    obtain ⟨words', h'⟩ := h.addPattern (hp pat (.head _))
    have := Entered.addPatterns pats h' fun q hq => hp q (.tail _ hq)
    simpa [AcBm.addPatterns] using this

theorem buildInit_entered : Entered [] buildInit.nodes [[]] := by
  have hroot : ∀ {n : Nat} {w : List UInt8}, [([] : List UInt8)][n]? = some w → n = 0 ∧ w = [] := by
    intro n w hn
    cases n with
    | zero => exact ⟨rfl, (Option.some.inj hn).symm⟩
    | succ n => cases hn
  refine ⟨buildInit_inv, ⟨rfl, by simp, rfl, by simp, ?_, ?_⟩, ?_⟩
  · intro w f
    constructor
    · intro hf
      have hw : w = [] := by
        by_contra hne
        rw [firstFlag, List.find?_cons_of_neg (by simpa using hne)] at hf
        cases hf
      subst hw
      cases hf
      exact ⟨0, rfl, rfl⟩
    · intro hx
      obtain ⟨n, hn, rfl⟩ := hx
      obtain ⟨rfl, rfl⟩ := hroot hn
      rfl
  · intro n c m
    have : (Nodes.node buildInit.nodes n).childs = fun _ => none := by cases n <;> rfl
    rw [this]
    constructor
    · intro h
      cases h
    · intro hx
      obtain ⟨w, -, hm⟩ := hx
      have := (hroot hm).2
      simp at this
  · intro m w hm hw
    exact absurd (hroot hm).2 hw

/-- **The places of the tree of `ACtree_build`**, for patterns of any flags. -/
theorem acTreeBuild_entered {pats : List PatternData} (hs : ∀ pat ∈ pats, pat.Sized) :
    ∃ words, Entered pats (acTreeBuild pats).nodes words := by
  obtain ⟨words, h⟩ := buildInit_entered.addPatterns pats hs
  exact ⟨words, h⟩

end AcBm
