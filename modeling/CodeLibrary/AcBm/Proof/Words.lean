import CodeLibrary.AcBm.Proof.Places
import CodeLibrary.AcBm.Proof.Shifts

/-!
# The words of the tree, for patterns of one flag

With one flag for all patterns every pattern stands at its folded bytes (`places_of_flag`), so every
node of the tree spells the folded bytes on its path (`Spells`). The words of the nodes are the
prefixes of the folded patterns and a node's label is the highest index of a pattern its word is
(`Built`, `Entered.built`).
-/

namespace AcBm

/-! ## Spelling -/

/-- Node `n` spells `words[n]`: a child spells one more folded byte. -/
structure Spells (cs : Bool) (ns : Nodes) (words : List (List UInt8)) : Prop where
  len : words.length = ns.length
  nodup : words.Nodup
  root : words[0]? = some []
  closed : ∀ {w c}, w ++ [c] ∈ words → w ∈ words
  slot : ∀ {n c m}, (ns.node n).childs c = some m ↔
    ∃ w, words[n]? = some w ∧ words[m]? = some (w ++ [foldCh cs c])

theorem foldl_snoc_foldCh (cs : Bool) : ∀ (s w : List UInt8),
    s.foldl (fun w c => w ++ [foldCh cs c]) w = w ++ foldAll cs s
  | [], w => by rw [foldAll_nil, List.append_nil, List.foldl_nil]
  | c :: s, w => by
    rw [List.foldl_cons, foldl_snoc_foldCh cs s, List.append_assoc]
    rfl

section
variable {cs : Bool} {ns : Nodes} {words : List (List UInt8)} (h : Spells cs ns words)
include h

theorem Spells.index_inj {m m' : Nat} {w : List UInt8} (h1 : words[m]? = some w)
    (h2 : words[m']? = some w) : m = m' :=
  (List.getElem?_inj (List.getElem?_eq_some_iff.1 h1).1 h.nodup).1 (h1.trans h2.symm)

/-- **What `follow` finds**: the node that spells the path. -/
theorem Spells.follow_iff {p : Nat} {w : List UInt8} (hp : words[p]? = some w) (s : List UInt8) :
    ∀ {m : Nat}, follow ns p s = some m ↔ words[m]? = some (w ++ foldAll cs s) := by
  intro m
  rw [← foldl_snoc_foldCh]
  exact follow_iff_foldl h.nodup h.closed h.slot hp s

/-- A slot is empty where the tree has no word one byte longer. -/
theorem Spells.slot_none {n : Nat} {w : List UInt8} (hn : words[n]? = some w) {c : UInt8} :
    (ns.node n).childs c = none ↔ w ++ [foldCh cs c] ∉ words := by
  constructor
  · intro hc hm
    obtain ⟨m, hm⟩ := List.mem_iff_getElem?.1 hm
    rw [h.slot.2 ⟨w, hn, hm⟩] at hc
    cases hc
  · intro hm
    cases hc : (ns.node n).childs c with
    | none => rfl
    | some m =>
      obtain ⟨v, hv, hm'⟩ := h.slot.1 hc
      rw [hn] at hv
      cases hv
      exact absurd (List.mem_of_getElem? hm') hm

end

/-! ## The build -/

/-- The tree of the patterns `pats`, all of flag `cs` (module doc). -/
structure Built (cs : Bool) (pats : List PatternData) (ns : Nodes) (words : List (List UInt8)) :
    Prop where
  inv : TreeInv ns
  spells : Spells cs ns words
  mem : ∀ w, w ∈ words ↔ w = [] ∨ ∃ pat ∈ pats, w <+: foldAll cs pat.data
  label : ∀ {m w}, words[m]? = some w → w ≠ [] → (ns.node m).label = labelOf cs pats w
  flag : ∀ {m}, 0 < m → m < ns.length → (ns.node m).caseSen = cs

/-- A flag of patterns of one flag is that one. -/
theorem firstFlag_of_flag {cs : Bool} {entered : List PatternData}
    (hcs : ∀ p ∈ entered, p.caseSen = cs) {w : List UInt8} {b : UInt8} {f : Bool}
    (h : firstFlag entered (w ++ [b]) = some f) : f = cs := by
  obtain ⟨p, hp, -, rfl⟩ := firstFlag_eq_some h
  exact hcs p hp

/-- Patterns of one flag stand at their folded bytes. -/
theorem places_of_flag {cs : Bool} {pats : List PatternData}
    (hcs : ∀ pat ∈ pats, pat.caseSen = cs) :
    places pats = pats.map fun pat => ⟨foldAll cs pat.data, cs⟩ := by
  induction pats using List.reverseRecOn with
  | nil => rfl
  | append_singleton pats pat ih =>
    have hpat := hcs pat (by simp)
    have ih := ih fun q hq => hcs q (List.mem_append_left _ hq)
    have hplace : placeFrom (firstFlag (places pats)) [] (foldAll cs pat.data) =
        foldAll cs pat.data := by
      apply placeFrom_eq_self
      intro w c hc
      cases cs with
      | false =>
        obtain ⟨x, -, rfl⟩ := List.mem_map.1 hc
        exact foundAs_of_not_isUpper _ w (isUpper_tolower x)
      | true =>
        unfold foundAs
        rw [if_neg]
        intro hf
        have htrue : ∀ p ∈ places pats, p.caseSen = true := by
          rw [ih]
          simp
        cases firstFlag_of_flag htrue hf
    rw [places_snoc, enter, hpat, hplace, ih, List.map_append]
    rfl

section
variable {cs : Bool} {pats : List PatternData} (hcs : ∀ pat ∈ pats, pat.caseSen = cs) {ns : Nodes}
  {words : List (List UInt8)} (h : Entered pats ns words)
include hcs h

theorem Entered.mem_iff (w : List UInt8) :
    w ∈ words ↔ w = [] ∨ ∃ pat ∈ pats, w <+: foldAll cs pat.data := by
  rcases List.eq_nil_or_concat w with rfl | ⟨v, b, rfl⟩
  · simp [List.mem_of_getElem? h.stands.root]
  · rw [List.concat_eq_append, h.stands.mem_iff, Option.isSome_iff_ne_none, firstFlag_ne_none_iff,
      places_of_flag hcs]
    simp

/-- The places are folded. -/
theorem Entered.foldAll_eq {w : List UInt8} (hw : w ∈ words) : foldAll cs w = w := by
  rcases (h.mem_iff hcs w).1 hw with rfl | ⟨pat, -, hpre⟩
  · rfl
  · rw [List.prefix_iff_eq_take.1 hpre, ← foldAll_take, foldAll_foldAll]

/-- A byte is found under its folded one. -/
theorem Entered.slot_iff {n m : Nat} {c : UInt8} : (ns.node n).childs c = some m ↔
    ∃ w, words[n]? = some w ∧ words[m]? = some (w ++ [foldCh cs c]) := by
  have hflag : ∀ {w b f}, firstFlag (places pats) (w ++ [b]) = some f → f = cs :=
    firstFlag_of_flag fun p hp => by
      rw [places_of_flag hcs] at hp
      obtain ⟨q, -, rfl⟩ := List.mem_map.1 hp
      rfl
  refine h.stands.slot.trans (exists_congr fun w => and_congr_right fun hw => ?_)
  unfold foundAs
  cases cs with
  | true =>
    rw [if_neg fun hf => by cases hflag hf]
    rfl
  | false =>
    by_cases hf : firstFlag (places pats) (w ++ [tolower c]) = some false
    · rw [if_pos hf]
      rfl
    · rw [if_neg hf]
      -- no node has the place of the folded byte
      have hnot : w ++ [tolower c] ∉ words := by
        intro hmem
        obtain ⟨f, hsome⟩ := Option.isSome_iff_exists.1 (h.stands.mem_iff.1 hmem)
        rw [hflag hsome] at hsome
        exact hf hsome
      constructor
      · intro hm
        have hfold := h.foldAll_eq hcs (List.mem_of_getElem? hm)
        rw [foldAll_append] at hfold
        obtain ⟨-, hc⟩ := List.append_inj' hfold rfl
        have hc' : tolower c = c := List.singleton_inj.1 hc
        rw [← hc'] at hm
        exact absurd (List.mem_of_getElem? hm) hnot
      · intro hm
        exact absurd (List.mem_of_getElem? hm) hnot

/-- **The tree of patterns of one flag.** -/
theorem Entered.built : Built cs pats ns words := by
  refine ⟨h.inv, ⟨h.stands.len, h.stands.nodup, h.stands.root, h.stands.closed, h.slot_iff hcs⟩,
    h.mem_iff hcs, fun hm hw => ?_, fun {m} hm hlt => ?_⟩
  · rw [h.label hm hw, labelOf, labelOf, places_of_flag hcs]
    simp [lastIndex?, Function.comp_def]
  · obtain ⟨w, b, hget⟩ := h.stands.exists_snoc hm hlt
    refine firstFlag_of_flag (fun p hp => ?_) (h.stands.flag_node hget)
    rw [places_of_flag hcs] at hp
    obtain ⟨q, -, rfl⟩ := List.mem_map.1 hp
    rfl

end

/-- The words of the tree of patterns of one flag. -/
theorem acTreeBuild_built {cs : Bool} {pats : List PatternData}
    (hp : ∀ pat ∈ pats, pat.Sized ∧ pat.caseSen = cs) :
    ∃ words, Built cs pats (acTreeBuild pats).nodes words := by
  obtain ⟨words, h⟩ := acTreeBuild_entered fun pat hpat => (hp pat hpat).1
  exact ⟨words, h.built fun pat hpat => (hp pat hpat).2⟩

theorem Built.same {cs : Bool} {pats : List PatternData} {ns ns' : Nodes}
    {words : List (List UInt8)} (h : Built cs pats ns words) (hs : SameShape ns ns') :
    Built cs pats ns' words := by
  refine ⟨h.inv.same hs, ⟨by rw [hs.1]; exact h.spells.len, h.spells.nodup, h.spells.root,
    h.spells.closed, ?_⟩, h.mem, ?_, ?_⟩
  · intro n c m
    rw [hs.childs]
    exact h.spells.slot
  · intro m w hm hw
    rw [hs.label]
    exact h.label hm hw
  · intro m hm hl
    rw [hs.1] at hl
    rw [hs.caseSen]
    exact h.flag hm hl

/-- **The words of the tree of `acbm_init`**, for patterns of one flag. -/
theorem acbmInit_built {cs : Bool} {pats : List PatternData}
    (hp : ∀ pat ∈ pats, pat.Sized ∧ pat.caseSen = cs) :
    ∃ words, Built cs pats (acbmInit pats).nodes words := by
  obtain ⟨words, h⟩ := acTreeBuild_built hp
  exact ⟨words, h.same (acbmInit_same pats)⟩

end AcBm
