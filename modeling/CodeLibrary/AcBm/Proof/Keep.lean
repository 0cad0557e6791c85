import CodeLibrary.AcBm.Proof.Places

/-!
# Which patterns `ACtree_build` keeps under their own flag

Two slots of one letter may hold one node or two, whichever pattern came first, and a node keeps
the label of the last pattern that ends there, whatever its flag.

* `label_iff`: the label found along a word is the last pattern that stands at the word's place.
* `acTreeBuild_keeps_iff`: all patterns are kept just where the last pattern to stand at the place
  of a word that equals a pattern does not insist on another spelling.
-/

namespace AcBm

/-- `s` equals the pattern, exactly where its case counts, after `tolower` where it does not. -/
def PatternData.Equals (pat : PatternData) (s : List UInt8) : Prop :=
  foldAll pat.caseSen s = foldAll pat.caseSen pat.data

instance (pat : PatternData) (s : List UInt8) : Decidable (pat.Equals s) :=
  inferInstanceAs (Decidable (_ = _))

/-- Every word that equals a pattern leads to the label of a pattern that it equals. -/
def KeepsPatterns (pats : List PatternData) (ns : Nodes) : Prop :=
  ∀ pat ∈ pats, ∀ s, pat.Equals s → ∃ (n j : Nat) (q : PatternData),
    follow ns 0 s = some n ∧ (ns.node n).label = j ∧ pats[j]? = some q ∧ q.Equals s

/-- A pattern stands at the place of `s`, and the last to stand there is case-insensitive or is
`s` itself. -/
def HoldsPlace (pats : List PatternData) (s : List UInt8) : Prop :=
  ∃ j q, lastIndex? true (places pats) (placeIn pats s) = some j ∧ pats[j]? = some q ∧
    (q.caseSen = true → q.data = s)

/-! ## Places and spellings -/

theorem tolower_foundAs (flag : List UInt8 → Option Bool) (w : List UInt8) (c : UInt8) :
    tolower (foundAs flag w c) = tolower c := by
  unfold foundAs
  split
  · exact tolower_tolower c
  · rfl

/-- The place of a word differs from it by the case of letters only. -/
theorem foldAll_placeFrom (flag : List UInt8 → Option Bool) : ∀ (s w : List UInt8),
    foldAll false (placeFrom flag w s) = foldAll false w ++ foldAll false s
  | [], w => by rw [placeFrom, foldAll_nil, List.append_nil]
  | c :: s, w => by
    rw [placeFrom, foldAll_placeFrom flag s, foldAll_append, List.append_assoc]
    congr 1
    simp [foldAll, tolower_foundAs]

/-- The case of letters is all a pattern loses where it stands. -/
theorem foldAll_places {pats : List PatternData} : ∀ {j : Nat} {q p : PatternData},
    pats[j]? = some q → (places pats)[j]? = some p →
    foldAll false p.data = foldAll false q.data := by
  induction pats using List.reverseRecOn with
  | nil =>
    intro j q p hq
    cases hq
  | append_singleton pats pat ih =>
    intro j q p hq hp
    rw [places_snoc, enter] at hp
    rcases Nat.lt_or_ge j pats.length with hj | hj
    · rw [List.getElem?_append_left hj] at hq
      rw [List.getElem?_append_left (by rw [places_length]; exact hj)] at hp
      exact ih hq hp
    · have hlt := (List.getElem?_eq_some_iff.1 hq).1
      rw [List.length_append, List.length_singleton] at hlt
      have hj' : j = pats.length := by omega
      subst hj'
      rw [List.getElem?_append_right (le_refl _), Nat.sub_self] at hq
      rw [List.getElem?_append_right (by rw [places_length]), places_length, Nat.sub_self] at hp
      cases hq
      cases hp
      rw [foldAll_placeFrom]
      cases pat.caseSen <;> simp

/-- A pattern that stands at the place of `s` equals it, unless it insists on another spelling. -/
theorem equals_iff {pats : List PatternData} {s : List UInt8} {j : Nat} {q : PatternData}
    (hj : lastIndex? true (places pats) (placeIn pats s) = some j) (hq : pats[j]? = some q) :
    q.Equals s ↔ (q.caseSen = true → q.data = s) := by
  obtain ⟨⟨p, hp, hword⟩, -⟩ := lastIndex?_eq_some.1 hj
  have hfold := foldAll_places hq hp
  rw [foldAll_true] at hword
  rw [hword, placeIn, foldAll_placeFrom, foldAll_nil, List.nil_append] at hfold
  unfold PatternData.Equals
  cases q.caseSen with
  | false => simp [hfold]
  | true =>
    rw [foldAll_true, foldAll_true]
    exact ⟨fun he _ => he.symm, fun he => (he rfl).symm⟩

/-! ## Labels -/

section
variable {pats : List PatternData} (hs : ∀ pat ∈ pats, pat.Sized)
include hs

/-- No pattern stands at the root. -/
theorem lastIndex?_places_nil : lastIndex? true (places pats) [] = none := by
  apply lastIndex?_eq_none.2
  intro p hp hnil
  obtain ⟨j, hj⟩ := List.mem_iff_getElem?.1 hp
  have hlt := (List.getElem?_eq_some_iff.1 hj).1
  rw [places_length] at hlt
  have hq : pats[j]? = some pats[j] := List.getElem?_eq_getElem hlt
  have hlen := congrArg List.length (foldAll_places hq hj)
  rw [foldAll_true] at hnil
  rw [hnil] at hlen
  simp only [foldAll_length, List.length_nil] at hlen
  have := (hs _ (List.getElem_mem hlt)).1
  unfold PatternData.len at this
  omega

/-- **The label along a word** is the last pattern that stands at the word's place. -/
theorem label_iff {s : List UInt8} {j : Nat} :
    (∃ n, follow (acTreeBuild pats).nodes 0 s = some n ∧
        ((acTreeBuild pats).nodes.node n).label = j) ↔
      lastIndex? true (places pats) (placeIn pats s) = some j := by
  obtain ⟨words, h⟩ := acTreeBuild_entered hs
  constructor
  · intro hx
    obtain ⟨n, hn, hlabel⟩ := hx
    have hword : words[n]? = some (placeIn pats s) := (h.stands.follow_iff h.stands.root s).1 hn
    by_cases hnil : placeIn pats s = []
    · -- the root's label is no pattern
      rw [hnil] at hword
      rw [h.stands.index_inj hword h.stands.root, h.inv.rootLabel] at hlabel
      omega
    · rw [h.label hword hnil, labelOf] at hlabel
      cases hlast : lastIndex? true (places pats) (placeIn pats s) with
      | none =>
        rw [hlast] at hlabel
        dsimp only at hlabel
        omega
      | some i =>
        rw [hlast] at hlabel
        dsimp only at hlabel
        rw [show i = j by omega]
  · intro hlast
    obtain ⟨⟨p, hp, hword⟩, -⟩ := lastIndex?_eq_some.1 hlast
    rw [foldAll_true] at hword
    have hmem : placeIn pats s ∈ words :=
      h.stands.mem_iff.2 (firstFlag_isSome (List.mem_of_getElem? hp) (by rw [hword]))
    obtain ⟨n, hn⟩ := List.mem_iff_getElem?.1 hmem
    refine ⟨n, (h.stands.follow_iff h.stands.root s).2 hn, ?_⟩
    have hnil : placeIn pats s ≠ [] := by
      intro hnil
      rw [hnil, lastIndex?_places_nil hs] at hlast
      cases hlast
    rw [h.label hn hnil, labelOf, hlast]

/-- **`ACtree_build` keeps every pattern under its own flag** just where the last pattern to stand
at the place of a word that equals a pattern is case-insensitive or is that word. -/
theorem acTreeBuild_keeps_iff : KeepsPatterns pats (acTreeBuild pats).nodes ↔
    ∀ pat ∈ pats, ∀ s, pat.Equals s → HoldsPlace pats s := by
  refine forall₂_congr fun pat _ => forall₂_congr fun s _ => ?_
  constructor
  · intro hx
    obtain ⟨n, j, q, hn, hlabel, hq, heq⟩ := hx
    have hj := (label_iff hs).1 ⟨n, hn, hlabel⟩
    exact ⟨j, q, hj, hq, (equals_iff hj hq).1 heq⟩
  · intro hx
    obtain ⟨j, q, hj, hq, heq⟩ := hx
    obtain ⟨n, hn, hlabel⟩ := (label_iff hs).2 hj
    exact ⟨n, j, q, hn, hlabel, hq, (equals_iff hj hq).2 heq⟩

end

/-- `"ab"` of any case and then `"cD"`. -/
def patsApart : List PatternData := [⟨"ab".asciiBytes, false⟩, ⟨"cD".asciiBytes, true⟩]

/-- `"ab"` of any case and then `"Ab"`. -/
def patsRelabelled : List PatternData := [⟨"ab".asciiBytes, false⟩, ⟨"Ab".asciiBytes, true⟩]

/-- `"Ab"` and then `"a"` of any case. -/
def patsOverwritten : List PatternData := [⟨"Ab".asciiBytes, true⟩, ⟨"a".asciiBytes, false⟩]

theorem acTreeBuild_keeps_apart : KeepsPatterns patsApart (acTreeBuild patsApart).nodes ↔
    ∀ pat ∈ patsApart, ∀ s, pat.Equals s → HoldsPlace patsApart s :=
  acTreeBuild_keeps_iff (by decide)

/-- `"Ab"` takes the label of `"ab"` away from the other spellings; the `'A'` slot of `"a"` takes
the place of the branch of `"Ab"`. -/
theorem acTreeBuild_loses :
    ¬ KeepsPatterns patsRelabelled (acTreeBuild patsRelabelled).nodes ∧
      ¬ KeepsPatterns patsOverwritten (acTreeBuild patsOverwritten).nodes := by
  constructor
  · intro h
    obtain ⟨n, j, q, hn, hlabel, hq, heq⟩ := h ⟨"ab".asciiBytes, false⟩ (by decide)
      "ab".asciiBytes rfl
    have hn' : follow (acTreeBuild patsRelabelled).nodes 0 "ab".asciiBytes = some 2 := by
      decide +kernel
    have hlabel' : ((acTreeBuild patsRelabelled).nodes.node 2).label = (1 : Nat) := by
      decide +kernel
    rw [hn'] at hn
    cases hn
    rw [hlabel'] at hlabel
    obtain rfl : 1 = j := by omega
    cases hq
    exact absurd heq (by decide)
  · intro h
    obtain ⟨n, j, q, hn, -⟩ := h ⟨"Ab".asciiBytes, true⟩ (by decide) "Ab".asciiBytes rfl
    have hn' : follow (acTreeBuild patsOverwritten).nodes 0 "Ab".asciiBytes = none := by
      decide +kernel
    rw [hn'] at hn
    cases hn

end AcBm
