import CodeLibrary.AcBm.Proof.Back
import CodeLibrary.AcBm.Proof.Free
import CodeLibrary.AcBm.Proof.Keep

/-!
# For which patterns `acbm_clean` frees every node once

`_clean_tree` passes over the `'A'..'Z'` slots of a node without a flag, as if they were the aliases
of the lower-case ones, and over no slot of a node with one. So it misses an upper-case letter that
hangs below a node without a flag, and comes twice to a letter that hangs in two slots below a node
with one.

* `OneByte`: a place is found under one byte whose slot is not passed over.
* `acbmClean_iff`: every node is freed once just where no upper-case letter stands below a place
  without a flag, and no letter that a case-insensitive pattern came to first stands below a place
  with one (`Tidy`); in the backward tree, just where no upper-case letter stands at all.
-/

namespace AcBm

theorem TreeInv.linked {ns : Nodes} (h : TreeInv ns) : Linked ns :=
  ⟨h.pos, h.childLt, h.parent⟩

theorem Linked.alike {ns ns' : Nodes} (h : Linked ns) (ha : Alike ns ns') : Linked ns' := by
  refine ⟨by rw [ha.1]; exact h.pos, fun hc => ?_, fun {n c m} hc => ?_⟩
  · rw [ha.childs] at hc
    rw [ha.1]
    exact h.childLt hc
  · rw [ha.childs] at hc
    rw [ha.2 m]
    exact h.parent hc

/-- One byte leads from `w` to the place `w ++ [b]` by a slot that is not passed over at a node with
flag `cs`. -/
def OneByte (flag : List UInt8 → Option Bool) (cs : Bool) (w : List UInt8) (b : UInt8) : Prop :=
  ∃ c, (foundAs flag w c = b ∧ skipsSlot cs c = false) ∧
    ∀ c', foundAs flag w c' = b → skipsSlot cs c' = false → c' = c

/-- The slots of the nodes, told of their places. -/
theorem Stands.oneSlot_iff {flag : List UInt8 → Option Bool} {ns ns' : Nodes}
    {words : List (List UInt8)} (h : Stands flag ns words) (hlen : ns'.length = ns.length)
    (hchilds : ∀ n, (ns'.node n).childs = (ns.node n).childs) (cs : List UInt8 → Bool)
    (hcs : ∀ {n w}, words[n]? = some w → (ns'.node n).caseSen = cs w) :
    OneSlot ns' ↔ ∀ w b, w ++ [b] ∈ words → OneByte flag (cs w) w b := by
  have hfrees : ∀ {n c m}, Frees ns' n c m ↔ ∃ w, words[n]? = some w ∧
      words[m]? = some (w ++ [foundAs flag w c]) ∧ skipsSlot (cs w) c = false := by
    intro n c m
    rw [Frees, hchilds, h.slot]
    constructor
    · intro hx
      obtain ⟨⟨w, hn, hm⟩, hsk⟩ := hx
      rw [hcs hn] at hsk
      exact ⟨w, hn, hm, hsk⟩
    · intro hx
      obtain ⟨w, hn, hm, hsk⟩ := hx
      rw [← hcs hn] at hsk
      exact ⟨⟨w, hn, hm⟩, hsk⟩
  constructor
  · intro hone w b hmem
    obtain ⟨m, hm⟩ := List.mem_iff_getElem?.1 hmem
    obtain ⟨p, hp⟩ := List.mem_iff_getElem?.1 (h.closed hmem)
    have hpos : 0 < m := by
      rcases Nat.eq_zero_or_pos m with rfl | hpos
      · rw [h.root] at hm
        simp at hm
      · exact hpos
    obtain ⟨n, c, hc, huniq⟩ := hone m hpos (by rw [hlen]; exact h.lt hm)
    obtain ⟨w', hn, hm', hsk⟩ := hfrees.1 hc
    rw [hm] at hm'
    obtain ⟨rfl, hb⟩ := List.append_inj' (Option.some.inj hm') rfl
    rw [List.singleton_inj] at hb
    refine ⟨c, ⟨hb.symm, hsk⟩, fun c' hb' hsk' => ?_⟩
    exact (huniq n c' (hfrees.2 ⟨w, hn, by rw [hb', hm], hsk'⟩)).2
  · intro hone m hpos hm
    obtain ⟨w, b, hget⟩ := h.exists_snoc hpos (by rw [← hlen]; exact hm)
    obtain ⟨c, ⟨hb, hsk⟩, huniq⟩ := hone w b (List.mem_of_getElem? hget)
    obtain ⟨n, hn⟩ := List.mem_iff_getElem?.1 (h.closed (List.mem_of_getElem? hget))
    refine ⟨n, c, hfrees.2 ⟨w, hn, by rw [hb, hget], hsk⟩, fun n' c' hc' => ?_⟩
    obtain ⟨w', hn', hm', hsk'⟩ := hfrees.1 hc'
    rw [hget] at hm'
    obtain ⟨rfl, hb'⟩ := List.append_inj' (Option.some.inj hm') rfl
    rw [List.singleton_inj] at hb'
    exact ⟨h.index_inj hn' hn, huniq c' hb'.symm hsk'⟩

/-! ## Places and slots -/

theorem oneByte_false {flag : List UInt8 → Option Bool} {w : List UInt8} {b : UInt8} :
    OneByte flag false w b ↔ isUpper b = false := by
  have hskip : ∀ c, skipsSlot false c = isUpper c := fun c => by simp [skipsSlot]
  unfold OneByte
  simp only [hskip]
  constructor
  · intro hx
    obtain ⟨c, ⟨hb, hc⟩, -⟩ := hx
    rw [foundAs_of_not_isUpper flag w hc] at hb
    rw [← hb]
    exact hc
  · intro hb
    refine ⟨b, ⟨foundAs_of_not_isUpper flag w hb, hb⟩, fun c hc hu => ?_⟩
    rwa [foundAs_of_not_isUpper flag w hu] at hc

/-- An upper-case letter stands below a place with a flag, a letter that a case-insensitive pattern
came to first below one without. -/
def TidyAt (flag : List UInt8 → Option Bool) (w : List UInt8) (b : UInt8) : Prop :=
  (isUpper b = true → flag w = some true) ∧
    (isLower b = true → flag (w ++ [b]) = some false → flag w = some false)

theorem isUpper_eq_false_of_isLower {b : UInt8} (h : isLower b = true) : isUpper b = false := by
  have := isLower_iff.1 h
  rw [Bool.eq_false_iff, ne_eq, isUpper_iff]
  omega

theorem isLower_tolower {b : UInt8} (h : isUpper b = true) : isLower (tolower b) = true := by
  have := isUpper_iff.1 h
  rw [isLower_iff, toNat_tolower, if_pos h]
  omega

/-- Below a place with a flag a byte is found under one byte, if the place is tidy there. -/
theorem oneByte_true {flag : List UInt8 → Option Bool} {w : List UInt8} (hw : flag w = some true)
    (ht : ∀ c, flag (w ++ [c]) ≠ none → TidyAt flag w c) (b : UInt8) :
    OneByte flag true w b := by
  have hskip : ∀ c, skipsSlot true c = false := fun c => by simp [skipsSlot]
  -- no byte is found under another one
  have hfound : ∀ c, foundAs flag w c = c := by
    intro c
    unfold foundAs
    split
    · rename_i hf
      by_cases hu : isUpper c = true
      · have := (ht (tolower c) (by rw [hf]; exact Option.some_ne_none _)).2 (isLower_tolower hu) hf
        rw [hw] at this
        cases this
      · exact tolower_of_not_isUpper (by simpa using hu)
    · rfl
  refine ⟨b, ⟨hfound b, hskip b⟩, fun c hc _ => ?_⟩
  rwa [hfound] at hc

theorem tidyAt_of_oneByte {flag : List UInt8 → Option Bool} {w : List UInt8} {cs : Bool}
    (hw : flag w = some cs) {b : UInt8} (h : OneByte flag cs w b) : TidyAt flag w b := by
  cases cs with
  | false =>
    have hb := oneByte_false.1 h
    exact ⟨fun hu => absurd hu (by simp [hb]), fun _ _ => hw⟩
  | true =>
    refine ⟨fun _ => hw, fun hl hf => ?_⟩
    obtain ⟨c, -, huniq⟩ := h
    have hskip : ∀ c, skipsSlot true c = false := fun c => by simp [skipsSlot]
    -- the letter is found under itself and under its alias
    have h1 := huniq b (foundAs_of_not_isUpper flag w (isUpper_eq_false_of_isLower hl)) (hskip _)
    have h2 := huniq (b - 32) (by rw [foundAs, tolower_sub_32 hl, if_pos hf]) (hskip _)
    have := congrArg UInt8.toNat (h1.trans h2.symm)
    rw [toNat_sub_32 hl] at this
    have := isLower_iff.1 hl
    omega

/-! ## The trees of `acbm_init` and `acbmback_init` -/

/-- No upper-case letter stands below a place that a case-insensitive pattern came to first, or at
the root; no letter that a case-insensitive pattern came to first stands below a place that a
case-sensitive one came to first. -/
def Tidy (pats : List PatternData) : Prop :=
  ∀ p ∈ places pats, ∀ w b, w ++ [b] <+: p.data → TidyAt (firstFlag (places pats)) w b

/-- No upper-case letter stands in the tree of the reversed patterns. -/
def TidyBack (pats : List PatternData) : Prop :=
  ∀ p ∈ places (pats.map PatternData.reversed), ∀ w b, w ++ [b] <+: p.data → isUpper b = false

section
variable {pats : List PatternData} (hs : ∀ pat ∈ pats, pat.Sized)
include hs

theorem acbmInit_oneSlot_iff : OneSlot (acbmInit pats).nodes ↔ Tidy pats := by
  obtain ⟨words, h⟩ := acTreeBuild_entered hs
  have hsame := acbmInit_same pats
  have hmem : ∀ w b, w ++ [b] ∈ words ↔ firstFlag (places pats) (w ++ [b]) ≠ none := by
    intro w b
    rw [h.stands.mem_iff, Option.isSome_iff_ne_none]
  have hflag : ∀ {w b}, w ++ [b] ∈ words → ∃ cs, firstFlag (places pats) w = some cs ∧
      (firstFlag (places pats) w).getD false = cs := by
    intro w b hw
    obtain ⟨cs, hcs⟩ := Option.isSome_iff_exists.1 (h.stands.mem_iff.1 (h.stands.closed hw))
    exact ⟨cs, hcs, by rw [hcs]; rfl⟩
  have htidy : Tidy pats ↔
      ∀ w b, w ++ [b] ∈ words → TidyAt (firstFlag (places pats)) w b := by
    constructor
    · intro ht w b hw
      obtain ⟨p, hp, hpre⟩ := firstFlag_ne_none_iff.1 ((hmem w b).1 hw)
      exact ht p hp w b hpre
    · intro ht p hp w b hpre
      exact ht w b ((hmem w b).2 (firstFlag_ne_none_iff.2 ⟨p, hp, hpre⟩))
  rw [htidy, h.stands.oneSlot_iff hsame.1 hsame.childs
    (fun w => (firstFlag (places pats) w).getD false)
    fun hn => by rw [hsame.caseSen, h.stands.flag_node hn]; rfl]
  constructor
  · intro hone w b hw
    obtain ⟨cs, hcs, hget⟩ := hflag hw
    have := hone w b hw
    rw [hget] at this
    exact tidyAt_of_oneByte hcs this
  · intro ht w b hw
    obtain ⟨cs, hcs, hget⟩ := hflag hw
    rw [hget]
    cases cs with
    | true => exact oneByte_true hcs (fun c hc => ht w c ((hmem w c).2 hc)) b
    | false =>
      apply oneByte_false.2
      by_contra hu
      have := (ht w b hw).1 (by simpa using hu)
      rw [hcs] at this
      cases this

theorem acbmBackInit_oneSlot_iff : OneSlot (acbmBackInit pats).nodes ↔ TidyBack pats := by
  have hs' : ∀ pat ∈ pats.map PatternData.reversed, pat.Sized := by
    intro pat hp
    obtain ⟨q, hq, rfl⟩ := List.mem_map.1 hp
    have := hs q hq
    unfold PatternData.Sized PatternData.len PatternData.reversed at *
    simpa using this
  obtain ⟨words, h⟩ := acTreeBuild_entered hs'
  have ha : Alike _ (acbmBackInit pats).nodes := acTreeBackBuild_alike fun pat hp => (hs pat hp).2
  rw [h.stands.oneSlot_iff ha.1 ha.childs (fun _ => false)
    fun _ => (acTreeBackBuild_noFlag pats).node _]
  constructor
  · intro hone p hp w b hpre
    have hw : w ++ [b] ∈ words := by
      rw [h.stands.mem_iff, Option.isSome_iff_ne_none]
      exact firstFlag_ne_none_iff.2 ⟨p, hp, hpre⟩
    exact oneByte_false.1 (hone w b hw)
  · intro ht w b hw
    rw [h.stands.mem_iff, Option.isSome_iff_ne_none] at hw
    obtain ⟨p, hp, hpre⟩ := firstFlag_ne_none_iff.1 hw
    exact oneByte_false.2 (ht p hp w b hpre)

theorem acbmInit_cleansUp_iff : CleansUp (acbmInit pats) ↔ Tidy pats :=
  (cleansUp_iff (acbmInit_inv pats).linked).trans (acbmInit_oneSlot_iff hs)

theorem acbmBackInit_cleansUp_iff : CleansUp (acbmBackInit pats) ↔ TidyBack pats := by
  have ha : Alike _ (acbmBackInit pats).nodes := acTreeBackBuild_alike fun pat hp => (hs pat hp).2
  exact (cleansUp_iff ((acTreeBuild_inv _).linked.alike ha)).trans (acbmBackInit_oneSlot_iff hs)

/-- **`acbm_clean` frees every node once** and touches none that is freed: on the tree of
`acbm_init` just where the places are tidy, on that of `acbmback_init` just where no upper-case
letter stands in it. -/
theorem acbmClean_iff : (CleansUp (acbmInit pats) ↔ Tidy pats) ∧
    (CleansUp (acbmBackInit pats) ↔ TidyBack pats) :=
  ⟨acbmInit_cleansUp_iff hs, acbmBackInit_cleansUp_iff hs⟩

end

/-- The patterns `"ab"` of any case and `"cD"`. -/
theorem acbmClean_iff_apart : (CleansUp (acbmInit patsApart) ↔ Tidy patsApart) ∧
    (CleansUp (acbmBackInit patsApart) ↔ TidyBack patsApart) :=
  acbmClean_iff (by decide)

/-- The pattern `"A"`, where the case counts. -/
def patA : PatternData := ⟨"A".asciiBytes, true⟩

/-- `"a"` and then `"ab"` of any case. -/
def patsTwice : List PatternData := [⟨"a".asciiBytes, true⟩, ⟨"ab".asciiBytes, false⟩]

/-- The node of `"A"` is freed in neither tree; the node of the `'b'` of `"ab"` hangs in two slots
of the node of `"a"`, none of which is passed over. -/
theorem acbmClean_fails : ¬ CleansUp (acbmInit [patA]) ∧ ¬ CleansUp (acbmBackInit [patA]) ∧
    ¬ CleansUp (acbmInit patsTwice) := by
  refine ⟨fun hx => ?_, fun hx => ?_, fun hx => ?_⟩
  · have ht := (acbmInit_cleansUp_iff (by decide)).1 hx patA (by decide) [] 65 (by decide)
    exact absurd (ht.1 rfl) (by decide)
  · have ht := (acbmBackInit_cleansUp_iff (by decide)).1 hx patA (by decide) [] 65 (by decide)
    cases ht
  · have ht := (acbmInit_cleansUp_iff (by decide)).1 hx ⟨"ab".asciiBytes, false⟩ (by decide)
      "a".asciiBytes 98 (by decide)
    exact absurd (ht.2 rfl (by decide)) (by decide)

end AcBm
