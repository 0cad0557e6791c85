import CodeLibrary.AcBm.Proof.Exact
import CodeLibrary.AcBm.Proof.Progress

/-!
# The shifts of `ac_bm.c` are safe

For patterns of one flag: the bad-character shift (`bcShift_safe`) and the good-suffix shift of
any child of the node where the walk stopped (`gsShift_safe`) never jump over an offset at which
a pattern occurs, so neither does the shift of a round (`shiftAt_safe`).
-/

namespace AcBm

/-! ## Occurrences, byte by byte -/

/-- The pattern `pat` occurs in `text` at `q`. -/
def OccursAt (cs : Bool) (pat : PatternData) (text : List UInt8) (q : Nat) : Prop :=
  ∀ i y, pat.data[i]? = some y → ∃ z, text[q + i]? = some z ∧ foldCh cs z = foldCh cs y

theorem hitsAt_ne_nil {cs : Bool} {pats : List PatternData} {text : List UInt8} {q : Nat}
    (h : hitsAt cs pats text q ≠ []) : ∃ pat ∈ pats, OccursAt cs pat text q := by
  obtain ⟨x, hx⟩ := List.exists_mem_of_ne_nil _ h
  obtain ⟨-, k, hk, i, -, hl⟩ := mem_hitsAt.1 hx
  obtain ⟨⟨pat, hp, hw⟩, -⟩ := lastIndex?_eq_some.1 hl
  refine ⟨pat, List.mem_of_getElem? hp, fun j y hy => ?_⟩
  have hy' : (foldAll cs pat.data)[j]? = some (foldCh cs y) := by simp [foldAll, hy]
  rw [hw, foldAll, List.getElem?_map, Option.map_eq_some_iff] at hy'
  obtain ⟨z, hz, hzy⟩ := hy'
  refine ⟨z, ?_, hzy⟩
  have hj := (List.getElem?_eq_some_iff.1 hz).1
  rw [List.getElem?_take_of_lt (by simp at hj; omega), List.getElem?_drop] at hz
  exact hz

theorem OccursAt.isPrefix {cs : Bool} {pat : PatternData} {text : List UInt8} {q : Nat}
    (h : OccursAt cs pat text q) : foldAll cs pat.data <+: (foldAll cs text).drop q := by
  rw [List.prefix_iff_getElem?]
  intro i hi
  rw [foldAll_length] at hi
  obtain ⟨z, hz, hzy⟩ := h i _ (List.getElem?_eq_getElem hi)
  rw [List.getElem?_drop, foldAll, List.getElem?_map, hz, Option.map_some, hzy]
  simp [foldAll]

theorem OccursAt.length_le {cs : Bool} {pat : PatternData} {text : List UInt8} {q : Nat}
    (h : OccursAt cs pat text q) (hs : pat.Sized) : q + pat.len ≤ text.length := by
  have h1 := hs.1
  unfold PatternData.len at h1 ⊢
  obtain ⟨z, hz, -⟩ := h (pat.data.length - 1) _ (List.getElem?_eq_getElem (by omega))
  have := (List.getElem?_eq_some_iff.1 hz).1
  omega

/-! ## The shifts are safe -/

section
variable {cs : Bool} {pats : List PatternData} (hne : pats ≠ [])
  (hs : ∀ pat ∈ pats, pat.Sized ∧ pat.caseSen = cs)
include hne hs

/-- **The bad-character shift is safe**: it does not jump over an occurrence. -/
theorem bcShift_safe {text : List UInt8} {q d k : Nat} {c : UInt8} (hd : 1 ≤ d)
    (hc : text[q + d + k]? = some c) {pat : PatternData} (hp : pat ∈ pats)
    (hocc : OccursAt cs pat text q) : (acbmInit pats).bcShift c ≤ d + k := by
  have h := bcShift_le_iff (fun p hp => (hs p hp).1) hne c (d + k)
  push_cast at h
  apply h.2
  rw [caseSen0_eq hne hs]
  rcases Nat.lt_or_ge (d + k) pat.len with hlt | hge
  · have hx : pat.data[d + k]? = some pat.data[d + k] := List.getElem?_eq_getElem hlt
    obtain ⟨z, hz, hzx⟩ := hocc _ _ hx
    rw [← Nat.add_assoc, hc] at hz
    cases hz
    exact .inr ⟨pat, hp, d + k, _, by omega, le_refl _, hx, hzx.symm⟩
  · exact .inl ⟨pat, hp, hge⟩

/-- **The good-suffix shift is safe**: below the node where the walk stopped, whichever child it
is read from. -/
theorem gsShift_safe {words : List (List UInt8)} (hb : Built cs pats (acbmInit pats).nodes words)
    {text : List UInt8} {q d k node child : Nat} {o : UInt8} (hd : 1 ≤ d)
    (hk : k ≤ (text.drop (q + d)).length)
    (hnode : words[node]? = some (foldAll cs ((text.drop (q + d)).take k)))
    (hstop : ∀ c, (text.drop (q + d))[k]? = some c →
      ((acbmInit pats).nodes.node node).childs c = none)
    (hchild : ((acbmInit pats).nodes.node node).childs o = some child)
    {p2 : PatternData} (hp2 : p2 ∈ pats) (hocc : OccursAt cs p2 text q) :
    ((acbmInit pats).nodes.node child).gsShift ≤ d := by
  obtain ⟨w, hw, hcw⟩ := hb.spells.slot.1 hchild
  rw [hnode, Option.some.injEq] at hw
  subst hw
  refine gsShift_le_overlap hne hs hb hcw hp2 hd ?_
  have hlen : ((text.drop (q + d)).take k).length = k := by
    rw [List.length_take, Nat.min_eq_left hk]
  have hpre : foldAll cs (p2.data.drop d) <+: foldAll cs (text.drop (q + d)) := by
    rw [foldAll_drop, foldAll_drop, ← List.drop_drop]
    exact hocc.isPrefix.drop d
  rcases Nat.lt_or_ge k (p2.data.length - d) with hlt | hge
  · -- `p2` reaches the byte where the walk stopped
    obtain ⟨y, hy⟩ : ∃ y, p2.data[d + k]? = some y :=
      ⟨_, List.getElem?_eq_getElem (by omega)⟩
    refine .inr ⟨?_, y, by rw [hlen]; exact hy, fun hyo => ?_⟩
    · rw [hlen, foldAll_take, foldAll_take, List.prefix_iff_eq_take.1 hpre, List.take_take,
        Nat.min_eq_left (by simp; omega)]
    · obtain ⟨z, hz, hzy⟩ := hocc _ y hy
      have hnone := hstop z (by rw [List.getElem?_drop, Nat.add_assoc]; exact hz)
      rw [hb.spells.slot_none hnode, hzy, hyo] at hnone
      exact hnone (List.mem_of_getElem? hcw)
  · -- `p2` ends before it
    left
    rw [foldAll_take, List.prefix_take_iff]
    exact ⟨hpre, by simpa using hge⟩

/-- **A shift never jumps over an offset with pairs.** -/
theorem shiftAt_safe {words : List (List UInt8)} (hb : Built cs pats (acbmInit pats).nodes words)
    {text : List UInt8} {base k node : Nat} {s : Int} (hk : k ≤ (text.drop base).length)
    (hf : follow (acbmInit pats).nodes 0 ((text.drop base).take k) = some node)
    (hstop : ∀ c, (text.drop base)[k]? = some c →
      ((acbmInit pats).nodes.node node).childs c = none)
    (h : shiftAt (acbmInit pats) text base node (base + k) = some s) {q : Nat} (hq : q < base)
    (hqs : (base : Int) - s < q) : hitsAt cs pats text q = [] := by
  by_contra hhit
  obtain ⟨pat, hp, hocc⟩ := hitsAt_ne_nil hhit
  have hnode := (hb.spells.follow_iff hb.spells.root _).1 hf
  rw [List.nil_append] at hnode
  obtain ⟨d, rfl⟩ : ∃ d, base = q + d := ⟨base - q, by omega⟩
  unfold shiftAt at h
  by_cases hn : 0 < ((acbmInit pats).nodes.node node).nchild
  · rw [if_pos hn] at h
    obtain ⟨child, hchild⟩ := hb.inv.oneChild hn
    rw [hchild] at h
    dsimp only at h
    have hgs := gsShift_safe hne hs hb (by omega) hk hnode hstop hchild hp hocc
    by_cases hlt : q + d + k < text.length
    · rw [dif_pos hlt, Option.some.injEq] at h
      have hbc := bcShift_safe hne hs (by omega) (List.getElem?_eq_getElem hlt) hp hocc
      push_cast at h
      split at h <;> omega
    · rw [dif_neg hlt, Option.some.injEq] at h
      split at h <;> omega
  · rw [if_neg hn, Option.some.injEq] at h
    omega

end

end AcBm
