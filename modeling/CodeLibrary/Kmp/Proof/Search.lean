import CodeLibrary.Lib.Occurs
import CodeLibrary.Kmp.Proof.Table

/-!
# The search of `kmp`

* `ends_iff_occursAt`: the pattern ends after `e` characters of the text where it occurs.
* `kmpStep_spec`: a step keeps the search for the longest prefix of the pattern and the shifts
  printed so far (`KmpInv`), and brings the loop nearer to its end.
* `kmp_ok`: `kmp` returns, without an access out of bounds, and prints the shifts at which the
  pattern occurs, in ascending order.
-/

namespace Kmp

open Border

/-- The shifts at which the pattern occurs in the first `i` characters, in ascending order. -/
structure Printed (T P : List UInt8) (i : Nat) (shifts : List Int) : Prop where
  ascending : shifts.Pairwise (· < ·)
  mem : ∀ s, s ∈ shifts ↔ ∃ k : Nat, s = k ∧ k + P.length ≤ i ∧ OccursAt P T k

/-- The loops of `kmp` search for the longest prefix of the pattern at `i`. -/
structure KmpInv (T P : List UInt8) (s : KmpState) : Prop where
  le : s.i ≤ T.length
  search : Search (symbol P) (symbol T) s.i P.length s.q
  printed : Printed T P s.i s.shifts

theorem symbol_ne_zero {T : List UInt8} (hT : 0 ∉ T) {i : Nat} (h : i < T.length) :
    symbol T i ≠ 0 := by
  intro h0
  exact hT (h0 ▸ List.mem_of_getElem? (symbol_eq h))

/-- The pattern ends where it occurs. -/
theorem ends_iff_occursAt {T P : List UInt8} {e : Nat} (he : e ≤ T.length)
    (hP : P.length ≤ e) :
    Ends (symbol P) (symbol T) e P.length ↔ OccursAt P T (e - P.length) := by
  rw [occursAt_iff, Ends, and_iff_right hP]
  refine forall_congr' fun j => forall_congr' fun hj => ?_
  rw [symbol_eq (by omega), symbol_eq hj, Option.some_inj]

/-! ## The shifts -/

/-- A new occurrence comes after those printed. -/
theorem Printed.snoc {T P : List UInt8} {i : Nat} {shifts : List Int} (h : Printed T P i shifts)
    (hP : P.length ≤ i + 1) (hocc : OccursAt P T (i + 1 - P.length)) :
    Printed T P (i + 1) (shifts ++ [(i : Int) - P.length + 1]) := by
  have hcast : (i : Int) - P.length + 1 = ((i + 1 - P.length : Nat) : Int) := by omega
  refine ⟨?_, fun s => ?_⟩
  · rw [List.pairwise_append]
    refine ⟨h.ascending, List.pairwise_singleton _ _, fun a ha b hb => ?_⟩
    obtain ⟨k, rfl, hk, -⟩ := (h.mem a).1 ha
    rw [List.mem_singleton.1 hb]
    omega
  · rw [List.mem_append, List.mem_singleton, h.mem, hcast]
    constructor
    · intro hs
      obtain ⟨k, hs, hk, hoc⟩ | hs := hs
      · exact ⟨k, hs, by omega, hoc⟩
      · exact ⟨_, hs, by omega, hocc⟩
    · intro hs
      obtain ⟨k, rfl, hk, hoc⟩ := hs
      by_cases hlast : k + P.length ≤ i
      · exact .inl ⟨k, rfl, hlast, hoc⟩
      · exact .inr (by omega)

/-- No new occurrence. -/
theorem Printed.same {T P : List UInt8} {i : Nat} {shifts : List Int} (h : Printed T P i shifts)
    (hocc : P.length ≤ i + 1 → ¬OccursAt P T (i + 1 - P.length)) :
    Printed T P (i + 1) shifts := by
  refine ⟨h.ascending, fun s => ?_⟩
  rw [h.mem]
  refine exists_congr fun k => and_congr_right fun _ => and_congr_left fun hoc => ?_
  refine ⟨fun hk => by omega, fun hk => ?_⟩
  by_contra hlast
  have hki : k = i + 1 - P.length := by omega
  exact hocc (by omega) (hki ▸ hoc)

/-! ## The loop -/

/-- The end of a round of the `for` loop. -/
theorem KmpInv.next_round {T P : List UInt8} {s : KmpState} (h : KmpInv T P s)
    (hlt : s.i < T.length) {q : Nat}
    (hq : Longest (symbol P) (symbol T) (s.i + 1) P.length q) :
    KmpInv T P ⟨s.i + 1, q,
      if q = P.length then s.shifts ++ [(s.i : Int) - P.length + 1] else s.shifts⟩ := by
  refine ⟨hlt, .of_longest hq, ?_⟩
  by_cases hfull : q = P.length
  · have hends := hfull ▸ hq.ends
    simp only [hfull, if_true]
    exact h.printed.snoc hends.1 ((ends_iff_occursAt hlt hends.1).1 hends)
  · simp only [hfull, if_false]
    apply h.printed.same
    intro hle hocc
    have hends := (ends_iff_occursAt hlt hle).2 hocc
    exact hfull (Nat.le_antisymm hq.le (hq.max _ (Nat.le_refl _) hends))

/-- What is left to do for the loops of `kmp`. -/
def kmpVariant (T : List UInt8) (s : KmpState) : Nat := 2 * (T.length - s.i) + s.q

theorem kmpBody_spec {T P : List UInt8} {next : List Nat} (hT : 0 ∉ T)
    (hPint : P.length < 2 ^ 31) (htable : TableOk P next P.length) {s : KmpState}
    (h : KmpInv T P s) (hlt : s.i < T.length) :
    ∃ s', kmpBody T P next s = some s' ∧ KmpInv T P s' ∧ kmpVariant T s' < kmpVariant T s := by
  simp only [kmpBody, charAt_eq h.search.le, charAt_eq (Nat.le_of_lt hlt), Option.bind_eq_bind,
    Option.bind_some, strlen_eq hPint, Int.ofNat_inj]
  by_cases hfall : s.q > 0 ∧ symbol P s.q ≠ symbol T s.i
  · obtain ⟨hq0, hne⟩ := hfall
    have hqP := h.search.le
    obtain ⟨b, hb, hlong⟩ := htable.nextAt (show s.q - 1 < P.length by omega) (Nat.le_refl _)
    rw [Nat.sub_add_cancel hq0] at hlong
    have hbq : b < s.q := by have := hlong.le; omega
    rw [if_pos ⟨hq0, hne⟩, hb]
    refine ⟨_, rfl, ⟨h.le, h.search.fall hne hq0 hlong, h.printed⟩, ?_⟩
    simp only [kmpVariant]
    omega
  · rw [if_neg hfall]
    by_cases heq : symbol P s.q = symbol T s.i
    · -- the terminating NUL of the pattern is not in the text
      have hqP : s.q < P.length := by
        refine Nat.lt_of_le_of_ne h.search.le fun he => ?_
        rw [he, symbol_length] at heq
        exact symbol_ne_zero hT hlt heq.symm
      rw [if_pos heq]
      refine ⟨_, rfl, h.next_round hlt (h.search.match heq hqP), ?_⟩
      simp only [kmpVariant]
      omega
    · have hq0 : s.q = 0 := by
        by_contra hq
        exact hfall ⟨Nat.pos_of_ne_zero hq, heq⟩
      have hs := h.search
      rw [hq0] at hs
      rw [if_neg heq, hq0]
      refine ⟨_, rfl, h.next_round hlt (hs.fail (hq0 ▸ heq)), ?_⟩
      simp only [kmpVariant]
      omega

theorem kmpStep_spec {T P : List UInt8} {next : List Nat} (hT : 0 ∉ T)
    (hTint : T.length < 2 ^ 31) (hPint : P.length < 2 ^ 31) (htable : TableOk P next P.length)
    (s : KmpState) (h : KmpInv T P s) :
    Sum.elim (fun s' => KmpInv T P s' ∧ kmpVariant T s' < kmpVariant T s)
      (fun r => ∃ shifts, r = some shifts ∧ Printed T P T.length shifts) (kmpStep T P next s) := by
  rw [kmpStep, strlen_eq hTint]
  simp only [Int.ofNat_lt]
  by_cases hlt : s.i < T.length
  · obtain ⟨s', hs', hinv⟩ := kmpBody_spec hT hPint htable h hlt
    rw [if_pos hlt, hs']
    exact hinv
  · have hi : s.i = T.length := by have := h.le; omega
    rw [if_neg hlt]
    exact ⟨s.shifts, rfl, hi ▸ h.printed⟩

theorem kmpInv_start {T P : List UInt8} (hP : P ≠ []) : KmpInv T P ⟨0, 0, []⟩ := by
  have hpos := List.length_pos_iff.2 hP
  refine ⟨Nat.zero_le _, ⟨ends_zero _ _ _, Nat.zero_le _, fun j _ hx _ => hx.1⟩, .nil, fun s => ?_⟩
  simp only [List.not_mem_nil, false_iff, not_exists]
  intro k hk
  omega

theorem KmpReturns.det {T P : List UInt8} {next : List Nat} {r r' : Option (List Int)}
    (h : KmpReturns T P next r) (h' : KmpReturns T P next r') : r = r' := by
  obtain ⟨hm, hr⟩ | ⟨next1, hm, hr⟩ := h
  · obtain ⟨-, hr'⟩ | ⟨next2, hm', -⟩ := h'
    · exact hr.trans hr'.symm
    · cases hm.det hm'
  · obtain ⟨hm', -⟩ | ⟨next2, hm', hr'⟩ := h'
    · cases hm.det hm'
    · cases hm.det hm'
      exact hr.det hr'

/-- **The search**: with a table as long as the pattern, and lengths that an `int` holds, `kmp`
returns without an access out of bounds, and prints the shifts at which the pattern occurs, each
once and in ascending order. -/
theorem kmp_ok (T P : List UInt8) (next : List Nat) (hT : 0 ∉ T) (hP : P ≠ [])
    (hTint : T.length < 2 ^ 31) (hPint : P.length < 2 ^ 31) (hnext : P.length ≤ next.length) :
    ∃ shifts, (∀ r, KmpReturns T P next r ↔ r = some shifts) ∧ shifts.Pairwise (· < ·) ∧
      ∀ s, s ∈ shifts ↔ ∃ k : Nat, s = k ∧ OccursAt P T k := by
  obtain ⟨next', hmake, htable⟩ := makeNext_spec hP hPint hnext
  obtain ⟨r, hr, shifts, rfl, hprint⟩ :=
    Loop.total_rule (kmpVariant T) (kmpInv_start hP) (kmpStep_spec hT hTint hPint htable)
  have hkmp : KmpReturns T P next (some shifts) := .inr ⟨next', hmake, hr⟩
  refine ⟨shifts, fun r => ⟨fun h => h.det hkmp, fun h => h ▸ hkmp⟩, hprint.ascending, fun s => ?_⟩
  rw [hprint.mem]
  refine exists_congr fun k => and_congr_right fun _ => and_iff_right_of_imp fun hocc => ?_
  exact hocc.le_length hP

/-- Overlapping occurrences of `aba` in `ababa`. -/
theorem kmp_ok_overlapping : ∃ shifts,
    KmpReturns [97, 98, 97, 98, 97] [97, 98, 97] [9, 9, 9] (some shifts) ∧ 0 ∈ shifts ∧
      2 ∈ shifts := by
  obtain ⟨shifts, hret, -, hmem⟩ :=
    kmp_ok [97, 98, 97, 98, 97] [97, 98, 97] [9, 9, 9] (by decide) (by decide) (by decide)
      (by decide) (by decide)
  exact ⟨shifts, (hret _).2 rfl, (hmem 0).2 ⟨0, rfl, by decide⟩, (hmem 2).2 ⟨2, rfl, by decide⟩⟩

end Kmp
