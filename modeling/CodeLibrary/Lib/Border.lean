import Mathlib.Data.Nat.Basic

/-!
# Borders, and the search for the longest one

Sequences `P` and `x` of symbols. `Ends P x e k`: the last `k` of the first `e` symbols of `x` are
the first `k` of `P`; a border of `P`, where `x` is `P` itself and `k < e`. The search for the
longest `k ≤ L` at `e + 1` starts from the longest at `e` and goes down the borders of `P`.

* `ends_succ`: what ends one symbol later, extends what ends here.
* `ends_iff_of_le`: below what ends at `e`, what ends there is a border of it.
* `Search.of_longest`, `Search.fall`, `Search.match`, `Search.fail`: the search's start, its step to
  a border, and its two ends.
-/

namespace Border

variable {α : Type*}

/-- The last `k` of the first `e` symbols of `x` are the first `k` symbols of `P`. -/
def Ends (P x : ℕ → α) (e k : ℕ) : Prop := k ≤ e ∧ ∀ j < k, x (e - k + j) = P j

/-- `k` is the longest such prefix up to `L`. -/
structure Longest (P x : ℕ → α) (e L k : ℕ) : Prop where
  ends : Ends P x e k
  le : k ≤ L
  max : ∀ j ≤ L, Ends P x e j → j ≤ k

/-- `k` ends at `e`, and no longer prefix below `L` that ends there goes on with the next symbol
of `x`. -/
structure Search (P x : ℕ → α) (e L k : ℕ) : Prop where
  ends : Ends P x e k
  le : k ≤ L
  max : ∀ j < L, Ends P x e j → P j = x e → j ≤ k

variable {P x : ℕ → α} {e L k b : ℕ}

theorem ends_zero (P x : ℕ → α) (e : ℕ) : Ends P x e 0 :=
  ⟨Nat.zero_le e, fun j hj => absurd hj (Nat.not_lt_zero j)⟩

theorem ends_succ : Ends P x (e + 1) (k + 1) ↔ Ends P x e k ∧ P k = x e := by
  unfold Ends
  rw [Nat.add_sub_add_right, Nat.add_le_add_iff_right]
  constructor
  · intro h
    obtain ⟨hle, h⟩ := h
    have hlast := h k (Nat.lt_succ_self k)
    rw [Nat.sub_add_cancel hle] at hlast
    exact ⟨⟨hle, fun j hj => h j (Nat.lt_succ_of_lt hj)⟩, hlast.symm⟩
  · intro h
    obtain ⟨⟨hle, h⟩, hlast⟩ := h
    refine ⟨hle, fun j hj => ?_⟩
    obtain hj | rfl := Nat.lt_succ_iff_lt_or_eq.1 hj
    · exact h j hj
    · rw [Nat.sub_add_cancel hle]
      exact hlast.symm

/-- Below `k`, what ends at `e` is a border of the first `k` symbols of `P`. -/
theorem ends_iff_of_le (h : Ends P x e k) (hb : b ≤ k) : Ends P x e b ↔ Ends P P k b := by
  obtain ⟨hk, h⟩ := h
  have hsame : ∀ j < b, x (e - b + j) = P (k - b + j) := by
    intro j hj
    rw [← h (k - b + j) (by omega)]
    congr 1
    omega
  refine ⟨fun hx => ⟨hb, fun j hj => ?_⟩, fun hP => ⟨by omega, fun j hj => ?_⟩⟩
  · rw [← hsame j hj]
    exact hx.2 j hj
  · rw [hsame j hj]
    exact hP.2 j hj

/-- The search starts from the longest prefix. -/
theorem Search.of_longest (h : Longest P x e L k) : Search P x e L k :=
  ⟨h.ends, h.le, fun j hj hx _ => h.max j (Nat.le_of_lt hj) hx⟩

/-- Where `k` does not go on, the search falls back to its longest border. -/
theorem Search.fall (h : Search P x e L k) (hne : P k ≠ x e) (hk : 0 < k)
    (hb : Longest P P k (k - 1) b) : Search P x e L b := by
  have hbk : b < k := by have := hb.le; omega
  refine ⟨(ends_iff_of_le h.ends (Nat.le_of_lt hbk)).2 hb.ends, ?_, fun j hj hx hgo => ?_⟩
  · exact Nat.le_trans (Nat.le_of_lt hbk) h.le
  · have hjk : j ≤ k := h.max j hj hx hgo
    have hne' : j ≠ k := fun he => hne (he ▸ hgo)
    exact hb.max j (by omega) ((ends_iff_of_le h.ends hjk).1 hx)

/-- Where `k` goes on, it gives the longest prefix at the next symbol. -/
theorem Search.match (h : Search P x e L k) (hgo : P k = x e) (hk : k < L) :
    Longest P x (e + 1) L (k + 1) := by
  refine ⟨ends_succ.2 ⟨h.ends, hgo⟩, hk, fun j hj hx => ?_⟩
  cases j with
  | zero => exact Nat.zero_le _
  | succ j =>
    obtain ⟨hx, hgo⟩ := ends_succ.1 hx
    exact Nat.succ_le_succ (h.max j hj hx hgo)

/-- Where not even the empty prefix goes on, no prefix ends at the next symbol. -/
theorem Search.fail (h : Search P x e L 0) (hne : P 0 ≠ x e) : Longest P x (e + 1) L 0 := by
  refine ⟨ends_zero P x (e + 1), Nat.zero_le L, fun j hj hx => ?_⟩
  cases j with
  | zero => exact Nat.le_refl 0
  | succ j =>
    obtain ⟨hx, hgo⟩ := ends_succ.1 hx
    have hj0 : j = 0 := Nat.le_zero.1 (h.max j hj hx hgo)
    exact absurd (hj0 ▸ hgo) hne

end Border
