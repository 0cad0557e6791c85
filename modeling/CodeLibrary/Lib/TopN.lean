import Mathlib.Data.Multiset.Sort

/-!
# The greatest elements of a multiset

`top r n s`: the `n` greatest elements of `s` under the linear order `r`, counted with
multiplicity. `IsTop r m s` says it without sorting: no element of `s` outside `m` is above one of
`m`; there is one such `m` of each size (`IsTop.eq_top`).

* `IsTop.replace`, `IsTop.keep`: the greatest elements after one more arrives, from a least element
  of those kept so far.
-/

namespace TopN

variable {α : Type*} (r : α → α → Prop)

/-- `m` is a part of `s`, and what is left of `s` is nowhere above an element of `m`. -/
def IsTop (m s : Multiset α) : Prop :=
  ∃ rest, s = m + rest ∧ ∀ x ∈ m, ∀ y ∈ rest, r y x

/-- The `n` greatest elements of `s`. -/
def top [DecidableRel r] [IsTrans α r] [Std.Antisymm r] [Std.Total r] (n : Nat)
    (s : Multiset α) : Multiset α :=
  ((s.sort (Function.swap r)).take n : List α)

variable {r} {m s : Multiset α}

theorem isTop_self : IsTop r s s :=
  ⟨0, (Multiset.add_zero s).symm, fun _ _ _ hy => absurd hy (Multiset.notMem_zero _)⟩

/-- A new element that is not above the least one is left out. -/
theorem IsTop.keep [IsTrans α r] (h : IsTop r m s) {x e : α} (hx : ∀ z ∈ m, r x z)
    (he : r e x) : IsTop r m (e ::ₘ s) := by
  obtain ⟨rest, hs, hle⟩ := h
  refine ⟨e ::ₘ rest, by rw [hs, Multiset.add_cons], fun z hz y hy => ?_⟩
  rcases Multiset.mem_cons.1 hy with rfl | hy
  · exact IsTrans.trans _ _ _ he (hx z hz)
  · exact hle z hz y hy

/-- A new element above the least one takes its place. -/
theorem IsTop.replace [IsTrans α r] {x e : α} (h : IsTop r (x ::ₘ m) s)
    (hx : ∀ z ∈ m, r x z) (he : r x e) : IsTop r (e ::ₘ m) (e ::ₘ s) := by
  obtain ⟨rest, hs, hle⟩ := h
  refine ⟨x ::ₘ rest, ?_, fun z hz y hy => ?_⟩
  · rw [hs, Multiset.cons_add, Multiset.cons_add, Multiset.add_cons]
  · have hxz : r x z := by
      rcases Multiset.mem_cons.1 hz with rfl | hz
      · exact he
      · exact hx z hz
    rcases Multiset.mem_cons.1 hy with rfl | hy
    · exact hxz
    · exact IsTrans.trans _ _ _ (hle x (Multiset.mem_cons_self x m) y hy) hxz

/-- There is one `m` of each size. -/
theorem IsTop.eq_top [DecidableRel r] [IsTrans α r] [Std.Antisymm r] [Std.Total r]
    (h : IsTop r m s) : m = top r m.card s := by
  obtain ⟨rest, hs, hle⟩ := h
  have hperm : (s.sort (Function.swap r)).Perm
      (m.sort (Function.swap r) ++ rest.sort (Function.swap r)) := by
    rw [← Multiset.coe_eq_coe, Multiset.sort_eq, ← Multiset.coe_add, Multiset.sort_eq,
      Multiset.sort_eq, hs]
  have hsorted : (m.sort (Function.swap r) ++ rest.sort (Function.swap r)).Pairwise
      (Function.swap r) := by
    refine List.pairwise_append.2 ⟨Multiset.pairwise_sort m _, Multiset.pairwise_sort rest _,
      fun x hx y hy => ?_⟩
    exact hle x ((Multiset.mem_sort _).1 hx) y ((Multiset.mem_sort _).1 hy)
  have heq := hperm.eq_of_pairwise (fun a b _ _ hab hba => antisymm hba hab)
    (Multiset.pairwise_sort s _) hsorted
  have hlen : (m.sort (Function.swap r)).length = m.card := by
    rw [← Multiset.coe_card, Multiset.sort_eq]
  rw [top, heq, ← hlen, List.take_left, Multiset.sort_eq]

end TopN
