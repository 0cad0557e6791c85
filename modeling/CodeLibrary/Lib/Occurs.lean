import Mathlib.Data.List.Basic

/-!
# Occurrences in a text

`OccursAt p t i`: `p` is in `t` from index `i` on; `EndsAt p t e`: `p` is in `t` with its last
element at index `e`. Both element by element in `occursAt_iff` and `endsAt_iff`.
-/

variable {α : Type*}

/-- `p` is in `t` from index `i` on. -/
def OccursAt (p t : List α) (i : Nat) : Prop := p <+: t.drop i

/-- `p` is in `t` with its last element at index `e`. -/
def EndsAt (p t : List α) (e : Nat) : Prop := p.length ≤ e + 1 ∧ OccursAt p t (e + 1 - p.length)

instance [DecidableEq α] (p t : List α) (i : Nat) : Decidable (OccursAt p t i) :=
  inferInstanceAs (Decidable (p <+: t.drop i))

instance [DecidableEq α] (p t : List α) (e : Nat) : Decidable (EndsAt p t e) :=
  inferInstanceAs (Decidable (_ ∧ _))

theorem occursAt_iff {p t : List α} {i : Nat} :
    OccursAt p t i ↔ ∀ j < p.length, t[i + j]? = p[j]? := by
  unfold OccursAt
  constructor
  · rintro ⟨r, hr⟩ j hj
    rw [← List.getElem?_drop, ← hr, List.getElem?_append_left hj]
  · intro h
    rw [List.prefix_iff_eq_take]
    apply List.ext_getElem?
    intro j
    rw [List.getElem?_take]
    split
    · rename_i hj
      rw [List.getElem?_drop, h j hj]
    · rename_i hj
      exact List.getElem?_eq_none (by omega)

theorem OccursAt.le_length {p t : List α} {i : Nat} (h : OccursAt p t i) (hp : p ≠ []) :
    i + p.length ≤ t.length := by
  have hle := List.IsPrefix.length_le h
  rw [List.length_drop] at hle
  have := List.length_pos_iff.2 hp
  omega

/-- The bytes at an occurrence. -/
theorem OccursAt.take {p t : List α} {i : Nat} (h : OccursAt p t i) :
    (t.drop i).take p.length = p := (List.prefix_iff_eq_take.1 h).symm

theorem endsAt_iff {p t : List α} {e : Nat} :
    EndsAt p t e ↔ p.length ≤ e + 1 ∧ ∀ j < p.length, t[e - j]? = p[p.length - 1 - j]? := by
  unfold EndsAt
  rw [occursAt_iff]
  refine and_congr_right fun hle => ⟨fun h j hj => ?_, fun h j hj => ?_⟩
  · rw [← h (p.length - 1 - j) (by omega)]
    congr 1
    omega
  · have := h (p.length - 1 - j) (by omega)
    rwa [show e - (p.length - 1 - j) = e + 1 - p.length + j by omega,
      show p.length - 1 - (p.length - 1 - j) = j by omega] at this

theorem EndsAt.lt {p t : List α} {e : Nat} (h : EndsAt p t e) (hp : p ≠ []) : e < t.length := by
  have := h.2.le_length hp
  have := h.1
  omega
