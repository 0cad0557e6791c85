import Mathlib.Data.List.GetD
import Mathlib.Logic.Function.Basic

/-!
# Lists stored in memory

A memory gives the element at each address. `write mem p s`: the elements of `s` are stored from `p`
on, and the rest is as in `mem`. Stores behind, in and before what is written are writes of a list
with an element more (`write_snoc`, `write_cons`) or changed (`write_set`).
`Begins mem s`: the elements of `s` are stored from address 0 on.
-/

namespace Stores

variable {α : Type*}

/-- The memory `mem` with the elements of `s` from address `p` on. -/
def write (mem : Nat → α) (p : Nat) (s : List α) : Nat → α :=
  fun a => if p ≤ a then s.getD (a - p) (mem a) else mem a

variable (mem : Nat → α) (p : Nat) (s : List α)

@[simp] theorem write_nil : write mem p [] = mem := by
  funext a
  simp [write]

theorem write_apply {i : Nat} (hi : i < s.length) (d : α) : write mem p s (p + i) = s.getD i d := by
  rw [write, if_pos (Nat.le_add_right p i), Nat.add_sub_cancel_left, List.getD_eq_getElem _ _ hi,
    List.getD_eq_getElem _ _ hi]

/-- An element is stored behind what is written. -/
theorem write_snoc (x : α) :
    Function.update (write mem p s) (p + s.length) x = write mem p (s ++ [x]) := by
  funext a
  by_cases ha : a = p + s.length
  · subst ha
    rw [Function.update_self, write_apply _ _ _ (by simp) x]
    simp
  · rw [Function.update_of_ne ha]
    unfold write
    split
    · rcases Nat.lt_or_ge (a - p) s.length with hlt | hge
      · rw [List.getD_append _ _ _ _ hlt]
      · rw [List.getD_eq_default _ _ hge, List.getD_eq_default _ _ (by simp; omega)]
    · rfl

/-- An element of what is written is changed. -/
theorem write_set {i : Nat} (hi : i < s.length) (x : α) :
    Function.update (write mem p s) (p + i) x = write mem p (s.set i x) := by
  funext a
  by_cases ha : a = p + i
  · subst ha
    rw [Function.update_self, write_apply _ _ _ (by simpa using hi) x]
    simp [hi]
  · rw [Function.update_of_ne ha]
    unfold write
    split
    · rw [List.getD_eq_getElem?_getD, List.getD_eq_getElem?_getD,
        List.getElem?_set_ne (by omega)]
    · rfl

/-- An element is stored before what is written. -/
theorem write_cons (x : α) :
    write (Function.update mem p x) (p + 1) s = write mem p (x :: s) := by
  funext a
  unfold write
  rcases Nat.lt_trichotomy a p with hlt | rfl | hgt
  · rw [if_neg (by omega), if_neg (by omega), Function.update_of_ne (by omega)]
  · rw [if_neg (by omega), if_pos (Nat.le_refl a), Function.update_self, Nat.sub_self]
    rfl
  · obtain ⟨i, hi⟩ : ∃ i, a - p = i + 1 := ⟨a - p - 1, by omega⟩
    rw [if_pos (by omega), if_pos (by omega), Function.update_of_ne (by omega), hi,
      List.getD_cons_succ, show a - (p + 1) = i by omega]

theorem write_of_lt {a : Nat} (ha : a < p) : write mem p s a = mem a := if_neg (by omega)

theorem write_of_ge {a : Nat} (ha : p + s.length ≤ a) : write mem p s a = mem a := by
  unfold write
  split
  · exact List.getD_eq_default _ _ (by omega)
  · rfl

/-- A list is stored over the start of another one. -/
theorem write_write (t : List α) :
    write (write mem p s) p t = write mem p (t ++ s.drop t.length) := by
  funext a
  unfold write
  split
  · rcases Nat.lt_or_ge (a - p) t.length with hlt | hge
    · rw [List.getD_append _ _ _ _ hlt, List.getD_eq_getElem _ _ hlt, List.getD_eq_getElem _ _ hlt]
    · rw [List.getD_append_right _ _ _ _ hge, List.getD_eq_default _ _ hge,
        List.getD_eq_getElem?_getD, List.getD_eq_getElem?_getD, List.getElem?_drop,
        Nat.add_sub_cancel' hge]
  · rfl

/-! ## The start of a memory -/

/-- The memory starts with the elements of `s`. -/
def Begins (mem : Nat → α) (s : List α) : Prop := ∀ i, ∀ h : i < s.length, mem i = s[i]

variable {mem s}

theorem Begins.nil : Begins mem [] := nofun

/-- What is stored behind the start continues it. -/
theorem Begins.write (h : Begins mem s) (t : List α) :
    Begins (Stores.write mem s.length t) (s ++ t) := by
  intro i hi
  rcases Nat.lt_or_ge i s.length with hlt | hge
  · rw [write_of_lt _ _ _ hlt, List.getElem_append_left hlt, h i hlt]
  · obtain ⟨k, rfl⟩ := Nat.exists_eq_add_of_le hge
    have hk : k < t.length := by
      rw [List.length_append] at hi
      omega
    rw [List.getElem_append_right hge, write_apply _ _ _ hk t[k]]
    simp [hk]

theorem Begins.update (h : Begins mem s) (x : α) :
    Begins (Function.update mem s.length x) (s ++ [x]) := by
  have hw := h.write [x]
  rw [← List.nil_append [x], ← write_snoc, write_nil] at hw
  exact hw

theorem Begins.getD (h : Begins mem s) (d : α) {i : Nat} (hi : i < s.length) :
    mem i = s.getD i d := by
  rw [h i hi, List.getD_eq_getElem _ _ hi]

end Stores
