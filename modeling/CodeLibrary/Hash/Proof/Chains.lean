import CodeLibrary.Hash.Spec

/-!
# Calls on one chain

* `walk_spec`: the walk stops at the first node with the key, or behind the last node.
* `recordsOf_cons`, `recordsOf_unlink`: what a new first node, and the loss of the first node with
  a key, do to the records in a chain.
* `freeChain_spec`: the loop of `hash_delete_all` releases the nodes of a chain and no other.
-/

namespace Hash

open NodeMem

variable {κ ρ : Type} {ops : KeyOps κ} {nodes : Mem (HashNode κ ρ)}

/-- The address of the last node, or `p0` of an empty chain. -/
def lastAddr (p0 : Nat) : List (Entry κ ρ) → Nat
  | [] => p0
  | e :: l => lastAddr e.1 l

theorem lastAddr_concat : ∀ (l : List (Entry κ ρ)) (p0 : Nat) (e : Entry κ ρ),
    lastAddr p0 (l ++ [e]) = e.1
  | [], _, _ => rfl
  | e' :: l, _, e => lastAddr_concat l e'.1 e

/-- Where the walk down `l` stops: behind it, or at its first node with the key. -/
inductive Stops (ops : KeyOps κ) (key : κ) (p0 : Nat) (l : List (Entry κ ρ)) : Nat × Nat → Prop
  | behind : (∀ e ∈ l, ops.compare e.2.1 key = false) → Stops ops key p0 l (lastAddr p0 l, 0)
  | at {l₁ l₂ : List (Entry κ ρ)} {e : Entry κ ρ} : l = l₁ ++ e :: l₂ →
      (∀ e ∈ l₁, ops.compare e.2.1 key = false) → ops.compare e.2.1 key = true →
      Stops ops key p0 l (lastAddr p0 l₁, e.1)

theorem run_walkStep (key : κ) : ∀ (l : List (Entry κ ρ)) (p0 : Nat) {p fuel : Nat},
    Chain HashNode.next HashNode.entry nodes p l → l.length < fuel →
    ∃ r, Loop.run (walkStep ops nodes key) fuel (p0, p) = some (some r) ∧ Stops ops key p0 l r
  | _, _, _, 0, _, hf => absurd hf (Nat.not_lt_zero _)
  | [], p0, p, fuel + 1, h, _ => by
    have hp : p = 0 := h
    refine ⟨(p0, p), by rw [Loop.run, walkStep, if_pos hp], ?_⟩
    subst hp
    exact .behind fun e he => absurd he List.not_mem_nil
  | (a, x) :: l, p0, p, fuel + 1, h, hf => by
    obtain ⟨rfl, ha, n, hn, hx, h⟩ := h
    have hkey : n.key = x.1 := by rw [← hx]; rfl
    by_cases hc : ops.compare n.key key = true
    · refine ⟨(p0, p), ?_, ?_⟩
      · rw [Loop.run, walkStep, if_neg ha, hn]
        dsimp only
        rw [if_pos hc]
      · rw [hkey] at hc
        have hl : (p, x) :: l = [] ++ (p, x) :: l := rfl
        exact .at hl (fun e he => absurd he List.not_mem_nil) hc
    · obtain ⟨r, hr, hs⟩ := run_walkStep key l p h (Nat.lt_of_succ_lt_succ hf)
      refine ⟨r, ?_, ?_⟩
      · rw [Loop.run, walkStep, if_neg ha, hn]
        dsimp only
        rw [if_neg hc]
        exact hr
      · rw [hkey, Bool.not_eq_true] at hc
        cases hs with
        | behind hnone =>
          refine .behind fun e he => ?_
          rcases List.mem_cons.1 he with rfl | he
          · exact hc
          · exact hnone e he
        | @«at» l₁ l₂ e hl hnone hk =>
          have hcons : (p, x) :: l = ((p, x) :: l₁) ++ e :: l₂ := congrArg _ hl
          refine .at hcons (fun e he => ?_) hk
          rcases List.mem_cons.1 he with rfl | he
          · exact hc
          · exact hnone e he

/-- **The walk** finds the first node with the key. -/
theorem walk_spec (key : κ) {l : List (Entry κ ρ)} {p fuel : Nat}
    (h : Chain HashNode.next HashNode.entry nodes p l) (hf : l.length < fuel) :
    ∃ r, walk ops fuel nodes key p = some r ∧ Stops ops key 0 l r := by
  obtain ⟨r, hr, hs⟩ := run_walkStep key l 0 h hf
  exact ⟨r, by rw [walk, hr]; rfl, hs⟩

/-! ## The records in a chain -/

theorem recordsOf_eq_nil {key : κ} {l : List (Entry κ ρ)}
    (h : ∀ e ∈ l, ops.compare e.2.1 key = false) : recordsOf ops key l = [] := by
  rw [recordsOf, List.filter_eq_nil_iff.2 fun e he => by rw [h e he]; decide, List.map_nil]

theorem recordsOf_append (key : κ) (l l' : List (Entry κ ρ)) :
    recordsOf ops key (l ++ l') = recordsOf ops key l ++ recordsOf ops key l' := by
  rw [recordsOf, List.filter_append, List.map_append, ← recordsOf, ← recordsOf]

theorem recordsOf_cons (key : κ) (e : Entry κ ρ) (l : List (Entry κ ρ)) :
    recordsOf ops key (e :: l) =
      if ops.compare e.2.1 key then e.2.2 :: recordsOf ops key l else recordsOf ops key l := by
  rw [recordsOf, List.filter_cons]
  split
  · rw [List.map_cons, ← recordsOf]
  · rw [← recordsOf]

/-- What the walk finds is the top of the stack. -/
theorem recordsOf_at {key : κ} {l₁ l₂ : List (Entry κ ρ)} {e : Entry κ ρ}
    (hnone : ∀ e ∈ l₁, ops.compare e.2.1 key = false) (hk : ops.compare e.2.1 key = true) :
    recordsOf ops key (l₁ ++ e :: l₂) = e.2.2 :: recordsOf ops key l₂ := by
  rw [recordsOf_append, recordsOf_eq_nil hnone, List.nil_append, recordsOf_cons, if_pos hk]

section
variable {size : Nat} (hops : ops.Lawful size)
include hops

/-- Keys that compare equal to one compare alike to others. -/
theorem compare_congr {a b : κ} (h : ops.compare a b = true) (c : κ) :
    ops.compare c a = ops.compare c b := by
  rw [Bool.eq_iff_iff]
  exact ⟨fun hc => hops.trans _ _ _ hc h, fun hc => hops.trans _ _ _ hc (hops.symm _ _ h)⟩

theorem compare_congr_left {a b : κ} (h : ops.compare a b = true) (c : κ) :
    ops.compare a c = ops.compare b c := by
  rw [Bool.eq_iff_iff]
  exact ⟨fun hc => hops.trans _ _ _ (hops.symm _ _ h) hc, fun hc => hops.trans _ _ _ h hc⟩

/-- The first node with a key is taken out: the stack of the key loses its top. -/
theorem recordsOf_unlink {key : κ} {l₁ l₂ : List (Entry κ ρ)} {e : Entry κ ρ}
    (hnone : ∀ e ∈ l₁, ops.compare e.2.1 key = false) (hk : ops.compare e.2.1 key = true) (k : κ) :
    recordsOf ops k (l₁ ++ l₂) =
      if ops.compare key k then (recordsOf ops k (l₁ ++ e :: l₂)).tail
      else recordsOf ops k (l₁ ++ e :: l₂) := by
  have hek : ops.compare e.2.1 k = ops.compare key k := compare_congr_left hops hk k
  by_cases hkk : ops.compare key k = true
  · have hnone' : ∀ e ∈ l₁, ops.compare e.2.1 k = false := fun e he => by
      rw [← compare_congr hops hkk]
      exact hnone e he
    rw [if_pos hkk, recordsOf_at hnone' (hek.trans hkk), List.tail_cons, recordsOf_append,
      recordsOf_eq_nil hnone', List.nil_append]
  · rw [if_neg hkk, recordsOf_append, recordsOf_append, recordsOf_cons, hek, if_neg hkk]

end

/-! ## Releasing a chain -/

theorem freeChain_spec : ∀ (l : List (Entry κ ρ)) {nodes : Mem (HashNode κ ρ)} {p fuel : Nat},
    Chain HashNode.next HashNode.entry nodes p l → l.length < fuel →
    ∃ nodes', Loop.run freeStep fuel (nodes, p) = some (some nodes') ∧
      ∀ a, nodes' a = if a ∈ addrs l then none else nodes a
  | _, _, _, 0, _, hf => absurd hf (Nat.not_lt_zero _)
  | [], nodes, p, fuel + 1, h, _ => by
    have hp : p = 0 := h
    refine ⟨nodes, by rw [Loop.run, freeStep, if_pos hp], fun a => ?_⟩
    rw [if_neg (show a ∉ addrs [] from List.not_mem_nil)]
  | (a, x) :: l, nodes, p, fuel + 1, h, hf => by
    obtain ⟨n, hn, hpop⟩ := h.pop
    obtain ⟨rfl, ha, -⟩ := h
    obtain ⟨nodes', hr, hnodes⟩ := freeChain_spec l hpop (Nat.lt_of_succ_lt_succ hf)
    refine ⟨nodes', ?_, fun b => ?_⟩
    · rw [Loop.run, freeStep, if_neg ha, hn]
      exact hr
    · rw [hnodes, addrs_cons]
      by_cases hb : b = p
      · subst hb
        rw [Mem.free_same, ite_self, if_pos List.mem_cons_self]
      · rw [Mem.free_ne hb]
        refine if_congr ?_ rfl rfl
        rw [List.mem_cons, or_iff_right hb]

end Hash
