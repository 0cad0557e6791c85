import Mathlib.Data.List.Nodup
import Mathlib.Logic.Function.Basic

/-!
# Nodes at addresses, and chains of them

`Mem ν`: which node, if any, is at an address; 0 is `NULL`. `Chain next data m p l`: following
`next` from `p` leads through the addresses of `l`, whose nodes hold the data of `l`, to `NULL`.

* `Chain.frame`: a chain is not touched by what happens at other addresses.
* `Chain.det`, `Chain.nodup`: there is one chain from an address, and no node is in it twice.
* `Chain.push`, `Chain.pop`, `Chain.snoc`, `Chain.unlink`: a node is put in front, the first one
  released, one put behind, a later one taken out.
-/

namespace NodeMem

variable {ν α : Type*}

/-- The nodes at their addresses. -/
abbrev Mem (ν : Type*) := Nat → Option ν

/-- A node is written to `p`. -/
def Mem.set (m : Mem ν) (p : Nat) (n : ν) : Mem ν := Function.update m p (some n)

/-- The node at `p` is released. -/
def Mem.free (m : Mem ν) (p : Nat) : Mem ν := Function.update m p none

@[simp] theorem Mem.set_same (m : Mem ν) (p : Nat) (n : ν) : m.set p n p = some n :=
  Function.update_self ..

@[simp] theorem Mem.free_same (m : Mem ν) (p : Nat) : m.free p p = none :=
  Function.update_self ..

theorem Mem.set_ne {m : Mem ν} {p q : Nat} (h : q ≠ p) (n : ν) : m.set p n q = m q :=
  Function.update_of_ne h ..

theorem Mem.free_ne {m : Mem ν} {p q : Nat} (h : q ≠ p) : m.free p q = m q :=
  Function.update_of_ne h ..

/-- The addresses in a chain. -/
def addrs (l : List (Nat × α)) : List Nat := l.map Prod.fst

@[simp] theorem addrs_cons (e : Nat × α) (l : List (Nat × α)) :
    addrs (e :: l) = e.1 :: addrs l := rfl

@[simp] theorem addrs_append (l l' : List (Nat × α)) :
    addrs (l ++ l') = addrs l ++ addrs l' := List.map_append

variable (next : ν → Nat) (data : ν → α)

/-- From `p` the nodes of `l` follow one another, to the end. -/
def Chain (m : Mem ν) : Nat → List (Nat × α) → Prop
  | p, [] => p = 0
  | p, (a, x) :: l => p = a ∧ a ≠ 0 ∧ ∃ n, m a = some n ∧ data n = x ∧ Chain m (next n) l

variable {next data} {m m' : Mem ν}

theorem Chain.frame : ∀ {l : List (Nat × α)} {p : Nat}, Chain next data m p l →
    (∀ a ∈ addrs l, m' a = m a) → Chain next data m' p l
  | [], _, h, _ => h
  | _ :: _, _, ⟨hp, ha, n, hn, hx, h⟩, heq =>
    ⟨hp, ha, n, (heq _ List.mem_cons_self).trans hn, hx,
      h.frame fun b hb => heq b (List.mem_cons_of_mem _ hb)⟩

/-- There is one chain from an address. -/
theorem Chain.det : ∀ {l l' : List (Nat × α)} {p : Nat}, Chain next data m p l →
    Chain next data m p l' → l = l'
  | [], [], _, _, _ => rfl
  | [], _ :: _, _, h, ⟨hp, ha, _⟩ => absurd (hp.symm.trans h) ha
  | _ :: _, [], _, ⟨hp, ha, _⟩, h => absurd (hp.symm.trans h) ha
  | (a, x) :: l, (b, y) :: l', p, ⟨hp, _, n, hn, hx, h⟩, ⟨hp', _, n', hn', hy, h'⟩ => by
    have hab : a = b := hp.symm.trans hp'
    subst hab
    rw [hn] at hn'
    cases hn'
    rw [h.det h', ← hx, ← hy]

/-- The rest of a chain, from one of its addresses. -/
theorem Chain.of_append : ∀ {l₁ l₂ : List (Nat × α)} {p a : Nat} {x : α},
    Chain next data m p (l₁ ++ (a, x) :: l₂) → Chain next data m a ((a, x) :: l₂)
  | [], _, _, _, _, ⟨_, h⟩ => ⟨rfl, h⟩
  | _ :: _, _, _, _, _, ⟨_, _, _, _, _, h⟩ => h.of_append

/-- No address is in a chain twice: it would go on without an end. -/
theorem Chain.nodup : ∀ {l : List (Nat × α)} {p : Nat}, Chain next data m p l → (addrs l).Nodup
  | [], _, _ => List.nodup_nil
  | (a, x) :: l, p, ⟨hp, ha, n, hn, hx, h⟩ => by
    refine List.nodup_cons.2 ⟨fun hmem => ?_, h.nodup⟩
    obtain ⟨⟨b, y⟩, hb, rfl⟩ := List.mem_map.1 hmem
    obtain ⟨l₁, l₂, rfl⟩ := List.append_of_mem hb
    have hagain := h.of_append
    have hfirst : Chain next data m b ((b, x) :: (l₁ ++ (b, y) :: l₂)) :=
      ⟨rfl, ha, n, hn, hx, h⟩
    have := congrArg List.length (hagain.det hfirst)
    simp only [List.length_cons, List.length_append] at this
    omega

/-- What is in a chain is in the memory, not at `NULL`. -/
theorem Chain.mem : ∀ {l : List (Nat × α)} {p a : Nat}, Chain next data m p l → a ∈ addrs l →
    a ≠ 0 ∧ (m a).isSome
  | _ :: _, _, _, ⟨_, hb, _, hn, _, h⟩, ha => by
    rcases List.mem_cons.1 ha with rfl | ha
    · exact ⟨hb, by rw [hn]; rfl⟩
    · exact h.mem ha

theorem Chain.push {l : List (Nat × α)} {p a : Nat} (h : Chain next data m p l) (ha : a ≠ 0)
    (hal : a ∉ addrs l) {n : ν} (hn : next n = p) :
    Chain next data (m.set a n) a ((a, data n) :: l) := by
  refine ⟨rfl, ha, n, m.set_same a n, rfl, ?_⟩
  rw [hn]
  exact h.frame fun b hb => Mem.set_ne (ne_of_mem_of_not_mem hb hal) n

theorem Chain.pop {l : List (Nat × α)} {p a : Nat} {x : α}
    (h : Chain next data m p ((a, x) :: l)) :
    ∃ n, m a = some n ∧ Chain next data (m.free a) (next n) l := by
  have ha : a ∉ addrs l := (List.nodup_cons.1 h.nodup).1
  obtain ⟨-, -, n, hn, -, h⟩ := h
  exact ⟨n, hn, h.frame fun b hb => Mem.free_ne (ne_of_mem_of_not_mem hb ha)⟩

/-- The last node, at `t`, is linked to a new one. -/
theorem Chain.snoc : ∀ {l : List (Nat × α)} {p t d : Nat} {x : α} {n e : ν},
    Chain next data m p (l ++ [(t, x)]) → m d = some e → d ≠ 0 → d ∉ addrs (l ++ [(t, x)]) →
    next e = 0 → next n = d → data n = x →
    Chain next data (m.set t n) p (l ++ [(t, x), (d, data e)])
  | [], p, t, d, x, n, e, h, he, hd, hdl, hend, hn, hx => by
    obtain ⟨hp, ht, -⟩ := h
    have hdt : d ≠ t := fun h => hdl (by simp [h])
    refine ⟨hp, ht, n, Mem.set_same _ _ _, hx, hn, hd, e, ?_, rfl, hend⟩
    rw [Mem.set_ne hdt, he]
  | (a, y) :: l, p, t, d, x, n, e, h, he, hd, hdl, hend, hn, hx => by
    have hat : a ≠ t := fun h' => (List.nodup_cons.1 h.nodup).1 (by simp [h'])
    obtain ⟨hp, ha, na, hna, hy, h⟩ := h
    refine ⟨hp, ha, na, by rw [Mem.set_ne hat, hna], hy, ?_⟩
    exact h.snoc he hd (fun h' => hdl (List.mem_cons_of_mem a h')) hend hn hx

/-- The node after `(a, x)` is taken out: the node at `a` becomes `n`, with its `next`. -/
theorem Chain.unlink : ∀ {l₁ l₂ : List (Nat × α)} {p a b : Nat} {x y : α},
    Chain next data m p (l₁ ++ (a, x) :: (b, y) :: l₂) → ∀ {n nb : ν}, m b = some nb →
    next n = next nb → data n = x →
    Chain next data ((m.set a n).free b) p (l₁ ++ (a, x) :: l₂)
  | [], l₂, p, a, b, x, y, h, n, nb, hnb, hnext, hx => by
    have hnd := h.nodup
    obtain ⟨hp, ha, _, _, _, _, _, nb', hnb', _, h⟩ := h
    rw [hnb] at hnb'
    cases hnb'
    simp only [List.nil_append, addrs_cons, List.nodup_cons, List.mem_cons, not_or] at hnd
    obtain ⟨⟨hab, hal⟩, hbl, -⟩ := hnd
    refine ⟨hp, ha, n, ?_, hx, ?_⟩
    · rw [Mem.free_ne hab, Mem.set_same]
    · rw [hnext]
      apply h.frame
      intro c hc
      rw [Mem.free_ne (ne_of_mem_of_not_mem hc hbl), Mem.set_ne (ne_of_mem_of_not_mem hc hal)]
  | (c, z) :: l₁, l₂, p, a, b, x, y, h, n, nb, hnb, hnext, hx => by
    have hnd := (List.nodup_cons.1 h.nodup).1
    have hca : c ≠ a := fun he => hnd (by simp [he])
    have hcb : c ≠ b := fun he => hnd (by simp [he])
    obtain ⟨hp, hc, nc, hnc, hz, h⟩ := h
    refine ⟨hp, hc, nc, ?_, hz, h.unlink hnb hnext hx⟩
    rw [Mem.free_ne hcb, Mem.set_ne hca, hnc]

end NodeMem
