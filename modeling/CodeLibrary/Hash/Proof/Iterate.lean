import Mathlib.Data.List.Range
import CodeLibrary.Hash.Proof.Refine

/-!
# Iteration over a hash table

* `rest`: the addresses in the chains from a bucket on, in the order of the table.
* `firstFrom_spec`, `hashNextItem_spec`: a call of `hash_next_item` leads to the first of those, or
  to the next in the chain, or tells that there is none.
* `follows_rest`: so the calls go through all of them (`Follows`).
* `hashNextItem_visits_all`: on the table of `addr_hash_create`, after any calls.
-/

namespace Hash

open NodeMem

variable {κ ρ : Type} {ops : KeyOps κ} {h : HashType κ ρ} {b : Nat → List (Entry κ ρ)} {fuel : Nat}

/-- The answer that leads to the first of some addresses. -/
def toFirst : List Nat → Nat × HashStatus
  | [] => (0, .keyNotFound)
  | a :: _ => (a, .ok)

/-- The calls from `p` on lead through the addresses, and then tell that there are no more. -/
def Follows (ops : KeyOps κ) (h : HashType κ ρ) : Nat → List Nat → Prop
  | p, [] => hashNextItem ops h p = some (toFirst [])
  | p, a :: l => hashNextItem ops h p = some (toFirst (a :: l)) ∧ Follows ops h a l

/-- The addresses in the chains from bucket `i` on. -/
def rest (h : HashType κ ρ) (b : Nat → List (Entry κ ρ)) (i : Nat) : List Nat :=
  (List.range' i (h.size - i)).flatMap fun j => addrs (b j)

/-- The loop of a caller stops behind the addresses, with the cursor `NULL`. -/
theorem Follows.returns : ∀ {l : List Nat} {p : Nat} (visited : List Nat), Follows ops h p l →
    Loop.Returns (iterStep ops h) (p, visited) (some (0, .keyNotFound, visited ++ l))
  | [], p, visited, hl => by
    have hcall : hashNextItem ops h p = some (0, .keyNotFound) := hl
    apply Loop.Returns.done
    rw [iterStep, hcall, List.append_nil]
  | a :: l, p, visited, hl => by
    obtain ⟨hcall, hl⟩ := hl
    have hcall : hashNextItem ops h p = some (a, .ok) := hcall
    have hrest := hl.returns (visited ++ [a])
    rw [List.append_assoc, List.singleton_append] at hrest
    refine .next ?_ hrest
    rw [iterStep, hcall]

/-! ## The buckets in turn -/

theorem rest_size (h : HashType κ ρ) (b : Nat → List (Entry κ ρ)) : rest h b h.size = [] := by
  simp [rest]

theorem rest_eq {i : Nat} (hi : i < h.size) : rest h b i = addrs (b i) ++ rest h b (i + 1) := by
  obtain ⟨k, hk⟩ : ∃ k, h.size - i = k + 1 := ⟨h.size - i - 1, by omega⟩
  have hk' : h.size - (i + 1) = k := by omega
  rw [rest, rest, hk, hk', List.range'_succ, List.flatMap_cons]

/-- The first address from a bucket on is the first of some bucket. -/
theorem rest_cons {a : Nat} {l : List Nat} :
    ∀ {i : Nat}, i ≤ h.size → rest h b i = a :: l →
      ∃ j < h.size, ∃ x l', b j = (a, x) :: l' ∧ l = addrs l' ++ rest h b (j + 1) := by
  intro i hi hl
  induction hn : h.size - i generalizing i with
  | zero =>
    obtain rfl : i = h.size := by omega
    rw [rest_size] at hl
    cases hl
  | succ n ih =>
    have hlt : i < h.size := by omega
    rw [rest_eq hlt] at hl
    cases hb : b i with
    | nil =>
      rw [hb] at hl
      exact ih hlt hl (by omega)
    | cons e l' =>
      obtain ⟨a', x⟩ := e
      rw [hb] at hl
      obtain ⟨rfl, rfl⟩ := List.cons.inj hl
      exact ⟨i, hlt, x, l', hb, rfl⟩

section
variable (hr : Represents ops h b)
include hr

/-- The loop over the rows stops at the first bucket that is not empty. -/
theorem run_rowStep {i n : Nat} (hi : i ≤ h.size) (hn : h.size - i < n) :
    ∃ j, Loop.run (rowStep h) n i = some j ∧
      (j = h.size ∧ rest h b i = [] ∨ j < h.size ∧ ∃ l, rest h b i = h.table j :: l) := by
  induction n generalizing i with
  | zero => omega
  | succ n ih =>
    by_cases hlt : i < h.size
    · have hchain := hr.chain i hlt
      rw [rest_eq hlt]
      cases hb : b i with
      | nil =>
        rw [hb] at hchain
        have h0 : h.table i = 0 := hchain
        rw [Loop.run, rowStep, if_pos ⟨hlt, h0⟩]
        exact ih hlt (by omega)
      | cons e l =>
        obtain ⟨a, x⟩ := e
        rw [hb] at hchain
        obtain ⟨htable, ha, -⟩ := hchain
        rw [Loop.run, rowStep, if_neg fun h0 => ha (htable ▸ h0.2)]
        exact ⟨i, rfl, .inr ⟨hlt, addrs l ++ rest h b (i + 1), by rw [htable]; rfl⟩⟩
    · obtain rfl : i = h.size := by omega
      rw [Loop.run, rowStep, if_neg fun h0 => hlt h0.1]
      exact ⟨_, rfl, .inl ⟨rfl, rest_size h b⟩⟩

theorem firstFrom_spec {i : Nat} (hi : i ≤ h.size) :
    firstFrom h i = some (toFirst (rest h b i)) := by
  have hneg : ¬((i : Int) < 0) := by omega
  obtain ⟨j, hrun, hj⟩ := run_rowStep hr hi (Nat.lt_succ_of_le (Nat.sub_le h.size i))
  rw [firstFrom, if_neg hneg, Int.toNat_natCast]
  simp only [hrun, Option.bind_eq_bind, Option.bind_some]
  obtain ⟨rfl, hnil⟩ | ⟨hlt, l, hl⟩ := hj
  · rw [if_pos rfl, hnil]
    rfl
  · rw [if_neg (Nat.ne_of_lt hlt), if_pos hlt, hl]
    rfl

/-- A call at a node: on to the next in its chain, or to the buckets after its own. -/
theorem hashNextItem_spec (hops : ops.Lawful h.size) {i p : Nat} (hi : i < h.size)
    {l₁ l₂ : List (Entry κ ρ)} {x : κ × ρ} (hb : b i = l₁ ++ (p, x) :: l₂) :
    hashNextItem ops h p = some (toFirst (addrs l₂ ++ rest h b (i + 1))) := by
  have hchain := hr.chain i hi
  rw [hb] at hchain
  obtain ⟨-, hp, n, hn, hx, hnext⟩ := hchain.of_append
  rw [hashNextItem, if_pos hp, hn]
  simp only [Option.bind_eq_bind, Option.bind_some]
  cases l₂ with
  | nil =>
    have h0 : n.next = 0 := hnext
    have hkey : n.key = x.1 := by rw [← hx]; rfl
    have hhome : ops.bucket x.1 = i := hr.home i hi (p, x) (by rw [hb]; simp)
    have hrange := hops.range x.1
    have hhash : ops.hash n.key + 1 = ((i + 1 : Nat) : Int) := by
      rw [hkey, ← hhome, KeyOps.bucket]
      omega
    rw [if_neg (by simp [h0]), hhash]
    exact firstFrom_spec hr hi
  | cons e l =>
    obtain ⟨a, y⟩ := e
    obtain ⟨rfl, ha, -⟩ := hnext
    rw [if_pos ha]
    rfl

/-- From a node the calls go through the rest of its chain and the buckets after it. -/
theorem follows_node (hops : ops.Lawful h.size) : ∀ {l : List Nat} {i p : Nat}
    {l₁ l₂ : List (Entry κ ρ)} {x : κ × ρ}, i < h.size → b i = l₁ ++ (p, x) :: l₂ →
    l = addrs l₂ ++ rest h b (i + 1) → Follows ops h p l
  | [], i, p, l₁, l₂, x, hi, hb, hl => by
    rw [Follows, hl]
    exact hashNextItem_spec hr hops hi hb
  | a :: l, i, p, l₁, l₂, x, hi, hb, hl => by
    refine ⟨by rw [hl]; exact hashNextItem_spec hr hops hi hb, ?_⟩
    cases l₂ with
    | nil =>
      obtain ⟨j, hj, y, l', hbj, hl'⟩ := rest_cons (by omega) hl.symm
      exact follows_node hops hj (hbj.trans (List.nil_append _).symm) hl'
    | cons e l₂ =>
      obtain ⟨a', y⟩ := e
      obtain ⟨rfl, rfl⟩ := List.cons.inj hl
      have hnext : b i = (l₁ ++ [(p, x)]) ++ (a, y) :: l₂ := by
        rw [hb, List.append_assoc, List.singleton_append]
      exact follows_node hops hi hnext rfl

/-- From `NULL` the calls go through all buckets. -/
theorem follows_rest (hops : ops.Lawful h.size) : Follows ops h 0 (rest h b 0) := by
  have hfirst : hashNextItem ops h 0 = some (toFirst (rest h b 0)) := by
    rw [hashNextItem, if_neg (by simp)]
    exact firstFrom_spec hr (Nat.zero_le _)
  cases hl : rest h b 0 with
  | nil => rwa [hl] at hfirst
  | cons a l =>
    rw [hl] at hfirst
    obtain ⟨j, hj, y, l', hbj, hl'⟩ := rest_cons (Nat.zero_le _) hl
    exact ⟨hfirst, follows_node hr hops hj (hbj.trans (List.nil_append _).symm) hl'⟩

theorem mem_rest (p : Nat) : p ∈ rest h b 0 ↔ (h.nodes p).isSome := by
  simp only [rest, List.mem_flatMap, List.mem_range'_1, Nat.sub_zero, Nat.zero_add]
  constructor
  · intro hp
    obtain ⟨i, ⟨-, hi⟩, hp⟩ := hp
    exact ((hr.chain i hi).mem hp).2
  · intro hp
    obtain ⟨n, hn⟩ := Option.isSome_iff_exists.1 hp
    obtain ⟨i, hi, hp⟩ := hr.all p n hn
    exact ⟨i, ⟨Nat.zero_le i, hi⟩, hp⟩

theorem rest_nodup : (rest h b 0).Nodup := by
  rw [rest, List.nodup_flatMap]
  refine ⟨fun i hi => ?_, ?_⟩
  · exact (hr.chain i (by have := List.mem_range'_1.1 hi; omega)).nodup
  · have hrange : (List.range' 0 (h.size - 0)).Pairwise (· ≠ ·) :=
      List.nodup_range' 1 Nat.one_pos
    apply hrange.imp_of_mem
    intro i j hi hj hne p hpi hpj
    have hi := List.mem_range'_1.1 hi
    have hj := List.mem_range'_1.1 hj
    exact hne (hr.apart (by omega) (by omega) hpi hpj)

end

/-- **Iteration**: after any calls on a table of `addr_hash_create`, calling `hash_next_item` from
`NULL` until it returns `HASH_STATUS_KEY_NOT_FOUND` sets the cursor to every node once, as many
times as there are nodes, and leaves it `NULL`; no bucket outside the array is read. -/
theorem hashNextItem_visits_all {ρ : Type} {fuel : Nat} {calls : List (Call AddrPair ρ)}
    {h : HashType AddrPair ρ} {answers : List (Answer ρ)} (hf : calls.length < fuel)
    (hrun : Calls addrOps fuel addrHashCreate calls h answers) :
    ∃ visited : List Nat, visited.Nodup ∧ (∀ p, p ∈ visited ↔ (h.nodes p).isSome) ∧
      ∀ r, Loop.Returns (iterStep addrOps h) (0, []) r ↔
        r = some (0, .keyNotFound, visited) := by
  obtain ⟨-, hs⟩ := calls_spec addrOps_lawful hrun (Nat.le_of_lt hf)
  obtain ⟨hsize, b, hr, -, -⟩ := hs
  have hops : addrOps.Lawful h.size := hsize ▸ addrOps_lawful
  have hret := (follows_rest hr hops).returns []
  refine ⟨rest h b 0, rest_nodup hr, mem_rest hr, fun r => ⟨fun h' => h'.det hret, fun h' => ?_⟩⟩
  rw [h']
  exact hret

/-- Two nodes of one key and one of another, the one inserted last deleted. -/
theorem hashNextItem_visits_http : ∃ (h : HashType AddrPair Nat) (visited : List Nat),
    Calls addrOps 5 addrHashCreate
      [.insert 8 http 1, .insert 9 http 2, .insert 7 ⟨6, 81, 1, 81, 2⟩ 3, .delete http] h
      [.status .ok, .status .ok, .status .ok, .status .ok] ∧
    visited.Nodup ∧ 7 ∈ visited ∧ 8 ∈ visited ∧
    Loop.Returns (iterStep addrOps h) (0, []) (some (0, .keyNotFound, visited)) := by
  have h1 : Calls addrOps 5 addrHashCreate [.insert 8 http 1] _ [.status .ok] :=
    .snoc .nil ⟨by decide, rfl⟩ rfl
  have h2 : Calls addrOps 5 addrHashCreate [.insert 8 http 1, .insert 9 http 2] _
    [.status .ok, .status .ok] := .snoc h1 ⟨by decide, rfl⟩ rfl
  have h3 : Calls addrOps 5 addrHashCreate
    [.insert 8 http 1, .insert 9 http 2, .insert 7 ⟨6, 81, 1, 81, 2⟩ 3] _
    [.status .ok, .status .ok, .status .ok] := .snoc h2 ⟨by decide, rfl⟩ rfl
  have h4 : Calls addrOps 5 addrHashCreate
    [.insert 8 http 1, .insert 9 http 2, .insert 7 ⟨6, 81, 1, 81, 2⟩ 3, .delete http] _
    [.status .ok, .status .ok, .status .ok, .status .ok] := .snoc h3 trivial rfl
  obtain ⟨visited, hnodup, hmem, hret⟩ := hashNextItem_visits_all (by decide) h4
  exact ⟨_, visited, h4, hnodup, (hmem 7).2 rfl, (hmem 8).2 rfl, (hret _).2 rfl⟩

end Hash
