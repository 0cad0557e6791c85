import Mathlib.Tactic.Tauto
import CodeLibrary.Hash.Proof.Chains

/-!
# A hash table is a map to stacks

* `insert_spec`, `delete_spec`, `find_spec`, `deleteAll_spec`: each call on a table that holds some
  chains answers as the stacks do, and holds the chains of the stacks after the call.
* `calls_spec`: so do any number of them.
* `addrHash_refines`: the table of `addr_hash_create`, for `addr_pair` keys.
-/

namespace Hash

open NodeMem

variable {κ ρ : Type} {ops : KeyOps κ} {h : HashType κ ρ} {b : Nat → List (Entry κ ρ)} {fuel : Nat}

section
variable (hops : ops.Lawful h.size)
include hops

theorem bucketOf_eq (key : κ) : bucketOf ops h key = some (ops.bucket key) := by
  rw [bucketOf, if_pos (hops.range key)]
  rfl

theorem bucket_lt (key : κ) : ops.bucket key < h.size := by
  have := hops.range key
  rw [KeyOps.bucket]
  omega

theorem bucket_congr {a a' : κ} (hc : ops.compare a a' = true) : ops.bucket a = ops.bucket a' := by
  rw [KeyOps.bucket, hops.hash a a' hc, ← KeyOps.bucket]

/-- The chains change in one bucket, its records those of one key. -/
theorem toStacks_update {key : κ} {l : List (Entry κ ρ)} {f : List ρ → List ρ}
    (hl : ∀ k, recordsOf ops k l = if ops.compare key k then
      f (recordsOf ops k (b (ops.bucket key))) else recordsOf ops k (b (ops.bucket key))) :
    toStacks ops (Function.update b (ops.bucket key) l) = (toStacks ops b).modify ops key f := by
  funext k
  rw [toStacks, Stacks.modify, toStacks]
  by_cases hk : ops.bucket k = ops.bucket key
  · rw [hk, Function.update_self, hl]
  · rw [Function.update_of_ne hk, if_neg fun hc => hk (bucket_congr hops hc).symm]

end

namespace Represents

variable (hr : Represents ops h b)
include hr

/-- An address is in one bucket only. -/
theorem apart {i j p : Nat} (hi : i < h.size) (hj : j < h.size) (hpi : p ∈ addrs (b i))
    (hpj : p ∈ addrs (b j)) : i = j := by
  obtain ⟨⟨_, x⟩, hx, rfl⟩ := List.mem_map.1 hpi
  obtain ⟨⟨_, y⟩, hy, hp⟩ := List.mem_map.1 hpj
  dsimp only at hp
  subst hp
  obtain ⟨l₁, l₂, hl⟩ := List.append_of_mem hx
  obtain ⟨l₃, l₄, hl'⟩ := List.append_of_mem hy
  have hci := hr.chain i hi
  have hcj := hr.chain j hj
  rw [hl] at hci
  rw [hl'] at hcj
  have he := hci.of_append.det hcj.of_append
  have hxy : x = y := congrArg Prod.snd (List.cons.inj he).1
  have h1 := hr.home i hi _ hx
  have h2 := hr.home j hj _ hy
  rw [← h1, ← h2, hxy]

/-- A node is put in front of bucket `i`. -/
theorem insert {i p : Nat} (hi : i < h.size) {n : HashNode κ ρ} (hp : p ≠ 0)
    (hfree : h.nodes p = none) (hnext : n.next = h.table i) (hkey : ops.bucket n.key = i) :
    Represents ops
      { h with table := Function.update h.table i p, nodes := h.nodes.set p n }
      (Function.update b i ((p, n.entry) :: b i)) := by
  have hnot : ∀ j < h.size, p ∉ addrs (b j) := fun j hj hm => by
    have := ((hr.chain j hj).mem hm).2
    rw [hfree] at this
    cases this
  refine ⟨fun j hj => ?_, fun j hj e he => ?_, fun q x hq => ?_⟩
  · by_cases hji : j = i
    · subst hji
      dsimp only
      rw [Function.update_self, Function.update_self]
      exact (hr.chain j hj).push hp (hnot j hj) hnext
    · dsimp only
      rw [Function.update_of_ne hji, Function.update_of_ne hji]
      exact (hr.chain j hj).frame fun a ha => Mem.set_ne (ne_of_mem_of_not_mem ha (hnot j hj)) n
  · by_cases hji : j = i
    · subst hji
      rw [Function.update_self] at he
      rcases List.mem_cons.1 he with rfl | he
      · exact hkey
      · exact hr.home j hj e he
    · rw [Function.update_of_ne hji] at he
      exact hr.home j hj e he
  · by_cases hqp : q = p
    · subst hqp
      exact ⟨i, hi, by rw [Function.update_self]; exact List.mem_cons_self⟩
    · dsimp only at hq
      rw [Mem.set_ne hqp] at hq
      obtain ⟨j, hj, hm⟩ := hr.all q x hq
      refine ⟨j, hj, ?_⟩
      by_cases hji : j = i
      · subst hji
        rw [Function.update_self]
        exact List.mem_cons_of_mem p hm
      · rwa [Function.update_of_ne hji]

/-- The node of `e` is taken out of bucket `i`, by changing nothing but the bucket and its nodes. -/
theorem remove {i : Nat} (hi : i < h.size) {l₁ l₂ : List (Entry κ ρ)} {e : Entry κ ρ}
    (hb : b i = l₁ ++ e :: l₂) {table : Nat → Nat} {nodes : Mem (HashNode κ ρ)}
    (htable : ∀ j, j ≠ i → table j = h.table j)
    (hchain : Chain HashNode.next HashNode.entry nodes (table i) (l₁ ++ l₂))
    (hgone : nodes e.1 = none) (hframe : ∀ a, a ∉ addrs (b i) → nodes a = h.nodes a) :
    Represents ops { h with table := table, nodes := nodes }
      (Function.update b i (l₁ ++ l₂)) := by
  refine ⟨fun j hj => ?_, fun j hj x hx => ?_, fun q x hq => ?_⟩
  · by_cases hji : j = i
    · subst hji
      rw [Function.update_self]
      exact hchain
    · dsimp only
      rw [Function.update_of_ne hji, htable j hji]
      exact (hr.chain j hj).frame fun a ha => hframe a fun hai => hji (hr.apart hj hi ha hai)
  · by_cases hji : j = i
    · subst hji
      rw [Function.update_self] at hx
      apply hr.home j hj x
      rw [hb]
      rcases List.mem_append.1 hx with hx | hx
      · exact List.mem_append_left _ hx
      · exact List.mem_append_right _ (List.mem_cons_of_mem e hx)
    · rw [Function.update_of_ne hji] at hx
      exact hr.home j hj x hx
  · dsimp only at hq
    by_cases hqi : q ∈ addrs (b i)
    · refine ⟨i, hi, ?_⟩
      rw [Function.update_self]
      have hqe : q ≠ e.1 := fun he => by
        rw [he, hgone] at hq
        cases hq
      rw [hb, addrs_append, addrs_cons, List.mem_append, List.mem_cons] at hqi
      rw [addrs_append, List.mem_append]
      tauto
    · rw [hframe q hqi] at hq
      obtain ⟨j, hj, hm⟩ := hr.all q x hq
      have hji : j ≠ i := fun he => hqi (he ▸ hm)
      exact ⟨j, hj, by rwa [Function.update_of_ne hji]⟩

end Represents

/-! ## The calls -/

section
variable (hops : ops.Lawful h.size) (hr : Represents ops h b)
include hops hr

theorem insert_spec {p : Nat} (key : κ) (record : ρ) (hp : p ≠ 0) (hfree : h.nodes p = none) :
    ∃ h', hashInsert ops h p key record = some (h', .ok) ∧ h'.size = h.size ∧
      Represents ops h'
        (Function.update b (ops.bucket key) ((p, key, record) :: b (ops.bucket key))) := by
  refine ⟨_, ?_, ?_, hr.insert (bucket_lt hops key) hp hfree (n := ⟨_, key, record⟩) rfl rfl⟩
  · rw [hashInsert, bucketOf_eq hops]
    rfl
  · rfl

omit hr in
/-- The rest of `hash_delete`, after the walk. -/
theorem hashDelete_of_walk {key : κ} {r : Nat × Nat}
    (hw : walk ops fuel h.nodes key (h.table (ops.bucket key)) = some r) :
    hashDelete ops fuel h key = (do
      if r.2 = 0 then return (h, .keyNotFound)
      let n ← h.nodes r.2
      if r.1 ≠ 0 then
        let n0 ← h.nodes r.1
        return ({ h with nodes := (h.nodes.set r.1 { n0 with next := n.next }).free r.2 }, .ok)
      else
        return ({ h with
          table := Function.update h.table (ops.bucket key) n.next
          nodes := h.nodes.free r.2 }, .ok)) := by
  rw [hashDelete, bucketOf_eq hops]
  show (walk ops fuel h.nodes key (h.table (ops.bucket key)) >>= _) = _
  rw [hw]
  rfl

/-- `hash_delete` at the node the walk found. -/
theorem delete_at {key : κ} {l₁ l₂ : List (Entry κ ρ)} {e : Entry κ ρ}
    (hl : b (ops.bucket key) = l₁ ++ e :: l₂)
    (hw : walk ops fuel h.nodes key (h.table (ops.bucket key)) = some (lastAddr 0 l₁, e.1)) :
    ∃ table nodes, hashDelete ops fuel h key = some ({ h with table, nodes }, .ok) ∧
      (∀ j, j ≠ ops.bucket key → table j = h.table j) ∧
      Chain HashNode.next HashNode.entry nodes (table (ops.bucket key)) (l₁ ++ l₂) ∧
      nodes e.1 = none ∧ ∀ a, a ∉ addrs (b (ops.bucket key)) → nodes a = h.nodes a := by
  have hchain := hr.chain _ (bucket_lt hops key)
  rw [hl] at hchain
  obtain ⟨-, he0, n, hn, -, -⟩ := hchain.of_append
  rw [hashDelete_of_walk hops hw, hl]
  dsimp only
  rw [if_neg he0, hn]
  rcases List.eq_nil_or_concat' l₁ with rfl | ⟨l, ⟨a, x⟩, rfl⟩
  · obtain ⟨n', hn', hpop⟩ := hchain.pop
    rw [hn] at hn'
    cases hn'
    refine ⟨_, _, rfl, fun j hj => Function.update_of_ne hj .., ?_, Mem.free_same ..,
      fun a ha => ?_⟩
    · rw [Function.update_self]
      exact hpop
    · exact Mem.free_ne fun h => ha (by simp [h])
  · rw [List.append_assoc, List.singleton_append] at hchain
    obtain ⟨-, ha0, n0, hn0, hx, -⟩ := hchain.of_append
    rw [lastAddr_concat]
    simp only [Option.bind_eq_bind, Option.bind_some]
    rw [if_pos ha0, hn0]
    refine ⟨_, _, rfl, fun _ _ => rfl, ?_, Mem.free_same .., fun c hc => ?_⟩
    · rw [List.append_assoc, List.singleton_append]
      exact hchain.unlink hn rfl hx
    · rw [Mem.free_ne fun h => hc (by simp [h]), Mem.set_ne fun h => hc (by simp [h])]

theorem delete_spec (key : κ) (hf : ∀ i < h.size, (b i).length < fuel) :
    (toStacks ops b key = [] ∧ hashDelete ops fuel h key = some (h, .keyNotFound)) ∨
      ∃ h' l, toStacks ops b key ≠ [] ∧ hashDelete ops fuel h key = some (h', .ok) ∧
        h'.size = h.size ∧ Represents ops h' (Function.update b (ops.bucket key) l) ∧
        l.length ≤ (b (ops.bucket key)).length ∧
        toStacks ops (Function.update b (ops.bucket key) l) =
          (toStacks ops b).modify ops key List.tail := by
  have hi := bucket_lt hops key
  obtain ⟨r, hw, hs⟩ := walk_spec key (hr.chain _ hi) (hf _ hi)
  cases hs with
  | behind hnone =>
    refine .inl ⟨recordsOf_eq_nil hnone, ?_⟩
    rw [hashDelete_of_walk hops hw]
    rfl
  | @«at» l₁ l₂ e hl hnone hk =>
    obtain ⟨table, nodes, hrun, htable, hchain, hgone, hframe⟩ := delete_at hops hr hl hw
    refine .inr ⟨_, l₁ ++ l₂, ?_, hrun, rfl, hr.remove hi hl htable hchain hgone hframe, ?_, ?_⟩
    · rw [toStacks, hl, recordsOf_at hnone hk]
      exact List.cons_ne_nil _ _
    · rw [hl, List.length_append, List.length_append, List.length_cons]
      omega
    · apply toStacks_update hops
      intro k
      rw [hl]
      exact recordsOf_unlink hops hnone hk k

theorem find_spec (key : κ) (hf : ∀ i < h.size, (b i).length < fuel) :
    hashFind ops fuel h key = some (match toStacks ops b key with
      | [] => (.keyNotFound, none)
      | record :: _ => (.ok, some record)) := by
  have hi := bucket_lt hops key
  have hchain := hr.chain _ hi
  obtain ⟨r, hw, hs⟩ := walk_spec key hchain (hf _ hi)
  rw [hashFind, bucketOf_eq hops]
  show (walk ops fuel h.nodes key (h.table (ops.bucket key)) >>= _) = _
  rw [hw]
  cases hs with
  | behind hnone =>
    rw [toStacks, recordsOf_eq_nil hnone]
    rfl
  | @«at» l₁ l₂ e hl hnone hk =>
    rw [hl] at hchain
    obtain ⟨-, he0, n, hn, hx, -⟩ := hchain.of_append
    rw [toStacks, hl, recordsOf_at hnone hk, ← hx]
    show (if e.1 = 0 then _ else _) = _
    rw [if_neg he0, hn]
    rfl

end

/-- One bucket after the other is emptied. -/
theorem deleteBuckets_spec (hr : Represents ops h b) (hf : ∀ i < h.size, (b i).length < fuel) :
    ∀ k ≤ h.size, ∃ h', (List.range k).foldlM (deleteBucket fuel) h = some h' ∧
      h'.size = h.size ∧ Represents ops h' fun i => if i < k then [] else b i
  | 0, _ => ⟨h, rfl, rfl, by simpa using hr⟩
  | k + 1, hk => by
    obtain ⟨h₁, hrun, hsize, hr₁⟩ := deleteBuckets_spec hr hf k (Nat.le_of_succ_le hk)
    have hchain := hr₁.chain k (by omega)
    rw [if_neg (Nat.lt_irrefl k)] at hchain
    obtain ⟨nodes, hfree, hnodes⟩ := freeChain_spec (b k) hchain (hf k (by omega))
    refine ⟨{ h₁ with table := Function.update h₁.table k 0, nodes := nodes }, ?_, hsize, ?_⟩
    · rw [List.range_succ, List.foldlM_append, hrun]
      show (deleteBucket fuel h₁ k >>= _) = _
      rw [deleteBucket, hfree]
      rfl
    · have hdone : ∀ j, (if j < k + 1 then [] else b j) = if j = k then [] else
          if j < k then [] else b j := fun j => by
        split_ifs <;> first | rfl | omega
      refine ⟨fun j hj => ?_, fun j hj e he => ?_, fun p n hp => ?_⟩
      · dsimp only
        rw [hdone]
        by_cases hjk : j = k
        · rw [if_pos hjk, hjk, Function.update_self]
          rfl
        · rw [if_neg hjk, Function.update_of_ne hjk]
          apply (hr₁.chain j hj).frame
          intro a ha
          rw [hnodes, if_neg fun hak => ?_]
          split at ha
          · exact absurd ha List.not_mem_nil
          · exact hjk (hr.apart (by rw [← hsize]; exact hj) (by omega) ha hak)
      · split at he
        · exact absurd he List.not_mem_nil
        · exact hr.home j (by rw [← hsize]; exact hj) e he
      · dsimp only at hp ⊢
        rw [hnodes] at hp
        split at hp
        · cases hp
        · rename_i hpk
          obtain ⟨j, hj, hm⟩ := hr₁.all p n hp
          refine ⟨j, hj, ?_⟩
          rw [hdone, if_neg fun hjk => ?_]
          · exact hm
          · rw [hjk, if_neg (Nat.lt_irrefl k)] at hm
            exact hpk hm

theorem deleteAll_spec (hr : Represents ops h b) (hf : ∀ i < h.size, (b i).length < fuel) :
    ∃ h', hashDeleteAll fuel h = some h' ∧ h'.size = h.size ∧
      Represents ops h' fun _ => [] := by
  obtain ⟨h', hrun, hsize, hr'⟩ := deleteBuckets_spec hr hf h.size (Nat.le_refl _)
  refine ⟨h', hrun, hsize, fun i hi => ?_, fun i _ e he => absurd he List.not_mem_nil,
    fun p n hp => ?_⟩
  · have := hr'.chain i hi
    rwa [if_pos (by omega)] at this
  · obtain ⟨i, hi, hm⟩ := hr'.all p n hp
    rw [if_pos (by omega)] at hm
    exact absurd hm List.not_mem_nil

/-! ## Runs -/

/-- The state of a table and what the stacks are to be. -/
structure Refines (ops : KeyOps κ) (h : HashType κ ρ) (size n : Nat) (s : Stacks κ ρ) : Prop where
  size : h.size = size
  holds : ∃ b, Represents ops h b ∧ (∀ i < h.size, (b i).length ≤ n) ∧ toStacks ops b = s

theorem length_update {b : Nat → List (Entry κ ρ)} {i n : Nat} {l : List (Entry κ ρ)} {size : Nat}
    (hb : ∀ j < size, (b j).length ≤ n) (hl : l.length ≤ n + 1) :
    ∀ j < size, (Function.update b i l j).length ≤ n + 1 := by
  intro j hj
  by_cases hji : j = i
  · subst hji
    rwa [Function.update_self]
  · rw [Function.update_of_ne hji]
    exact Nat.le_succ_of_le (hb j hj)

/-- **One call** answers as the stacks do, and leaves a table of the stacks after the call. -/
theorem call_spec {size n : Nat} (hops : ops.Lawful size) {s : Stacks κ ρ} (hn : n < fuel)
    (hs : Refines ops h size n s) (c : Call κ ρ) (hc : c.Fresh h) :
    ∃ h', call ops fuel h c = some (h', (s.call ops c).2) ∧
      Refines ops h' size (n + 1) (s.call ops c).1 := by
  obtain ⟨rfl, b, hr, hlen, rfl⟩ := hs
  have hf : ∀ i < h.size, (b i).length < fuel := fun i hi => Nat.lt_of_le_of_lt (hlen i hi) hn
  cases c with
  | insert p key record =>
    have hi := bucket_lt hops key
    obtain ⟨h', hrun, hsize, hr'⟩ := insert_spec hops hr key record hc.1 hc.2
    refine ⟨h', by rw [call, hrun]; rfl, hsize, _, hr', ?_, ?_⟩
    · rw [hsize]
      apply length_update hlen
      have := hlen _ hi
      rw [List.length_cons]
      omega
    · apply toStacks_update hops
      intro k
      rw [recordsOf_cons]
  | delete key =>
    rcases delete_spec hops hr key hf with ⟨hnil, hrun⟩ | ⟨h', l, hne, hrun, hsize, hr', hl, hst⟩
    · rw [Stacks.call, if_pos hnil]
      exact ⟨h, by rw [call, hrun]; rfl, rfl, b, hr, fun i hi => Nat.le_succ_of_le (hlen i hi), rfl⟩
    · rw [Stacks.call, if_neg hne]
      refine ⟨h', by rw [call, hrun]; rfl, hsize, _, hr', ?_, hst⟩
      rw [hsize]
      apply length_update hlen
      have := hlen _ (bucket_lt hops key)
      omega
  | find key =>
    have hfind := find_spec hops hr key hf
    have hkeep : Refines ops h h.size (n + 1) (toStacks ops b) :=
      ⟨rfl, b, hr, fun i hi => Nat.le_succ_of_le (hlen i hi), rfl⟩
    rw [Stacks.call]
    cases hst : toStacks ops b key with
    | nil =>
      rw [hst] at hfind
      exact ⟨h, by rw [call, hfind]; rfl, hkeep⟩
    | cons record l =>
      rw [hst] at hfind
      exact ⟨h, by rw [call, hfind]; rfl, hkeep⟩
  | deleteAll =>
    obtain ⟨h', hrun, hsize, hr'⟩ := deleteAll_spec hr hf
    exact ⟨h', by rw [call, hrun]; rfl, hsize, _, hr', fun _ _ => Nat.zero_le _, rfl⟩

theorem refines_initialise (size : Nat) :
    Refines ops (hashInitialise size : HashType κ ρ) size 0 fun _ => [] :=
  ⟨rfl, fun _ => [], ⟨fun _ _ => rfl, fun _ _ _ he => absurd he List.not_mem_nil,
    fun _ _ hp => nomatch hp⟩, fun _ _ => Nat.le_refl 0, rfl⟩

theorem stacks_calls_concat (calls : List (Call κ ρ)) (c : Call κ ρ) :
    Stacks.calls ops (calls ++ [c]) = (((Stacks.calls ops calls).1.call ops c).1,
      (Stacks.calls ops calls).2 ++ [((Stacks.calls ops calls).1.call ops c).2]) := by
  rw [Stacks.calls, List.foldl_append]
  rfl

/-- Any number of calls. -/
theorem calls_spec {size : Nat} (hops : ops.Lawful size) {calls : List (Call κ ρ)}
    {answers : List (Answer ρ)} (hrun : Calls ops fuel (hashInitialise size) calls h answers)
    (hf : calls.length ≤ fuel) :
    answers = (Stacks.calls ops calls).2 ∧
      Refines ops h size calls.length (Stacks.calls ops calls).1 := by
  induction hrun with
  | nil => exact ⟨rfl, refines_initialise size⟩
  | @snoc calls h h' answers c a _ hfresh hcall ih =>
    rw [List.length_append, List.length_singleton] at hf
    have hlt : calls.length < fuel := by omega
    obtain ⟨ha, hs⟩ := ih (Nat.le_of_lt hlt)
    obtain ⟨h₁, hcall₁, hs₁⟩ := call_spec hops hlt hs c hfresh
    rw [hcall] at hcall₁
    cases hcall₁
    rw [stacks_calls_concat, ha, List.length_append]
    exact ⟨rfl, hs₁⟩

/-! ## `addr_pair` keys -/

theorem compare_iff {a b : AddrPair} : compare a b = true ↔ a = b := by
  obtain ⟨_, _, _, _, _⟩ := a
  obtain ⟨_, _, _, _, _⟩ := b
  simp only [compare, Bool.and_eq_true, beq_iff_eq, AddrPair.mk.injEq]
  tauto

theorem addrOps_lawful : addrOps.Lawful hashTableSize where
  refl _ := compare_iff.2 rfl
  symm _ _ h := compare_iff.2 (compare_iff.1 h).symm
  trans _ _ _ h h' := compare_iff.2 ((compare_iff.1 h).trans (compare_iff.1 h'))
  hash _ _ h := congrArg hash (compare_iff.1 h)
  range a := by
    simp only [addrOps, hash, hashTableSize]
    omega

/-- **An address table is a map to stacks**: after any calls on a table of `addr_hash_create`, with
any addresses from `xmalloc`, the answers are those of the stacks, the chains hold the stacks and
nothing else, each node in the bucket of its key in `[0, size)`, and every further call returns. -/
theorem addrHash_refines {ρ : Type} {fuel : Nat} {calls : List (Call AddrPair ρ)}
    {h : HashType AddrPair ρ} {answers : List (Answer ρ)} (hf : calls.length < fuel)
    (hrun : Calls addrOps fuel addrHashCreate calls h answers) :
    answers = (Stacks.calls addrOps calls).2 ∧ (∀ key, 0 ≤ hash key ∧ hash key < h.size) ∧
      (∃ b, Represents addrOps h b ∧ toStacks addrOps b = (Stacks.calls addrOps calls).1) ∧
      ∀ c : Call AddrPair ρ, c.Fresh h → (call addrOps fuel h c).isSome := by
  obtain ⟨ha, hs⟩ := calls_spec addrOps_lawful hrun (Nat.le_of_lt hf)
  refine ⟨ha, fun key => ?_, ?_, fun c hc => ?_⟩
  · rw [hs.size]
    exact addrOps_lawful.range key
  · obtain ⟨b, hr, -, hb⟩ := hs.holds
    exact ⟨b, hr, hb⟩
  · obtain ⟨h', hcall, -⟩ := call_spec addrOps_lawful hf hs c hc
    rw [hcall]
    rfl

/-- A connection. -/
def http : AddrPair := ⟨6, 80, 1, 81, 2⟩

/-- Two records of one key, the second deleted: the first is found. -/
theorem addrHash_refines_http : ∃ h : HashType AddrPair Nat,
    Calls addrOps 5 addrHashCreate [.insert 8 http 1, .insert 9 http 2, .delete http, .find http] h
      [.status .ok, .status .ok, .status .ok, .found .ok (some 1)] ∧
    ∃ b, Represents addrOps h b ∧ toStacks addrOps b = (Stacks.calls addrOps
      [.insert 8 http 1, .insert 9 http 2, .delete http, .find http]).1 := by
  have h1 : Calls addrOps 5 addrHashCreate [.insert 8 http 1] _ [.status .ok] :=
    .snoc .nil ⟨by decide, rfl⟩ rfl
  have h2 : Calls addrOps 5 addrHashCreate [.insert 8 http 1, .insert 9 http 2] _
    [.status .ok, .status .ok] := .snoc h1 ⟨by decide, rfl⟩ rfl
  have h3 : Calls addrOps 5 addrHashCreate [.insert 8 http 1, .insert 9 http 2, .delete http] _
    [.status .ok, .status .ok, .status .ok] := .snoc h2 trivial rfl
  have h4 : Calls addrOps 5 addrHashCreate
    [.insert 8 http 1, .insert 9 http 2, .delete http, .find http] _
    [.status .ok, .status .ok, .status .ok, .found .ok (some 1)] := .snoc h3 trivial rfl
  exact ⟨_, h4, (addrHash_refines (by decide) h4).2.2.1⟩

end Hash
