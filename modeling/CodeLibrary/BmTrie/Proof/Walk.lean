import CodeLibrary.BmTrie.Proof.Words

/-!
# The walk down the trie

* `dataAt_matchCurrentNode`: the walk records the position in every node whose word it reads, and
  changes nothing else.
* `matchCurrentNode_fst`: the steps, whether the walk falls off the trie or not.
* `Recorded P text root V`: the trie after the walks from the alignments `V`.
-/

namespace BmTrie

/-- The text before index `n`, read backwards, begins with the path. -/
def Reads (text : JString) : Nat → JString → Prop
  | _, [] => True
  | 0, _ :: _ => False
  | n + 1, c :: cs => text.getD n 0 = c ∧ Reads text n cs

theorem reads_iff {text : JString} : ∀ {n : Nat} {π : JString}, n ≤ text.length →
    (Reads text n π ↔ π.length ≤ n ∧ ∀ j < π.length, text[n - 1 - j]? = π[j]?)
  | n, [], _ => by cases n <;> simp [Reads]
  | 0, c :: cs, _ => by simp [Reads]
  | n + 1, c :: cs, hn => by
    have hget : text[n]? = some (text.getD n 0) := by
      rw [List.getD_eq_getElem?_getD, List.getElem?_eq_getElem (by omega)]
      rfl
    rw [Reads, reads_iff (Nat.le_of_succ_le hn)]
    constructor
    · intro hx
      obtain ⟨rfl, hlen, h⟩ := hx
      refine ⟨by simpa using hlen, fun j hj => ?_⟩
      cases j with
      | zero => simpa using hget
      | succ j =>
        rw [List.length_cons] at hj
        rw [show n + 1 - 1 - (j + 1) = n - 1 - j by omega, h j (by omega)]
        rfl
    · intro hx
      obtain ⟨hlen, h⟩ := hx
      rw [List.length_cons] at hlen h
      refine ⟨?_, by omega, fun j hj => ?_⟩
      · have h0 := h 0 (by omega)
        rw [show n + 1 - 1 - 0 = n by omega, hget] at h0
        exact Option.some.inj h0
      · have := h (j + 1) (by omega)
        rwa [show n + 1 - 1 - (j + 1) = n - 1 - j by omega] at this

/-- A path is read from an alignment if its word ends there. -/
theorem reads_iff_endsAt {text : JString} {a : Nat} (ha : a < text.length) {π : JString} :
    Reads text (a + 1) π ↔ EndsAt π.reverse text a := by
  rw [reads_iff ha, endsAt_iff, List.length_reverse]
  refine and_congr_right fun _ => forall_congr' fun j => forall_congr' fun hj => ?_
  rw [List.getElem?_reverse (by omega), show π.length - 1 - (π.length - 1 - j) = j by omega]
  rfl

section
variable (text : JString) (a : Nat) (badCharacterMap : UInt16 → Option Nat)

theorem record_subNodeList (n : Nat) (node : BMTrieNode) :
    (node.record n).subNodeList = node.subNodeList := by
  cases node
  rfl

theorem dataAt_cons (node : BMTrieNode) (c : UInt16) (cs : JString) :
    node.dataAt (c :: cs) = (node.subNodeList.lookup c).bind (·.dataAt cs) := by
  cases node
  rfl

open Classical in
/-- What a walk does to the node at the end of a path. -/
noncomputable def NodeData.recordAt (n : Nat) (π : JString) (d : NodeData) : NodeData :=
  if π ≠ [] ∧ Reads text n π ∧ d.status = 1 then
    { d with matchPositionList := d.matchPositionList ++ [n - π.length] } else d

theorem recordAt_nil (n : Nat) (d : NodeData) : NodeData.recordAt text n [] d = d :=
  if_neg fun h => h.1 rfl

theorem map_recordAt {n : Nat} {π : JString} (h : ¬ Reads text n π) (o : Option NodeData) :
    o.map (NodeData.recordAt text n π) = o := by
  have : NodeData.recordAt text n π = id := by
    funext d
    exact if_neg fun h' => h h'.2.1
  rw [this, Option.map_id]
  rfl

theorem reads_cons {n : Nat} {c : UInt16} {cs : JString} :
    Reads text (n + 1) (c :: cs) ↔ text.getD n 0 = c ∧ Reads text n cs := Iff.rfl

/-- A node is recorded in before the walk goes on below it. -/
theorem data_record (n : Nat) (node : BMTrieNode) :
    (node.record n).data = NodeData.recordAt text (n + 1) [text.getD n 0] node.data := by
  cases node with
  | mk d sub =>
    have hr : Reads text (n + 1) [text.getD n 0] := ⟨rfl, by cases n <;> trivial⟩
    unfold NodeData.recordAt
    simp only [BMTrieNode.record, BMTrieNode.data, hr, ne_eq, List.cons_ne_nil, not_false_eq_true,
      true_and, List.length_singleton, Nat.add_sub_cancel]

open Classical in
/-- The walk records the position in the nodes whose word it reads. -/
theorem dataAt_matchCurrentNode : ∀ (n : Nat) (node : BMTrieNode) (π : JString),
    (node.matchCurrentNode text a badCharacterMap n).2.dataAt π =
      (node.dataAt π).map (NodeData.recordAt text n π)
  | 0, node, [] => by
    rw [BMTrieNode.matchCurrentNode, dataAt_nil, Option.map_some, recordAt_nil]
  | 0, node, c :: cs => by
    have hno : ¬ Reads text 0 (c :: cs) := fun h => h
    rw [BMTrieNode.matchCurrentNode, map_recordAt text hno]
  | n + 1, .mk data sub, [] => by
    rw [dataAt_nil, dataAt_nil, Option.map_some, recordAt_nil, BMTrieNode.matchCurrentNode]
    split
    · rfl
    · split <;> rfl
  | n + 1, .mk data sub, c :: cs => by
    rw [BMTrieNode.matchCurrentNode]
    split
    · -- a leaf
      rename_i hsub
      obtain rfl := List.eq_nil_of_length_eq_zero hsub
      rfl
    · rw [dataAt_cons (.mk data sub)]
      by_cases hc : c = text.getD n 0
      swap
      · have hno : ¬ Reads text (n + 1) (c :: cs) := fun h => hc ((reads_cons text).1 h).1.symm
        rw [map_recordAt text hno]
        split
        · rw [dataAt_cons]
          simp only [BMTrieNode.subNodeList, lookup_put, if_neg hc]
        · rw [dataAt_cons]
      · subst hc
        split
        · rename_i preNode hpre
          rw [dataAt_cons]
          simp only [BMTrieNode.subNodeList, lookup_put, ↓reduceIte, hpre, Option.bind_some]
          rw [dataAt_matchCurrentNode n (preNode.record n) cs]
          cases cs with
          | nil =>
            -- the node itself
            rw [dataAt_nil, dataAt_nil, Option.map_some, Option.map_some, recordAt_nil,
              data_record text]
          | cons d ds =>
            rw [dataAt_cons, dataAt_cons, record_subNodeList]
            congr 1
            funext x
            unfold NodeData.recordAt
            refine if_congr ?_ ?_ rfl
            · simp [reads_cons]
            · rw [List.length_cons, List.length_cons, List.length_cons, Nat.add_sub_add_right]
        · rename_i hnone
          rw [dataAt_cons]
          simp only [BMTrieNode.subNodeList, hnone, Option.bind_none, Option.map_none]

theorem matchCurrentNode_ok : ∀ (n : Nat) {node : BMTrieNode}, node.Ok →
    (node.matchCurrentNode text a badCharacterMap n).2.Ok
  | 0, _, h => h
  | n + 1, .mk data sub, .mk hn h => by
    rw [BMTrieNode.matchCurrentNode]
    split
    · exact .mk hn h
    · split
      · rename_i preNode hpre
        refine ok_put hn h (matchCurrentNode_ok n ?_)
        have := h _ (lookup_mem hpre)
        cases preNode with
        | mk d sub' =>
          cases this with
          | mk hn' h' => exact .mk hn' h'
      · exact .mk hn h

/-- The walk from before index `n` comes to a node that has children, but none for the character
there. -/
def Falls (n : Nat) (node : BMTrieNode) : Prop :=
  ∃ π c, Reads text n (π ++ [c]) ∧ (∃ d, node.dataAt (π ++ [d]) ≠ none) ∧
    node.dataAt (π ++ [c]) = none

theorem falls_zero (node : BMTrieNode) : ¬ Falls text 0 node := by
  intro hx
  obtain ⟨π, c, h, -⟩ := hx
  cases π <;> exact h

theorem falls_leaf (n : Nat) (data : NodeData) : ¬ Falls text n (.mk data []) := by
  intro h
  obtain ⟨π, c, -, ⟨d, hd⟩, -⟩ := h
  cases π <;> simp [BMTrieNode.dataAt] at hd

theorem falls_none {n : Nat} {data : NodeData} {sub : List (UInt16 × BMTrieNode)} (hne : sub ≠ [])
    (h : sub.lookup (text.getD n 0) = none) : Falls text (n + 1) (.mk data sub) := by
  refine ⟨[], text.getD n 0, ⟨rfl, ?_⟩, ?_, ?_⟩
  · cases n <;> trivial
  · obtain ⟨⟨d, node⟩, rest, rfl⟩ := List.exists_cons_of_ne_nil hne
    refine ⟨d, ?_⟩
    simp [BMTrieNode.dataAt, dataAt_nil]
  · rw [List.nil_append, BMTrieNode.dataAt, h, Option.bind_none]

theorem falls_child {n : Nat} {data : NodeData} {sub : List (UInt16 × BMTrieNode)}
    {preNode : BMTrieNode} (h : sub.lookup (text.getD n 0) = some preNode) :
    Falls text (n + 1) (.mk data sub) ↔ Falls text n (preNode.record n) := by
  have hdata : ∀ (π : JString) (c : UInt16),
      (preNode.record n).dataAt (π ++ [c]) = preNode.dataAt (π ++ [c]) := by
    rintro (_ | ⟨e, π⟩) c
    · rw [List.nil_append, dataAt_cons, dataAt_cons, record_subNodeList]
    · rw [List.cons_append, dataAt_cons, dataAt_cons, record_subNodeList]
  unfold Falls
  simp only [hdata]
  constructor
  · intro hx
    obtain ⟨_ | ⟨e, π⟩, c, hr, ⟨d, hd⟩, hc⟩ := hx
    · -- the first character has a child
      obtain ⟨rfl, -⟩ := hr
      rw [List.nil_append, BMTrieNode.dataAt, h, Option.bind_some, dataAt_nil] at hc
      cases hc
    · obtain ⟨rfl, hr⟩ := hr
      simp only [List.cons_append, BMTrieNode.dataAt, h, Option.bind_some] at hd hc
      exact ⟨π, c, hr, ⟨d, hd⟩, hc⟩
  · intro hx
    obtain ⟨π, c, hr, ⟨d, hd⟩, hc⟩ := hx
    refine ⟨text.getD n 0 :: π, c, ⟨rfl, hr⟩, ⟨d, ?_⟩, ?_⟩
    · rwa [List.cons_append, BMTrieNode.dataAt, h, Option.bind_some]
    · rwa [List.cons_append, BMTrieNode.dataAt, h, Option.bind_some]

/-- The steps: those of the next character if the walk falls off the trie, else one. -/
theorem matchCurrentNode_fst : ∀ (n : Nat) (node : BMTrieNode),
    (Falls text n node → (node.matchCurrentNode text a badCharacterMap n).1 =
      if a + 1 ≥ text.length then some 1 else badCharacterMap (text.getD (a + 1) 0)) ∧
    (¬ Falls text n node → (node.matchCurrentNode text a badCharacterMap n).1 = some 1)
  | 0, node => ⟨fun h => absurd h (falls_zero text node), fun _ => rfl⟩
  | n + 1, .mk data sub => by
    rw [BMTrieNode.matchCurrentNode]
    split
    · rename_i hsub
      obtain rfl := List.eq_nil_of_length_eq_zero hsub
      exact ⟨fun h => absurd h (falls_leaf text (n + 1) data), fun _ => rfl⟩
    · rename_i hsub
      split
      · rename_i preNode hpre
        rw [falls_child text hpre]
        exact matchCurrentNode_fst n (preNode.record n)
      · rename_i hnone
        have hne : sub ≠ [] := fun h => hsub (by rw [h]; rfl)
        exact ⟨fun _ => rfl, fun h => absurd (falls_none text hne hnone) h⟩

end

end BmTrie
