import CodeLibrary.BmTrie.Spec

/-!
# The words of the trie

`dataAt node path`: the data of the node at the end of a path, a word from its last character to its
first.

* `dataAt_addSubChar`, `dataAt_buildMatchStr`: what the two passes do to it; `dataAt_root`: the
  nodes of the trie are the suffixes of the patterns.
* `mem_nodes_iff`: the nodes met in a traversal are the ones at the end of a path, given that no two
  children have the same character (`BMTrieNode.Ok`).
-/

namespace BmTrie

/-! ## Maps that are iterated over -/

section
variable {β : Type} (c : UInt16) (b : β)

theorem lookup_put (d : UInt16) : ∀ l : List (UInt16 × β),
    (put c b l).lookup d = if d = c then some b else l.lookup d
  | [] => by
    rw [put, List.lookup_cons]
    by_cases h : d = c
    · rw [if_pos h, beq_iff_eq.2 h]
    · rw [if_neg h, beq_eq_false_iff_ne.2 h]
  | (e, b') :: l => by
    have ih := lookup_put d l
    rw [put]
    by_cases hec : e = c
    · subst hec
      rw [if_pos rfl, List.lookup_cons, List.lookup_cons]
      by_cases h : d = e
      · rw [if_pos h, beq_iff_eq.2 h]
      · rw [if_neg h, beq_eq_false_iff_ne.2 h]
    · rw [if_neg hec, List.lookup_cons, ih, List.lookup_cons]
      by_cases hde : d = e
      · subst hde
        simp only [beq_self_eq_true, if_neg hec]
      · rw [beq_eq_false_iff_ne.2 hde]

theorem mem_put {x : UInt16 × β} : ∀ {l : List (UInt16 × β)}, x ∈ put c b l → x = (c, b) ∨ x ∈ l
  | [], h => .inl (List.mem_singleton.1 h)
  | (d, b') :: l, h => by
    rw [put] at h
    split at h
    · rcases List.mem_cons.1 h with h | h
      · exact .inl h
      · exact .inr (.tail _ h)
    · rcases List.mem_cons.1 h with rfl | h
      · exact .inr (.head _)
      · rcases mem_put h with h | h
        · exact .inl h
        · exact .inr (.tail _ h)

theorem nodup_put : ∀ {l : List (UInt16 × β)}, (l.map Prod.fst).Nodup →
    ((put c b l).map Prod.fst).Nodup
  | [], _ => by simp [put]
  | (d, b') :: l, h => by
    obtain ⟨hd, hl⟩ := List.nodup_cons.1 h
    rw [put]
    split
    · rename_i hdc
      subst hdc
      exact h
    · rename_i hdc
      refine List.nodup_cons.2 ⟨fun hmem => ?_, nodup_put hl⟩
      obtain ⟨x, hx, hxd⟩ := List.mem_map.1 hmem
      rcases mem_put c b hx with rfl | hx
      · exact hdc hxd.symm
      · exact hd (List.mem_map.2 ⟨x, hx, hxd⟩)

end

/-! ## Paths -/

/-- The data of the node at the end of a path. -/
def BMTrieNode.dataAt : BMTrieNode → JString → Option NodeData
  | .mk data _, [] => some data
  | .mk _ subNodeList, c :: cs => (subNodeList.lookup c).bind (·.dataAt cs)

theorem dataAt_nil (node : BMTrieNode) : node.dataAt [] = some node.data := by
  cases node
  rfl

/-! ## `addSubString` -/

/-- A pattern adds the nodes of its suffixes. -/
theorem dataAt_addSubChar : ∀ (cs : JString) {node : BMTrieNode} {s : JString}
    {S : JString → Prop}, S [] →
    (∀ π, (S π → node.dataAt π = some (.new (π.reverse ++ s))) ∧ (¬ S π → node.dataAt π = none)) →
    ∀ π, (S π ∨ π <+: cs → (node.addSubChar cs).dataAt π = some (.new (π.reverse ++ s))) ∧
      (¬ (S π ∨ π <+: cs) → (node.addSubChar cs).dataAt π = none)
  | [], node, s, S, h0, h, π => by
    have : S π ∨ π <+: [] ↔ S π := by
      rw [List.prefix_nil]
      exact or_iff_left_of_imp fun h => h ▸ h0
    rw [this, show node.addSubChar [] = node by cases node; rfl]
    exact h π
  | c :: cs, .mk data sub, s, S, h0, h, π => by
    have hdata : data = .new s := by
      have := (h []).1 h0
      exact Option.some.inj this
    -- the child, and the words below it
    have hchild : ∀ ρ, ((S (c :: ρ) ∨ ρ = []) →
        ((sub.lookup c).getD (.mk (.new (c :: data.matchStr)) [])).dataAt ρ =
          some (.new (ρ.reverse ++ c :: s))) ∧
        (¬ (S (c :: ρ) ∨ ρ = []) →
          ((sub.lookup c).getD (.mk (.new (c :: data.matchStr)) [])).dataAt ρ = none) := by
      intro ρ
      have hρ := h (c :: ρ)
      have h1 := h [c]
      simp only [BMTrieNode.dataAt, List.reverse_cons, List.append_assoc, List.singleton_append]
        at hρ h1
      cases hl : sub.lookup c with
      | none =>
        rw [hl] at hρ h1
        simp only [Option.bind_none, Option.getD_none] at hρ h1 ⊢
        have hno : ∀ ρ, ¬ S (c :: ρ) := fun ρ hs => by
          have := (h (c :: ρ)).1 hs
          simp [BMTrieNode.dataAt, hl] at this
        cases ρ with
        | nil =>
          rw [hdata]
          exact ⟨fun _ => rfl, fun hn => absurd (.inr rfl) hn⟩
        | cons d ρ =>
          refine ⟨fun hs => ?_, fun _ => rfl⟩
          rcases hs with hs | hs
          · exact absurd hs (hno _)
          · cases hs
      | some n =>
        rw [hl] at hρ h1
        simp only [Option.bind_some, Option.getD_some] at hρ h1 ⊢
        refine ⟨fun hs => ?_, fun hn => hρ.2 fun hs => hn (.inl hs)⟩
        rcases hs with hs | rfl
        · exact hρ.1 hs
        · -- the child exists, so its word is there
          by_contra hne
          have hn : ¬ S [c] := fun hs => hne (h1.1 hs)
          have := h1.2 hn
          rw [dataAt_nil] at this
          cases this
    have ih := dataAt_addSubChar cs (S := fun ρ => S (c :: ρ) ∨ ρ = []) (.inr rfl) hchild
    cases π with
    | nil =>
      simp only [BMTrieNode.addSubChar, BMTrieNode.dataAt, hdata]
      exact ⟨fun _ => rfl, fun hn => absurd (.inl h0) hn⟩
    | cons d ρ =>
      simp only [BMTrieNode.addSubChar, BMTrieNode.dataAt, lookup_put]
      by_cases hd : d = c
      · subst hd
        simp only [↓reduceIte, Option.bind_some]
        have hiff : S (d :: ρ) ∨ d :: ρ <+: d :: cs ↔ (S (d :: ρ) ∨ ρ = []) ∨ ρ <+: cs := by
          rw [List.cons_prefix_cons]
          constructor
          · intro hx
            rcases hx with hs | ⟨-, hp⟩
            · exact .inl (.inl hs)
            · exact .inr hp
          · intro hx
            rcases hx with (hs | rfl) | hp
            · exact .inl hs
            · exact .inr ⟨rfl, List.nil_prefix⟩
            · exact .inr ⟨rfl, hp⟩
        rw [hiff, List.reverse_cons, List.append_assoc]
        exact ih ρ
      · rw [if_neg hd]
        have hiff : S (d :: ρ) ∨ d :: ρ <+: c :: cs ↔ S (d :: ρ) := by
          rw [List.cons_prefix_cons]
          exact or_iff_left_of_imp fun hp => absurd hp.1 hd
        rw [hiff]
        exact h (d :: ρ)

theorem dataAt_foldl : ∀ (ps : List JString) {node : BMTrieNode} {S : JString → Prop}, S [] →
    (∀ π, (S π → node.dataAt π = some (.new π.reverse)) ∧ (¬ S π → node.dataAt π = none)) →
    ∀ π, (S π ∨ (∃ p ∈ ps, π <+: p.reverse) →
        (ps.foldl BMTrieNode.addSubString node).dataAt π = some (.new π.reverse)) ∧
      (¬ (S π ∨ ∃ p ∈ ps, π <+: p.reverse) →
        (ps.foldl BMTrieNode.addSubString node).dataAt π = none)
  | [], _, S, _, h, π => by simpa using h π
  | p :: ps, node, S, h0, h, π => by
    have hp := dataAt_addSubChar p.reverse (s := []) h0 (by simpa using h)
    simp only [List.append_nil] at hp
    have := dataAt_foldl ps (.inl h0) hp π
    simpa [or_assoc, BMTrieNode.addSubString] using this

/-! ## `buildMatchStr` -/

theorem lookup_buildSubNodes (P : List JString) (c : UInt16) : ∀ sub,
    (buildSubNodes P sub).lookup c = (sub.lookup c).map (buildMatchStr P)
  | [] => by rw [buildSubNodes]; rfl
  | (d, node) :: rest => by
    rw [buildSubNodes, List.lookup_cons, List.lookup_cons, lookup_buildSubNodes P c rest]
    split <;> rfl

theorem dataAt_buildMatchStr (P : List JString) : ∀ (π : JString) (node : BMTrieNode),
    (buildMatchStr P node).dataAt π = (node.dataAt π).map (·.addPatterns P)
  | [], .mk data sub => by
    rw [buildMatchStr]
    rfl
  | c :: cs, .mk data sub => by
    rw [buildMatchStr]
    simp only [BMTrieNode.dataAt, lookup_buildSubNodes]
    cases sub.lookup c with
    | none => rfl
    | some node => exact dataAt_buildMatchStr P cs node

/-- The patterns that the string of a node begins with. -/
def begins (P : List JString) (w : JString) : List Nat :=
  (List.range P.length).filter fun i => (P.getD i []).isPrefixOf w

/-- The node of `w`, before the search. -/
def NodeData.built (P : List JString) (w : JString) : NodeData where
  matchStr := w
  matchPatternList := begins P w
  status := if begins P w = [] then 0 else 1
  matchPositionList := []

theorem addPatterns_new (P : List JString) (w : JString) :
    (NodeData.new w).addPatterns P = .built P w := by
  have key : ∀ (l : List Nat) (d : NodeData), l.foldl (fun data i =>
      if (P.getD i []).isPrefixOf data.matchStr then
        { data with matchPatternList := data.matchPatternList ++ [i], status := 1 }
      else data) d =
      { d with
        matchPatternList := d.matchPatternList ++
          l.filter fun i => (P.getD i []).isPrefixOf d.matchStr
        status := if (l.filter fun i => (P.getD i []).isPrefixOf d.matchStr) = [] then d.status
          else 1 } := by
    intro l
    induction l with
    | nil => intro d; simp
    | cons i l ih =>
      intro d
      rw [List.foldl_cons, List.filter_cons]
      by_cases hi : (P.getD i []).isPrefixOf d.matchStr = true
      · rw [if_pos hi, ih, if_pos hi]
        simp
      · rw [if_neg hi, ih, if_neg hi]
  unfold NodeData.addPatterns
  rw [key]
  rfl

/-- **The nodes of the trie** are the suffixes of the patterns. -/
theorem dataAt_root {P : List JString} (hP : P ≠ []) (π : JString) :
    (Word P π.reverse → (buildRootNode P).dataAt π = some (.built P π.reverse)) ∧
      (¬ Word P π.reverse → (buildRootNode P).dataAt π = none) := by
  have h0 : ∀ π : JString, (π = [] → (BMTrieNode.mk (.new []) []).dataAt π =
      some (.new π.reverse)) ∧ (¬ π = [] → (BMTrieNode.mk (.new []) []).dataAt π = none) := by
    intro hx
    rcases hx with _ | ⟨c, cs⟩
    · exact ⟨fun _ => rfl, fun h => absurd rfl h⟩
    · exact ⟨fun h => (nomatch h), fun _ => rfl⟩
  have hiff : (π = [] ∨ ∃ p ∈ P, π <+: p.reverse) ↔ Word P π.reverse := by
    have hsuffix : ∀ p : JString, π <+: p.reverse ↔ π.reverse <:+ p := fun p => by
      rw [← List.reverse_prefix, List.reverse_reverse]
    simp only [hsuffix]
    refine ⟨fun h => ?_, .inr⟩
    rcases h with rfl | h
    · obtain ⟨p, hp⟩ := List.exists_mem_of_ne_nil P hP
      exact ⟨p, hp, List.nil_suffix⟩
    · exact h
  have h := dataAt_foldl P (S := fun π => π = []) rfl h0 π
  rw [hiff] at h
  unfold buildRootNode
  rw [dataAt_buildMatchStr]
  refine ⟨fun hw => ?_, fun hw => ?_⟩
  · rw [h.1 hw, Option.map_some, addPatterns_new]
  · rw [h.2 hw]
    rfl

/-! ## Traversals -/

mutual

/-- The nodes in the order of a traversal. -/
def BMTrieNode.nodes : BMTrieNode → List NodeData
  | .mk data subNodeList => data :: subNodes subNodeList

def subNodes : List (UInt16 × BMTrieNode) → List NodeData
  | [] => []
  | (_, node) :: rest => node.nodes ++ subNodes rest

end

theorem mem_subNodes {d : NodeData} : ∀ {sub : List (UInt16 × BMTrieNode)},
    d ∈ subNodes sub ↔ ∃ x ∈ sub, d ∈ x.2.nodes
  | [] => by simp [subNodes]
  | (c, node) :: rest => by
    rw [subNodes, List.mem_append, mem_subNodes]
    simp

mutual

theorem setNodeToMap_eq (P : List JString) : ∀ (node : BMTrieNode) (resultMap : ResultMap),
    setNodeToMap P resultMap node = node.nodes.foldl (setDataToMap P) resultMap
  | .mk data sub, resultMap => by
    rw [setNodeToMap, setSubNodesToMap_eq P sub, BMTrieNode.nodes, List.foldl_cons]

theorem setSubNodesToMap_eq (P : List JString) :
    ∀ (sub : List (UInt16 × BMTrieNode)) (resultMap : ResultMap),
    setSubNodesToMap P resultMap sub = (subNodes sub).foldl (setDataToMap P) resultMap
  | [], resultMap => by
    rw [setSubNodesToMap, subNodes]
    rfl
  | (c, node) :: rest, resultMap => by
    rw [setSubNodesToMap, setSubNodesToMap_eq P rest, setNodeToMap_eq P node, subNodes,
      List.foldl_append]

end

/-- No two children have the same character. -/
inductive BMTrieNode.Ok : BMTrieNode → Prop
  | mk {data : NodeData} {sub : List (UInt16 × BMTrieNode)} : (sub.map Prod.fst).Nodup →
      (∀ x ∈ sub, x.2.Ok) → BMTrieNode.Ok (.mk data sub)

theorem lookup_mem {β : Type} {c : UInt16} {b : β} : ∀ {l : List (UInt16 × β)},
    l.lookup c = some b → (c, b) ∈ l
  | (d, b') :: l, h => by
    rw [List.lookup_cons] at h
    by_cases hd : c = d
    · rw [beq_iff_eq.2 hd] at h
      cases h
      rw [hd]
      exact .head _
    · rw [beq_eq_false_iff_ne.2 hd] at h
      exact .tail _ (lookup_mem h)

theorem lookup_of_mem {β : Type} {x : UInt16 × β} : ∀ {l : List (UInt16 × β)},
    (l.map Prod.fst).Nodup → x ∈ l → l.lookup x.1 = some x.2
  | (d, b') :: l, hn, h => by
    obtain ⟨hd, hl⟩ := List.nodup_cons.1 hn
    rw [List.lookup_cons]
    rcases List.mem_cons.1 h with rfl | h
    · rw [beq_self_eq_true]
    · have hne : x.1 ≠ d := fun he => hd (he ▸ List.mem_map.2 ⟨x, h, rfl⟩)
      rw [beq_eq_false_iff_ne.2 hne]
      exact lookup_of_mem hl h

theorem dataAt_mem_nodes {d : NodeData} : ∀ {π : JString} {node : BMTrieNode},
    node.dataAt π = some d → d ∈ node.nodes
  | [], .mk data sub, h => by
    cases h
    rw [BMTrieNode.nodes]
    exact .head _
  | c :: cs, .mk data sub, h => by
    obtain ⟨n, hn, h⟩ := Option.bind_eq_some_iff.1 h
    rw [BMTrieNode.nodes]
    exact .tail _ (mem_subNodes.2 ⟨_, lookup_mem hn, dataAt_mem_nodes h⟩)

/-- The nodes met in a traversal are the ones at the end of a path. -/
theorem mem_nodes_iff {node : BMTrieNode} (h : node.Ok) {d : NodeData} :
    d ∈ node.nodes ↔ ∃ π, node.dataAt π = some d := by
  refine ⟨fun hd => ?_, fun ⟨π, hπ⟩ => dataAt_mem_nodes hπ⟩
  induction h with
  | mk hn _ ih =>
    rw [BMTrieNode.nodes] at hd
    rcases List.mem_cons.1 hd with rfl | hd
    · exact ⟨[], rfl⟩
    · obtain ⟨x, hx, hd⟩ := mem_subNodes.1 hd
      obtain ⟨π, hπ⟩ := ih x hx hd
      exact ⟨x.1 :: π, Option.bind_eq_some_iff.2 ⟨_, lookup_of_mem hn hx, hπ⟩⟩

theorem ok_put {data : NodeData} {c : UInt16} {node : BMTrieNode}
    {sub : List (UInt16 × BMTrieNode)} (hn : (sub.map Prod.fst).Nodup) (h : ∀ x ∈ sub, x.2.Ok)
    (hnode : node.Ok) : BMTrieNode.Ok (.mk data (put c node sub)) := by
  refine .mk (nodup_put c node hn) fun x hx => ?_
  rcases mem_put c node hx with rfl | hx
  · exact hnode
  · exact h x hx

theorem addSubChar_ok : ∀ (cs : JString) {node : BMTrieNode}, node.Ok → (node.addSubChar cs).Ok
  | [], .mk _ _, h => h
  | c :: cs, .mk data sub, .mk hn h => by
    rw [BMTrieNode.addSubChar]
    refine ok_put hn h (addSubChar_ok cs ?_)
    cases hl : sub.lookup c with
    | none => exact .mk List.nodup_nil fun x hx => absurd hx List.not_mem_nil
    | some n => exact h _ (lookup_mem hl)

theorem map_buildSubNodes (P : List JString) : ∀ sub,
    (buildSubNodes P sub).map Prod.fst = sub.map Prod.fst
  | [] => by rw [buildSubNodes]
  | (c, node) :: rest => by
    rw [buildSubNodes, List.map_cons, List.map_cons, map_buildSubNodes P rest]

mutual

theorem buildMatchStr_ok (P : List JString) : ∀ {node : BMTrieNode}, node.Ok →
    (buildMatchStr P node).Ok
  | .mk data sub, .mk hn h => by
    rw [buildMatchStr]
    refine .mk ?_ (buildSubNodes_ok P h)
    rwa [map_buildSubNodes]

theorem buildSubNodes_ok (P : List JString) : ∀ {sub : List (UInt16 × BMTrieNode)},
    (∀ x ∈ sub, x.2.Ok) → ∀ x ∈ buildSubNodes P sub, x.2.Ok
  | [], _, x, hx => by
    rw [buildSubNodes] at hx
    cases hx
  | (c, node) :: rest, h, x, hx => by
    rw [buildSubNodes] at hx
    rcases List.mem_cons.1 hx with rfl | hx
    · exact buildMatchStr_ok P (h _ (.head _))
    · exact buildSubNodes_ok P (fun y hy => h y (.tail _ hy)) x hx

end

theorem root_ok (P : List JString) : (buildRootNode P).Ok := by
  apply buildMatchStr_ok P
  have h0 : BMTrieNode.Ok (.mk (.new []) []) := .mk List.nodup_nil fun x hx => nomatch hx
  generalize BMTrieNode.mk (.new []) [] = node at h0
  induction P generalizing node with
  | nil => exact h0
  | cons p ps ih => exact ih _ (addSubChar_ok p.reverse h0)

end BmTrie
