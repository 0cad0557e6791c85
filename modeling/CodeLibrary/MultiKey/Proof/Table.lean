import CodeLibrary.MultiKey.Proof.Scan

/-!
# What `MatchInit` builds

* `addBlock_cases`: what an iteration of `GetMatchMap` does.
* `addBlock_filled`, `getMatchMap_filled`: after `GetMatchMap` every block of a key has an entry,
  with a space no wider than its distance from the end of any key.
* `foldl_getMatchKey`: `GetMatchKey` appends to an array that has room.
* `mapOk_matchInit`, `searchable_matchInit`: `MatchInit` fills `match_map` for the keys stored,
  given that the arrays there before fit (`ArraysFit`), and the object can be searched.
* `newEntries_matchInit`: with nothing there before, the spaces are not above `max`, and the arrays
  hold the keys once and have room for as many as there are.
-/

namespace MultiKey

/-! ## `GetMax` -/

theorem foldl_getMax : ∀ (keys : List Key) (m : Int), 2 ≤ m →
    let max := keys.foldl
      (fun max key => if (key.length : Int) < max ∨ max = -1 then key.length else max) m
    2 ≤ max ∧ max ≤ m ∧ ∀ k ∈ keys, max ≤ k.length
  | [], m, h => ⟨h, Int.le_refl m, fun _ hk => absurd hk List.not_mem_nil⟩
  | k :: keys, m, h => by
    have h2 := k.two_le
    rw [List.foldl_cons]
    by_cases hlt : (k.length : Int) < m
    · rw [if_pos (.inl hlt)]
      obtain ⟨h3, h4, h5⟩ := foldl_getMax keys k.length (by omega)
      refine ⟨h3, by omega, fun k' hk' => ?_⟩
      rcases List.mem_cons.1 hk' with rfl | hk'
      · exact h4
      · exact h5 k' hk'
    · rw [if_neg (by omega)]
      obtain ⟨h3, h4, h5⟩ := foldl_getMax keys m h
      refine ⟨h3, h4, fun k' hk' => ?_⟩
      rcases List.mem_cons.1 hk' with rfl | hk'
      · omega
      · exact h5 k' hk'

/-- `max` is below the length of every key. -/
theorem getMax_lt {keys : List Key} (hne : keys ≠ []) :
    1 ≤ getMax keys ∧ ∀ k ∈ keys, getMax keys < k.length := by
  obtain ⟨k, keys, rfl⟩ := List.exists_cons_of_ne_nil hne
  have h2 := k.two_le
  unfold getMax
  rw [List.foldl_cons, if_pos (.inr rfl)]
  obtain ⟨h3, h4, h5⟩ := foldl_getMax keys k.length (by omega)
  refine ⟨by omega, fun k' hk' => ?_⟩
  rcases List.mem_cons.1 hk' with rfl | hk'
  · omega
  · have := h5 k' hk'
    omega

/-! ## `GetMatchMap` -/

/-- New arrays are `NULL`: the `memset` covers them, or they were before. -/
def Platform.Clears (pf : Platform) : Prop :=
  pf.ptrSize ≤ 4 ∨ ∀ n i, pf.leftover n i = .null

/-- The array of `n` elements `NULL`. -/
def nullArr (n : Nat) : Arr := ⟨List.replicate n .null, false⟩

theorem newArr_eq {pf : Platform} (h : pf.Clears) (allocs n : Nat) :
    newArr pf allocs n = nullArr n := by
  unfold newArr nullArr
  congr 1
  refine List.eq_replicate_iff.2 ⟨by simp, fun slot hslot => ?_⟩
  obtain ⟨i, hi, rfl⟩ := List.mem_map.1 hslot
  have hi := List.mem_range.1 hi
  rcases h with h | h
  · have : (i + 1) * pf.ptrSize ≤ n * 4 := Nat.mul_le_mul hi h
    rw [if_pos this]
  · rw [h]
    simp

/-- What an iteration of `GetMatchMap` enters for a block `pos` with `s` characters behind it: a new
entry, or the one of before with the narrower space `s`. -/
def Entered (max : Int) (pos : UInt8 × UInt8) (s : Int) (old : Option MatchStruct)
    (m : MatchStruct) : Prop :=
  old = none ∧ m.pos = pos ∧ m.space = (if s < max then s else max) ∧
      (m.space ≠ 0 → m.listarr = ⟨[], false⟩) ∨
    ∃ m0, old = some m0 ∧ s < m0.space ∧ m.pos = m0.pos ∧ m.space = s ∧
      (m.space ≠ 0 → m.listarr = m0.listarr)

/-- **What an iteration of `GetMatchMap` does**: nothing where the space is narrow enough; else it
enters an entry, with the next array where no character is behind the block. -/
theorem addBlock_cases (pf : Platform) (max : Int) (n : Nat) (key : Key) (t : Table) (j : Nat)
    {pos : UInt8 × UInt8} {position : UInt16} {s : Int}
    (hbytes : (key.byte j, key.byte (j + 1)) = pos) (hpos : getPos pos.1 pos.2 = position)
    (hs : (key.length - j - 2 : Int) = s) :
    (∃ m, t.matchMap position = some m ∧ m.space ≤ s ∧ addBlock pf max n key t j = t) ∨
      ∃ m, Entered max pos s (t.matchMap position) m ∧
        (m.space = 0 ∧ m.listarr = newArr pf t.allocs n ∧ addBlock pf max n key t j =
            ⟨Function.update t.matchMap position (some m), t.allocs + 1⟩ ∨
          m.space ≠ 0 ∧ addBlock pf max n key t j =
            { t with matchMap := Function.update t.matchMap position (some m) }) := by
  subst hbytes hpos hs
  unfold addBlock Entered
  dsimp only
  cases hm : t.matchMap (getPos (key.byte j) (key.byte (j + 1))) with
  | none =>
    dsimp only
    generalize (if (key.length - j - 2 : Int) < max then (key.length - j - 2 : Int) else max) =
      space
    by_cases h0 : space = 0
    · rw [if_pos h0]
      exact .inr ⟨⟨_, space, _⟩, .inl ⟨rfl, rfl, rfl, fun h => absurd h0 h⟩, .inl ⟨h0, rfl, rfl⟩⟩
    · rw [if_neg h0]
      exact .inr ⟨⟨_, space, _⟩, .inl ⟨rfl, rfl, rfl, fun _ => rfl⟩, .inr ⟨h0, rfl⟩⟩
  | some m =>
    dsimp only
    generalize (key.length - j - 2 : Int) = s
    by_cases hlt : m.space > s
    · rw [if_pos hlt]
      by_cases h0 : s = 0
      · rw [if_pos h0]
        exact .inr ⟨⟨_, s, _⟩, .inr ⟨m, rfl, hlt, rfl, rfl, fun h => absurd h0 h⟩,
          .inl ⟨h0, rfl, rfl⟩⟩
      · rw [if_neg h0]
        exact .inr ⟨⟨_, s, _⟩, .inr ⟨m, rfl, hlt, rfl, rfl, fun _ => rfl⟩, .inr ⟨h0, rfl⟩⟩
    · rw [if_neg hlt]
      exact .inl ⟨m, rfl, by omega, rfl⟩

section
variable {old : UInt16 → Option MatchStruct} {max : Int} {n : Nat}

/-- An entry while `GetMatchMap` runs, with the distances `Seen` of its block so far: one of before,
perhaps with a narrower space, or a new one. -/
structure Built (old : UInt16 → Option MatchStruct) (max : Int) (n : Nat)
    (Seen : UInt16 → Int → Prop) (p : UInt16) (m : MatchStruct) : Prop where
  pos : getPos m.pos.1 m.pos.2 = p
  nonneg : 0 ≤ m.space
  dist : ∀ d, Seen p d → m.space ≤ d
  base : old p = none → m.space ≤ max
  inside : m.listarr.overrun = false
  arr : m.space = 0 → old p = some m ∨ m.listarr = nullArr n

structure Filled (old : UInt16 → Option MatchStruct) (max : Int) (n : Nat)
    (Seen : UInt16 → Int → Prop) (t : Table) : Prop where
  known : ∀ p d, Seen p d → t.matchMap p ≠ none
  entry : ∀ p m, t.matchMap p = some m → Built old max n Seen p m

theorem Filled.mono {Seen Seen' : UInt16 → Int → Prop} (h : ∀ p d, Seen' p d → Seen p d)
    {t : Table} (hf : Filled old max n Seen t) : Filled old max n Seen' t where
  known p d hs := hf.known p d (h p d hs)
  entry p m hm :=
    let hb := hf.entry p m hm
    ⟨hb.pos, hb.nonneg, fun d hs => hb.dist d (h p d hs), hb.base, hb.inside, hb.arr⟩

/-- Another entry for `position`. -/
theorem Filled.update {Seen : UInt16 → Int → Prop} {t t' : Table} {position : UInt16} {s : Int}
    (hf : Filled old max n Seen t) {m : MatchStruct}
    (ht : t'.matchMap = Function.update t.matchMap position (some m)) (hs : m.space ≤ s)
    (hm : Built old max n Seen position m) :
    Filled old max n (fun p d => Seen p d ∨ (p = position ∧ d = s)) t' := by
  have hget : ∀ p, t'.matchMap p = if p = position then some m else t.matchMap p := fun p => by
    rw [ht, Function.update_apply]
  refine ⟨fun p d hseen => ?_, fun p m' hm' => ?_⟩
  · rw [hget]
    split
    · exact Option.some_ne_none m
    · rename_i hp
      rcases hseen with hseen | ⟨rfl, -⟩
      · exact hf.known p d hseen
      · exact absurd rfl hp
  · rw [hget] at hm'
    split at hm'
    · rename_i hp
      subst hp
      cases hm'
      refine ⟨hm.pos, hm.nonneg, fun d hseen => ?_, hm.base, hm.inside, hm.arr⟩
      rcases hseen with hseen | ⟨-, rfl⟩
      · exact hm.dist d hseen
      · exact hs
    · rename_i hp
      have hb := hf.entry p m' hm'
      refine ⟨hb.pos, hb.nonneg, fun d hseen => ?_, hb.base, hb.inside, hb.arr⟩
      rcases hseen with hseen | ⟨rfl, -⟩
      · exact hb.dist d hseen
      · exact absurd rfl hp

variable {pf : Platform} (hpf : pf.Clears) (hmax : 0 ≤ max)
include hpf hmax

/-- One iteration: the space is not above the distance. -/
theorem addBlock_filled {Seen : UInt16 → Int → Prop} {t : Table} (hf : Filled old max n Seen t)
    {key : Key} {j : Nat} (hj : j + 1 < key.length) :
    Filled old max n (fun p d => Seen p d ∨ (p = getPos (key.byte j) (key.byte (j + 1)) ∧
      d = key.length - j - 2)) (addBlock pf max n key t j) := by
  obtain ⟨position, hpos⟩ : ∃ p, getPos (key.byte j) (key.byte (j + 1)) = p := ⟨_, rfl⟩
  obtain ⟨s, hs⟩ : ∃ s, (key.length - j - 2 : Int) = s := ⟨_, rfl⟩
  rw [hpos, hs]
  rcases addBlock_cases pf max n key t j rfl hpos hs with ⟨m, hm, hle, ht⟩ | ⟨m, hm, ht⟩
  · -- the space is narrow enough
    rw [ht]
    exact hf.update (Function.update_eq_self_iff.2 hm.symm).symm hle (hf.entry _ m hm)
  obtain ⟨harr, ht⟩ : (m.space = 0 → m.listarr = nullArr n) ∧
      (addBlock pf max n key t j).matchMap = Function.update t.matchMap position (some m) := by
    rcases ht with ⟨-, harr, ht⟩ | ⟨h0, ht⟩
    · exact ⟨fun _ => harr.trans (newArr_eq hpf _ _), by rw [ht]⟩
    · exact ⟨fun h => absurd h h0, by rw [ht]⟩
  have hin : ∀ listarr : Arr, listarr.overrun = false →
      (m.space ≠ 0 → m.listarr = listarr) → m.listarr.overrun = false := by
    intro listarr hin hkeep
    by_cases h0 : m.space = 0
    · rw [harr h0]
      rfl
    · rw [hkeep h0]
      exact hin
  rcases hm with ⟨hnone, hmpos, hspace, hkeep⟩ | ⟨m0, hm0, hlt, hmpos, hspace, hkeep⟩
  · have hbound : 0 ≤ m.space ∧ m.space ≤ s ∧ m.space ≤ max := by
      rw [hspace]
      split <;> omega
    exact hf.update ht hbound.2.1 ⟨by rw [hmpos]; exact hpos, hbound.1,
      fun d hseen => absurd hnone (hf.known _ d hseen), fun _ => hbound.2.2,
      hin _ rfl hkeep, fun h => .inr (harr h)⟩
  · have hb := hf.entry _ m0 hm0
    refine hf.update ht (Int.le_of_eq hspace) ⟨by rw [hmpos]; exact hb.pos, by omega,
      fun d hseen => ?_, fun hold => ?_, hin _ hb.inside hkeep, fun h => .inr (harr h)⟩
    · have := hb.dist d hseen
      omega
    · have := hb.base hold
      omega

omit hpf hmax in
/-- What one iteration keeps, and how it extends `Seen`, the loop does. -/
theorem foldl_filled {β : Type} {f : Table → β → Table} {More : β → UInt16 → Int → Prop} :
    ∀ {bs : List β} {Seen : UInt16 → Int → Prop} {t : Table},
    (∀ b ∈ bs, ∀ {Seen t}, Filled old max n Seen t →
      Filled old max n (fun p d => Seen p d ∨ More b p d) (f t b)) → Filled old max n Seen t →
    Filled old max n (fun p d => Seen p d ∨ ∃ b ∈ bs, More b p d) (bs.foldl f t)
  | [], _, _, _, hf => hf.mono (by simp)
  | b :: bs, _, _, hstep, hf => by
    rw [List.foldl_cons]
    refine (foldl_filled (fun b' hb' => hstep b' (.tail _ hb')) (hstep b (.head _) hf)).mono ?_
    rintro p d (h | ⟨b', hb', h⟩)
    · exact .inl (.inl h)
    · rcases List.mem_cons.1 hb' with rfl | hb'
      · exact .inl (.inr h)
      · exact .inr ⟨b', hb', h⟩

/-- `GetMatchMap` has seen every block of every key. -/
theorem getMatchMap_filled {allocs : Nat} {keys : List Key}
    (hold : ∀ p m, old p = some m →
      getPos m.pos.1 m.pos.2 = p ∧ 0 ≤ m.space ∧ m.listarr.overrun = false) :
    Filled old max n (fun p d => ∃ k ∈ keys, ∃ i : Nat, HasBlock k p i ∧ d = i)
      (getMatchMap pf max n keys ⟨old, allocs⟩) := by
  have h0 : Filled old max n (fun _ _ => False) ⟨old, allocs⟩ :=
    ⟨fun _ _ h => h.elim, fun p m hm => ⟨(hold p m hm).1, (hold p m hm).2.1, fun _ h => h.elim,
      fun hnone => (Option.some_ne_none m (hm.symm.trans hnone)).elim, (hold p m hm).2.2,
      fun _ => .inl hm⟩⟩
  have hkey : ∀ k ∈ keys, ∀ {Seen t}, Filled old max n Seen t → Filled old max n
      (fun p d => Seen p d ∨ ∃ j ∈ List.range (k.length - 1),
        p = getPos (k.byte j) (k.byte (j + 1)) ∧ d = k.length - j - 2)
      (addBlocks pf max n t k) := fun k _ Seen t hf =>
    foldl_filled (fun j hj _ _ hf => addBlock_filled hpf hmax hf
      (by have := List.mem_range.1 hj; omega)) hf
  apply (foldl_filled hkey h0).mono
  rintro p d ⟨k, hk, i, ⟨hi, hp⟩, rfl⟩
  refine .inr ⟨k, hk, k.length - 2 - i, List.mem_range.2 (by omega), ?_, by omega⟩
  rw [← hp]
  congr 2
  omega

end

/-! ## `GetMatchArr` -/

theorem setFirst_key (key x : Key) (n : Nat) (slots : List Slot) :
    setFirst key (n + 1) (.key x :: slots) = (setFirst key n slots).map (.key x :: ·) := rfl

theorem setFirst_room (key : Key) (r : Nat) : ∀ (xs : List Key) (n : Nat), xs.length < n →
    setFirst key n (xs.map .key ++ List.replicate (r + 1) .null) =
      some ((xs ++ [key]).map .key ++ List.replicate r .null)
  | [], n, h => by
    obtain ⟨n, rfl⟩ := Nat.exists_eq_succ_of_ne_zero (Nat.pos_iff_ne_zero.1 h)
    rfl
  | x :: xs, n, h => by
    obtain ⟨n, rfl⟩ := Nat.exists_eq_succ_of_ne_zero (Nat.pos_iff_ne_zero.1 (Nat.zero_lt_of_lt h))
    rw [List.map_cons, List.cons_append, setFirst_key,
      setFirst_room key r xs n (by simpa using h)]
    rfl

theorem setFirst_full (key : Key) : ∀ (xs : List Key),
    setFirst key xs.length (xs.map .key) = some (xs.map .key)
  | [] => rfl
  | x :: xs => by
    rw [List.map_cons, List.length_cons, setFirst_key, setFirst_full key xs]
    rfl

/-- `GetMatchKey` appends the keys as long as there is room, up to the last of `n` elements. -/
theorem foldl_getMatchKey {n : Nat} : ∀ (ys xs : List Key) (r : Nat), xs.length + r ≤ n →
    (ys.length ≤ r ∨ xs.length + r = n) →
    ys.foldl (getMatchKey n) ⟨xs.map .key ++ List.replicate r .null, false⟩ =
      ⟨(xs ++ ys.take r).map .key ++ List.replicate (r - ys.length) .null, false⟩
  | [], xs, r, _, _ => by simp
  | y :: ys, xs, 0, hle, h => by
    obtain rfl : xs.length = n := by simpa using h
    have ih := foldl_getMatchKey ys xs 0 hle (.inr rfl)
    rw [List.replicate_zero, List.append_nil] at ih ⊢
    rw [List.foldl_cons]
    have : getMatchKey xs.length ⟨xs.map .key, false⟩ y = ⟨xs.map .key, false⟩ := by
      unfold getMatchKey
      simp only [setFirst_full]
    rw [this, ih]
    simp
  | y :: ys, xs, r + 1, hle, h => by
    rw [List.foldl_cons]
    have : getMatchKey n ⟨xs.map .key ++ List.replicate (r + 1) .null, false⟩ y =
        ⟨(xs ++ [y]).map .key ++ List.replicate r .null, false⟩ := by
      unfold getMatchKey
      simp only [setFirst_room y r xs n (by omega)]
    rw [this, foldl_getMatchKey ys (xs ++ [y]) r (by simp; omega) (by simp at h ⊢; omega)]
    simp

/-- An array of before has room for the keys of its block, or is as long as a new one. -/
def ArraysFit (s : State) : Prop :=
  ∀ p m, s.matchMap p = some m → m.space = 0 →
    m.listarr.slots.length = s.keyCount ∨
      (m.listarr.slots.filter (· ≠ .null)).length + (s.keylist.filter (·.endsIn m.pos)).length ≤
        m.listarr.slots.length

/-- The entries of an object are those of one `MatchInit`: the spaces are not above `max`, and the
arrays hold the keys that end in their block, once, and room for all of the list. -/
def NewEntries (s : State) : Prop :=
  ∀ p m, s.matchMap p = some m → m.space ≤ s.max ∧ (m.space = 0 → m.listarr.slots =
    (s.keylist.filter (·.endsIn m.pos)).map .key ++
      List.replicate (s.keylist.length - (s.keylist.filter (·.endsIn m.pos)).length) .null)

/-- Between two calls `match_map` is filled for the keys there were at the last `MatchInit`. -/
structure StateOk (s : State) : Prop where
  keyCount : s.keyCount = s.keylist.length
  flag : s.keylist ≠ [] → s.matchFlag = true
  map : ∃ seen more, s.keylist = seen ++ more ∧ MapOk seen s.matchMap

theorem filter_null (xs : List Key) (r : Nat) :
    (xs.map Slot.key ++ List.replicate r Slot.null).filter (· ≠ Slot.null) = xs.map Slot.key := by
  rw [List.filter_append, List.filter_eq_self.2, List.filter_eq_nil_iff.2, List.append_nil]
  · intro slot h
    simp [List.eq_of_mem_replicate h]
  · intro slot h
    obtain ⟨k, -, rfl⟩ := List.mem_map.1 h
    simp

/-- The array of an entry of before, after `GetMatchArr`. -/
theorem Lists.fill {seen more : List Key} {pos : UInt8 × UInt8} {xs : List Key} {r : Nat} {a : Arr}
    (h : Lists seen pos xs r a) {n : Nat} (hn : n = (seen ++ more).length)
    (hfit : a.slots.length = n ∨
      (a.slots.filter (· ≠ .null)).length + ((seen ++ more).filter (·.endsIn pos)).length ≤
        a.slots.length) :
    ∃ xs r, Lists (seen ++ more) pos xs r
      (((seen ++ more).filter (·.endsIn pos)).foldl (getMatchKey n) a) := by
  have hsize := h.size
  have hlen : a.slots.length = xs.length + r := by simp [h.slots]
  rw [hlen, h.slots, filter_null, List.length_map] at hfit
  obtain ⟨slots, overrun⟩ := a
  obtain rfl := h.inside
  obtain rfl := h.slots
  rw [List.length_append] at hn
  have hfold := foldl_getMatchKey (n := n) ((seen ++ more).filter (·.endsIn pos)) xs r (by omega)
    (by omega)
  refine ⟨_, _, congrArg Arr.slots hfold, congrArg Arr.overrun hfold, fun P => ?_, ?_⟩
  · -- the keys of before are found first
    rw [List.find?_append, h.find, List.filter_append]
    cases hs : (seen.filter (·.endsIn pos)).find? P with
    | some k => simp [List.find?_append, hs]
    | none =>
      by_cases hr : ((seen ++ more).filter (·.endsIn pos)).length ≤ r
      · rw [← List.filter_append, List.take_of_length_le hr]
        rfl
      · -- a full array: no key was added
        obtain rfl : more = [] := List.eq_nil_of_length_eq_zero (by omega)
        simp only [List.filter_nil, List.append_nil, Option.none_or] at hs ⊢
        rw [hs, List.find?_eq_none]
        intro k hk
        exact List.find?_eq_none.1 hs k (List.mem_of_mem_take hk)
  · rw [List.length_append, List.length_take, List.length_append]
    omega

/-- A new array, after `GetMatchArr`. -/
theorem lists_new {keys : List Key} (pos : UInt8 × UInt8) :
    ∃ xs r, Lists keys pos xs r
      ((keys.filter (·.endsIn pos)).foldl (getMatchKey keys.length) (nullArr keys.length)) := by
  have hle := List.length_filter_le (·.endsIn pos) keys
  have hfold := foldl_getMatchKey (n := keys.length) (keys.filter (·.endsIn pos)) [] keys.length
    (by simp) (.inl hle)
  rw [List.nil_append, List.take_of_length_le hle] at hfold
  exact ⟨_, _, congrArg Arr.slots hfold, congrArg Arr.overrun hfold, fun P => rfl, by omega⟩

/-! ## `MatchInit` -/

theorem fillArr_of_ne {keyCount : Nat} {keys : List Key} {m : MatchStruct} (h : m.space ≠ 0) :
    fillArr keyCount keys m = m := by
  unfold fillArr
  rw [if_pos h]

theorem fillArr_of_eq {keyCount : Nat} {keys : List Key} {m : MatchStruct} (h : m.space = 0) :
    fillArr keyCount keys m = { m with
      listarr := (keys.filter (·.endsIn m.pos)).foldl (getMatchKey keyCount) m.listarr } := by
  unfold fillArr
  rw [if_neg (by simp [h]), List.foldl_filter]

theorem fillArr_same (keyCount : Nat) (keys : List Key) (m : MatchStruct) :
    (fillArr keyCount keys m).space = m.space ∧ (fillArr keyCount keys m).pos = m.pos := by
  unfold fillArr
  split <;> exact ⟨rfl, rfl⟩

section
variable {pf : Platform} (hpf : pf.Clears) {s : State} (h : StateOk s)
include hpf h

/-- An entry after `MatchInit` on an object with keys was built by `GetMatchMap`. -/
theorem matchInit_built (hne : s.keylist ≠ []) :
    Filled s.matchMap (getMax s.keylist) s.keylist.length
      (fun p d => ∃ k ∈ s.keylist, ∃ i : Nat, HasBlock k p i ∧ d = i)
      (getMatchMap pf (getMax s.keylist) s.keyCount s.keylist ⟨s.matchMap, s.allocs⟩) := by
  obtain ⟨seen, more, -, hmap⟩ := h.map
  have hmax := (getMax_lt hne).1
  rw [h.keyCount]
  exact getMatchMap_filled hpf (by omega) fun p m hm =>
    ⟨(hmap.entry p m hm).pos, (hmap.entry p m hm).nonneg, (hmap.entry p m hm).inside⟩

/-- `MatchInit` fills `match_map` for the keys stored. -/
theorem mapOk_matchInit (hfit : ArraysFit s) : MapOk s.keylist (matchInit pf s).matchMap := by
  obtain ⟨seen, more, hkeys, hmap⟩ := h.map
  by_cases hne : s.keylist = []
  · -- nothing changes
    have hseen : seen = [] := (List.append_eq_nil_iff.1 (hkeys.symm.trans hne)).1
    have hsame : (matchInit pf s).matchMap = s.matchMap := by
      funext p
      simp only [matchInit, hne, getMatchMap, getMatchArr, List.foldl_nil]
      cases s.matchMap p with
      | none => rfl
      | some m =>
        rw [Option.map_some]
        unfold fillArr
        split <;> rfl
    rw [hne, hsame, ← hseen]
    exact hmap
  have hfilled := matchInit_built hpf h hne
  constructor
  · intro k hk p d hd hnone
    simp only [matchInit, getMatchArr, Option.map_eq_none_iff] at hnone
    exact hfilled.known p d ⟨k, hk, d, hd, rfl⟩ hnone
  · intro p m hm
    simp only [matchInit, getMatchArr] at hm
    obtain ⟨m1, hm1, rfl⟩ := Option.map_eq_some_iff.1 hm
    have hb := hfilled.entry p m1 hm1
    obtain ⟨hspace, hpos⟩ := fillArr_same s.keyCount s.keylist m1
    have hlists : m1.space = 0 →
        ∃ xs r, Lists s.keylist m1.pos xs r (fillArr s.keyCount s.keylist m1).listarr := by
      intro hzero
      rw [fillArr_of_eq hzero]
      dsimp only
      rcases hb.arr hzero with hold | hnew
      · obtain ⟨xs, r, hlists⟩ := (hmap.entry p m1 hold).lists hzero
        have hfit := hfit p m1 hold hzero
        rw [hkeys] at hfit ⊢
        exact hlists.fill (by rw [h.keyCount, hkeys]) hfit
      · rw [hnew, h.keyCount]
        exact lists_new _
    refine ⟨by rw [hpos]; exact hb.pos, by rw [hspace]; exact hb.nonneg,
      fun k hk d hd => ?_, ?_, fun hzero => ?_⟩
    · rw [hspace]
      exact hb.dist d ⟨k, hk, d, hd, rfl⟩
    · by_cases hzero : m1.space = 0
      · obtain ⟨xs, r, hl⟩ := hlists hzero
        exact hl.inside
      · rw [fillArr_of_ne hzero]
        exact hb.inside
    · rw [hspace] at hzero
      rw [hpos]
      exact hlists hzero

/-- An object with keys can be searched after `MatchInit`. -/
theorem searchable_matchInit (hfit : ArraysFit s) (hne : s.keylist ≠ []) :
    Searchable (matchInit pf s) := by
  obtain ⟨hmax, hlt⟩ := getMax_lt hne
  exact ⟨h.keyCount, hmax, hlt, mapOk_matchInit hpf h hfit⟩

/-- With nothing there before, the entries are new. -/
theorem newEntries_matchInit (hempty : ∀ p, s.matchMap p = none) (hne : s.keylist ≠ []) :
    NewEntries (matchInit pf s) := by
  intro p m hm
  simp only [matchInit, getMatchArr] at hm
  obtain ⟨m1, hm1, rfl⟩ := Option.map_eq_some_iff.1 hm
  have hb := (matchInit_built hpf h hne).entry p m1 hm1
  obtain ⟨hspace, hpos⟩ := fillArr_same s.keyCount s.keylist m1
  rw [hspace, hpos]
  refine ⟨hb.base (hempty p), fun hzero => ?_⟩
  have hnew : m1.listarr = nullArr s.keylist.length := by
    refine (hb.arr hzero).resolve_left fun hold => ?_
    rw [hempty] at hold
    cases hold
  have hle := List.length_filter_le (·.endsIn m1.pos) s.keylist
  have hfold := foldl_getMatchKey (n := s.keylist.length) (s.keylist.filter (·.endsIn m1.pos)) []
    s.keylist.length (by simp) (.inl hle)
  rw [List.map_nil, List.nil_append, List.nil_append, List.take_of_length_le hle] at hfold
  rw [fillArr_of_eq hzero, hnew, h.keyCount]
  exact congrArg Arr.slots hfold

end

end MultiKey
