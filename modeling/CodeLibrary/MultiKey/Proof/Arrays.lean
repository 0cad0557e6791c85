import CodeLibrary.MultiKey.Proof.Lifecycle
import CodeLibrary.MultiKey.Reads
import Mathlib.Data.List.Dedup
import Mathlib.Data.List.Perm.Subperm

/-!
# What the arrays hold where the `memset` does not clear them

* `foldl_getMatchKey_fillNulls`, `fillNulls_eq_iff`: on any memory `GetMatchKey` fills the elements
  that are `NULL`; that lists the keys and nothing else if all are, or if the array is full of keys
  and what it held before is in its place (`Preset`).
* `getMatchMap_allocated`: for a new object, `GetMatchMap` allocates one array for each block that a
  key ends in.
* `matchInit_lists_iff`: with pointers of 8 bytes, when the arrays list the stored keys
  (`ListsKeys`).
-/

namespace MultiKey

/-- The position of the block a key ends in. -/
def Key.lastPos (k : Key) : UInt16 := getPos (k.byte (k.length - 2)) (k.byte (k.length - 1))

/-- The arrays of the entries with `space` 0 list the stored keys that end in their block, in the
order of `AddKey`, and then `NULL`; what `BackMatch` reads there are stored keys. -/
structure ListsKeys (s : State) : Prop where
  listarr : ∀ p m, s.matchMap p = some m → m.space = 0 → m.listarr =
    ⟨(s.keylist.filter (·.endsIn m.pos)).map .key ++
      List.replicate (s.keyCount - (s.keylist.filter (·.endsIn m.pos)).length) .null, false⟩
  reads : ∀ p m, s.matchMap p = some m → m.space = 0 → ∀ source site,
    backMatch source site s.keyCount m.listarr.slots ≠ .fault ∧
      ∀ k ∈ tried source site s.keyCount m.listarr.slots, k ∈ s.keylist

/-- What the `memset` of the first half leaves of the `a`-th array, of `n` elements, is `NULL`. -/
def HalfNull (pf : Platform) (a n : Nat) : Prop :=
  ∀ i < n, n ≤ 2 * i + 1 → pf.leftover a i = .null

/-- Each key is where it is to be, or the element there is `NULL` and it is its turn. -/
def Preset (slots : List Slot) (keys : List Key) : Prop :=
  ∀ i k, keys[i]? = some k → slots[i]? = some (.key k) ∨
    slots[i]? = some .null ∧ keys[(slots.take i).count .null]? = some k

/-- How many blocks the keys end in. -/
def blocks (keys : List Key) : Nat := (keys.map Key.lastPos).dedup.length

/-- The memory of the arrays for `keys` does not show: it is `NULL` where the `memset` leaves it, or
the keys end in one block and are preset in its array. -/
def MemoryFits (pf : Platform) (keys : List Key) : Prop :=
  (∀ a < blocks keys, HalfNull pf a keys.length) ∨
    blocks keys = 1 ∧ Preset (newArr pf 0 keys.length).slots keys

/-! ## `GetMatchKey` on any memory -/

/-- The keys in the elements that are `NULL`, in order. -/
def fillNulls : List Slot → List Key → List Slot
  | .null :: slots, key :: keys => .key key :: fillNulls slots keys
  | slot :: slots, keys => slot :: fillNulls slots keys
  | [], _ => []

@[simp] theorem fillNulls_nil : ∀ slots : List Slot, fillNulls slots [] = slots
  | [] => rfl
  | .null :: slots => congrArg (_ :: ·) (fillNulls_nil slots)
  | .key _ :: slots => congrArg (_ :: ·) (fillNulls_nil slots)
  | .wild :: slots => congrArg (_ :: ·) (fillNulls_nil slots)

theorem fillNulls_cons (key : Key) (keys : List Key) : ∀ slots : List Slot,
    fillNulls slots (key :: keys) = fillNulls (fillNulls slots [key]) keys
  | [] => rfl
  | .null :: slots => by
    rw [fillNulls, fillNulls, fillNulls_nil]
    rfl
  | .key _ :: slots => congrArg (_ :: ·) (fillNulls_cons key keys slots)
  | .wild :: slots => congrArg (_ :: ·) (fillNulls_cons key keys slots)

@[simp] theorem fillNulls_length (keys : List Key) : ∀ slots : List Slot,
    (fillNulls slots keys).length = slots.length := by
  intro slots
  induction slots, keys using fillNulls.induct with
  | case1 key keys slots ih => simp [fillNulls, ih]
  | case2 keys slot slots hne ih => simp [fillNulls, ih]
  | case3 keys => rfl

theorem setFirst_length (key : Key) : ∀ slots : List Slot,
    setFirst key slots.length slots = some (fillNulls slots [key])
  | [] => rfl
  | .null :: slots => by
    rw [List.length_cons, setFirst, fillNulls, fillNulls_nil]
  | .key k :: slots => by
    rw [List.length_cons, setFirst_key, setFirst_length key slots]
    rfl
  | .wild :: slots => by
    rw [List.length_cons, setFirst, setFirst_length key slots]
    · rfl
    · simp

/-- **`GetMatchKey` for each key** fills the elements that are `NULL`, whatever the others hold. -/
theorem foldl_getMatchKey_fillNulls : ∀ (keys : List Key) (slots : List Slot),
    keys.foldl (getMatchKey slots.length) ⟨slots, false⟩ = ⟨fillNulls slots keys, false⟩
  | [], slots => by simp
  | key :: keys, slots => by
    have hset : getMatchKey slots.length ⟨slots, false⟩ key = ⟨fillNulls slots [key], false⟩ := by
      simp only [getMatchKey, setFirst_length]
    have ih := foldl_getMatchKey_fillNulls keys (fillNulls slots [key])
    rw [fillNulls_length] at ih
    rw [List.foldl_cons, hset, ih, ← fillNulls_cons]

/-- An element that is `NULL` gets the key whose turn it is. -/
theorem getElem?_fillNulls : ∀ (slots : List Slot) (keys : List Key) (i : Nat),
    (fillNulls slots keys)[i]? = slots[i]?.map fun slot =>
      if slot = .null then (keys[(slots.take i).count .null]?.map .key).getD .null else slot
  | [], _, _ => rfl
  | .null :: slots, [], i => by
    rw [fillNulls_nil]
    cases (Slot.null :: slots)[i]? with
    | none => rfl
    | some slot => by_cases h : slot = .null <;> simp [h]
  | .null :: slots, key :: keys, 0 => rfl
  | .null :: slots, key :: keys, i + 1 => by
    simp [fillNulls, getElem?_fillNulls slots keys i]
  | .key k :: slots, keys, 0 => rfl
  | .key k :: slots, keys, i + 1 => by
    simp [fillNulls, getElem?_fillNulls slots keys i]
  | .wild :: slots, keys, 0 => rfl
  | .wild :: slots, keys, i + 1 => by
    simp [fillNulls, getElem?_fillNulls slots keys i]

theorem count_fillNulls : ∀ (slots : List Slot) (keys : List Key),
    (fillNulls slots keys).count .null = slots.count .null - keys.length
  | [], _ => by simp [fillNulls]
  | .null :: slots, [] => by simp
  | .null :: slots, key :: keys => by simp [fillNulls, count_fillNulls slots keys]
  | .key k :: slots, keys => by simp [fillNulls, count_fillNulls slots keys]
  | .wild :: slots, keys => by simp [fillNulls, count_fillNulls slots keys]

/-- The keys fill an array exactly if they are preset in it. -/
theorem fillNulls_eq_map_iff {slots : List Slot} {keys : List Key}
    (hlen : keys.length = slots.length) :
    fillNulls slots keys = keys.map .key ↔ Preset slots keys := by
  constructor
  · intro h i k hk
    have hi := getElem?_fillNulls slots keys i
    rw [h, List.getElem?_map, hk, Option.map_some, eq_comm, Option.map_eq_some_iff] at hi
    obtain ⟨slot, hslot, hi⟩ := hi
    split at hi
    · rename_i hnull
      subst hnull
      refine .inr ⟨hslot, ?_⟩
      cases hturn : keys[(slots.take i).count .null]? with
      | none => simp [hturn] at hi
      | some k' =>
        rw [hturn, Option.map_some, Option.getD_some, Slot.key.injEq] at hi
        rw [hi]
    · exact .inl (hi ▸ hslot)
  · intro hpre
    refine List.ext_getElem? fun i => ?_
    rw [getElem?_fillNulls, List.getElem?_map]
    cases hk : keys[i]? with
    | none =>
      rw [List.getElem?_eq_none_iff, hlen] at hk
      have hnone : slots[i]? = none := List.getElem?_eq_none hk
      rw [hnone]
      rfl
    | some k =>
      rcases hpre i k hk with hslot | ⟨hslot, hturn⟩
      · rw [hslot]
        rfl
      · rw [hslot, Option.map_some, if_pos rfl, hturn]
        rfl

/-- An array that is `NULL` lists its keys. -/
theorem fillNulls_of_null {slots : List Slot} {keys : List Key}
    (hle : keys.length ≤ slots.length) (hnull : ∀ slot ∈ slots, slot = .null) :
    fillNulls slots keys =
      keys.map .key ++ List.replicate (slots.length - keys.length) .null := by
  have hfold := foldl_getMatchKey (n := slots.length) keys [] slots.length (by simp) (.inl hle)
  rw [List.map_nil, List.nil_append, ← List.eq_replicate_iff.2 ⟨rfl, hnull⟩,
    foldl_getMatchKey_fillNulls, List.nil_append, List.take_of_length_le hle] at hfold
  exact congrArg Arr.slots hfold

/-- **When an array lists its keys**: all elements were `NULL`, or the keys fill it and are preset
in it. -/
theorem fillNulls_eq_iff {slots : List Slot} {keys : List Key} (hle : keys.length ≤ slots.length) :
    fillNulls slots keys =
        keys.map .key ++ List.replicate (slots.length - keys.length) .null ↔
      (∀ slot ∈ slots, slot = .null) ∨ keys.length = slots.length ∧ Preset slots keys := by
  by_cases hlen : keys.length = slots.length
  · rw [← fillNulls_eq_map_iff hlen]
    refine ⟨fun h => .inr ⟨hlen, ?_⟩, fun h => ?_⟩
    · rw [h, hlen, Nat.sub_self, List.replicate_zero, List.append_nil]
    · rcases h with hnull | ⟨-, h⟩
      · exact fillNulls_of_null hle hnull
      · rw [h, hlen, Nat.sub_self, List.replicate_zero, List.append_nil]
  · rw [or_iff_left fun h => hlen h.1]
    refine ⟨fun h => ?_, fillNulls_of_null hle⟩
    -- some element is to be `NULL` in the end, so none held anything before
    have hkeys : (keys.map Slot.key).count .null = 0 := by
      rw [List.count_eq_zero]
      simp
    have hcount := congrArg (List.count .null) h
    rw [count_fillNulls, List.count_append, hkeys, List.count_replicate_self] at hcount
    have hall : slots.count .null = slots.length := by
      have := List.count_le_length (a := Slot.null) (l := slots)
      omega
    exact fun slot hslot => (List.count_eq_length.1 hall slot hslot).symm

/-! ## The arrays -/

@[simp] theorem newArr_length (pf : Platform) (a n : Nat) : (newArr pf a n).slots.length = n := by
  simp [newArr]

/-- A new array is `NULL` where what the `memset` leaves is. -/
theorem newArr_null_iff {pf : Platform} (hptr : pf.ptrSize = 8) (a n : Nat) :
    (∀ slot ∈ (newArr pf a n).slots, slot = .null) ↔ HalfNull pf a n := by
  simp only [newArr, List.mem_map, List.mem_range, hptr, forall_exists_index, and_imp,
    forall_apply_eq_imp_iff₂]
  refine forall_congr' fun i => forall_congr' fun hi => ?_
  split
  · rename_i hcleared
    exact iff_of_true rfl fun h => absurd hcleared (by omega)
  · rename_i hleft
    have : n ≤ 2 * i + 1 := by omega
    split
    · simp [this]
    · by_cases hnull : pf.leftover a i = .null <;> simp [hnull, this]

section
variable {pf : Platform} {n : Nat}

/-- The arrays allocated so far belong to the blocks in `Ends`, one to each: the `a`-th to the
`a`-th of `owners`. -/
structure Allocated (pf : Platform) (n : Nat) (Ends : UInt16 → Prop) (owners : List UInt16)
    (t : Table) : Prop where
  nodup : owners.Nodup
  count : owners.length = t.allocs
  mem : ∀ p, p ∈ owners ↔ Ends p
  arr : ∀ a p, owners[a]? = some p →
    ∃ m, t.matchMap p = some m ∧ m.space = 0 ∧ m.listarr = newArr pf a n
  entry : ∀ p m, t.matchMap p = some m →
    getPos m.pos.1 m.pos.2 = p ∧ 0 ≤ m.space ∧ (m.space = 0 → Ends p)

variable {Ends : UInt16 → Prop} {owners : List UInt16} {t : Table}
  (h : Allocated pf n Ends owners t) {position : UInt16} (hno : ¬ Ends position) {m : MatchStruct}
  (hpos : getPos m.pos.1 m.pos.2 = position)
include h hno hpos

/-- An entry that gets no array. -/
theorem Allocated.keep (hm : 0 < m.space) : Allocated pf n Ends owners
    { t with matchMap := Function.update t.matchMap position (some m) } := by
  refine ⟨h.nodup, h.count, h.mem, fun a p hp => ?_, fun p m' hm' => ?_⟩
  · have hne : p ≠ position := fun he => hno (he ▸ (h.mem p).1 (List.mem_of_getElem? hp))
    obtain ⟨m', hm', hrest⟩ := h.arr a p hp
    exact ⟨m', by rw [← hm']; exact Function.update_of_ne hne _ _, hrest⟩
  · dsimp only at hm'
    rw [Function.update_apply] at hm'
    split at hm'
    · rename_i hp
      cases hm'
      exact ⟨hpos.trans hp.symm, le_of_lt hm, fun h0 => absurd h0 (by omega)⟩
    · exact h.entry p m' hm'

/-- An entry that gets the next array. -/
theorem Allocated.alloc (hm : m.space = 0) (harr : m.listarr = newArr pf t.allocs n) :
    Allocated pf n (fun p => Ends p ∨ p = position) (owners ++ [position])
      ⟨Function.update t.matchMap position (some m), t.allocs + 1⟩ := by
  have hfresh : position ∉ owners := fun hp => hno ((h.mem position).1 hp)
  refine ⟨?_, by simp [h.count], fun p => by simp [h.mem], fun a p hp => ?_, fun p m' hm' => ?_⟩
  · rw [List.nodup_append]
    refine ⟨h.nodup, List.nodup_singleton _, fun p hp q hq hpq => ?_⟩
    rw [List.mem_singleton.1 hq] at hpq
    exact hfresh (hpq ▸ hp)
  · dsimp only
    by_cases hlt : a < owners.length
    · rw [List.getElem?_append_left hlt] at hp
      have hne : p ≠ position := fun he => hfresh (he ▸ List.mem_of_getElem? hp)
      rw [Function.update_of_ne hne]
      exact h.arr a p hp
    · rw [List.getElem?_append_right (by omega), List.getElem?_singleton] at hp
      split at hp
      · cases hp
        rw [Function.update_self]
        exact ⟨m, rfl, hm, by rw [harr, ← h.count, show a = owners.length by omega]⟩
      · cases hp
  · dsimp only at hm'
    rw [Function.update_apply] at hm'
    split at hm'
    · rename_i hp
      cases hm'
      exact ⟨hpos.trans hp.symm, hm.ge, fun _ => .inr hp⟩
    · obtain ⟨h1, h2, h3⟩ := h.entry p m' hm'
      exact ⟨h1, h2, fun h0 => .inl (h3 h0)⟩

end

section
variable {pf : Platform} {n : Nat}

theorem Allocated.congr {Ends Ends' : UInt16 → Prop} {owners : List UInt16} {t : Table}
    (h : Allocated pf n Ends owners t) (he : ∀ p, Ends p ↔ Ends' p) :
    Allocated pf n Ends' owners t := by
  rwa [← funext fun p => propext (he p)]

/-- A block a key ends in has an entry with space 0. -/
theorem Allocated.owned {Ends : UInt16 → Prop} {owners : List UInt16} {t : Table}
    (h : Allocated pf n Ends owners t) {p : UInt16} (hp : Ends p) :
    ∃ m, t.matchMap p = some m ∧ m.space = 0 := by
  obtain ⟨a, ha⟩ := List.mem_iff_getElem?.1 ((h.mem p).2 hp)
  obtain ⟨m, hm, h0, -⟩ := h.arr a p ha
  exact ⟨m, hm, h0⟩

/-- **An iteration of `GetMatchMap`** allocates an array at the end of a key only, and for a block
once. -/
theorem addBlock_allocated {max : Int} (hmax : 1 ≤ max) {Ends : UInt16 → Prop}
    {owners : List UInt16} {t : Table} (h : Allocated pf n Ends owners t) {key : Key} {j : Nat}
    (hj : j + 1 < key.length) :
    ∃ owners', Allocated pf n
      (fun p => Ends p ∨ (p = getPos (key.byte j) (key.byte (j + 1)) ∧ key.length = j + 2))
      owners' (addBlock pf max n key t j) := by
  obtain ⟨position, hpos⟩ : ∃ p, getPos (key.byte j) (key.byte (j + 1)) = p := ⟨_, rfl⟩
  obtain ⟨s, hs⟩ : ∃ s, (key.length - j - 2 : Int) = s := ⟨_, rfl⟩
  rw [hpos]
  rcases addBlock_cases pf max n key t j rfl hpos hs with ⟨m, hm, hle, ht⟩ | ⟨m, hm, ht⟩
  · obtain ⟨-, hnonneg, hends⟩ := h.entry position m hm
    rw [ht]
    refine ⟨owners, h.congr fun p => ?_⟩
    refine (or_iff_left_of_imp fun hx => ?_).symm
    -- the block is the end of a key of before, too
    obtain ⟨rfl, hj⟩ := hx
    exact hends (by omega)
  obtain ⟨hno, hmpos, hnonneg, hzero⟩ : ¬ Ends position ∧ getPos m.pos.1 m.pos.2 = position ∧
      0 ≤ m.space ∧ (m.space = 0 ↔ key.length = j + 2) := by
    rcases hm with ⟨hnone, hmpos, hspace, -⟩ | ⟨m0, hm0, hlt, hmpos, hspace, -⟩
    · refine ⟨fun he => ?_, by rw [hmpos]; exact hpos, ?_⟩
      · obtain ⟨m', hm', -⟩ := h.owned he
        cases hnone.symm.trans hm'
      · rw [hspace]
        split <;> omega
    · refine ⟨fun he => ?_, by rw [hmpos]; exact (h.entry _ m0 hm0).1, by omega⟩
      obtain ⟨m', hm', h0⟩ := h.owned he
      cases hm0.symm.trans hm'
      omega
  rcases ht with ⟨h0, harr, ht⟩ | ⟨hne, ht⟩
  · rw [ht]
    exact ⟨_, (h.alloc hno hmpos h0 harr).congr fun p => by simp [hzero.1 h0]⟩
  · rw [ht]
    refine ⟨owners, (h.keep hno hmpos (by omega)).congr fun p => ?_⟩
    exact (or_iff_left fun hx => hne (hzero.2 hx.2)).symm

/-- What one iteration does, and how it extends `Ends`, the loop does. -/
theorem foldl_allocated {β : Type} {f : Table → β → Table} {More : β → UInt16 → Prop} :
    ∀ {bs : List β} {Ends : UInt16 → Prop} {owners : List UInt16} {t : Table},
    (∀ b ∈ bs, ∀ {Ends owners t}, Allocated pf n Ends owners t →
      ∃ owners', Allocated pf n (fun p => Ends p ∨ More b p) owners' (f t b)) →
    Allocated pf n Ends owners t →
    ∃ owners', Allocated pf n (fun p => Ends p ∨ ∃ b ∈ bs, More b p) owners' (bs.foldl f t)
  | [], _, owners, _, _, h => ⟨owners, h.congr (by simp)⟩
  | b :: bs, _, _, _, hstep, h => by
    obtain ⟨owners1, h1⟩ := hstep b (.head _) h
    obtain ⟨owners2, h2⟩ := foldl_allocated (fun b' hb' => hstep b' (.tail _ hb')) h1
    exact ⟨owners2, h2.congr fun p => by simp [or_assoc]⟩

/-- **`GetMatchMap`** allocates an array for each block a key ends in. -/
theorem getMatchMap_allocated {keys : List Key} (hne : keys ≠ []) :
    ∃ owners, Allocated pf n (fun p => ∃ k ∈ keys, k.lastPos = p) owners
      (getMatchMap pf (getMax keys) n keys ⟨fun _ => none, 0⟩) := by
  have h0 : Allocated pf n (fun _ => False) [] ⟨fun _ => none, 0⟩ :=
    ⟨List.nodup_nil, rfl, by simp, by simp, by simp⟩
  have hkey : ∀ k ∈ keys, ∀ {Ends owners t}, Allocated pf n Ends owners t →
      ∃ owners', Allocated pf n (fun p => Ends p ∨ k.lastPos = p) owners'
        (addBlocks pf (getMax keys) n t k) := by
    intro k hk Ends owners t h
    have hblock : ∀ j ∈ List.range (k.length - 1), ∀ {Ends owners t},
        Allocated pf n Ends owners t → ∃ owners', Allocated pf n
          (fun p => Ends p ∨ (p = getPos (k.byte j) (k.byte (j + 1)) ∧ k.length = j + 2)) owners'
          (addBlock pf (getMax keys) n k t j) := by
      intro j hj _ _ _ h
      have := List.mem_range.1 hj
      exact addBlock_allocated (getMax_lt hne).1 h (by omega)
    obtain ⟨owners', h'⟩ := foldl_allocated hblock h
    refine ⟨owners', h'.congr fun p => or_congr_right ?_⟩
    have h2 := k.two_le
    constructor
    · rintro ⟨j, -, rfl, hj⟩
      rw [Key.lastPos, show k.length - 2 = j by omega, show k.length - 1 = j + 1 by omega]
    · rintro rfl
      refine ⟨k.length - 2, List.mem_range.2 (by omega), ?_, by omega⟩
      rw [Key.lastPos, show k.length - 2 + 1 = k.length - 1 by omega]
  obtain ⟨owners, h⟩ := foldl_allocated hkey h0
  exact ⟨owners, h.congr (by simp)⟩

end

/-! ## `MatchInit` on a new object -/

/-- A new object after any calls of `AddKey`. -/
theorem addKeys_new (pf : Platform) : ∀ (strs : List CString) {s : State}, StateOk s →
    s.matchMap = (fun _ => none) → s.allocs = 0 →
    StateOk (addKeys s strs) ∧ (addKeys s strs).matchMap = (fun _ => none) ∧
      (addKeys s strs).allocs = 0
  | [], _, h, hmap, hallocs => ⟨h, hmap, hallocs⟩
  | str :: strs, s, h, hmap, hallocs => by
    have hsame : (addKey s str).1.matchMap = s.matchMap ∧ (addKey s str).1.allocs = s.allocs := by
      unfold addKey
      split <;> exact ⟨rfl, rfl⟩
    exact addKeys_new pf strs (h.addKey str) (hsame.1.trans hmap) (hsame.2.trans hallocs)

theorem endsIn_iff_lastPos {k : Key} {pos : UInt8 × UInt8} :
    k.endsIn pos = true ↔ k.lastPos = getPos pos.1 pos.2 := by
  rw [endsIn_iff_hasBlock, HasBlock, Key.lastPos]
  have := k.two_le
  simp only [Nat.sub_zero]
  exact ⟨And.right, fun h => ⟨by omega, h⟩⟩

theorem key_mem_of_mem_tried {source : List UInt8} {site : Int} {k : Key} :
    ∀ {n : Nat} {slots : List Slot}, k ∈ tried source site n slots → .key k ∈ slots
  | 0, _, h | _ + 1, [], h | _ + 1, .null :: _, h | _ + 1, .wild :: _, h => by
    simp [tried] at h
  | n + 1, .key k' :: slots, h => by
    rw [tried, List.mem_cons] at h
    rcases h with rfl | h
    · exact .head _
    · split at h
      · cases h
      · exact .tail _ (key_mem_of_mem_tried h)

/-- In an array that lists keys, `BackMatch` reads nothing else. -/
theorem backMatch_keys {xs : List Key} {r n : Nat} (hlen : xs.length + r = n)
    (source : List UInt8) (site : Int) :
    backMatch source site n (xs.map .key ++ List.replicate r .null) ≠ .fault ∧
      ∀ k ∈ tried source site n (xs.map .key ++ List.replicate r .null), k ∈ xs := by
  constructor
  · rw [backMatch_spec source site r xs n (by omega) (by omega)]
    split <;> simp
  · intro k hk
    simpa using key_mem_of_mem_tried hk

section
variable {pf : Platform} {keys : List Key} {owners : List UInt16}

/-- Each block a key ends in owns one array. -/
theorem owners_length {n : Nat} {t : Table}
    (h : Allocated pf n (fun p => ∃ k ∈ keys, k.lastPos = p) owners t) :
    owners.length = blocks keys := by
  refine ((List.perm_ext_iff_of_nodup h.nodup (List.nodup_dedup _)).2 fun p => ?_).length_eq
  rw [h.mem, List.mem_dedup, List.mem_map]

/-- The array of a block after `GetMatchArr`. -/
theorem fillArr_newArr {n a : Nat} {m : MatchStruct} (hm : m.space = 0)
    (harr : m.listarr = newArr pf a n) : (fillArr n keys m).listarr =
      ⟨fillNulls (newArr pf a n).slots (keys.filter (·.endsIn m.pos)), false⟩ := by
  have hfill := foldl_getMatchKey_fillNulls (keys.filter (·.endsIn m.pos)) (newArr pf a n).slots
  rw [newArr_length] at hfill
  rw [fillArr_of_eq hm, harr]
  exact hfill

/-- When the array of a block lists its keys. -/
theorem fillArr_lists_iff (hptr : pf.ptrSize = 8) {a : Nat} {m : MatchStruct} (hm : m.space = 0)
    (harr : m.listarr = newArr pf a keys.length) :
    (fillArr keys.length keys m).listarr =
        ⟨(keys.filter (·.endsIn m.pos)).map .key ++
          List.replicate (keys.length - (keys.filter (·.endsIn m.pos)).length) .null, false⟩ ↔
      HalfNull pf a keys.length ∨ (∀ k ∈ keys, k.lastPos = getPos m.pos.1 m.pos.2) ∧
        Preset (newArr pf a keys.length).slots keys := by
  have hle := List.length_filter_le (·.endsIn m.pos) keys
  have hiff := @fillNulls_eq_iff (newArr pf a keys.length).slots (keys.filter (·.endsIn m.pos))
    (by rw [newArr_length]; exact hle)
  rw [newArr_length, newArr_null_iff hptr] at hiff
  rw [fillArr_newArr hm harr, Arr.mk.injEq, and_iff_left rfl, hiff]
  refine or_congr_right ⟨fun hx => ?_, fun hx => ?_⟩
  · obtain ⟨hlen, hpre⟩ := hx
    have hall := List.length_filter_eq_length_iff.1 hlen
    rw [List.filter_eq_self.2 hall] at hpre
    exact ⟨fun k hk => endsIn_iff_lastPos.1 (hall k hk), hpre⟩
  · obtain ⟨hall, hpre⟩ := hx
    have hself : keys.filter (·.endsIn m.pos) = keys :=
      List.filter_eq_self.2 fun k hk => endsIn_iff_lastPos.2 (hall k hk)
    rw [hself]
    exact ⟨rfl, hpre⟩

/-- The condition on each array is the one on the memory. -/
theorem memoryFits_iff {t : Table}
    (h : Allocated pf keys.length (fun p => ∃ k ∈ keys, k.lastPos = p) owners t) :
    (∀ a p, owners[a]? = some p → HalfNull pf a keys.length ∨
        (∀ k ∈ keys, k.lastPos = p) ∧ Preset (newArr pf a keys.length).slots keys) ↔
      MemoryFits pf keys := by
  rw [MemoryFits, ← owners_length h]
  constructor
  · intro hall
    by_cases hnull : ∀ a < owners.length, HalfNull pf a keys.length
    · exact .inl hnull
    right
    obtain ⟨a, ha, hno⟩ : ∃ a < owners.length, ¬ HalfNull pf a keys.length := by
      simpa using hnull
    have hget : owners[a]? = some owners[a] := List.getElem?_eq_getElem ha
    obtain ⟨hone, hpre⟩ := (hall a _ hget).resolve_left hno
    -- every owner is the one block
    have hsub : owners ⊆ [owners[a]] := fun p hp => by
      obtain ⟨k, hk, rfl⟩ := (h.mem p).1 hp
      exact List.mem_singleton.2 (hone k hk)
    have hlen : owners.length ≤ 1 := (List.subperm_of_subset h.nodup hsub).length_le
    obtain rfl : a = 0 := by omega
    exact ⟨by omega, hpre⟩
  · intro hx a p hp
    have ha := (List.getElem?_eq_some_iff.1 hp).1
    rcases hx with hnull | ⟨hlen, hpre⟩
    · exact .inl (hnull a ha)
    · obtain ⟨q, rfl⟩ := List.length_eq_one_iff.1 hlen
      obtain rfl : a = 0 := by simpa using ha
      obtain rfl : q = p := by simpa using hp
      exact .inr ⟨fun k hk => List.mem_singleton.1 ((h.mem _).2 ⟨k, hk, rfl⟩), hpre⟩

/-- When the arrays list the stored keys, given what `GetMatchMap` allocates. -/
theorem listsKeys_iff (hptr : pf.ptrSize = 8) {s : State} (hs : StateOk s)
    (h : Allocated pf s.keylist.length (fun p => ∃ k ∈ s.keylist, k.lastPos = p) owners
      (getMatchMap pf (getMax s.keylist) s.keyCount s.keylist ⟨s.matchMap, s.allocs⟩)) :
    ListsKeys (matchInit pf s) ↔ MemoryFits pf s.keylist := by
  rw [← memoryFits_iff h]
  have hcount := hs.keyCount
  constructor
  · intro hl a p hp
    obtain ⟨m, hm, hzero, harr⟩ := h.arr a p hp
    obtain ⟨hspace, hpos⟩ := fillArr_same s.keylist.length s.keylist m
    have hget : (matchInit pf s).matchMap p = some (fillArr s.keylist.length s.keylist m) := by
      simp only [matchInit, getMatchArr, hm, Option.map_some]
      rw [hcount]
    have hlist := hl.listarr p _ hget (hspace.trans hzero)
    rw [hpos] at hlist
    rw [← (h.entry p m hm).1]
    exact (fillArr_lists_iff hptr hzero harr).1 (hcount ▸ hlist)
  · intro hall
    have hlist : ∀ p m, (matchInit pf s).matchMap p = some m → m.space = 0 → m.listarr =
        ⟨(s.keylist.filter (·.endsIn m.pos)).map .key ++ List.replicate
          (s.keyCount - (s.keylist.filter (·.endsIn m.pos)).length) .null, false⟩ := by
      intro p m' hm' hzero'
      simp only [matchInit, getMatchArr, Option.map_eq_some_iff] at hm'
      obtain ⟨m, hm, rfl⟩ := hm'
      obtain ⟨hspace, hpos⟩ := fillArr_same s.keyCount s.keylist m
      have hzero := hspace.symm.trans hzero'
      obtain ⟨hp, -, hends⟩ := h.entry p m hm
      obtain ⟨a, ha⟩ := List.mem_iff_getElem?.1 ((h.mem p).2 (hends hzero))
      obtain ⟨m1, hm1, -, harr⟩ := h.arr a p ha
      cases hm.symm.trans hm1
      rw [hpos, hcount]
      exact (fillArr_lists_iff hptr hzero harr).2 (hp ▸ hall a p ha)
    refine ⟨hlist, fun p m hm hzero source site => ?_⟩
    have hle := List.length_filter_le (·.endsIn m.pos) s.keylist
    have hreads := @backMatch_keys (s.keylist.filter (·.endsIn m.pos))
      (s.keyCount - (s.keylist.filter (·.endsIn m.pos)).length) s.keyCount (by omega) source site
    rw [hlist p m hm hzero]
    exact ⟨hreads.1, fun k hk => List.mem_of_mem_filter (hreads.2 k hk)⟩

end

/-- **What the arrays hold**: with pointers of 8 bytes, after any calls of `AddKey` and one
`MatchInit` the arrays list the stored keys exactly if the memory of the arrays fits. -/
theorem matchInit_listsKeys_iff {pf : Platform} (hptr : pf.ptrSize = 8) (strs : List CString) :
    ListsKeys (matchInit pf (addKeys (State.new pf) strs)) ↔
      MemoryFits pf (addKeys (State.new pf) strs).keylist := by
  obtain ⟨hs, hmap, hallocs⟩ := addKeys_new pf strs (stateOk_new pf) rfl rfl
  generalize addKeys (State.new pf) strs = s at hs hmap hallocs ⊢
  by_cases hne : s.keylist = []
  · refine iff_of_true ?_ (.inl fun a ha => ?_)
    · have hnone : ∀ p, (matchInit pf s).matchMap p = none := fun p => by
        simp [matchInit, getMatchArr, getMatchMap, hne, hmap]
      refine ⟨fun p m hm => ?_, fun p m hm => ?_⟩
      all_goals
        rw [hnone] at hm
        cases hm
    · rw [hne] at ha
      cases ha
  · obtain ⟨owners, h⟩ := @getMatchMap_allocated pf s.keylist.length s.keylist hne
    refine @listsKeys_iff pf owners hptr s hs ?_
    rw [hs.keyCount, hmap, hallocs]
    exact h

/-- A memory in which no element is `NULL`, and none holds a key. -/
def wildPlatform : Platform := ⟨8, fun _ _ => .wild, 0⟩

/-- A memory that holds no key where the `memset` clears it, and one behind. -/
def presetPlatform : Platform := ⟨8, fun _ i => if i = 0 then .wild else .key xabKey, 0⟩

/-- Two keys that end in one block, the second of which is in its place already. -/
theorem matchInit_listsKeys_iff_preset : ListsKeys (matchInit presetPlatform
    (addKeys (State.new presetPlatform) [abKey.toCString, xabKey.toCString])) := by
  have hkeys : (addKeys (State.new presetPlatform) [abKey.toCString, xabKey.toCString]).keylist =
      [abKey, xabKey] := by decide +kernel
  have hslots : (newArr presetPlatform 0 2).slots = [.null, .key xabKey] := by decide +kernel
  have hpreset : Preset [.null, .key xabKey] [abKey, xabKey] := by
    intro i k hk
    match i, hk with
    | 0, hk => exact .inr ⟨rfl, hk⟩
    | 1, hk =>
      cases hk
      exact .inl rfl
  refine (matchInit_listsKeys_iff rfl _).2 (.inr ?_)
  rw [hkeys]
  refine ⟨by decide +kernel, ?_⟩
  change Preset (newArr presetPlatform 0 2).slots _
  rw [hslots]
  exact hpreset

/-- The array of the one key is not cleared: the key is not stored, and what `BackMatch` reads is no
key. -/
theorem matchInit_leaves_wild :
    ¬ ListsKeys (matchInit wildPlatform (addKeys (State.new wildPlatform) [abKey.toCString])) := by
  intro h
  have hfault : ((matchInit wildPlatform
      (addKeys (State.new wildPlatform) [abKey.toCString])).matchMap (getPos 97 98)).any (fun m =>
        m.space = 0 ∧ backMatch "ab".asciiBytes 0 1 m.listarr.slots = .fault) = true := by
    decide +kernel
  obtain ⟨m, hm, hfault⟩ := (Option.any_eq_true _ _).1 hfault
  obtain ⟨hzero, hfault⟩ := of_decide_eq_true hfault
  exact (h.reads _ m hm hzero "ab".asciiBytes 0).1 hfault

end MultiKey
