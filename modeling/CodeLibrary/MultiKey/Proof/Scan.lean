import CodeLibrary.MultiKey.Spec
import Mathlib.Data.List.Find

/-!
# The search

`Searchable s`: what `MatchMain` needs of an object: the blocks of the keys have entries, with no
space above a distance, and the arrays list the keys that end in their block. `PlaceFits`: what it
needs of a place in the source where it comes by: the index stays an `int`, the array is not read
beyond its end, and the space does not reach past the end of a key.

* `matchByte_iff`: `MatchByte` tells whether the key ends at the next index.
* `hasBlock_of_endsAt`: a key that ends a little behind a block has it.
* `matchMain_step`: an iteration goes on to a later index, with the results of the ends passed.
* `matchMain_report`: the search returns and has pushed one result for every index at which a key
  ends, where the places it comes to fit.
-/

namespace MultiKey

open CInt

/-! ## Blocks -/

theorem schar_toNat (c : UInt8) :
    (schar c).toNat = if c.toNat < 128 then c.toNat else c.toNat + 65280 := by
  have key : ∀ n : Fin 256, (schar (UInt8.ofFin n)).toNat =
      if n.val < 128 then n.val else n.val + 65280 := by decide +kernel
  exact key c.toFin

/-- Different blocks have different positions. -/
theorem getPos_inj {a b c d : UInt8} (h : getPos a b = getPos c d) : a = c ∧ b = d := by
  have h := congrArg UInt16.toNat h
  simp only [getPos, UInt16.toNat_add, UInt16.toNat_shiftLeft, schar_toNat, Nat.shiftLeft_eq] at h
  have ha := a.toNat_lt
  have hb := b.toNat_lt
  have hc := c.toNat_lt
  have hd := d.toNat_lt
  have key : a.toNat = c.toNat ∧ b.toNat = d.toNat := by
    rw [show (8 : UInt16).toNat % 16 = 8 from rfl] at h
    split at h <;> split at h <;> split at h <;> split at h <;> omega
  exact ⟨UInt8.toNat_inj.1 key.1, UInt8.toNat_inj.1 key.2⟩

/-- The key has the block `p`, `d` bytes before its last one. -/
def HasBlock (k : Key) (p : UInt16) (d : Nat) : Prop :=
  d + 2 ≤ k.length ∧ getPos (k.byte (k.length - 2 - d)) (k.byte (k.length - 1 - d)) = p

theorem Key.byte_eq (k : Key) {j : Nat} (h : j < k.length) : k.bytes[j]? = some (k.byte j) := by
  unfold Key.byte
  rw [List.getD_eq_getElem?_getD, List.getElem?_eq_getElem h]
  rfl

theorem endsIn_iff_hasBlock {k : Key} {pos : UInt8 × UInt8} :
    k.endsIn pos = true ↔ HasBlock k (getPos pos.1 pos.2) 0 := by
  have := k.two_le
  unfold Key.endsIn HasBlock
  simp only [Nat.sub_zero, decide_eq_true_eq]
  constructor
  · rintro rfl
    exact ⟨by omega, rfl⟩
  · intro hx
    obtain ⟨-, h⟩ := hx
    exact Prod.ext (getPos_inj h).1 (getPos_inj h).2

/-- The block of the source at index `i`. -/
def BlockAt (source : List UInt8) (i : Nat) (ch1 ch2 : UInt8) : Prop :=
  source[i]? = some ch1 ∧ source[i + 1]? = some ch2

/-- A key that ends behind a block it covers has the block. -/
theorem hasBlock_of_endsAt {k : Key} {source : List UInt8} {e i : Nat}
    (h : EndsAt k.bytes source e) (hi : i < e) (hle : e + 1 ≤ i + k.length) {ch1 ch2 : UInt8}
    (hb : BlockAt source i ch1 ch2) : HasBlock k (getPos ch1 ch2) (e - 1 - i) := by
  obtain ⟨hlen, h⟩ := endsAt_iff.1 h
  change k.length ≤ _ at hlen
  have h1 := h (e - i) (show _ < k.length by omega)
  have h2 := h (e - 1 - i) (show _ < k.length by omega)
  rw [show e - (e - i) = i by omega, hb.1] at h1
  rw [show e - (e - 1 - i) = i + 1 by omega, hb.2] at h2
  change _ = k.bytes[k.length - 1 - (e - i)]? at h1
  change _ = k.bytes[k.length - 1 - (e - 1 - i)]? at h2
  rw [k.byte_eq (by omega)] at h1 h2
  refine ⟨by omega, ?_⟩
  rw [Option.some.inj h1, Option.some.inj h2]
  congr 2
  omega

/-! ## `MatchByte` and `BackMatch` -/

theorem byteAt_natCast (source : List UInt8) (i : Nat) : byteAt source i = source[i]? := by
  unfold byteAt
  rw [if_neg (by omega), Int.toNat_natCast]

theorem matchFrom_iff (source : List UInt8) (p : Key) : ∀ (n : Nat) (site : Int),
    matchFrom source p (n + 1) site = true ↔
      ∀ t ≤ n + 1, byteAt source (site + 1 - t) = some (p.byte (n + 1 - t))
  | 0, site => by
    rw [matchFrom]
    simp only [matchFrom]
    constructor
    · intro h t ht
      split at h
      · cases h
      · rename_i hc
        push Not at hc
        rcases Nat.le_one_iff_eq_zero_or_eq_one.1 ht with rfl | rfl
        · simpa using hc.1
        · simpa using hc.2
    · intro h
      have h0 := h 0 (by omega)
      have h1 := h 1 (by omega)
      rw [if_neg]
      push Not
      exact ⟨by simpa using h0, by simpa using h1⟩
  | n + 1, site => by
    rw [matchFrom]
    have ih := matchFrom_iff source p n (site - 1)
    constructor
    · intro h t ht
      split at h
      · cases h
      · rename_i hc
        push Not at hc
        cases t with
        | zero => simpa using hc.1
        | succ t =>
          have := ih.1 h t (by omega)
          rw [show site - 1 + 1 - (t : Int) = site + 1 - ((t + 1 : Nat) : Int) by omega] at this
          rw [this]
          congr 2
          omega
    · intro h
      have h0 := h 0 (by omega)
      have h1 := h 1 (by omega)
      rw [if_neg]
      · apply ih.2
        intro t ht
        have := h (t + 1) (by omega)
        rw [show site + 1 - ((t + 1 : Nat) : Int) = site - 1 + 1 - (t : Int) by omega] at this
        rw [this]
        congr 2
        omega
      · push Not
        exact ⟨by simpa using h0, by simpa using h1⟩

/-- `MatchByte` tells whether the key ends at the next index. -/
theorem matchByte_iff {source : List UInt8} {i : Nat} {k : Key} :
    matchByte source i k = true ↔ EndsAt k.bytes source (i + 1) := by
  have h2 := k.two_le
  obtain ⟨n, hn⟩ : ∃ n, k.length = n + 2 := ⟨k.length - 2, by omega⟩
  unfold matchByte
  rw [hn, show n + 2 - 1 = n + 1 from rfl, matchFrom_iff, endsAt_iff]
  change _ ↔ k.length ≤ _ ∧ ∀ j < k.length, _ = k.bytes[k.length - 1 - j]?
  rw [hn]
  have hbyte : ∀ j < n + 2, k.bytes[n + 2 - 1 - j]? = some (k.byte (n + 1 - j)) := fun j hj => by
    rw [show n + 2 - 1 - j = n + 1 - j by omega, k.byte_eq (by omega)]
  constructor
  · intro h
    have hle : n + 2 ≤ i + 1 + 1 := by
      have h := h (n + 1) (Nat.le_refl _)
      by_contra hlt
      rw [byteAt, if_pos (by omega)] at h
      cases h
    refine ⟨hle, fun j hj => ?_⟩
    rw [hbyte j hj, ← h j (by omega), ← byteAt_natCast]
    congr 1
    omega
  · rintro ⟨hle, h⟩ t ht
    rw [show (i : Int) + 1 - t = ((i + 1 - t : Nat) : Int) by omega, byteAt_natCast,
      h t (by omega), hbyte t (by omega)]

/-- `BackMatch` finds the first key that matches, given that it comes to a `NULL`, to the last
element, or to a key that matches. -/
theorem backMatch_spec (source : List UInt8) (site : Int) (r : Nat) : ∀ (xs : List Key) (n : Nat),
    xs.length ≤ n → (xs.length = n ∨ 0 < r ∨ ∃ k ∈ xs, matchByte source site k = true) →
    backMatch source site n (xs.map .key ++ List.replicate r .null) =
      match xs.find? (matchByte source site) with
      | some k => .found k site
      | none => .notFound
  | [], n, hle, h => by
    cases n with
    | zero => rfl
    | succ n =>
      have hr : 0 < r := by simpa using h
      obtain ⟨r, rfl⟩ := Nat.exists_eq_succ_of_ne_zero (Nat.pos_iff_ne_zero.1 hr)
      rfl
  | k :: xs, n, hle, h => by
    cases n with
    | zero => simp at hle
    | succ n =>
      rw [List.map_cons, List.cons_append, backMatch, List.find?_cons]
      cases hk : matchByte source site k with
      | true => rfl
      | false =>
        rw [if_neg Bool.false_ne_true]
        apply backMatch_spec source site r xs n (by simpa using hle)
        simpa [hk] using h

/-! ## Objects that can be searched -/

/-- The array lists `xs`, the keys that end in the block `pos`, and has room for `r` more. -/
structure Lists (keys : List Key) (pos : UInt8 × UInt8) (xs : List Key) (r : Nat) (a : Arr) :
    Prop where
  slots : a.slots = xs.map .key ++ List.replicate r .null
  inside : a.overrun = false
  find : ∀ P : Key → Bool, xs.find? P = (keys.filter (·.endsIn pos)).find? P
  size : xs.length + r ≤ keys.length

/-- An entry of `match_map`, filled for `keys`. -/
structure EntryOk (keys : List Key) (p : UInt16) (m : MatchStruct) : Prop where
  pos : getPos m.pos.1 m.pos.2 = p
  nonneg : 0 ≤ m.space
  dist : ∀ k ∈ keys, ∀ d, HasBlock k p d → m.space ≤ d
  inside : m.listarr.overrun = false
  lists : m.space = 0 → ∃ xs r, Lists keys m.pos xs r m.listarr

/-- `match_map`, filled for `keys`. -/
structure MapOk (keys : List Key) (matchMap : UInt16 → Option MatchStruct) : Prop where
  known : ∀ k ∈ keys, ∀ p d, HasBlock k p d → matchMap p ≠ none
  entry : ∀ p m, matchMap p = some m → EntryOk keys p m

structure Searchable (s : State) : Prop where
  keyCount : s.keyCount = s.keylist.length
  max_pos : 1 ≤ s.max
  max_lt : ∀ k ∈ s.keylist, s.max < k.length
  map : MapOk s.keylist s.matchMap

/-- The entry of the block of the source at index `n`. -/
def entryAt (s : State) (source : List UInt8) (n : Nat) : Option MatchStruct :=
  match source[n]?, source[n + 1]? with
  | some ch1, some ch2 => s.matchMap (getPos ch1 ch2)
  | _, _ => none

/-- How far the search goes on from index `n`. -/
def stride (s : State) (source : List UInt8) (n : Nat) : Int :=
  match entryAt s source n with
  | none => s.max
  | some m => if m.space = 0 then 1 else m.space

/-- The array of an entry is read up to its end at most, at index `n`: it is as long as the list of
keys, or holds a `NULL`, or a key is found there. -/
def ArrayFits (s : State) (source : List UInt8) (n : Nat) (m : MatchStruct) : Prop :=
  m.space = 0 → m.listarr.slots.length = s.keyCount ∨ .null ∈ m.listarr.slots ∨
    ∃ k ∈ s.keylist, EndsAt k.bytes source (n + 1)

instance (s : State) (source : List UInt8) (n : Nat) : DecidablePred (ArrayFits s source n) :=
  fun _ => inferInstanceAs (Decidable (_ → _))

/-- The space of an entry does not reach past the end of a key, from index `n` on. -/
def SpaceFits (s : State) (source : List UInt8) (n : Nat) (m : MatchStruct) : Prop :=
  ∀ e < n + m.space.toNat + 1, n < e → ∀ k ∈ s.keylist, ¬ EndsAt k.bytes source e

instance (s : State) (source : List UInt8) (n : Nat) : DecidablePred (SpaceFits s source n) :=
  fun _ => inferInstanceAs (Decidable (∀ e < _, _ → ∀ k ∈ s.keylist, ¬ _))

/-- The place at index `n` of the source fits the object. -/
structure PlaceFits (s : State) (source : List UInt8) (n : Nat) : Prop where
  int : n + stride s source n < 2 ^ 31
  array : ∀ m ∈ entryAt s source n, ArrayFits s source n m
  space : ∀ m ∈ entryAt s source n, SpaceFits s source n m

instance (s : State) (source : List UInt8) : DecidablePred (PlaceFits s source) := fun _ =>
  decidable_of_iff (_ ∧ _ ∧ _) ⟨fun h => ⟨h.1, h.2.1, h.2.2⟩, fun h => ⟨h.int, h.array, h.space⟩⟩

section
variable {keys : List Key} {source : List UInt8} {n : Nat} {ch1 ch2 : UInt8}
  (hb : BlockAt source n ch1 ch2)
include hb

theorem endsIn_of_endsAt {k : Key} (h : EndsAt k.bytes source (n + 1)) :
    k.endsIn (ch1, ch2) = true := by
  have := k.two_le
  have hd := hasBlock_of_endsAt h (Nat.lt_succ_self n) (by omega) hb
  rw [show n + 1 - 1 - n = 0 by omega] at hd
  exact endsIn_iff_hasBlock.2 hd

/-- Behind the block the array gives the first key that ends there. -/
theorem Lists.backMatch {xs : List Key} {r : Nat} {a : Arr} (h : Lists keys (ch1, ch2) xs r a)
    (hready : a.slots.length = keys.length ∨ .null ∈ a.slots ∨
      ∃ k ∈ keys, EndsAt k.bytes source (n + 1)) : backMatch source n keys.length a.slots =
      match keys.find? (fun k => EndsAt k.bytes source (n + 1)) with
      | some k => .found k n
      | none => .notFound := by
  have hsize := h.size
  have hfind : xs.find? (matchByte source n) =
      keys.find? (fun k => EndsAt k.bytes source (n + 1)) := by
    rw [h.find, List.find?_filter]
    refine List.find?_congr fun k _ => ?_
    rw [decide_eq_decide, matchByte_iff]
    exact ⟨fun hk => hk.2, fun hk => ⟨endsIn_of_endsAt hb hk, hk⟩⟩
  have hend : xs.length = keys.length ∨ 0 < r ∨ ∃ k ∈ xs, matchByte source n k = true := by
    rcases hready with hr | hr | ⟨k, hk, hends⟩
    · rw [h.slots] at hr
      simp only [List.length_append, List.length_map, List.length_replicate] at hr
      omega
    · rw [h.slots] at hr
      exact .inr (.inl (by simpa [Nat.pos_iff_ne_zero] using hr))
    · have hsome : (xs.find? (matchByte source n)).isSome = true := by
        rw [hfind, List.find?_isSome]
        exact ⟨k, hk, by simpa using hends⟩
      exact .inr (.inr (List.find?_isSome.1 hsome))
  rw [h.slots, backMatch_spec source n r xs _ (by omega) hend, hfind]

end

/-- The places fit that the search comes to. -/
def PlacesFit (s : State) (source : List UInt8) : Prop :=
  s.max < source.length → ∀ (n : Nat) rs,
    Loop.Visits (matchMain s source) (0, []) (↑n, rs) → n + 1 < source.length →
      PlaceFits s source n

/-- The index stays an `int` in the search. -/
def StaysInt (s : State) (source : List UInt8) : Prop :=
  s.max < source.length → ∀ (n : Nat) rs,
    Loop.Visits (matchMain s source) (0, []) (↑n, rs) → n + 1 < source.length →
      n + stride s source n < 2 ^ 31

/-- The head of the loop before the block at `n`. -/
def headAt (keys : List Key) (source : List UInt8) (n : Nat) : Head :=
  (↑n, reportBelow keys source (n + 1))

/-- No key ends at the first index. -/
theorem headAt_zero (keys : List Key) (source : List UInt8) :
    (0, []) = headAt keys source 0 := by
  have hstart : reportBelow keys source 1 = [] := by
    refine reportBelow_skip (Nat.zero_le 1) fun e _ he k _ hends => ?_
    have := k.two_le
    have : k.length ≤ e + 1 := hends.1
    omega
  rw [headAt, hstart]
  rfl

/-! ## The index of `AMatch` -/

theorem blockAt_exists {source : List UInt8} {n : Nat} (hn : n + 1 < source.length) :
    ∃ ch1 ch2, BlockAt source n ch1 ch2 :=
  ⟨_, _, List.getElem?_eq_getElem (Nat.lt_of_succ_lt hn), List.getElem?_eq_getElem hn⟩

theorem BlockAt.byteAt {source : List UInt8} {n : Nat} {ch1 ch2 : UInt8}
    (hb : BlockAt source n ch1 ch2) :
    byteAt source n = some ch1 ∧ byteAt source (n + 1) = some ch2 := by
  refine ⟨by rw [byteAt_natCast, hb.1], ?_⟩
  rw [show (n : Int) + 1 = (n + 1 : Nat) from rfl, byteAt_natCast, hb.2]

theorem BlockAt.entryAt {s : State} {source : List UInt8} {n : Nat} {ch1 ch2 : UInt8}
    (hb : BlockAt source n ch1 ch2) : entryAt s source n = s.matchMap (getPos ch1 ch2) := by
  simp only [MultiKey.entryAt, hb.1, hb.2]

/-- What an iteration does before the last byte of the source. -/
theorem aMatch_eq (s : State) {source : List UInt8} {n : Nat} (hn : n + 1 < source.length) :
    aMatch s source n =
      match entryAt s source n with
      | none => .inl (addInt n s.max)
      | some m =>
        if m.space = 0 then
          match backMatch source n s.keyCount m.listarr.slots with
          | .notFound => .inl (addInt n 1)
          | r => .inr r
        else .inl (addInt n m.space) := by
  obtain ⟨ch1, ch2, hb⟩ := blockAt_exists hn
  have hentry := hb.entryAt (s := s)
  rw [aMatch, if_pos (by omega), hb.byteAt.1, hb.byteAt.2]
  generalize entryAt s source n = entry at hentry ⊢
  subst hentry
  rfl

/-- Where the index does not stay an `int`, the search goes on before the source. -/
theorem matchMain_overflow {s : State} {source : List UInt8} {n : Nat} (hn : n + 1 < source.length)
    (hlen : source.length < 2 ^ 31) (hover : 2 ^ 31 ≤ n + stride s source n)
    (hstride : stride s source n < 2 ^ 31) (rs : List Result) :
    ∃ i < 0, matchMain s source (↑n, rs) = .inl (i, rs) := by
  have hneg := addInt_neg hover (by omega)
  have hiter := aMatch_eq s hn
  unfold stride at hover hneg
  cases hm : entryAt s source n with
  | none =>
    simp only [hm] at hiter hneg
    exact ⟨_, hneg, by simp only [matchMain, hiter]⟩
  | some m =>
    simp only [hm] at hiter hneg hover
    by_cases hspace : m.space = 0
    · rw [if_pos hspace] at hover
      omega
    · rw [if_neg hspace] at hiter hneg
      exact ⟨_, hneg, by simp only [matchMain, hiter]⟩

section
variable {s : State} (h : Searchable s) {source : List UInt8} {n : Nat}
include h

/-- No key ends within `max` behind a block that no key has. -/
theorem Searchable.unknown {ch1 ch2 : UInt8} (hb : BlockAt source n ch1 ch2)
    (hm : s.matchMap (getPos ch1 ch2) = none) :
    ∀ e, n + 1 ≤ e → e < n + s.max.toNat + 1 → ∀ k ∈ s.keylist, ¬ EndsAt k.bytes source e := by
  intro e h1 h2 k hk hends
  have := h.max_lt k hk
  exact h.map.known k hk _ _ (hasBlock_of_endsAt hends h1 (by omega) hb) hm

/-- No key ends within the space behind a block, where it is not above `max`. -/
theorem Searchable.spaceFits (hn : n + 1 < source.length) {m : MatchStruct}
    (hm : entryAt s source n = some m) (hle : m.space ≤ s.max) : SpaceFits s source n m := by
  intro e h2 h1 k hk hends
  obtain ⟨ch1, ch2, hb⟩ := blockAt_exists hn
  rw [hb.entryAt] at hm
  have hmax := h.max_lt k hk
  have hnonneg := (h.map.entry _ _ hm).nonneg
  have := (h.map.entry _ _ hm).dist k hk _ (hasBlock_of_endsAt hends h1 (by omega) hb)
  omega

/-- The array at a place that fits gives the first key that ends there. -/
theorem Searchable.backMatch (hn : n + 1 < source.length) {m : MatchStruct}
    (hm : entryAt s source n = some m) (hspace : m.space = 0) (hfit : ArrayFits s source n m) :
    backMatch source n s.keyCount m.listarr.slots =
      match s.keylist.find? (fun k => EndsAt k.bytes source (n + 1)) with
      | some k => .found k n
      | none => .notFound := by
  obtain ⟨ch1, ch2, hb⟩ := blockAt_exists hn
  rw [hb.entryAt] at hm
  have hentry := h.map.entry _ _ hm
  obtain ⟨xs, r, hlists⟩ := hentry.lists hspace
  have hpos : m.pos = (ch1, ch2) :=
    Prod.ext (getPos_inj hentry.pos).1 (getPos_inj hentry.pos).2
  rw [hpos] at hlists
  have hready := hfit hspace
  rw [h.keyCount] at hready ⊢
  exact hlists.backMatch hb hready

/-- The search goes forward. -/
theorem Searchable.stride_pos (hn : n + 1 < source.length) : 0 < stride s source n := by
  have hmax := h.max_pos
  unfold stride
  cases hm : entryAt s source n with
  | none => exact hmax
  | some m =>
    obtain ⟨ch1, ch2, hb⟩ := blockAt_exists hn
    rw [hb.entryAt] at hm
    have hnonneg := (h.map.entry _ _ hm).nonneg
    dsimp only
    split <;> omega

/-- What an iteration does at a place that fits: at the end of keys it finds the first one that ends
there. -/
theorem Searchable.aMatch_place (hn : n + 1 < source.length) (hfit : PlaceFits s source n) :
    aMatch s source n =
      match entryAt s source n with
      | none => .inl (n + s.max)
      | some m =>
        if m.space = 0 then
          match s.keylist.find? (fun k => EndsAt k.bytes source (n + 1)) with
          | none => .inl (n + 1)
          | some k => .inr (.found k n)
        else .inl (n + m.space) := by
  have hint := hfit.int
  have hpos := h.stride_pos hn
  rw [aMatch_eq s hn]
  unfold stride at hint hpos
  cases hm : entryAt s source n with
  | none =>
    rw [hm] at hint hpos
    dsimp only at hint hpos ⊢
    rw [addInt_of_lt (by omega) hint]
  | some m =>
    rw [hm] at hint hpos
    dsimp only at hint hpos ⊢
    by_cases hspace : m.space = 0
    · rw [if_pos hspace] at hint
      rw [if_pos hspace, if_pos hspace, h.backMatch hn hm hspace (hfit.array m hm)]
      cases s.keylist.find? (fun k => EndsAt k.bytes source (n + 1)) with
      | none =>
        dsimp only
        rw [addInt_of_lt (by omega) hint]
      | some k => rfl
    · rw [if_neg hspace] at hint hpos
      rw [if_neg hspace, if_neg hspace, addInt_of_lt (by omega) hint]

/-- **One iteration of the search** at a place that fits: on to a later index, with the results of
the ends passed. -/
theorem matchMain_step (hfit : n + 1 < source.length → PlaceFits s source n) :
    Sum.elim
      (fun hd => n < source.length ∧ ∃ n', n < n' ∧ hd = headAt s.keylist source n')
      (fun r => r = some (report s.keylist source))
      (matchMain s source (headAt s.keylist source n)) := by
  unfold headAt
  by_cases hn : n + 1 < source.length
  swap
  · -- the end of the source
    have hnone : aMatch s source n = .inr .notFound := by
      unfold aMatch
      rw [if_neg (by omega)]
    simp only [matchMain, hnone, Sum.elim_inr, Option.some.injEq]
    by_cases hle : source.length ≤ n + 1
    · refine reportBelow_skip hle fun e he _ k _ hends => ?_
      have := hends.lt k.bytes_ne_nil
      omega
    · omega
  · replace hfit := hfit hn
    have hstep := h.aMatch_place hn hfit
    have hmax := h.max_pos
    obtain ⟨ch1, ch2, hb⟩ := blockAt_exists hn
    have hbelow := reportBelow_succ s.keylist source (n + 1)
    rw [resultAt] at hbelow
    cases hm : entryAt s source n with
    | none =>
      simp only [hm] at hstep
      simp only [matchMain, hstep, Sum.elim_inl]
      refine ⟨by omega, n + s.max.toNat, by omega, Prod.ext (by dsimp only; omega) ?_⟩
      exact (reportBelow_skip (by omega) (h.unknown hb (hb.entryAt.symm.trans hm))).symm
    | some m =>
      simp only [hm] at hstep
      by_cases hspace : m.space = 0
      · rw [if_pos hspace] at hstep
        cases hfind : s.keylist.find? (fun k => EndsAt k.bytes source (n + 1)) with
        | none =>
          simp only [hfind] at hstep
          simp only [matchMain, hstep, Sum.elim_inl]
          refine ⟨by omega, n + 1, Nat.lt_succ_self n, Prod.ext rfl ?_⟩
          rw [hbelow, hfind]
          simp
        | some k =>
          simp only [hfind] at hstep
          simp only [matchMain, hstep, Sum.elim_inl]
          refine ⟨by omega, n + 1, Nat.lt_succ_self n, Prod.ext rfl ?_⟩
          rw [hbelow, hfind]
          simp only [Option.map_some, Option.toList_some, List.append_cancel_left_eq,
            List.cons.injEq, Result.mk.injEq, and_true]
          omega
      · have hnonneg := (h.map.entry _ _ (hb.entryAt.symm.trans hm)).nonneg
        rw [if_neg hspace] at hstep
        simp only [matchMain, hstep, Sum.elim_inl]
        refine ⟨by omega, n + m.space.toNat, by omega, Prod.ext (by dsimp only; omega) ?_⟩
        exact (reportBelow_skip (by omega) fun e h1 h2 => hfit.space m hm e h2 h1).symm

/-- Where the places it comes to fit, a search stands at heads of the loop with the results of the
ends passed. -/
theorem visits_headAt {n0 : Nat} (hfits : ∀ n, Loop.Visits (matchMain s source)
      (headAt s.keylist source n0) (headAt s.keylist source n) → n + 1 < source.length →
      PlaceFits s source n) {hd : Head}
    (hv : Loop.Visits (matchMain s source) (headAt s.keylist source n0) hd) :
    ∃ n, hd = headAt s.keylist source n := by
  induction hv with
  | refl => exact ⟨n0, rfl⟩
  | tail hv hab ih =>
    obtain ⟨n, rfl⟩ := ih
    have hstep := matchMain_step h (hfits n hv)
    rw [hab] at hstep
    obtain ⟨-, n', -, hb⟩ := hstep
    exact ⟨n', hb⟩

/-- **The search** returns and has pushed one result for every index at which a key ends, where the
places it comes to fit. -/
theorem matchMain_report (hflag : s.matchFlag = true) (hfits : PlacesFit s source) :
    MatchMainReturns s source (some (report s.keylist source)) := by
  unfold MatchMainReturns
  rw [if_neg (by simp [hflag])]
  split
  · rename_i hle
    -- no key fits into the source
    have : report s.keylist source = reportBelow s.keylist source 0 := by
      refine reportBelow_skip (Nat.zero_le _) fun e _ he k hk hends => ?_
      have := h.max_lt k hk
      have : k.length ≤ e + 1 := hends.1
      omega
    rw [this]
    rfl
  · rename_i hlt
    replace hfits : ∀ (n : Nat) rs, _ := hfits (by omega)
    have h0 := headAt_zero s.keylist source
    rw [h0] at hfits ⊢
    have hstep : ∀ hd : Head, Loop.Visits (matchMain s source) (headAt s.keylist source 0) hd →
        Sum.elim (fun hd' => Loop.Visits (matchMain s source) (headAt s.keylist source 0) hd' ∧
            (source.length - hd'.1).toNat < (source.length - hd.1).toNat)
          (fun r => r = some (report s.keylist source)) (matchMain s source hd) := by
      intro hd hv
      obtain ⟨n, rfl⟩ := visits_headAt h (fun n => hfits n _) hv
      have := matchMain_step h (hfits n _ hv)
      cases hs : matchMain s source (headAt s.keylist source n) with
      | inr r =>
        rw [hs] at this
        exact this
      | inl hd' =>
        rw [hs] at this
        obtain ⟨hlt, n', hn', rfl⟩ := this
        refine ⟨hv.tail hs, ?_⟩
        simp only [headAt]
        omega
    obtain ⟨r, hr, rfl⟩ := Loop.total_rule _ .refl hstep
    exact hr

end

end MultiKey
