import CodeLibrary.Lib.Border
import CodeLibrary.Kmp.Kmp

/-!
# The table of `makeNext`

* `TableOk`: the entries below `t` are the longest borders of the prefixes of the pattern.
* `makeStep_spec`: a step keeps this, with the search for the next border (`MakeInv`), and brings
  the loop nearer to its end.
* `makeNext_spec`: `makeNext` returns, without an access out of bounds, and leaves the borders of
  all prefixes.
* `longest_iff`: the longest borders are the longest proper prefixes that are suffixes
  (`LongestBorder`). `makeNext_ok`: these are what `makeNext` leaves, and nothing else is changed.
-/

namespace Kmp

open Border

/-- A length that an `int` holds. -/
theorem strlen_eq {s : List UInt8} (h : s.length < 2 ^ 31) : strlen s = s.length := by
  unfold strlen
  exact CInt.toInt_natCast h

/-- The characters of a string, NUL from its end on. -/
def symbol (s : List UInt8) (i : Nat) : UInt8 := s.getD i 0

theorem charAt_eq {s : List UInt8} {i : Nat} (h : i ≤ s.length) :
    charAt s i = some (symbol s i) := by
  obtain h | rfl := Nat.lt_or_eq_of_le h
  · simp [charAt, symbol, List.getElem?_append_left h, h]
  · simp [charAt, symbol]

theorem symbol_eq {s : List UInt8} {i : Nat} (h : i < s.length) : s[i]? = some (symbol s i) := by
  simp [symbol, h]

theorem symbol_length (s : List UInt8) : symbol s s.length = 0 := by
  simp [symbol]

/-- The entries below `t`: entry `i` is the longest border of the first `i + 1` characters. -/
def TableOk (P : List UInt8) (next : List Nat) (t : Nat) : Prop :=
  ∀ i < t, ∃ b, next[i]? = some b ∧ Longest (symbol P) (symbol P) (i + 1) i b

/-- The loops of `makeNext` search for the longest border at `q`. -/
structure MakeInv (P : List UInt8) (s : MakeState) : Prop where
  pos : 0 < s.q
  le : s.q ≤ P.length
  room : P.length ≤ s.next.length
  table : TableOk P s.next s.q
  lt : s.k < s.q
  search : Search (symbol P) (symbol P) s.q s.q s.k

theorem TableOk.nextAt {P : List UInt8} {next : List Nat} {t i : Nat} (h : TableOk P next t)
    (hi : i < t) (ht : t ≤ P.length) : ∃ b, nextAt P.length next i = some b ∧
      Longest (symbol P) (symbol P) (i + 1) i b := by
  obtain ⟨b, hb, hlong⟩ := h i hi
  exact ⟨b, by rw [Kmp.nextAt, if_pos (by omega), hb], hlong⟩

/-- The entry that ends a round. -/
theorem TableOk.set {P : List UInt8} {next : List Nat} {q k : Nat} (h : TableOk P next q)
    (hq : q < next.length) (hk : Longest (symbol P) (symbol P) (q + 1) q k) :
    TableOk P (next.set q k) (q + 1) := by
  intro i hi
  by_cases hiq : i = q
  · subst hiq
    exact ⟨k, by simp [hq], hk⟩
  · obtain ⟨b, hb, hlong⟩ := h i (by omega)
    exact ⟨b, by rw [List.getElem?_set_ne (Ne.symm hiq), hb], hlong⟩

/-- The end of a round of the `for` loop. -/
theorem MakeInv.next_round {P : List UInt8} {s : MakeState} (h : MakeInv P s)
    (hlt : s.q < P.length) {k : Nat} (hk : Longest (symbol P) (symbol P) (s.q + 1) s.q k) :
    MakeInv P ⟨s.q + 1, k, s.next.set s.q k⟩ := by
  have hroom := h.room
  have hle := hk.le
  refine ⟨Nat.succ_pos _, hlt, by simpa using hroom, ?_, Nat.lt_succ_of_le hle, ?_⟩
  · exact h.table.set (by omega) hk
  · refine ⟨hk.ends, Nat.le_succ_of_le hle, fun j hj hx _ => hk.max j (Nat.le_of_lt_succ hj) hx⟩

/-- What is left to do for the loops of `makeNext`. -/
def makeVariant (P : List UInt8) (s : MakeState) : Nat := 2 * (P.length - s.q) + s.k

theorem makeBody_spec {P : List UInt8} {s : MakeState} (h : MakeInv P s) (hlt : s.q < P.length) :
    ∃ s', makeBody P s = some s' ∧ MakeInv P s' ∧ makeVariant P s' < makeVariant P s := by
  have hkq := h.lt
  have hroom := h.room
  have hset : ∀ k, setNext P.length s.next s.q k = some (s.next.set s.q k) := fun k =>
    if_pos ⟨hlt, by omega⟩
  simp only [makeBody, charAt_eq (Nat.le_of_lt hlt), charAt_eq (show s.k ≤ P.length by omega),
    Option.bind_eq_bind, Option.bind_some]
  by_cases hfall : s.k > 0 ∧ symbol P s.q ≠ symbol P s.k
  · obtain ⟨hk0, hne⟩ := hfall
    obtain ⟨b, hb, hlong⟩ := h.table.nextAt (show s.k - 1 < s.q by omega) h.le
    rw [Nat.sub_add_cancel hk0] at hlong
    have hbk : b < s.k := by have := hlong.le; omega
    rw [if_pos ⟨hk0, hne⟩, hb]
    refine ⟨_, rfl, ⟨h.pos, h.le, h.room, h.table, ?_, ?_⟩, ?_⟩
    · exact Nat.lt_trans hbk hkq
    · exact h.search.fall (Ne.symm hne) hk0 hlong
    · simp only [makeVariant]
      omega
  · rw [if_neg hfall]
    by_cases heq : symbol P s.q = symbol P s.k
    · rw [if_pos heq, hset]
      refine ⟨_, rfl, h.next_round hlt (h.search.match heq.symm hkq), ?_⟩
      simp only [makeVariant]
      omega
    · have hk0 : s.k = 0 := by
        by_contra hk
        exact hfall ⟨Nat.pos_of_ne_zero hk, heq⟩
      have hs := h.search
      rw [hk0] at heq hs
      rw [if_neg (by rwa [hk0]), hset, hk0]
      refine ⟨_, rfl, h.next_round hlt (hs.fail (Ne.symm heq)), ?_⟩
      simp only [makeVariant]
      omega

theorem makeStep_spec {P : List UInt8} (hPint : P.length < 2 ^ 31) (s : MakeState)
    (h : MakeInv P s) :
    Sum.elim (fun s' => MakeInv P s' ∧ makeVariant P s' < makeVariant P s)
      (fun r => ∃ next', r = some next' ∧ TableOk P next' P.length) (makeStep P s) := by
  rw [makeStep, strlen_eq hPint]
  simp only [Int.ofNat_lt]
  by_cases hlt : s.q < P.length
  · obtain ⟨s', hs', hinv⟩ := makeBody_spec h hlt
    rw [if_pos hlt, hs']
    exact hinv
  · have hq : s.q = P.length := by have := h.le; omega
    rw [if_neg hlt]
    exact ⟨s.next, rfl, hq ▸ h.table⟩

/-- The first character alone has no border but the empty one. -/
theorem makeInv_start {P : List UInt8} {next : List Nat} (hP : P ≠ [])
    (hnext : P.length ≤ next.length) : MakeInv P ⟨1, 0, next.set 0 0⟩ := by
  have hpos := List.length_pos_iff.2 hP
  have hlong : Longest (symbol P) (symbol P) 1 0 0 :=
    ⟨ends_zero _ _ _, Nat.le_refl 0, fun j hj _ => hj⟩
  refine ⟨Nat.one_pos, hpos, by simpa using hnext, ?_, Nat.one_pos, ?_⟩
  · intro i hi
    obtain rfl : i = 0 := Nat.lt_one_iff.1 hi
    exact ⟨0, by simp [show 0 < next.length by omega], hlong⟩
  · exact ⟨ends_zero _ _ _, Nat.zero_le 1, fun j hj _ _ => Nat.le_of_lt_succ hj⟩

/-- `makeNext` returns the table of longest borders. -/
theorem makeNext_spec {P : List UInt8} {next : List Nat} (hP : P ≠ [])
    (hPint : P.length < 2 ^ 31) (hnext : P.length ≤ next.length) :
    ∃ next', MakeNextReturns P next (some next') ∧ TableOk P next' P.length := by
  have hpos := List.length_pos_iff.2 hP
  have hset : setNext P.length next 0 0 = some (next.set 0 0) :=
    if_pos ⟨hpos, Nat.lt_of_lt_of_le hpos hnext⟩
  obtain ⟨r, hr, next', rfl, htable⟩ :=
    Loop.total_rule (makeVariant P) (makeInv_start hP hnext) (makeStep_spec hPint)
  refine ⟨next', ?_, htable⟩
  rw [MakeNextReturns, hset]
  exact hr

theorem MakeNextReturns.det {P : List UInt8} {next : List Nat} {r r' : Option (List Nat)}
    (h : MakeNextReturns P next r) (h' : MakeNextReturns P next r') : r = r' := by
  unfold MakeNextReturns at h h'
  cases hset : setNext P.length next 0 0 with
  | some next0 =>
    simp only [hset] at h h'
    exact h.det h'
  | none =>
    simp only [hset] at h h'
    exact h.trans h'.symm

/-! ## What `makeNext` leaves -/

/-- `b` is the length of a proper prefix of `p` that is also a suffix of it. -/
def IsBorder (p : List UInt8) (b : Nat) : Prop := b < p.length ∧ p.take b <:+ p

/-- `b` is the length of the longest proper prefix of `p` that is also a suffix of it. -/
def LongestBorder (p : List UInt8) (b : Nat) : Prop :=
  IsBorder p b ∧ ∀ j, IsBorder p j → j ≤ b

/-- Where `b` characters end, told by characters and by lists. -/
theorem ends_iff_isBorder {P : List UInt8} {q b : Nat} (hq : q < P.length) (hb : b ≤ q) :
    Ends (symbol P) (symbol P) (q + 1) b ↔ IsBorder (P.take (q + 1)) b := by
  have hlen : (P.take (q + 1)).length = q + 1 := by
    rw [List.length_take]
    omega
  have hget : ∀ i, i < q + 1 → (P.take (q + 1))[i]? = some (symbol P i) := by
    intro i hi
    rw [List.getElem?_take_of_lt hi, symbol_eq (by omega)]
  unfold Ends IsBorder
  rw [hlen, List.suffix_iff_eq_drop, hlen, List.length_take, hlen, Nat.min_eq_left (by omega)]
  constructor
  · intro h
    refine ⟨by omega, List.ext_getElem? fun j => ?_⟩
    rw [List.getElem?_drop, List.getElem?_take]
    by_cases hj : j < b
    · rw [if_pos hj, hget j (by omega), hget _ (by omega), h.2 j hj]
    · rw [if_neg hj, List.getElem?_eq_none (by omega)]
  · intro h
    refine ⟨by omega, fun j hj => ?_⟩
    have hj' := congrArg (·[j]?) h.2
    rw [List.getElem?_drop, List.getElem?_take_of_lt hj, hget j (by omega),
      hget _ (by omega)] at hj'
    exact (Option.some.inj hj').symm

theorem longest_iff {P : List UInt8} {q b : Nat} (hq : q < P.length) :
    Longest (symbol P) (symbol P) (q + 1) q b ↔ LongestBorder (P.take (q + 1)) b := by
  have hlen : (P.take (q + 1)).length = q + 1 := by
    rw [List.length_take]
    omega
  have hle : ∀ {j}, IsBorder (P.take (q + 1)) j → j ≤ q := fun hj => by
    have := hj.1
    omega
  constructor
  · intro h
    refine ⟨(ends_iff_isBorder hq h.le).1 h.ends, fun j hj => ?_⟩
    exact h.max j (hle hj) ((ends_iff_isBorder hq (hle hj)).2 hj)
  · intro h
    have hb := hle h.1
    refine ⟨(ends_iff_isBorder hq hb).2 h.1, hb, fun j hj hx => ?_⟩
    exact h.2 j ((ends_iff_isBorder hq hj).1 hx)

/-- `next'` is `next` but for the entries below `m`. -/
def SameFrom (m : Nat) (next next' : List Nat) : Prop :=
  next'.length = next.length ∧ ∀ i, m ≤ i → next'[i]? = next[i]?

theorem SameFrom.set {m : Nat} {next next' next'' : List Nat} (h : SameFrom m next next')
    {i k : Nat} (hset : setNext m next' i k = some next'') : SameFrom m next next'' := by
  unfold setNext at hset
  split at hset
  · rename_i hi
    cases hset
    refine ⟨by rw [List.length_set, h.1], fun j hj => ?_⟩
    rw [List.getElem?_set_ne (by omega), h.2 j hj]
  · cases hset

theorem makeBody_sameFrom {P : List UInt8} {next : List Nat} {s s' : MakeState}
    (h : SameFrom P.length next s.next) (hs : makeBody P s = some s') :
    SameFrom P.length next s'.next := by
  simp only [makeBody, Option.bind_eq_bind, Option.bind_eq_some_iff] at hs
  obtain ⟨pq, -, pk, -, hs⟩ := hs
  split at hs
  · obtain ⟨k, -, hk⟩ := Option.bind_eq_some_iff.1 hs
    cases hk
    exact h
  · obtain ⟨next', hset, hn⟩ := Option.bind_eq_some_iff.1 hs
    cases hn
    exact h.set hset

/-- What `makeNext` leaves as it was. -/
theorem MakeNextReturns.sameFrom {P : List UInt8} {next next' : List Nat}
    (h : MakeNextReturns P next (some next')) : SameFrom P.length next next' := by
  unfold MakeNextReturns at h
  split at h
  · rename_i next0 hset
    have h0 : SameFrom P.length next next0 := SameFrom.set ⟨rfl, fun _ _ => rfl⟩ hset
    refine (h.post (I := fun s => SameFrom P.length next s.next)
      (Q := fun r => ∀ next', r = some next' → SameFrom P.length next next') h0 ?_ ?_) next' rfl
    · intro a b ha hab
      rw [makeStep] at hab
      split at hab
      · split at hab
        · rename_i s' hs'
          cases hab
          exact makeBody_sameFrom ha hs'
        · cases hab
      · cases hab
    · intro a q ha hq n hn
      rw [makeStep] at hq
      split at hq
      · split at hq
        · cases hq
        · cases hq
          cases hn
      · cases hq
        cases hn
        exact ha
  · cases h

/-- **The table**: with room for an entry for each character of a pattern whose length is an `int`,
`makeNext` returns
without an access to any other entry, and leaves at each index the length of the longest proper
prefix of the pattern up to there that is also a suffix of it. -/
theorem makeNext_ok (P : List UInt8) (next : List Nat) (hP : P ≠ [])
    (hPint : P.length < 2 ^ 31) (hnext : P.length ≤ next.length) :
    ∃ next', (∀ r, MakeNextReturns P next r ↔ r = some next') ∧
      SameFrom P.length next next' ∧
      ∀ q < P.length, ∃ b, next'[q]? = some b ∧ LongestBorder (P.take (q + 1)) b := by
  obtain ⟨next', hret, htable⟩ := makeNext_spec hP hPint hnext
  refine ⟨next', fun r => ⟨fun h => h.det hret, fun h => h ▸ hret⟩, hret.sameFrom, ?_⟩
  intro q hq
  obtain ⟨b, hb, hlong⟩ := htable q hq
  exact ⟨b, hb, (longest_iff hq).1 hlong⟩

/-- The table of `abaaba`, in an array with an entry to spare. -/
theorem makeNext_ok_nested : ∃ next', MakeNextReturns [97, 98, 97, 97, 98, 97]
    [9, 9, 9, 9, 9, 9, 9] (some next') ∧ next'[6]? = some 9 ∧
      ∃ b, next'[5]? = some b ∧ LongestBorder [97, 98, 97, 97, 98, 97] b := by
  obtain ⟨next', hret, hsame, hq⟩ := makeNext_ok [97, 98, 97, 97, 98, 97]
    [9, 9, 9, 9, 9, 9, 9] (by decide) (by decide) (by decide)
  exact ⟨next', (hret _).2 rfl, hsame.2 6 (by decide), hq 5 (by decide)⟩

end Kmp
