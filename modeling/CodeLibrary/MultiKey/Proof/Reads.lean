import CodeLibrary.MultiKey.Reads
import CodeLibrary.MultiKey.Proof.Lifecycle

/-!
# Where a search reads the source

`MatchByte` compares from the last byte of a key down and does not look where the source begins: it
reads before it where all of the source up to there is the end of a longer key (`Overhangs`).

* `matchByteReads_iff`: `MatchByte` reads inside the source just where the key does not overhang.
* `mem_tried_iff`: `BackMatch` tries a key that overhangs if no key before it ends there.
* `visits_overhang`: no jump passes the place where a key overhangs.
* `matchMain_reads_iff`: a search reads inside the source just where no key that is tried overhangs
  and the index stays an `int`.
-/

namespace MultiKey

/-- The first `L` bytes of the source are the end of the key, and the key is longer. -/
def Overhangs (k : Key) (source : List UInt8) (L : Nat) : Prop :=
  L < k.length ∧ source.take L <:+ k.bytes

instance (k : Key) (source : List UInt8) (L : Nat) : Decidable (Overhangs k source L) :=
  inferInstanceAs (Decidable (_ ∧ _))

/-- Some key fits into the source, and for some `L` the first key that ends with the first `L` bytes
of the source, or overhangs there, is one that overhangs. -/
def ReadsBefore (keys : List Key) (source : List UInt8) : Prop :=
  (∃ k ∈ keys, k.length ≤ source.length) ∧
    ∃ L k, 2 ≤ L ∧ L ≤ source.length ∧ Overhangs k source L ∧
      keys.find? (fun k => EndsAt k.bytes source (L - 1) ∨ Overhangs k source L) = some k

/-! ## One key -/

theorem overhangs_iff {k : Key} {source : List UInt8} {L : Nat} (hL : L ≤ source.length) :
    Overhangs k source L ↔
      L < k.length ∧ ∀ t < L, source[L - 1 - t]? = some (k.byte (k.length - 1 - t)) := by
  refine and_congr_right fun hlt => ?_
  have hlen : (source.take L).length = L := by rw [List.length_take]; omega
  rw [List.suffix_iff_getElem?]
  simp only [hlen]
  constructor
  · intro h t ht
    have hs := h.2 (L - 1 - t) (by omega)
    rw [show L - 1 - t + k.bytes.length - L = k.length - 1 - t from by
        unfold Key.length at *; omega,
      k.byte_eq (by omega), List.getElem_take] at hs
    rw [List.getElem?_eq_getElem (by omega), ← hs]
  · intro h
    refine ⟨Nat.le_of_lt hlt, fun i hi => ?_⟩
    have hs := h (L - 1 - i) (by omega)
    rw [show L - 1 - (L - 1 - i) = i by omega, List.getElem?_eq_getElem (by omega)] at hs
    rw [show i + k.bytes.length - L = k.length - 1 - (L - 1 - i) from by
        unfold Key.length at *; omega,
      k.byte_eq (by omega), List.getElem_take, ← hs]

theorem readsFrom_le (source : List UInt8) (p : Key) :
    ∀ (i : Nat) (site : Int), ∀ j ∈ readsFrom source p i site, j ≤ site + 1
  | 0, _, _, hj => absurd hj List.not_mem_nil
  | i + 1, site, j, hj => by
    rw [readsFrom] at hj
    split at hj
    · simp at hj
      omega
    · split at hj
      · simp at hj
        omega
      · simp only [List.mem_cons] at hj
        obtain rfl | rfl | hj := hj
        · omega
        · omega
        · have := readsFrom_le source p i (site - 1) j hj
          omega

/-- The loop of `MatchByte` reads before the source where it comes to its beginning before it comes
to that of the key. -/
theorem readsFrom_nonneg_iff (source : List UInt8) (p : Key) : ∀ (i : Nat) (site : Int), -1 ≤ site →
    ((∀ j ∈ readsFrom source p i site, 0 ≤ j) ↔ ¬(site + 1 < i ∧
      ∀ t : Nat, t ≤ site + 1 → byteAt source (site + 1 - t) = some (p.byte (i - t))))
  | 0, site, hsite => by
    refine iff_of_true (fun j hj => absurd hj List.not_mem_nil) fun h => ?_
    have := h.1
    omega
  | i + 1, site, hsite => by
    rw [readsFrom]
    by_cases h1 : byteAt source (site + 1) = some (p.byte (i + 1))
    · rw [if_neg (not_not.2 h1)]
      by_cases h0 : site = -1
      · -- the byte before the source
        subst h0
        have hnone : byteAt source (-1) ≠ some (p.byte i) := by simp [byteAt]
        rw [if_pos hnone]
        refine iff_of_false (fun h => ?_) (not_not.2 ⟨by omega, fun t ht => ?_⟩)
        · have := h (-1) (by simp)
          omega
        · obtain rfl : t = 0 := by omega
          simpa using h1
      · by_cases h2 : byteAt source site = some (p.byte i)
        · rw [if_neg (not_not.2 h2)]
          have ih := readsFrom_nonneg_iff source p i (site - 1) (by omega)
          have hcons : (∀ j ∈ (site + 1) :: site :: readsFrom source p i (site - 1), 0 ≤ j) ↔
              ∀ j ∈ readsFrom source p i (site - 1), 0 ≤ j := by
            simp only [List.forall_mem_cons]
            constructor
            · exact fun h => h.2.2
            · exact fun h => ⟨by omega, by omega, h⟩
          rw [hcons, ih, not_iff_not]
          constructor
          · intro h
            obtain ⟨hlt, h⟩ := h
            refine ⟨by omega, fun t ht => ?_⟩
            cases t with
            | zero => simpa using h1
            | succ t =>
              have ht := h t (by omega)
              rw [Nat.add_sub_add_right, ← ht]
              congr 1
              omega
          · intro h
            obtain ⟨hlt, h⟩ := h
            refine ⟨by omega, fun t ht => ?_⟩
            have ht := h (t + 1) (by omega)
            rw [Nat.add_sub_add_right] at ht
            rw [← ht]
            congr 1
            omega
        · rw [if_pos h2]
          refine iff_of_true (fun j hj => ?_) fun h => h2 ?_
          · simp at hj
            omega
          · have := h.2 1 (by omega)
            simpa using this
    · rw [if_pos h1]
      refine iff_of_true (fun j hj => ?_) fun h => h1 ?_
      · simp at hj
        omega
      · have := h.2 0 (by omega)
        simpa using this

/-- `MatchByte` reads before the source just where the key overhangs. -/
theorem matchByteReads_iff {source : List UInt8} {n : Nat} (hn : n + 1 < source.length) (k : Key) :
    (∀ j ∈ matchByteReads source n k, 0 ≤ j) ↔ ¬Overhangs k source (n + 2) := by
  have h2 := k.two_le
  rw [matchByteReads, readsFrom_nonneg_iff _ _ _ _ (by omega), not_iff_not,
    overhangs_iff (by omega)]
  refine and_congr (by omega) ⟨fun h t ht => ?_, fun h t ht => ?_⟩
  · have h := h t (by omega)
    rw [← h, ← byteAt_natCast]
    congr 1
    omega
  · have h := h t (by omega)
    rw [← h, ← byteAt_natCast]
    congr 1
    omega

/-! ## One place -/

/-- The keys tried in an array that lists `xs` are those before which no key matches. -/
theorem mem_tried_iff (source : List UInt8) (site : Int) {r : Nat} {P : Key → Prop}
    [DecidablePred P] (hP : ∀ k, P k → matchByte source site k = false) :
    ∀ {xs : List Key} {n : Nat}, xs.length ≤ n →
      ((∃ k ∈ tried source site n (xs.map .key ++ List.replicate r .null), P k) ↔
        ∃ k, xs.find? (fun k => matchByte source site k = true ∨ P k) = some k ∧ P k)
  | [], n, _ => by
    have hnone : tried source site n (List.replicate r .null) = [] := by
      cases n <;> cases r <;> rfl
    simp [hnone]
  | x :: xs, 0, hle => by simp at hle
  | x :: xs, n + 1, hle => by
    have ih := mem_tried_iff source site hP (r := r) (n := n) (Nat.le_of_succ_le_succ hle)
    rw [List.map_cons, List.cons_append, tried]
    by_cases hx : P x
    · simp [hx]
    · by_cases hm : matchByte source site x = true
      · simp [hx, hm]
      · rw [if_neg hm, List.find?_cons_of_neg (by simp [hx, hm]), ← ih]
        simp [hx]

/-- A key that overhangs has the blocks of the source. -/
theorem hasBlock_of_overhangs {k : Key} {source : List UInt8} {L i : Nat} (hL : L ≤ source.length)
    (h : Overhangs k source L) (hi : i + 2 ≤ L) {ch1 ch2 : UInt8} (hb : BlockAt source i ch1 ch2) :
    HasBlock k (getPos ch1 ch2) (L - 2 - i) := by
  obtain ⟨hlt, h⟩ := (overhangs_iff hL).1 h
  have h1 := h (L - 1 - i) (by omega)
  have h2 := h (L - 2 - i) (by omega)
  rw [show L - 1 - (L - 1 - i) = i by omega, hb.1, Option.some_inj] at h1
  rw [show L - 1 - (L - 2 - i) = i + 1 by omega, hb.2, Option.some_inj] at h2
  refine ⟨by omega, ?_⟩
  rw [h1, h2]
  congr 2
  omega

section
variable {s : State} (h : Searchable s) {source : List UInt8} {n : Nat}
include h

/-- The keys tried at a place are those of the object that end there or overhang, up to the first
that ends there. -/
theorem aMatchTried_iff (hn : n + 1 < source.length) :
    (∃ k ∈ aMatchTried s source n, Overhangs k source (n + 2)) ↔
      ∃ k, s.keylist.find? (fun k => EndsAt k.bytes source (n + 1) ∨ Overhangs k source (n + 2)) =
        some k ∧ Overhangs k source (n + 2) := by
  obtain ⟨ch1, ch2, hb⟩ := blockAt_exists hn
  have hblock : ∀ k, Overhangs k source (n + 2) → HasBlock k (getPos ch1 ch2) 0 := by
    intro k ho
    have := hasBlock_of_overhangs hn ho (Nat.le_refl _) hb
    rwa [show n + 2 - 2 - n = 0 by omega] at this
  have hstored : ∀ {k}, s.keylist.find? (fun k => EndsAt k.bytes source (n + 1) ∨
      Overhangs k source (n + 2)) = some k → k ∈ s.keylist := fun hf => List.mem_of_find?_eq_some hf
  rw [aMatchTried, hb.byteAt.1, hb.byteAt.2]
  cases hm : s.matchMap (getPos ch1 ch2) with
  | none =>
    simp only [hm]
    refine iff_of_false (by simp) fun hx => ?_
    obtain ⟨k, hk, ho⟩ := hx
    exact h.map.known k (hstored hk) _ _ (hblock k ho) hm
  | some m =>
    have hentry := h.map.entry _ _ hm
    by_cases hspace : m.space = 0
    swap
    · simp only [hm, if_neg hspace]
      refine iff_of_false (by simp) fun hx => hspace ?_
      obtain ⟨k, hk, ho⟩ := hx
      have hdist := hentry.dist k (hstored hk) 0 (hblock k ho)
      have hnonneg := hentry.nonneg
      omega
    · obtain ⟨xs, r, hlists⟩ := hentry.lists hspace
      have hpos : m.pos = (ch1, ch2) :=
        Prod.ext (getPos_inj hentry.pos).1 (getPos_inj hentry.pos).2
      rw [hpos] at hlists
      have hsize := hlists.size
      have hno : ∀ k, Overhangs k source (n + 2) → matchByte source n k = false := by
        intro k ho
        rw [← Bool.not_eq_true, matchByte_iff]
        intro hends
        have hle : k.length ≤ n + 1 + 1 := hends.1
        have hlt := ho.1
        omega
      simp only [hm, if_pos hspace, hlists.slots, h.keyCount]
      rw [mem_tried_iff source n hno (Nat.le_of_add_right_le hsize), hlists.find, List.find?_filter]
      have hcongr : ∀ k ∈ s.keylist, decide (k.endsIn (ch1, ch2) = true ∧
          decide (matchByte source n k = true ∨ Overhangs k source (n + 2)) = true) =
          decide (EndsAt k.bytes source (n + 1) ∨ Overhangs k source (n + 2)) := by
        intro k _
        rw [decide_eq_decide, decide_eq_true_eq, matchByte_iff]
        refine and_iff_right_of_imp fun hx => ?_
        obtain hends | ho := hx
        · exact endsIn_of_endsAt hb hends
        · exact endsIn_iff_hasBlock.2 (hblock k ho)
      rw [List.find?_congr hcongr]

theorem aMatchReads_iff (hn : n + 1 < source.length) :
    (∀ j ∈ aMatchReads s source n, 0 ≤ j ∧ j < source.length) ↔
      ¬∃ k, s.keylist.find? (fun k => EndsAt k.bytes source (n + 1) ∨
        Overhangs k source (n + 2)) = some k ∧ Overhangs k source (n + 2) := by
  rw [← aMatchTried_iff h hn, aMatchReads, if_pos (by omega)]
  simp only [List.forall_mem_cons, List.mem_flatMap, not_exists, not_and]
  constructor
  · intro hreads k hk
    rw [← matchByteReads_iff hn]
    intro j hj
    exact (hreads.2.2 j ⟨k, hk, hj⟩).1
  · intro hno
    refine ⟨by omega, by omega, fun j hj => ?_⟩
    obtain ⟨k, hk, hj⟩ := hj
    have hle := readsFrom_le source k _ _ j hj
    exact ⟨(matchByteReads_iff hn k).2 (hno k hk) j hj, by omega⟩

end

/-! ## The search -/

section
variable {s : State} (h : Searchable s) (hnew : NewEntries s) {source : List UInt8}
  (hlen : source.length < 2 ^ 31) {n : Nat}
include h hnew hlen

/-- An iteration before a place where a key overhangs does not pass it. -/
theorem matchMain_le_overhang {k : Key} (hk : k ∈ s.keylist) {m : Nat}
    (hm : m + 2 ≤ source.length) (ho : Overhangs k source (m + 2)) (hlt : n < m) :
    ∃ n', n < n' ∧ n' ≤ m ∧
      matchMain s source (headAt s.keylist source n) = .inl (headAt s.keylist source n') := by
  have hn : n + 1 < source.length := by omega
  obtain ⟨ch1, ch2, hb⟩ := blockAt_exists hn
  have hblock := hasBlock_of_overhangs hm ho (show n + 2 ≤ m + 2 by omega) hb
  cases hmap : entryAt s source n with
  | none => exact absurd (hb.entryAt.symm.trans hmap) (h.map.known k hk _ _ hblock)
  | some e =>
    have hentry := h.map.entry _ _ (hb.entryAt.symm.trans hmap)
    have hdist := hentry.dist k hk _ hblock
    have hnonneg := hentry.nonneg
    have hstride : stride s source n ≤ m - n := by
      simp only [stride, hmap]
      split <;> omega
    have hfit := placeFits_new h hnew hn (by omega)
    have hiter := h.aMatch_place hn hfit
    simp only [hmap] at hiter
    obtain ⟨hd, hmain, hle⟩ : ∃ hd, matchMain s source (headAt s.keylist source n) = .inl hd ∧
        hd.1 ≤ m := by
      simp only [matchMain, headAt, hiter]
      by_cases hspace : e.space = 0
      · simp only [if_pos hspace]
        cases s.keylist.find? (fun k => EndsAt k.bytes source (n + 1)) with
        | none => exact ⟨_, rfl, by dsimp only; omega⟩
        | some k' => exact ⟨_, rfl, by dsimp only; omega⟩
      · simp only [if_neg hspace]
        exact ⟨_, rfl, by dsimp only; omega⟩
    have hstep := matchMain_step h fun _ => hfit
    rw [hmain] at hstep
    obtain ⟨-, n', hn', rfl⟩ := hstep
    simp only [headAt] at hle
    exact ⟨n', hn', by omega, hmain⟩

/-- A place where a key overhangs is visited. -/
theorem visits_overhang {k : Key} (hk : k ∈ s.keylist) {m : Nat} (hm : m + 2 ≤ source.length)
    (ho : Overhangs k source (m + 2)) (hn : n ≤ m) :
    Loop.Visits (matchMain s source) (headAt s.keylist source n) (headAt s.keylist source m) := by
  induction hd : m - n using Nat.strongRecOn generalizing n with
  | ind d ih =>
    by_cases he : n = m
    · rw [he]
      exact .refl
    · obtain ⟨n', hlt, hle, hstep⟩ :=
        matchMain_le_overhang h hnew hlen hk hm ho (Nat.lt_of_le_of_ne hn he)
      exact .head hstep (ih (m - n') (by omega) hle rfl)

/-- A search that reads inside the source stays in an `int`: where it did not, it would go on before
the source. -/
theorem staysInt_of_reads (hne : s.keylist ≠ []) (hflag : s.matchFlag = true)
    (hreads : ∀ j, MatchMainReads s source j → 0 ≤ j ∧ j < source.length) :
    StaysInt s source := by
  intro hmax n rs hv hn
  by_contra hover
  obtain ⟨k, hk⟩ := List.exists_mem_of_ne_nil _ hne
  have hlt := h.max_lt k hk
  have hkey : k.length ≤ 1024 := k.accepted.2
  have hle := stride_le_max h hnew hn
  have hstride : stride s source n < 2 ^ 31 := by omega
  obtain ⟨i, hi, hstep⟩ := matchMain_overflow hn hlen (by omega) hstride rs
  have hread : i ∈ aMatchReads s source i := by
    rw [aMatchReads, if_pos (by omega)]
    exact .head _
  have := (hreads i ⟨hflag, hmax, _, hv.tail hstep, hread⟩).1
  omega

/-- The reads of a search are those of the iterations at the places it visits. -/
theorem matchMainReads_iff (hne : s.keylist ≠ []) (hflag : s.matchFlag = true) :
    (∀ j, MatchMainReads s source j → 0 ≤ j ∧ j < source.length) ↔
      (s.max < source.length → ∀ n, n + 1 < source.length →
        Loop.Visits (matchMain s source) (0, []) (headAt s.keylist source n) →
        ¬∃ k, s.keylist.find? (fun k => EndsAt k.bytes source (n + 1) ∨
          Overhangs k source (n + 2)) = some k ∧ Overhangs k source (n + 2)) ∧
      StaysInt s source := by
  constructor
  · intro hreads
    refine ⟨fun hmax n hn hv => ?_, staysInt_of_reads h hnew hlen hne hflag hreads⟩
    rw [← aMatchReads_iff h hn]
    exact fun j hj => hreads j ⟨hflag, hmax, _, hv, hj⟩
  · rintro ⟨hno, hint⟩ j ⟨-, hmax, hd, hv, hj⟩
    have hfits : ∀ n, Loop.Visits (matchMain s source) (headAt s.keylist source 0)
        (headAt s.keylist source n) → n + 1 < source.length → PlaceFits s source n := by
      intro n hv hn
      rw [← headAt_zero] at hv
      exact placeFits_new h hnew hn (hint hmax n _ hv hn)
    obtain ⟨n, rfl⟩ := visits_headAt h hfits (headAt_zero s.keylist source ▸ hv)
    by_cases hn : n + 1 < source.length
    · exact (aMatchReads_iff h hn).2 (hno hmax n hn hv) j hj
    · rw [headAt, aMatchReads, if_neg (by omega)] at hj
      exact absurd hj List.not_mem_nil

end

/-- `max` is that of some key. -/
theorem foldl_getMax_mem : ∀ (keys : List Key) (m : Int),
    let max := keys.foldl
      (fun max key => if (key.length : Int) < max ∨ max = -1 then key.length else max) m
    max = m ∨ ∃ k ∈ keys, max = k.length
  | [], _ => .inl rfl
  | k :: keys, m => by
    rw [List.foldl_cons]
    split
    · obtain h | ⟨k', hk', h⟩ := foldl_getMax_mem keys k.length
      · exact .inr ⟨k, List.mem_cons_self, h⟩
      · exact .inr ⟨k', List.mem_cons_of_mem k hk', h⟩
    · obtain h | ⟨k', hk', h⟩ := foldl_getMax_mem keys m
      · exact .inl h
      · exact .inr ⟨k', List.mem_cons_of_mem k hk', h⟩

/-- The search is not given up at once where some key is no longer than the source. -/
theorem getMax_lt_iff {keys : List Key} (hne : keys ≠ []) {len : Nat} :
    getMax keys < len ↔ ∃ k ∈ keys, k.length ≤ len := by
  obtain ⟨h1, hlt⟩ := getMax_lt hne
  constructor
  · intro h
    obtain hm | ⟨k, hk, hm⟩ := foldl_getMax_mem keys (-1)
    · rw [getMax, hm] at h1
      omega
    · rw [getMax, hm] at h
      exact ⟨k, hk, by omega⟩
  · intro h
    obtain ⟨k, hk, hle⟩ := h
    have := hlt k hk
    omega

/-- A new object without keys has no places. -/
theorem staysInt_nil (pf : Platform) {source : List UInt8} (hlen : source.length < 2 ^ 31) :
    StaysInt (fresh pf []) source := by
  intro _ n _ _ hn
  obtain ⟨ch1, ch2, hb⟩ := blockAt_exists hn
  have hnone : entryAt (fresh pf []) source n = none := by
    rw [hb.entryAt]
    rfl
  have hmax : (fresh pf []).max = -2 := rfl
  rw [stride, hnone]
  dsimp only
  omega

/-- **Where a search reads**: after `AddKey` of some keys and one `MatchInit`, `MatchMain` reads the
source inside of it only, just where no key that is tried overhangs its beginning and the index
stays an `int`. -/
theorem matchMain_reads_iff {pf : Platform} (hpf : pf.Clears) (keys : List Key)
    {source : List UInt8} (hlen : source.length < 2 ^ 31) :
    (∀ j, MatchMainReads (fresh pf keys) source j → 0 ≤ j ∧ j < source.length) ↔
      ¬ReadsBefore keys source ∧ StaysInt (fresh pf keys) source := by
  by_cases hne : keys = []
  · subst hne
    refine iff_of_true (fun j hj => ?_) ⟨fun h => ?_, staysInt_nil pf hlen⟩
    · cases hj.1
    · obtain ⟨⟨k, hk, -⟩, -⟩ := h
      exact absurd hk List.not_mem_nil
  · obtain ⟨hs, hkeys, hflag, hnew⟩ := searchable_fresh hpf hne
    have hmax : (fresh pf keys).max = getMax keys := congrArg getMax hkeys
    rw [matchMainReads_iff hs hnew hlen (by rwa [hkeys]) hflag, hmax, getMax_lt_iff hne, hkeys]
    refine and_congr_left' ⟨fun hno h => ?_, fun hno hfits n hn _ hx => ?_⟩
    · obtain ⟨hfits, L, k, h2, hL, ho, hfind⟩ := h
      obtain ⟨n, rfl⟩ : ∃ n, L = n + 2 := ⟨L - 2, by omega⟩
      have hmem : k ∈ (fresh pf keys).keylist := by
        rw [hkeys]
        exact List.mem_of_find?_eq_some hfind
      have hv := visits_overhang hs hnew hlen hmem hL ho (Nat.zero_le n)
      rw [hkeys, ← headAt_zero] at hv
      exact hno hfits n (by omega) hv ⟨k, hfind, ho⟩
    · obtain ⟨k, hfind, ho⟩ := hx
      exact hno ⟨hfits, n + 2, k, by omega, by omega, ho, hfind⟩

/-- With the shorter key added first the search comes to it first. -/
theorem matchMain_reads_inside : ¬ReadsBefore [abKey, xabKey] "ab".asciiBytes ∧
    ∀ j, MatchMainReads (fresh nullPlatform [abKey, xabKey]) "ab".asciiBytes j →
      0 ≤ j ∧ j < ("ab".asciiBytes.length : Int) := by
  have hlen : "ab".asciiBytes.length = 2 := by decide
  have hno : ¬ReadsBefore [abKey, xabKey] "ab".asciiBytes := by
    intro h
    obtain ⟨-, L, k, h2, hL, ho, hfind⟩ := h
    obtain rfl : L = 2 := by omega
    have hfirst : [abKey, xabKey].find? (fun k => EndsAt k.bytes "ab".asciiBytes (2 - 1) ∨
        Overhangs k "ab".asciiBytes 2) = some abKey := by decide
    rw [hfirst, Option.some_inj] at hfind
    rw [← hfind] at ho
    exact absurd ho (by decide)
  have hint : StaysInt (fresh nullPlatform [abKey, xabKey]) "ab".asciiBytes :=
    staysInt_of_le (.inr fun _ _ => rfl) (by simp) (by decide +kernel)
  exact ⟨hno, (matchMain_reads_iff (.inr fun _ _ => rfl) _ (by omega)).2 ⟨hno, hint⟩⟩

/-- The other way round, the byte before the source is compared with the first of `xab`. -/
theorem matchMain_reads_before : MatchMainReads (fresh nullPlatform [xabKey, abKey])
    "ab".asciiBytes (-1) :=
  ⟨by decide +kernel, by decide +kernel, (0, []), .refl, by decide +kernel⟩

end MultiKey
