import CodeLibrary.Lib.Occurs
import CodeLibrary.MultiKey.Matcher

/-!
# What a matcher is for

`IsReport keys source rs`: the results `rs` are one for every index at which some key ends, in
ascending order, each with the first key that ends there. There is exactly one such list
(`isReport_report`, `IsReport.unique`).
-/

namespace MultiKey

/-- The index of the last byte of a result. -/
def Result.last (r : Result) : Nat := (r.res + r.key.length - 1).toNat

/-- The results of a search for `keys`. -/
structure IsReport (keys : List Key) (source : List UInt8) (rs : List Result) : Prop where
  ends : rs.map Result.last =
    (List.range source.length).filter fun e => ∃ k ∈ keys, EndsAt k.bytes source e
  first : ∀ r ∈ rs, keys.find? (fun k => EndsAt k.bytes source r.last) = some r.key
  start : ∀ r ∈ rs, 0 ≤ r.res ∧ r.res = r.last - r.key.length + 1
  bytes : ∀ r ∈ rs, (source.drop r.res.toNat).take r.key.length = r.key.bytes

/-- The result for the keys that end at `e`. -/
def resultAt (keys : List Key) (source : List UInt8) (e : Nat) : Option Result :=
  (keys.find? fun k => EndsAt k.bytes source e).map fun k => ⟨e - k.length + 1, k⟩

/-- The results for the indices below `n`. -/
def reportBelow (keys : List Key) (source : List UInt8) (n : Nat) : List Result :=
  (List.range n).filterMap (resultAt keys source)

def report (keys : List Key) (source : List UInt8) : List Result :=
  reportBelow keys source source.length

theorem Key.two_le (k : Key) : 2 ≤ k.length := k.accepted.1

theorem Key.bytes_ne_nil (k : Key) : k.bytes ≠ [] := by
  have := k.accepted.1
  rintro h
  simp [h] at this

theorem resultAt_some {keys : List Key} {source : List UInt8} {e : Nat} {r : Result}
    (h : resultAt keys source e = some r) :
    keys.find? (fun k => EndsAt k.bytes source e) = some r.key ∧ r.last = e ∧
      r.res = e - r.key.length + 1 ∧ EndsAt r.key.bytes source e := by
  obtain ⟨k, hk, rfl⟩ := Option.map_eq_some_iff.1 h
  have hends : EndsAt k.bytes source e := by simpa using List.find?_some hk
  refine ⟨hk, ?_, rfl, hends⟩
  unfold Result.last
  dsimp only
  omega

theorem isSome_resultAt {keys : List Key} {source : List UInt8} {e : Nat} :
    (resultAt keys source e).isSome = true ↔ ∃ k ∈ keys, EndsAt k.bytes source e := by
  unfold resultAt
  rw [Option.isSome_map, List.find?_isSome]
  simp

theorem reportBelow_last (keys : List Key) (source : List UInt8) (n : Nat) :
    (reportBelow keys source n).map Result.last =
      (List.range n).filter fun e => ∃ k ∈ keys, EndsAt k.bytes source e := by
  unfold reportBelow
  induction List.range n with
  | nil => rfl
  | cons e es ih =>
    rw [List.filterMap_cons, List.filter_cons]
    cases h : resultAt keys source e with
    | none =>
      have : ¬ ∃ k ∈ keys, EndsAt k.bytes source e := by
        rw [← isSome_resultAt, h]
        simp
      simpa [this] using ih
    | some r =>
      have : ∃ k ∈ keys, EndsAt k.bytes source e := isSome_resultAt.1 (by rw [h]; rfl)
      rw [if_pos (by simpa using this), List.map_cons, ih, (resultAt_some h).2.1]

theorem isReport_report (keys : List Key) (source : List UInt8) :
    IsReport keys source (report keys source) := by
  have hmem : ∀ r ∈ report keys source, ∃ e, resultAt keys source e = some r := by
    intro r hr
    obtain ⟨e, -, he⟩ := List.mem_filterMap.1 hr
    exact ⟨e, he⟩
  refine ⟨reportBelow_last keys source _, fun r hr => ?_, fun r hr => ?_, fun r hr => ?_⟩
  all_goals
    obtain ⟨e, he⟩ := hmem r hr
    obtain ⟨hfind, hlast, hres, hends⟩ := resultAt_some he
    have hle : r.key.length ≤ e + 1 := hends.1
  · rw [hlast]
    exact hfind
  · rw [hlast]
    omega
  · have hat : r.res.toNat = e + 1 - r.key.length := by omega
    rw [hat]
    exact hends.2.take

/-- The results of a search are determined by the keys and the source. -/
theorem IsReport.unique {keys : List Key} {source : List UInt8} {rs rs' : List Result}
    (h : IsReport keys source rs) (h' : IsReport keys source rs') : rs = rs' := by
  have key : ∀ rs : List Result, (∀ r ∈ rs, keys.find? (fun k => EndsAt k.bytes source r.last) =
      some r.key) → (∀ r ∈ rs, 0 ≤ r.res ∧ r.res = r.last - r.key.length + 1) →
      rs = (rs.map Result.last).filterMap (resultAt keys source) := by
    intro rs
    induction rs with
    | nil => intros; rfl
    | cons r rs ih =>
      intro hf hs
      have hr : resultAt keys source r.last = some r := by
        unfold resultAt
        rw [hf r (.head _), Option.map_some, ← (hs r (.head _)).2]
      rw [List.map_cons, List.filterMap_cons, hr]
      exact congrArg _ (ih (fun r hr => hf r (.tail _ hr)) fun r hr => hs r (.tail _ hr))
  rw [key rs h.first h.start, key rs' h'.first h'.start, h.ends, h'.ends]

theorem reportBelow_succ (keys : List Key) (source : List UInt8) (n : Nat) :
    reportBelow keys source (n + 1) =
      reportBelow keys source n ++ (resultAt keys source n).toList := by
  unfold reportBelow
  rw [List.range_succ, List.filterMap_append]
  cases h : resultAt keys source n <;> simp [h]

/-- Indices at which no key ends add nothing. -/
theorem reportBelow_skip {keys : List Key} {source : List UInt8} {n : Nat} :
    ∀ {m : Nat}, n ≤ m → (∀ e, n ≤ e → e < m → ∀ k ∈ keys, ¬ EndsAt k.bytes source e) →
      reportBelow keys source m = reportBelow keys source n
  | 0, hle, _ => by rw [Nat.le_zero.1 hle]
  | m + 1, hle, h => by
    rcases Nat.lt_or_ge m n with hm | hm
    · rw [show n = m + 1 by omega]
    · have hnone : resultAt keys source m = none := by
        rw [← Option.not_isSome_iff_eq_none, isSome_resultAt]
        intro hx
        obtain ⟨k, hk, hends⟩ := hx
        exact h m hm (Nat.lt_succ_self m) k hk hends
      rw [reportBelow_succ, hnone, Option.toList_none, List.append_nil,
        reportBelow_skip hm fun e h1 h2 => h e h1 (by omega)]

end MultiKey
