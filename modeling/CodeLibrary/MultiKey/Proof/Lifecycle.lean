import CodeLibrary.Lib.Bytes
import CodeLibrary.MultiKey.Proof.Table

/-!
# The life of a matcher

* `matchMain_ok`: a new object, after `AddKey` of some keys and one `MatchInit`, reports them, in a
  source short enough for the `int` index; `matchMain_overflows`: in a longer one it may not.
* `lifecycle_ok`: an object that was changed in any way reports what a new one with its keys does,
  as long as the arrays that `MatchInit` found in `match_map` and the places of the source fit.
* `lifecycle_breaks`: three lives after which it does not.
-/

namespace MultiKey

open CInt

/-- `AddKey` of each key. -/
def addKeys (s : State) (keys : List CString) : State :=
  keys.foldl (fun s key => (addKey s key).1) s

/-- A new object after `AddKey` of each key and one `MatchInit`. -/
def fresh (pf : Platform) (keys : List Key) : State :=
  matchInit pf (addKeys (State.new pf) (keys.map (·.toCString)))

/-- The states between the calls of a program, `MatchInit` called in those in `Good`. -/
inductive Reached (pf : Platform) (Good : State → Prop) : State → Prop
  | new : Reached pf Good (State.new pf)
  | addKey {s : State} (key : CString) : Reached pf Good s → Reached pf Good (addKey s key).1
  | matchInit {s : State} : Reached pf Good s → Good s → Reached pf Good (matchInit pf s)
  | matchClear {s : State} : Reached pf Good s → Reached pf Good (matchClear s)

/-! ## The calls keep the object in order -/

theorem addKey_key (s : State) (k : Key) : addKey s k.toCString =
    ({ s with
        keylist := s.keylist ++ [k]
        keyCount := s.keyCount + 1
        matchFlag := true }, 1) := by
  have := k.accepted
  unfold addKey
  rw [dif_neg (by omega)]

theorem mapOk_empty : MapOk [] fun _ => none :=
  ⟨fun _ hk => absurd hk List.not_mem_nil, fun _ _ hm => nomatch hm⟩

theorem stateOk_new (pf : Platform) : StateOk (State.new pf) :=
  ⟨rfl, fun h => absurd rfl h, [], [], rfl, mapOk_empty⟩

theorem StateOk.addKey {s : State} (h : StateOk s) (key : CString) :
    StateOk (addKey s key).1 := by
  unfold MultiKey.addKey
  split
  · exact h
  · rename_i hlen
    obtain ⟨seen, more, hkeys, hmap⟩ := h.map
    refine ⟨by simp [h.keyCount], fun _ => rfl, seen, more ++ [⟨key, by omega⟩], ?_, hmap⟩
    dsimp only
    rw [hkeys, List.append_assoc]

theorem StateOk.matchClear {s : State} : StateOk (matchClear s) :=
  ⟨rfl, fun h => absurd rfl h, [], [], rfl, mapOk_empty⟩

section
variable {pf : Platform} (hpf : pf.Clears)
include hpf

theorem StateOk.matchInit {s : State} (h : StateOk s) (hfit : ArraysFit s) :
    StateOk (matchInit pf s) :=
  ⟨h.keyCount, h.flag, s.keylist, [], (List.append_nil _).symm, mapOk_matchInit hpf h hfit⟩

/-- Every state of a run in which the arrays fit is in order. -/
theorem Reached.stateOk {s : State} (h : Reached pf ArraysFit s) : StateOk s := by
  induction h with
  | new => exact stateOk_new pf
  | addKey key _ ih => exact ih.addKey key
  | matchInit _ hfit ih => exact ih.matchInit hpf hfit
  | matchClear _ _ => exact .matchClear

omit hpf in
theorem addKeys_spec : ∀ (keys : List Key) {s : State}, StateOk s → (∀ p, s.matchMap p = none) →
    StateOk (addKeys s (keys.map (·.toCString))) ∧
      (addKeys s (keys.map (·.toCString))).keylist = s.keylist ++ keys ∧
      ∀ p, (addKeys s (keys.map (·.toCString))).matchMap p = none
  | [], s, h, hmap => ⟨h, (List.append_nil _).symm, hmap⟩
  | k :: keys, s, h, hmap => by
    have hk := h.addKey k.toCString
    have hm : ∀ p, (MultiKey.addKey s k.toCString).1.matchMap p = none := by
      rw [addKey_key]
      exact hmap
    obtain ⟨h1, h2, h3⟩ := addKeys_spec keys hk hm
    refine ⟨h1, ?_, h3⟩
    apply h2.trans
    rw [addKey_key, List.append_assoc]
    rfl

omit hpf in
/-- Nothing was there before. -/
theorem arraysFit_of_empty {s : State} (h : ∀ p, s.matchMap p = none) : ArraysFit s := by
  intro p m hm
  rw [h] at hm
  cases hm

/-- A new object can be searched. -/
theorem searchable_fresh {keys : List Key} (hne : keys ≠ []) :
    Searchable (fresh pf keys) ∧ (fresh pf keys).keylist = keys ∧
      (fresh pf keys).matchFlag = true ∧ NewEntries (fresh pf keys) := by
  obtain ⟨h1, h2, h3⟩ := addKeys_spec keys (stateOk_new pf) (fun _ => rfl)
  replace h2 : (addKeys (State.new pf) (keys.map (·.toCString))).keylist = keys := h2
  have hne' : (addKeys (State.new pf) (keys.map (·.toCString))).keylist ≠ [] := by rwa [h2]
  exact ⟨searchable_matchInit hpf h1 (arraysFit_of_empty h3) hne', h2, h1.flag hne',
    newEntries_matchInit hpf h1 h3 hne'⟩

/-! ## The places of a new object -/

section
omit hpf
variable {s : State} (h : Searchable s) (hnew : NewEntries s) {source : List UInt8} {n : Nat}
  (hn : n + 1 < source.length)
include h hnew hn

theorem stride_le_max : stride s source n ≤ s.max := by
  have hmax := h.max_pos
  unfold stride
  cases hm : entryAt s source n with
  | none => exact Int.le_refl _
  | some m =>
    obtain ⟨ch1, ch2, hb⟩ := blockAt_exists hn
    rw [hb.entryAt] at hm
    have := (hnew _ m hm).1
    dsimp only
    split <;> omega

theorem placeFits_new (hint : n + stride s source n < 2 ^ 31) : PlaceFits s source n := by
  obtain ⟨ch1, ch2, hb⟩ := blockAt_exists hn
  refine ⟨hint, fun m hm hzero => .inl ?_, fun m hm => ?_⟩
  · have hm : s.matchMap (getPos ch1 ch2) = some m := hb.entryAt.symm.trans hm
    have hle := List.length_filter_le (·.endsIn m.pos) s.keylist
    rw [(hnew _ m hm).2 hzero, h.keyCount]
    simp only [List.length_append, List.length_map, List.length_replicate]
    omega
  · exact h.spaceFits hn hm (hnew _ m (hb.entryAt.symm.trans hm)).1

end

/-- A new matcher reports its keys where the index of the search stays an `int`. -/
theorem fresh_report {keys : List Key} (hne : keys ≠ []) {source : List UInt8}
    (hint : StaysInt (fresh pf keys) source) :
    MatchMainReturns (fresh pf keys) source (some (report keys source)) := by
  obtain ⟨hs, hkeys, hflag, hnew⟩ := searchable_fresh hpf hne
  have := matchMain_report hs hflag fun hmax n rs hv hn =>
    placeFits_new hs hnew hn (hint hmax n rs hv hn)
  rwa [hkeys] at this

/-! ## Reports -/

/-- In a source short enough for an `int` to go `max` further than its last block the index stays
one. -/
theorem staysInt_of_le {keys : List Key} (hne : keys ≠ []) {source : List UInt8}
    (hlen : source.length + getMax keys ≤ 2 ^ 31 + 1) : StaysInt (fresh pf keys) source := by
  obtain ⟨hs, hkeys, -, hnew⟩ := searchable_fresh hpf hne
  intro _ n _ _ hn
  have hle := stride_le_max hs hnew hn
  have hmax : (fresh pf keys).max = getMax keys := congrArg getMax hkeys
  omega

/-- **A new matcher reports its keys**: after `AddKey` of each and one `MatchInit`, `MatchMain`
returns and has pushed, in ascending order, one result for every index at which some key ends, with
the first such key and the offset at which it is in the source, if that is short enough. -/
theorem matchMain_ok {keys : List Key} (hne : keys ≠ []) {source : List UInt8}
    (hlen : source.length + getMax keys ≤ 2 ^ 31 + 1) :
    ∃ rs, MatchMainReturns (fresh pf keys) source (some rs) ∧ IsReport keys source rs :=
  ⟨report keys source, fresh_report hpf hne (staysInt_of_le hpf hne hlen),
    isReport_report keys source⟩

end

/-- A memory of `NULL`. -/
def nullPlatform : Platform := ⟨8, fun _ _ => .null, 0⟩

def abKey : Key := ⟨⟨"ab".asciiBytes, by decide⟩, by decide⟩
def xabKey : Key := ⟨⟨"xab".asciiBytes, by decide⟩, by decide⟩
def xyKey : Key := ⟨⟨"xy".asciiBytes, by decide⟩, by decide⟩
def abcdeKey : Key := ⟨⟨"abcde".asciiBytes, by decide⟩, by decide⟩
def abcdefKey : Key := ⟨⟨"abcdef".asciiBytes, by decide⟩, by decide⟩
def qabcdKey : Key := ⟨⟨"qabcd".asciiBytes, by decide⟩, by decide⟩
def zefghKey : Key := ⟨⟨"zefgh".asciiBytes, by decide⟩, by decide⟩

/-- Two keys, one of which is the end of the other. -/
theorem matchMain_ok_overlap :
    ∃ rs, MatchMainReturns (fresh nullPlatform [xabKey, abKey]) "abxab".asciiBytes (some rs) ∧
      IsReport [xabKey, abKey] "abxab".asciiBytes rs :=
  matchMain_ok (.inr fun _ _ => rfl) (by simp) (by decide +kernel)

theorem entryAt_nuls {N n : Nat} (hn : n + 1 < N) :
    entryAt (fresh nullPlatform [abcdeKey]) (List.replicate N 0) n = none := by
  have hb : BlockAt (List.replicate N 0) n 0 0 := by
    constructor
    · rw [List.getElem?_replicate, if_pos (by omega)]
    · rw [List.getElem?_replicate, if_pos (by omega)]
  rw [hb.entryAt]
  have hnone : ((fresh nullPlatform [abcdeKey]).matchMap (getPos 0 0)).isNone = true := by
    decide +kernel
  exact Option.isNone_iff_eq_none.1 hnone

/-- In a source of NULs a search for a key of 5 bytes goes on by 4. -/
theorem visits_nuls {N : Nat} : ∀ i : Nat, 4 * i + 1 < N → 4 * i < 2 ^ 31 →
    Loop.Visits (matchMain (fresh nullPlatform [abcdeKey]) (List.replicate N 0)) (0, [])
      (↑(4 * i), [])
  | 0, _, _ => .refl
  | i + 1, hN, hi => by
    have hn : 4 * i + 1 < (List.replicate N (0 : UInt8)).length := by
      rw [List.length_replicate]
      omega
    have hentry := entryAt_nuls (N := N) (n := 4 * i) (by omega)
    have hmax : (fresh nullPlatform [abcdeKey]).max = 4 := by decide +kernel
    have hiter := aMatch_eq (fresh nullPlatform [abcdeKey]) hn
    simp only [hentry, hmax] at hiter
    rw [addInt_of_lt (by omega) (by omega)] at hiter
    refine (visits_nuls i (by omega) (by omega)).tail ?_
    simp only [matchMain, hiter]
    rw [show ((4 * i : Nat) : Int) + 4 = ((4 * (i + 1) : Nat) : Int) by omega]

/-- Before the source a search reads what is not there. -/
theorem matchMain_before {s : State} {source : List UInt8} (hne : 0 < source.length) {i : Int}
    (hi : i < 0) (rs : List Result) : matchMain s source (i, rs) = .inr none := by
  have hiter : aMatch s source i = .inr .fault := by
    rw [aMatch, if_pos (by omega)]
    simp only [byteAt, if_pos hi]
  simp only [matchMain, hiter]

/-- With a source of `2 ^ 31 - 1` NULs the index goes to `2 ^ 31` and wraps around. -/
theorem not_returns_nuls {N : Nat} (hN : N = 2 ^ 31 - 1) (rs : List Result) :
    ¬ MatchMainReturns (fresh nullPlatform [abcdeKey]) (List.replicate N 0) (some rs) := by
  intro h
  have hlen : (List.replicate N (0 : UInt8)).length = N := List.length_replicate
  have hmax : (fresh nullPlatform [abcdeKey]).max = 4 := by decide +kernel
  unfold MatchMainReturns at h
  rw [if_neg (by decide +kernel), if_neg (by omega)] at h
  have hv := visits_nuls (N := N) 536870911 (by omega) (by omega)
  have hover : 2 ^ 31 ≤ ((4 * 536870911 : Nat) : Int) +
      stride (fresh nullPlatform [abcdeKey]) (List.replicate N 0) (4 * 536870911) ∧
      stride (fresh nullPlatform [abcdeKey]) (List.replicate N 0) (4 * 536870911) < 2 ^ 31 := by
    rw [stride, entryAt_nuls (by omega)]
    dsimp only
    omega
  obtain ⟨i, hi, hstep⟩ := matchMain_overflow (s := fresh nullPlatform [abcdeKey]) (by omega)
    (by omega) hover.1 hover.2 []
  have hnone := Loop.Returns.of_visits (hv.tail hstep) (.done (matchMain_before (by omega) hi []))
  cases h.det hnone

/-- The longest source of NULs. -/
def longest : List UInt8 := List.replicate (2 ^ 31 - 1) 0

/-- In the longest source the search for a key of 5 bytes does not come to the end. -/
theorem matchMain_overflows : ¬ ∃ rs,
    MatchMainReturns (fresh nullPlatform [abcdeKey]) longest (some rs) ∧
      IsReport [abcdeKey] longest rs := by
  intro h
  obtain ⟨rs, h⟩ := h
  unfold longest at h
  generalize hN : 2 ^ 31 - 1 = N at h
  exact not_returns_nuls hN.symm rs h.1

/-! ## Any life -/

/-- **The object reports what a new one with its keys reports**, after any calls of `AddKey`,
`MatchInit` and `MatchClear` that end with `MatchInit`: if the arrays fitted in each state in which
`MatchInit` was called, the places fit that the search comes to, the search of the new object stays
in an `int`, and keys are stored or none ever was (or the source has no block). No array is read or
written beyond its length. -/
theorem lifecycle_ok {pf : Platform} (hpf : pf.Clears) {s : State} (h : Reached pf ArraysFit s)
    (harrays : ArraysFit s) {source : List UInt8} (hplaces : PlacesFit (matchInit pf s) source)
    (hint : StaysInt (fresh pf s.keylist) source)
    (hkeys : s.keylist ≠ [] ∨ s.matchFlag = false ∨ source.length ≤ 1) :
    (∃ rs, MatchMainReturns (matchInit pf s) source (some rs) ∧
      MatchMainReturns (fresh pf s.keylist) source (some rs) ∧
      IsReport s.keylist source rs ∧ (s.keylist = [] → rs = [])) ∧
    ∀ p m, (matchInit pf s).matchMap p = some m → m.listarr.overrun = false := by
  have hok := h.stateOk hpf
  have hnil : s.keylist = [] → report s.keylist source = [] := fun hne => by
    simp [report, reportBelow, resultAt, hne]
  refine ⟨⟨report s.keylist source, ?_, ?_, isReport_report _ _, hnil⟩, fun p m hm =>
    ((mapOk_matchInit hpf hok harrays).entry p m hm).inside⟩
  · by_cases hne : s.keylist = []
    · rw [hnil hne]
      unfold MatchMainReturns
      split
      · rfl
      · rename_i hflag
        have hshort := (hkeys.resolve_left fun h => h hne).resolve_left hflag
        split
        · rfl
        · -- the search ends at once
          refine .done ?_
          have hiter : aMatch (matchInit pf s) source 0 = .inr .notFound := by
            rw [aMatch, if_neg (by omega)]
          simp only [matchMain, hiter]
    · exact matchMain_report (searchable_matchInit hpf hok harrays hne) (hok.flag hne) hplaces
  · by_cases hne : s.keylist = []
    · rw [hnil hne, hne]
      rfl
    · exact fresh_report hpf hne hint

/-- A key is added behind two others for which `match_map` was built, with arrays of two
elements. -/
def reused : State :=
  (addKey (fresh nullPlatform [qabcdKey, zefghKey]) xyKey.toCString).1

theorem reused_arraysFit : ArraysFit reused := by
  have hpf : nullPlatform.Clears := .inr fun _ _ => rfl
  have hne : [qabcdKey, zefghKey] ≠ [] := by simp
  obtain ⟨-, hkeys, -, hnew⟩ := searchable_fresh hpf hne
  have hmap : reused.matchMap = (fresh nullPlatform [qabcdKey, zefghKey]).matchMap := by
    rw [reused, addKey_key]
  have hlist : reused.keylist = [qabcdKey, zefghKey, xyKey] := by
    rw [reused, addKey_key, hkeys]
    rfl
  -- the keys end in different blocks
  have hone : ∀ pos, ([qabcdKey, zefghKey, xyKey].filter (·.endsIn pos)).length ≤ 1 := by
    intro pos
    have h1 : ∀ k : Key, k.endsIn pos = true →
        (k.byte (k.length - 2), k.byte (k.length - 1)) = pos := fun _ h => of_decide_eq_true h
    by_cases ha : qabcdKey.endsIn pos = true
    · rw [← h1 _ ha]
      decide +kernel
    · by_cases hb : zefghKey.endsIn pos = true
      · rw [← h1 _ hb]
        decide +kernel
      · rw [List.filter_cons, if_neg ha, List.filter_cons, if_neg hb]
        exact List.length_filter_le _ [xyKey]
  intro p m hm hzero
  rw [hmap] at hm
  have hslots := (hnew p m hm).2 hzero
  rw [hkeys] at hslots
  right
  have hsub : ([qabcdKey, zefghKey].filter (·.endsIn m.pos)).length ≤ 1 := by
    have := hone m.pos
    rw [show [qabcdKey, zefghKey, xyKey] = [qabcdKey, zefghKey] ++ [xyKey] from rfl,
      List.filter_append, List.length_append] at this
    omega
  have := hone m.pos
  rw [hslots, filter_null, hlist]
  simp only [List.length_append, List.length_map, List.length_replicate, List.length_cons,
    List.length_nil]
  omega

/-- The full array of `qabcd` is read to its first element, and the space of `qa` from before does
not reach past the end of a key. -/
theorem lifecycle_ok_reused :
    ∃ rs, MatchMainReturns (matchInit nullPlatform reused) "qabcdxy".asciiBytes (some rs) ∧
      MatchMainReturns (fresh nullPlatform reused.keylist) "qabcdxy".asciiBytes (some rs) ∧
      IsReport reused.keylist "qabcdxy".asciiBytes rs := by
  have hlist : reused.keylist = [qabcdKey, zefghKey, xyKey] := by decide +kernel
  have hplaces : PlacesFit (matchInit nullPlatform reused) "qabcdxy".asciiBytes := by
    intro _ n rs hv
    exact Loop.forall_visits_of_checkRun (P := fun h : Head => h.1.toNat + 1 < 7 →
      PlaceFits (matchInit nullPlatform reused) "qabcdxy".asciiBytes h.1.toNat) 9
      (by decide +kernel) hv
  have hrun : Reached nullPlatform ArraysFit reused :=
    .addKey xyKey.toCString (.matchInit (.addKey zefghKey.toCString (.addKey qabcdKey.toCString
      .new)) (arraysFit_of_empty fun _ => rfl))
  have hne : reused.keylist ≠ [] := by simp [hlist]
  obtain ⟨⟨rs, h1, h2, h3, -⟩, -⟩ := lifecycle_ok (.inr fun _ _ => rfl) hrun reused_arraysFit
    hplaces (staysInt_of_le (.inr fun _ _ => rfl) hne (by decide +kernel)) (.inl hne)
  exact ⟨rs, h1, h2, h3⟩

/-- A key shorter than the ones before is jumped over; an array of before is too short for a key
more; with no key left the search steps back before the source. -/
theorem lifecycle_breaks :
    (MatchMainReturns (matchInit nullPlatform (addKeys (matchInit nullPlatform
        (addKeys (State.new nullPlatform) [abcdefKey.toCString])) [xyKey.toCString]))
        "abxy".asciiBytes (some []) ∧
      MatchMainReturns (fresh nullPlatform [abcdefKey, xyKey]) "abxy".asciiBytes
        (some [⟨2, xyKey⟩])) ∧
    (∃ m, (matchInit nullPlatform (addKeys (matchInit nullPlatform
        (addKeys (State.new nullPlatform) [abKey.toCString])) [xabKey.toCString])).matchMap
        (getPos 97 98) = some m ∧ m.listarr.overrun = true) ∧
    MatchMainReturns (matchInit nullPlatform (matchClear
      (addKeys (State.new nullPlatform) [abKey.toCString]))) "ab".asciiBytes none := by
  refine ⟨⟨?_, ?_⟩, ?_, ?_⟩
  · unfold MatchMainReturns
    rw [if_neg (by decide +kernel), if_neg (by decide +kernel)]
    exact Loop.returns_of_run 9 (by decide +kernel)
  · unfold MatchMainReturns
    rw [if_neg (by decide +kernel), if_neg (by decide +kernel)]
    exact Loop.returns_of_run 9 (by decide +kernel)
  · cases hm : (matchInit nullPlatform (addKeys (matchInit nullPlatform
        (addKeys (State.new nullPlatform) [abKey.toCString])) [xabKey.toCString])).matchMap
        (getPos 97 98) with
    | none => exact absurd hm (by decide +kernel)
    | some m =>
      refine ⟨m, rfl, ?_⟩
      have : ((matchInit nullPlatform (addKeys (matchInit nullPlatform
        (addKeys (State.new nullPlatform) [abKey.toCString])) [xabKey.toCString])).matchMap
        (getPos 97 98)).all (fun m => m.listarr.overrun) = true := by decide +kernel
      rw [hm] at this
      exact this
  · unfold MatchMainReturns
    rw [if_neg (by decide +kernel), if_neg (by decide +kernel)]
    exact Loop.returns_of_run 9 (by decide +kernel)

end MultiKey
