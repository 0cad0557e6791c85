import CodeLibrary.Libpam.Proof.Login
import CodeLibrary.Libpam.Proof.Session

/-!
# Scratch codes and counters are used up

* `Spent`: what a login does to the options and the scratch codes of an account.
* `scratchCodes_spent`: over any interleaving of logins a scratch code is accepted at most as often
  as the state file lists it.
* `counters_increase`: and each value of the counter is accepted at most once, in increasing order.
* `counter_twice`: but not where two state files have the same size and modification time.
-/

set_option autoImplicit false

namespace Libpam

variable {compute : List UInt8 → UInt64 → UInt32} {params : Params} {env : Env}

/-! ## The options a login sets -/

theorem isWord_hotpCounter : IsWord "HOTP_COUNTER".asciiBytes := by decide
theorem isWord_timeSkew : IsWord "TIME_SKEW".asciiBytes := by decide
theorem isWord_resetting : IsWord "RESETTING_TIME_SKEW".asciiBytes := by decide
theorem isWord_disallowReuse : IsWord "DISALLOW_REUSE".asciiBytes := by decide
theorem isWord_rateLimit : IsWord "RATE_LIMIT".asciiBytes := by decide
theorem isWord_windowSize : IsWord "WINDOW_SIZE".asciiBytes := by decide

/-- An account whose options other than those of `keys` are as before. -/
structure Kept (keys : List (List UInt8)) (buf buf' : List UInt8) : Prop where
  plain : Plain buf'
  options : ∀ key, IsWord key → key ∉ keys → getCfgValue key buf' = getCfgValue key buf

theorem Kept.refl {buf : List UInt8} (h : Plain buf) (keys : List (List UInt8)) :
    Kept keys buf buf := ⟨h, fun _ _ _ => rfl⟩

theorem Kept.trans {keys keys' : List (List UInt8)} {a b c : List UInt8} (h : Kept keys a b)
    (h' : Kept keys' b c) : Kept (keys ++ keys') a c :=
  ⟨h'.plain, fun key hk hn => by
    rw [List.mem_append, not_or] at hn
    rw [h'.options key hk hn.2, h.options key hk hn.1]⟩

theorem Kept.set {buf key val : List UInt8} (h : Plain buf) (hk : IsWord key) (hv : OneLine val) :
    Kept [key] buf (setCfgValue key val buf) ∧
      scratchCodes (setCfgValue key val buf) = scratchCodes buf ∧
      getCfgValue key (setCfgValue key val buf) = some (val.dropWhile isBlank) := by
  obtain ⟨hplain, hcodes, hget⟩ := h.set hk hv
  refine ⟨⟨hplain, fun key' hk' hne => ?_⟩, hcodes, ?_⟩
  · rw [hget key' hk', if_neg (by simpa using hne)]
  · rw [hget key hk, if_pos rfl]

/-! ## The values are lines -/

theorem oneLine_getCfgValue {key buf val : List UInt8} (h : getCfgValue key buf = some val) :
    OneLine val := by
  induction buf using getCfgValue.induct key with
  | case1 => rw [getCfgValue] at h; cases h
  | case2 c s hk =>
    rw [getCfgValue, if_pos hk] at h
    cases h
    exact oneLine_lineOf _
  | case3 c s hk ih =>
    rw [getCfgValue, if_neg hk] at h
    exact ih h

theorem oneLine_decimal (n : Nat) : OneLine (Scanf.decimal n) := fun _ hc =>
  isEol_eq_false (Scanf.not_isSpace_of_isDigit ((Scanf.decimal_digits n).2.1 _ hc))

theorem OneLine.cons {c : UInt8} {text : List UInt8} (hc : isEol c = false) (h : OneLine text) :
    OneLine (c :: text) := fun d hd => by
  rcases List.mem_cons.1 hd with rfl | hd
  · exact hc
  · exact h d hd

theorem oneLine_flatMap {α : Type*} {f : α → List UInt8} (hf : ∀ x, OneLine (f x)) (xs : List α) :
    OneLine (xs.flatMap f) := fun _ hc => by
  obtain ⟨x, -, hx⟩ := List.mem_flatMap.1 hc
  exact hf x _ hx

theorem oneLine_limitText (attempts interval : Int) (timestamps : List UInt32) :
    OneLine (limitText attempts interval timestamps) :=
  (((oneLine_printInt _).append (by decide)).append (oneLine_printInt _)).append
    (oneLine_flatMap (fun _ => .cons (by decide) (oneLine_decimal _)) _)

theorem oneLine_printSigned (n : Int) : OneLine (printSigned n) := by
  rw [printSigned]
  split
  · exact oneLine_printInt n
  · exact .cons (by decide) (oneLine_printInt n)

theorem oneLine_skewsText : ∀ entries : List Skewed, OneLine (skewsText entries)
  | [] => nofun
  | e :: entries => ((oneLine_printInt _).append (oneLine_printSigned _)).append
      (oneLine_flatMap (fun _ => (OneLine.cons (by decide) (oneLine_printInt _)).append
        (oneLine_printSigned _)) _)

/-- The loop over the blocked time steps only deletes. -/
theorem pruneBlocked_subset {tm window : Int} {ptr rest : List UInt8}
    (h : pruneBlocked tm window ptr = some rest) : ∀ c ∈ rest, c ∈ ptr := by
  induction hn : ptr.length using Nat.strongRecOn generalizing ptr rest with
  | ind n ih =>
    have hwhite : ∀ c ∈ ptr.takeWhile isWhite, c ∈ ptr := fun c hc =>
      (List.takeWhile_sublist _).subset hc
    rw [pruneBlocked] at h
    dsimp only at h
    split at h
    · cases h
      exact hwhite
    · rename_i c s hcs
      have hsub : ∀ d ∈ c :: s, d ∈ ptr := fun d hd => by
        rw [← hcs] at hd
        exact (List.dropWhile_suffix _).subset hd
      have hlen : (c :: s).length ≤ ptr.length := by
        rw [← hcs]
        exact (List.dropWhile_suffix _).length_le
      have hend : ∀ d ∈ (strtoul (c :: s)).endptr, d ∈ ptr := fun d hd =>
        hsub d ((strtoul_suffix _).subset hd)
      split at h
      · cases h
      · rename_i hb
        have hlt := length_strtoul_lt fun he => hb (.inr (.inl he))
        split at h
        · cases h
        · split at h
          · obtain ⟨r, hr, rfl⟩ := Option.map_eq_some_iff.1 h
            have hdrop := List.dropWhile_suffix (l := (strtoul (c :: s)).endptr) isBlank
            have hdlen := hdrop.length_le
            intro d hd
            rcases List.mem_append.1 hd with hd | hd
            · exact hwhite d hd
            · exact hend d (hdrop.subset (ih _ (by omega) hr rfl d hd))
          · obtain ⟨r, hr, rfl⟩ := Option.map_eq_some_iff.1 h
            intro d hd
            rcases List.mem_append.1 hd with hd | hd
            · rcases List.mem_append.1 hd with hd | hd
              · exact hwhite d hd
              · exact hsub d (List.mem_of_mem_take hd)
            · exact hend d (ih _ (by omega) hr rfl d hd)

/-! ## One login -/

theorem rateLimit_kept (now : UInt32) (s : State) (h : Plain s.buf) :
    Kept ["RATE_LIMIT".asciiBytes] s.buf (rateLimit now s).2.buf ∧
      scratchCodes (rateLimit now s).2.buf = scratchCodes s.buf ∧
      ((rateLimit now s).2 = s ∨ (rateLimit now s).2.updated = true) := by
  have hsame : Kept ["RATE_LIMIT".asciiBytes] s.buf s.buf ∧
      scratchCodes s.buf = scratchCodes s.buf ∧ (s = s ∨ s.updated = true) :=
    ⟨.refl h _, rfl, .inl rfl⟩
  rw [rateLimit]
  split
  · exact hsame
  · split
    · exact hsame
    · split
      · exact hsame
      · obtain ⟨hkept, hcodes, -⟩ := Kept.set h isWord_rateLimit (oneLine_limitText _ _ _)
        exact ⟨hkept, hcodes, .inr rfl⟩

theorem invalidateTimebasedCode_kept {tm : Int} {s s' : State} (h : Plain s.buf)
    (hi : invalidateTimebasedCode tm s = (.accepted (.step tm), s')) :
    Kept ["DISALLOW_REUSE".asciiBytes] s.buf s'.buf ∧ scratchCodes s'.buf = scratchCodes s.buf ∧
      (s' = s ∨ s'.updated = true) := by
  rw [invalidateTimebasedCode] at hi
  split at hi
  · cases hi
    exact ⟨.refl h _, rfl, .inl rfl⟩
  · rename_i disallow hget
    dsimp only at hi
    split at hi
    · cases hi
    · split at hi
      · cases hi
      · rename_i rest hprune
        have hrest : OneLine rest := fun c hc =>
          oneLine_getCfgValue hget c (pruneBlocked_subset hprune c hc)
        have hval : OneLine (if rest = [] then printInt tm else rest ++ 32 :: printInt tm) := by
          split
          · exact oneLine_printInt tm
          · exact hrest.append (.cons (by decide) (oneLine_printInt tm))
        cases hi
        obtain ⟨hkept, hcodes, -⟩ := Kept.set h isWord_disallowReuse hval
        exact ⟨hkept, hcodes, .inr rfl⟩

/-- The options the checks of a code may set. -/
def checkKeys : List (List UInt8) :=
  ["DISALLOW_REUSE".asciiBytes, "TIME_SKEW".asciiBytes, "RESETTING_TIME_SKEW".asciiBytes]

theorem Kept.mono {keys keys' : List (List UInt8)} {a b : List UInt8} (h : Kept keys a b)
    (hsub : ∀ key ∈ keys, key ∈ keys') : Kept keys' a b :=
  ⟨h.plain, fun key hk hn => h.options key hk fun hm => hn (hsub key hm)⟩

/-- The scratch codes behind a login that accepts `token`. -/
def codesAfter (codes : List Int) : Option Token → List Int
  | some (.scratch code) => codes.erase code
  | _ => codes

/-- The option `HOTP_COUNTER` behind the checks of a code that accept `token`. -/
def counterOption (buf : List UInt8) : Option Token → Option (List UInt8)
  | some (.counter n) => some (printInt (n + 1))
  | _ => getCfgValue "HOTP_COUNTER".asciiBytes buf

/-- **The checks of a code:** a scratch code that is accepted is taken away once, and a value of the
counter that is accepted moves the counter behind it; the other scratch codes and options stay. -/
theorem Decided.spec {noskewadj : Bool} {hotp now : Int} {s s' : State} {rc : Bool}
    {token : Option Token} (hd : Decided noskewadj hotp now s rc token s') (h : Plain s.buf) :
    (Kept ("HOTP_COUNTER".asciiBytes :: checkKeys) s.buf s'.buf) ∧
    (∀ code, token = some (.scratch code) → code ∈ scratchCodes s.buf) ∧
    scratchCodes s'.buf = codesAfter (scratchCodes s.buf) token ∧
    (∀ n, token = some (.counter n) → 0 < hotp ∧ hotp ≤ n ∧ n < hotp + windowSize s.buf) ∧
    getCfgValue "HOTP_COUNTER".asciiBytes s'.buf = counterOption s.buf token ∧
    (∀ t, token = some t → (∀ tm, t ≠ .step tm) → s'.updated = true) := by
  have hword := isWord_hotpCounter
  cases hd with
  | nothing => exact ⟨.refl h _, nofun, rfl, nofun, rfl, nofun⟩
  | @scratch code s' hcheck =>
    rcases checkScratchCodes_spec h code with ⟨-, he⟩ | ⟨hmem, buf, he, hplain, hopt, hcodes⟩
    · rw [he] at hcheck
      cases hcheck
    · rw [he] at hcheck
      cases hcheck
      exact ⟨⟨hplain, fun key hk _ => hopt key hk⟩, fun c hc => by cases hc; exact hmem, hcodes,
        nofun, hopt _ hword, fun _ _ _ => rfl⟩
  | @counter i hpos hi =>
    obtain ⟨hkept, hcodes, hget⟩ := Kept.set h hword (oneLine_printInt (hotp + i + 1))
    refine ⟨hkept.mono (by simp), nofun, hcodes, fun n hn => ?_, ?_, fun _ _ _ => rfl⟩
    · cases hn
      omega
    · have := printInt_dropWhile_isBlank (hotp + i + 1) []
      rw [List.append_nil] at this
      rw [this] at hget
      exact hget
  | step hhotp hwin hin hinv =>
    obtain ⟨hkept, hcodes, -⟩ := invalidateTimebasedCode_kept h hinv
    exact ⟨hkept.mono (by simp [checkKeys]), nofun, hcodes, nofun,
      hkept.options _ hword (by decide), fun t ht hne => absurd (Option.some.inj ht).symm (hne _)⟩
  | skew avgSkew hhotp hskew =>
    obtain ⟨hkept, hcodes, -⟩ := Kept.set h isWord_timeSkew (oneLine_printInt avgSkew)
    obtain ⟨hkept', hcodes', -⟩ :=
      Kept.set hkept.plain isWord_resetting (show OneLine [] from nofun)
    exact ⟨(hkept.trans hkept').mono (by simp [checkKeys]), nofun, hcodes'.trans hcodes, nofun,
      (hkept.trans hkept').options _ hword (by decide), fun _ _ _ => rfl⟩
  | trying entries hhotp hskew =>
    obtain ⟨hkept, hcodes, -⟩ := Kept.set h isWord_resetting (oneLine_skewsText entries)
    exact ⟨hkept.mono (by simp [checkKeys]), nofun, hcodes, nofun,
      hkept.options _ hword (by decide), nofun⟩

/-- The options a login may set. -/
def loginKeys : List (List UInt8) :=
  "RATE_LIMIT".asciiBytes :: "HOTP_COUNTER".asciiBytes :: checkKeys

theorem windowSize_le (buf : List UInt8) : windowSize buf ≤ 100 := by
  rw [windowSize]
  split
  · decide
  · dsimp only
    split <;> omega

theorem getHotpCounter_eq {buf : List UInt8} {n : Int}
    (h : getCfgValue "HOTP_COUNTER".asciiBytes buf = some (printInt n)) (hn : -2 ^ 63 ≤ n)
    (hn' : n < 2 ^ 63) : getHotpCounter buf = n := by
  rw [getHotpCounter, h]
  exact strtol_printInt hn hn'

theorem getHotpCounter_congr {buf buf' : List UInt8}
    (h : getCfgValue "HOTP_COUNTER".asciiBytes buf' = getCfgValue "HOTP_COUNTER".asciiBytes buf) :
    getHotpCounter buf' = getHotpCounter buf := by
  rw [getHotpCounter, getHotpCounter, h]

/-- What a login does to an account: it accepts what is there, and takes away what it accepts, also
where it denies the login afterwards. -/
structure Spent (text : List UInt8) (o : Outcome) : Prop where
  /-- a code that is used up is written -/
  scratch : ∀ code, o.token = some (.scratch code) → code ∈ scratchCodes text ∧ o.write ≠ none
  counter : ∀ n, o.token = some (.counter n) → 0 < getHotpCounter text ∧ o.write ≠ none
  kept : ∀ w, o.write = some w → Kept loginKeys text w
  codes : ∀ w, o.write = some w → ∃ token, (o.token = token ∨ o.token = none) ∧
    scratchCodes w = codesAfter (scratchCodes text) token
  hotp : ∀ w, o.write = some w → 0 < getHotpCounter text → getHotpCounter text + 100 < 2 ^ 63 →
    getHotpCounter text ≤ getHotpCounter w ∧ getHotpCounter w ≤ getHotpCounter text + 100 ∧
    ∀ n, o.token = some (.counter n) → getHotpCounter text ≤ n ∧ getHotpCounter w = n + 1

/-- A login that accepts nothing and writes what the rate limit does, or nothing. -/
theorem Spent.denied {text : List UInt8} (h : Plain text) {o : Outcome} {now : UInt32}
    (htoken : o.token = none)
    (hw : o.write = none ∨ o.write = some (rateLimit now ⟨text, false⟩).2.buf) : Spent text o := by
  obtain ⟨hkept, hcodes, -⟩ := rateLimit_kept now ⟨text, false⟩ h
  have hwrite : ∀ w, o.write = some w → w = (rateLimit now ⟨text, false⟩).2.buf := fun w hw' => by
    rcases hw with hw | hw
    · rw [hw] at hw'; cases hw'
    · exact (Option.some.inj (hw.symm.trans hw')).symm
  refine ⟨fun c hc => ?_, fun n hn => ?_, fun w hw' => ?_, fun w hw' => ?_, fun w hw' h0 h1 => ?_⟩
  · rw [htoken] at hc; cases hc
  · rw [htoken] at hn; cases hn
  · rw [hwrite w hw']
    exact hkept.mono (by simp [loginKeys])
  · rw [hwrite w hw']
    exact ⟨none, .inr htoken, hcodes⟩
  · rw [hwrite w hw', getHotpCounter_congr (hkept.options _ isWord_hotpCounter (by decide))]
    dsimp only
    refine ⟨Int.le_refl _, by omega, fun n hn => ?_⟩
    rw [htoken] at hn
    cases hn

/-- At the end of a login the counter may be advanced. -/
theorem advanced_kept {s s' : State} {n : Int} (h : Plain s.buf)
    (hadv : s' = s ∨ s' = s.set "HOTP_COUNTER".asciiBytes (printInt n)) :
    Kept ["HOTP_COUNTER".asciiBytes] s.buf s'.buf ∧ scratchCodes s'.buf = scratchCodes s.buf ∧
      (s.updated = true → s'.updated = true) := by
  rcases hadv with rfl | rfl
  · exact ⟨.refl h _, rfl, id⟩
  · obtain ⟨hkept, hcodes, -⟩ := Kept.set h isWord_hotpCounter (oneLine_printInt n)
    exact ⟨hkept, hcodes, fun _ => rfl⟩

/-- **One login** of an account. -/
theorem login_spent {compute : List UInt8 → UInt64 → UInt32} (params : Params) (env : Env)
    {text : List UInt8} (h : Plain text) : Spent text (login compute params env text) := by
  rcases login_cases compute params env text with ⟨-, htoken, hw⟩ |
    ⟨-, rc, token, mode, -, s, s', hdec, hadv, -, htoken, hw⟩
  · exact .denied h htoken (hw.imp_right And.left)
  · obtain ⟨hkept, hcodes, -⟩ :=
      rateLimit_kept (UInt32.ofInt env.limitTime) ⟨text, false⟩ h
    generalize rateLimit (UInt32.ofInt env.limitTime) ⟨text, false⟩ = limited at *
    obtain ⟨hdkept, hscratch, hdcodes, hcounter, hdget, hdupd⟩ := hdec.spec hkept.plain
    have hget := hkept.options _ isWord_hotpCounter (by decide)
    have hhotp := getHotpCounter_congr hget
    have hsize := windowSize_le limited.2.buf
    dsimp only at hcodes hdcodes hdget hscratch hcounter hhotp hget
    rw [hhotp] at hadv hcounter
    rw [hcodes] at hdcodes hscratch
    have htok : ∀ t, (login compute params env text).token = some t → token = some t :=
      fun t ht => (Option.ite_none_right_eq_some.1 (htoken.symm.trans ht)).2
    obtain ⟨hakept, hacodes, haupd⟩ := advanced_kept hdkept.plain (hadv.imp_right fun h => h.2.2)
    have hwrite : ∀ t, token = some t → (∀ tm, t ≠ .step tm) →
        (login compute params env text).write ≠ none := fun t ht hne => by
      rw [hw, if_pos (by rw [haupd (hdupd t ht hne), Bool.or_true])]
      exact nofun
    have hw' : ∀ w, (login compute params env text).write = some w → w = s'.buf := fun w hww =>
      (Option.some.inj (Option.ite_none_right_eq_some.1 (hw.symm.trans hww)).2).symm
    refine ⟨fun c hc => ?_, fun n hn => ?_, fun w hww => ?_, fun w hww => ?_,
      fun w hww h0 h1 => ?_⟩
    · exact ⟨hscratch c (htok _ hc), hwrite _ (htok _ hc) nofun⟩
    · exact ⟨(hcounter n (htok _ hn)).1, hwrite _ (htok _ hn) nofun⟩
    · rw [hw' w hww]
      exact (hkept.trans (hdkept.trans hakept)).mono (by simp [loginKeys, checkKeys])
    · rw [hw' w hww]
      refine ⟨token, ?_, hacodes.trans hdcodes⟩
      rw [htoken]
      split
      · exact .inl rfl
      · exact .inr rfl
    · rw [hw' w hww]
      rcases hadv with rfl | ⟨-, hne, rfl⟩
      · cases token with
        | some token =>
          cases token with
          | counter n =>
            obtain ⟨-, hle, hlt⟩ := hcounter n rfl
            rw [getHotpCounter_eq hdget (by omega) (by omega)]
            refine ⟨by omega, by omega, fun m hm => ?_⟩
            cases htok _ hm
            exact ⟨hle, rfl⟩
          | _ =>
            rw [getHotpCounter_congr (hdget.trans hget)]
            exact ⟨Int.le_refl _, by omega, fun m hm => by cases htok _ hm⟩
        | none =>
          rw [getHotpCounter_congr (hdget.trans hget)]
          exact ⟨Int.le_refl _, by omega, fun m hm => by cases htok _ hm⟩
      · obtain ⟨-, -, hset⟩ := Kept.set hdkept.plain isWord_hotpCounter
          (oneLine_printInt (getHotpCounter text + 1))
        have hdrop := printInt_dropWhile_isBlank (getHotpCounter text + 1) []
        rw [List.append_nil] at hdrop
        rw [hdrop] at hset
        have hnew : getHotpCounter (s.set "HOTP_COUNTER".asciiBytes
            (printInt (getHotpCounter text + 1))).buf = getHotpCounter text + 1 :=
          getHotpCounter_eq hset (by omega) (by omega)
        rw [hnew]
        exact ⟨by omega, by omega, fun m hm => absurd (htok _ hm) (hne m)⟩

/-! ## Any interleaving of logins -/

variable {clock : Int} {file : Version} {s : System}

/-- The tokens that logins were granted for. -/
def tokens (log : List Call) : List Token := log.filterMap fun call => call.outcome.token

/-- Each call is a login with what it has read. -/
def Logins (compute : List UInt8 → UInt64 → UInt32) (params : Params) (log : List Call) : Prop :=
  ∀ call ∈ log, call.outcome = login compute params call.env call.read.text

theorem tokens_cons (call : Call) (log : List Call) :
    tokens (call :: log) = call.outcome.token.toList ++ tokens log := by
  rw [tokens, List.filterMap_cons]
  cases call.outcome.token <;> rfl

/-- All state files, and all that is read, are accounts if the first one is. -/
theorem plain_of_serial {init text : List UInt8} {log : List Call} (h : SerialLog init log text)
    (hlog : Logins compute params log) (hplain : Plain init) :
    Plain text ∧ ∀ call ∈ log, Plain call.read.text :=
  Serial.invariant h hplain fun call hc hread w hw => by
    rw [hlog call hc] at hw
    exact ((login_spent params call.env hread).kept w hw).plain

theorem Spent.count_le {text w : List UInt8} {o : Outcome} (h : Spent text o)
    (hw : o.write = some w) (code : Int) :
    o.token.toList.count (.scratch code) + (scratchCodes w).count code ≤
      (scratchCodes text).count code := by
  obtain ⟨token, htoken, hcodes⟩ := h.codes w hw
  have hle : (scratchCodes w).count code ≤ (scratchCodes text).count code := by
    rw [hcodes]
    unfold codesAfter
    split
    · exact List.erase_sublist.count_le _
    · exact Nat.le_refl _
  by_cases ht : o.token = some (.scratch code)
  · have hmem := (h.scratch code ht).1
    obtain rfl : token = some (.scratch code) := by
      rcases htoken with he | he
      · exact he.symm.trans ht
      · rw [ht] at he; cases he
    have hpos := List.count_pos_iff.2 hmem
    rw [hcodes, codesAfter, ht, List.count_erase_self]
    simp only [Option.toList_some, List.count_cons_self, List.count_nil]
    omega
  · have h0 : o.token.toList.count (.scratch code) = 0 := by
      rw [List.count_eq_zero]
      intro hm
      exact ht (Option.mem_toList.1 hm)
    omega

/-- Over a serial history, what is left of a scratch code and its uses do not exceed what there
was. -/
theorem count_of_serial {init text : List UInt8} {log : List Call} (h : SerialLog init log text)
    (hlog : Logins compute params log) (hplain : Plain init) (code : Int) :
    (tokens log).count (.scratch code) + (scratchCodes text).count code ≤
      (scratchCodes init).count code := by
  induction h with
  | nil => simp [tokens]
  | @write log a b call hrun hread hw ih =>
    have hrest : Logins compute params log := fun c hc => hlog c (List.mem_cons_of_mem _ hc)
    have ih := ih hrest
    have hspent : Spent a call.outcome := by
      rw [hlog call List.mem_cons_self, hread]
      exact login_spent params call.env (plain_of_serial hrun hrest hplain).1
    have := hspent.count_le hw code
    rw [tokens_cons, List.count_append]
    omega
  | @read log log' a call hrun hsuffix hrun' hw ih _ =>
    have hrest : Logins compute params log := fun c hc => hlog c (List.mem_cons_of_mem _ hc)
    have hrest' : Logins compute params log' := fun c hc => hrest c (hsuffix.subset hc)
    have hspent : Spent call.read.text call.outcome := by
      rw [hlog call List.mem_cons_self]
      exact login_spent params call.env (plain_of_serial hrun' hrest' hplain).1
    have h0 : call.outcome.token.toList.count (.scratch code) = 0 := by
      rw [List.count_eq_zero]
      intro hm
      exact (hspent.scratch code (Option.mem_toList.1 hm)).2 hw
    have := ih hrest
    rw [tokens_cons, List.count_append]
    omega

/-- **Scratch codes are used up:** however the logins of a user are interleaved, a scratch code lets
a user in at most as often as the state file has it. -/
theorem scratchCodes_spent (h : Reachable compute params (System.begin clock file) s)
    (hdistinct : s.Distinct) (hplain : Plain file.text) (code : Int) :
    (tokens s.log).count (.scratch code) + (scratchCodes s.file.text).count code ≤
      (scratchCodes file.text).count code := by
  have hinv := inv_of_reachable h hdistinct
  exact count_of_serial hinv.serial (fun call hc => (hinv.valid call hc).outcome) hplain code

/-- A login with the scratch code. -/
theorem login_scratch_code : login (fun _ value => value.toUInt32) ⟨.prompt, false, true, false⟩
    (sampleEnv 0 "12345678".asciiBytes) sampleText =
      ⟨true, some (.scratch 12345678), some "AAAAAAAA\n\" HOTP_COUNTER 1\n".asciiBytes⟩ := by
  decide +kernel

/-- Then one with the first value of the counter. -/
theorem login_then_counter : login (fun _ value => value.toUInt32) ⟨.prompt, false, true, false⟩
    (sampleEnv 1 "000001".asciiBytes) "AAAAAAAA\n\" HOTP_COUNTER 1\n".asciiBytes =
      ⟨true, some (.counter 1), some "AAAAAAAA\n\" HOTP_COUNTER 2\n".asciiBytes⟩ := by
  decide +kernel

/-- The scratch code is entered twice at once, and then the code of the counter. -/
theorem scratchCodes_spent_race : ∃ s, Reachable (fun _ value => value.toUInt32)
      ⟨.prompt, false, true, false⟩ (System.begin 0 ⟨sampleText, 0⟩) s ∧
    s.phase 0 = .returned true ∧ s.phase 1 = .returned false ∧ s.phase 2 = .returned true ∧
    (tokens s.log).count (.scratch 12345678) = 1 ∧
    (scratchCodes s.file.text).count 12345678 = 0 := by
  obtain ⟨s, h, hdistinct, -, hlog, hphase, hrefused, hphase'⟩ :=
    reachable_race (sampleEnv_within (Int.le_refl 0) _) (congrArg Outcome.write login_scratch_code)
      (sampleEnv_within (by decide) _) (congrArg Outcome.write login_then_counter)
  rw [login_scratch_code] at hphase
  rw [login_then_counter] at hphase'
  have hspent := scratchCodes_spent h hdistinct (by decide +kernel) 12345678
  have hcount : (scratchCodes sampleText).count 12345678 = 1 := by decide +kernel
  have htokens : tokens s.log = [.counter 1, .scratch 12345678] := by
    rw [hlog, login_scratch_code, login_then_counter]
    rfl
  have hone : ([.counter 1, .scratch 12345678] : List Token).count (.scratch 12345678) = 1 := by
    decide
  dsimp only at hspent
  rw [hcount, htokens, hone] at hspent
  refine ⟨s, h, hphase, hrefused, hphase', by rw [htokens, hone], ?_⟩
  omega

/-- The values of the counter that logins were granted for. -/
def counters (log : List Call) : List Int := (tokens log).filterMap fun token =>
  match token with
  | .counter n => some n
  | _ => none

theorem counters_cons (call : Call) (log : List Call) : counters (call :: log) =
    (match call.outcome.token with
      | some (.counter n) => [n]
      | _ => []) ++ counters log := by
  rw [counters, tokens_cons, List.filterMap_append, counters]
  cases call.outcome.token with
  | none => rfl
  | some token => cases token <;> rfl

/-- Over a serial history the counter only grows, and is behind all values that were accepted. -/
theorem counters_of_serial {init text : List UInt8} {log : List Call} (h : SerialLog init log text)
    (hlog : Logins compute params log) (hplain : Plain init) (hpos : 0 < getHotpCounter init)
    (hmax : getHotpCounter init + 100 * log.length < 2 ^ 63) :
    getHotpCounter init ≤ getHotpCounter text ∧
    getHotpCounter text ≤ getHotpCounter init + 100 * log.length ∧
    (∀ n ∈ counters log, getHotpCounter init ≤ n ∧ n < getHotpCounter text) ∧
    (counters log).Pairwise (· > ·) := by
  induction h with
  | nil => simp [counters, tokens]
  | @write log a b call hrun hread hw ih =>
    have hrest : Logins compute params log := fun c hc => hlog c (List.mem_cons_of_mem _ hc)
    rw [List.length_cons] at hmax ⊢
    obtain ⟨hge, hle, hall, hsorted⟩ := ih hrest (by omega)
    have hspent : Spent a call.outcome := by
      rw [hlog call List.mem_cons_self, hread]
      exact login_spent params call.env (plain_of_serial hrun hrest hplain).1
    obtain ⟨h1, h2, h3⟩ := hspent.hotp b hw (by omega) (by omega)
    rw [counters_cons]
    refine ⟨by omega, by omega, ?_, ?_⟩
    · intro n hn
      rcases List.mem_append.1 hn with hn | hn
      · split at hn
        · rename_i m ht
          cases List.mem_singleton.1 hn
          have := h3 n ht
          omega
        · cases hn
      · have := hall n hn
        omega
    · refine List.pairwise_append.2 ⟨?_, hsorted, fun n hn m hm => ?_⟩
      · split <;> simp
      · have hm := hall m hm
        split at hn
        · rename_i k ht
          cases List.mem_singleton.1 hn
          have := h3 n ht
          omega
        · cases hn
  | @read log log' a call hrun hsuffix hrun' hw ih _ =>
    have hrest : Logins compute params log := fun c hc => hlog c (List.mem_cons_of_mem _ hc)
    have hrest' : Logins compute params log' := fun c hc => hrest c (hsuffix.subset hc)
    rw [List.length_cons] at hmax ⊢
    obtain ⟨hge, hle, hall, hsorted⟩ := ih hrest (by omega)
    have hspent : Spent call.read.text call.outcome := by
      rw [hlog call List.mem_cons_self]
      exact login_spent params call.env (plain_of_serial hrun' hrest' hplain).1
    have hnone : counters (call :: log) = counters log := by
      rw [counters_cons]
      split
      · rename_i n ht
        exact absurd hw (hspent.counter n ht).2
      · rfl
    rw [hnone]
    exact ⟨hge, by omega, hall, hsorted⟩

/-- **No value of the counter is accepted twice:** however the logins of a user are interleaved, the
values that are accepted increase, and the counter in the state file is behind all of them. -/
theorem counters_increase (h : Reachable compute params (System.begin clock file) s)
    (hdistinct : s.Distinct) (hplain : Plain file.text) (hpos : 0 < getHotpCounter file.text)
    (hmax : getHotpCounter file.text + 100 * s.log.length < 2 ^ 63) :
    (counters s.log).Pairwise (· > ·) ∧
    ∀ n ∈ counters s.log, getHotpCounter file.text ≤ n ∧ n < getHotpCounter s.file.text := by
  have hinv := inv_of_reachable h hdistinct
  obtain ⟨-, -, hall, hsorted⟩ := counters_of_serial hinv.serial
    (fun call hc => (hinv.valid call hc).outcome) hplain hpos hmax
  exact ⟨hsorted, hall⟩

/-- A login with the second value of the counter. -/
theorem login_counter_two : login (fun _ value => value.toUInt32) ⟨.prompt, false, true, false⟩
    (sampleEnv 1 "000002".asciiBytes)
      "AAAAAAAA\n\" HOTP_COUNTER 2\n12345678\n".asciiBytes =
      ⟨true, some (.counter 2),
        some "AAAAAAAA\n\" HOTP_COUNTER 3\n12345678\n".asciiBytes⟩ := by
  decide +kernel

/-- The code of the first value is entered twice at once, and then that of the second one. -/
theorem counters_increase_race : ∃ s, Reachable (fun _ value => value.toUInt32)
      ⟨.prompt, false, true, false⟩ (System.begin 0 ⟨sampleText, 0⟩) s ∧
    s.phase 1 = .returned false ∧ counters s.log = [2, 1] ∧
    2 < getHotpCounter s.file.text := by
  obtain ⟨s, h, hdistinct, -, hlog, -, hrefused, -⟩ :=
    reachable_race (sampleEnv_within (Int.le_refl 0) _) (congrArg Outcome.write login_counter_one)
      (sampleEnv_within (by decide) _) (congrArg Outcome.write login_counter_two)
  have hcounters : counters s.log = [2, 1] := by
    rw [hlog, login_counter_one, login_counter_two]
    rfl
  have hall := (counters_increase h hdistinct (by decide +kernel) (by decide +kernel) (by
    rw [hlog]
    decide +kernel)).2
  exact ⟨s, h, hrefused, hcounters, (hall 2 (by rw [hcounters]; exact List.mem_cons_self)).2⟩

/-- **Without distinct versions a value is accepted twice:** two logins within one second leave the
size and the modification time as they are, and `write_file_contents` does not tell the state files
apart. -/
theorem counter_twice : ∃ s, Reachable (fun _ value => value.toUInt32)
      ⟨.prompt, false, true, false⟩ (System.begin 0 ⟨sampleText, 0⟩) s ∧
    counters s.log = [1, 1] := by
  obtain ⟨s, h, hlog, -⟩ := reachable_stale (sampleEnv_within (Int.le_refl 0) _)
    (congrArg Outcome.write login_counter_one) (by decide +kernel)
  have htokens : tokens s.log = (s.log.map Call.outcome).filterMap Outcome.token := by
    rw [List.filterMap_map]
    rfl
  refine ⟨s, h, ?_⟩
  rw [counters, htokens, hlog, login_counter_one]
  rfl

end Libpam
