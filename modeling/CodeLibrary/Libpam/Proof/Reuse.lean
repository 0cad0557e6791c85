import CodeLibrary.Libpam.Proof.Blocked
import CodeLibrary.Libpam.Proof.Uses

/-!
# Time steps are accepted once

With the option `DISALLOW_REUSE` and without the adjustment of the skew, no time step is accepted
twice over any interleaving of logins (`steps_accepted_once`). A time step is deleted from the list
only when a later login is so far from it that it is out of the window from then on.
-/

set_option autoImplicit false

namespace Libpam

open CInt

variable {compute : List UInt8 → UInt64 → UInt32} {params : Params}

/-! ## The list in the state file -/

/-- The time steps that are blocked. -/
def blockedOf (buf : List UInt8) : Option (List Int) :=
  (getCfgValue "DISALLOW_REUSE".asciiBytes buf).bind readBlocked

/-- The blocked time steps within the window around `tm`. -/
def within (window tm : Int) (bs : List Int) : List Int :=
  bs.filter fun b => !decide (b - tm ≥ window ∨ tm - b ≥ window)

theorem mem_within {window tm b : Int} {bs : List Int} :
    b ∈ within window tm bs ↔ b ∈ bs ∧ b - tm < window ∧ tm - b < window := by
  rw [within, List.mem_filter, Bool.not_eq_true', decide_eq_false_iff_not]
  exact and_congr_right fun _ => by omega

/-- **`invalidate_timebased_code`** accepts a time step that is not blocked, and blocks it. -/
theorem invalidateTimebasedCode_blocked {tm : Int} {s s' : State} {disallow : List UInt8}
    (h : Plain s.buf) (hget : getCfgValue "DISALLOW_REUSE".asciiBytes s.buf = some disallow)
    (hi : invalidateTimebasedCode tm s = (.accepted (.step tm), s')) (hlow : -2 ^ 31 ≤ tm)
    (hhigh : tm < 2 ^ 31) : s'.updated = true ∧ ∃ bs, blockedOf s.buf = some bs ∧ tm ∉ bs ∧
      blockedOf s'.buf = some (within (windowSize s.buf) tm bs ++ [tm]) := by
  rw [invalidateTimebasedCode, hget] at hi
  dsimp only at hi
  split at hi
  · cases hi
  · split at hi
    · cases hi
    · rename_i rest hprune
      obtain ⟨-, bs, hbs, hmem, hrest⟩ := pruneBlocked_spec hprune
      have hone : OneLine rest := fun c hc =>
        oneLine_getCfgValue hget c (pruneBlocked_subset hprune c hc)
      have hsep : Separated (32 :: printInt tm) := fun c hc => by cases hc; rfl
      have htm : readBlocked (32 :: printInt tm) = some [tm] := by
        have hwhite : ∀ c ∈ [32], isWhite c = true := by simp [isWhite, isBlank]
        exact (readBlocked_white hwhite (printInt tm)).trans (readBlocked_printInt hlow hhigh)
      have hval : OneLine (if rest = [] then printInt tm else rest ++ 32 :: printInt tm) ∧
          readBlocked (if rest = [] then printInt tm else rest ++ 32 :: printInt tm) =
            some (within (windowSize s.buf) tm bs ++ [tm]) := by
        split
        · rename_i hnil
          refine ⟨oneLine_printInt tm, ?_⟩
          rw [hnil, readBlocked_eq] at hrest
          have hempty : within (windowSize s.buf) tm bs = [] := (Option.some.inj hrest).symm
          rw [readBlocked_printInt hlow hhigh, hempty]
          rfl
        · refine ⟨hone.append (.cons (by decide) (oneLine_printInt tm)), ?_⟩
          rw [readBlocked_append hsep hrest, htm]
          rfl
      cases hi
      obtain ⟨-, -, hset⟩ := Kept.set h isWord_disallowReuse hval.1
      refine ⟨rfl, bs, by rw [blockedOf, hget]; exact hbs, hmem, ?_⟩
      rw [blockedOf, State.set]
      dsimp only
      rw [hset]
      exact (readBlocked_dropWhile (fun c hc => by rw [isWhite, hc, Bool.true_or]) _).trans hval.2

/-! ## One login -/

theorem windowSize_congr {buf buf' : List UInt8}
    (h : getCfgValue "WINDOW_SIZE".asciiBytes buf' = getCfgValue "WINDOW_SIZE".asciiBytes buf) :
    windowSize buf' = windowSize buf := by
  rw [windowSize, windowSize, h]

theorem timeSkew_congr {buf buf' : List UInt8}
    (h : getCfgValue "TIME_SKEW".asciiBytes buf' = getCfgValue "TIME_SKEW".asciiBytes buf) :
    timeSkew buf' = timeSkew buf := by
  rw [timeSkew, timeSkew, h]

/-- The options a login may set without the adjustment of the skew. -/
def stepKeys : List (List UInt8) :=
  ["RATE_LIMIT".asciiBytes, "HOTP_COUNTER".asciiBytes, "DISALLOW_REUSE".asciiBytes]

/-- What the checks of a code do to the list: nothing, or a time step is accepted and blocked. -/
def Blocks (now : Int) (buf : List UInt8) (token : Option Token) (buf' : List UInt8) : Prop :=
  (getCfgValue "DISALLOW_REUSE".asciiBytes buf' = getCfgValue "DISALLOW_REUSE".asciiBytes buf ∧
    ∀ tm, token ≠ some (.step tm)) ∨
  ∃ tm bs, token = some (.step tm) ∧ InWindow buf now tm ∧ blockedOf buf = some bs ∧ tm ∉ bs ∧
    blockedOf buf' = some (within (windowSize buf) tm bs ++ [tm])

theorem Decided.blocks {hotp now : Int} {s s' : State} {rc : Bool} {token : Option Token}
    (hd : Decided true hotp now s rc token s') (h : Plain s.buf)
    (hdis : getCfgValue "DISALLOW_REUSE".asciiBytes s.buf ≠ none)
    (hrange : ∀ tm, InWindow s.buf now tm → -2 ^ 31 ≤ tm ∧ tm < 2 ^ 31) :
    Kept ["HOTP_COUNTER".asciiBytes, "DISALLOW_REUSE".asciiBytes] s.buf s'.buf ∧
      Blocks now s.buf token s'.buf ∧ ((∃ tm, token = some (.step tm)) → s'.updated = true) := by
  cases hd with
  | nothing => exact ⟨.refl h _, .inl ⟨rfl, nofun⟩, nofun⟩
  | @scratch code s' hcheck =>
    rcases checkScratchCodes_spec h code with ⟨-, he⟩ | ⟨-, buf, he, hplain, hopt, -⟩
    · rw [he] at hcheck
      cases hcheck
    · rw [he] at hcheck
      cases hcheck
      exact ⟨⟨hplain, fun key hk _ => hopt key hk⟩,
        .inl ⟨hopt _ isWord_disallowReuse, nofun⟩, nofun⟩
  | @counter i hpos hi =>
    obtain ⟨hkept, -, -⟩ := Kept.set h isWord_hotpCounter (oneLine_printInt (hotp + i + 1))
    exact ⟨hkept.mono (by simp), .inl ⟨hkept.options _ isWord_disallowReuse (by decide), nofun⟩,
      nofun⟩
  | @step tm s' hhotp hwin hin hinv =>
    obtain ⟨hkept, -, -⟩ := invalidateTimebasedCode_kept h hinv
    obtain ⟨disallow, hget⟩ := Option.ne_none_iff_exists'.1 hdis
    obtain ⟨hlow, hhigh⟩ := hrange tm hin
    obtain ⟨hupd, bs, hbs, hmem, hbs'⟩ := invalidateTimebasedCode_blocked h hget hinv hlow hhigh
    exact ⟨hkept.mono (by simp), .inr ⟨tm, bs, rfl, hin, hbs, hmem, hbs'⟩, fun _ => hupd⟩
  | skew avgSkew hhotp hskew => cases hskew
  | trying entries hhotp hskew => cases hskew

/-- What a login does to the list. -/
structure Reuses (env : Env) (text : List UInt8) (o : Outcome) : Prop where
  silent : o.write = none → ∀ tm, o.token ≠ some (.step tm)
  kept : ∀ w, o.write = some w → Kept stepKeys text w
  blocks : ∀ w, o.write = some w →
    (blockedOf w = blockedOf text ∧ getCfgValue "DISALLOW_REUSE".asciiBytes w ≠ none ∧
      ∀ tm, o.token ≠ some (.step tm)) ∨
    ∃ mode < 4, ∃ tm bs, InWindow text (env.checkTime mode) tm ∧ blockedOf text = some bs ∧
      tm ∉ bs ∧ blockedOf w = some (within (windowSize text) tm bs ++ [tm]) ∧
      ∀ t, o.token = some (.step t) → t = tm

theorem blockedOf_congr {buf buf' : List UInt8}
    (h : getCfgValue "DISALLOW_REUSE".asciiBytes buf' =
      getCfgValue "DISALLOW_REUSE".asciiBytes buf) : blockedOf buf' = blockedOf buf := by
  rw [blockedOf, blockedOf, h]

theorem login_reuses {params : Params} (hskew : params.noskewadj = true) (env : Env)
    {text : List UInt8} (h : Plain text)
    (hdis : getCfgValue "DISALLOW_REUSE".asciiBytes text ≠ none)
    (hrange : ∀ mode < 4, ∀ tm, InWindow text (env.checkTime mode) tm →
      -2 ^ 31 ≤ tm ∧ tm < 2 ^ 31) :
    Reuses env text (login compute params env text) := by
  obtain ⟨hkept, -, -⟩ := rateLimit_kept (UInt32.ofInt env.limitTime) ⟨text, false⟩ h
  rcases login_cases compute params env text with ⟨-, htoken, hw⟩ |
    ⟨-, rc, token, mode, hmode, s, s', hdec, hadv, -, htoken, hw⟩
  · have hwrite : ∀ w, (login compute params env text).write = some w →
        w = (rateLimit (UInt32.ofInt env.limitTime) ⟨text, false⟩).2.buf := fun w hw' => by
      rcases hw with hw | ⟨hw, -⟩
      · rw [hw] at hw'; cases hw'
      · exact (Option.some.inj (hw.symm.trans hw')).symm
    have hsame := hkept.options _ isWord_disallowReuse (by decide)
    refine ⟨fun _ tm ht => ?_, fun w hw' => ?_, fun w hw' => .inl ⟨?_, ?_, fun tm ht => ?_⟩⟩
    · rw [htoken] at ht; cases ht
    · rw [hwrite w hw']
      exact hkept.mono (by simp [stepKeys])
    · rw [hwrite w hw']
      exact blockedOf_congr hsame
    · rw [hwrite w hw', hsame]
      exact hdis
    · rw [htoken] at ht; cases ht
  · generalize rateLimit (UInt32.ofInt env.limitTime) ⟨text, false⟩ = limited at *
    have hdsame := hkept.options _ isWord_disallowReuse (by decide)
    have hwindow := windowSize_congr (hkept.options _ isWord_windowSize (by decide))
    have htskew := timeSkew_congr (hkept.options _ isWord_timeSkew (by decide))
    have hin : ∀ tm, InWindow limited.2.buf (env.checkTime mode) tm →
        InWindow text (env.checkTime mode) tm := fun tm hin => by
      rw [InWindow, hwindow, htskew] at hin
      exact hin
    rw [hskew] at hdec
    obtain ⟨hdkept, hblocks, hupd⟩ := hdec.blocks hkept.plain (by rw [hdsame]; exact hdis)
      fun tm ht => hrange mode hmode tm (hin tm ht)
    obtain ⟨hakept, -, haupd⟩ := advanced_kept hdkept.plain (hadv.imp_right fun h => h.2.2)
    have hasame := hakept.options _ isWord_disallowReuse (by decide)
    have htok : ∀ tm, (login compute params env text).token = some (.step tm) →
        token = some (.step tm) := fun tm ht =>
      (Option.ite_none_right_eq_some.1 (htoken.symm.trans ht)).2
    have hw' : ∀ w, (login compute params env text).write = some w → w = s'.buf := fun w hww =>
      (Option.some.inj (Option.ite_none_right_eq_some.1 (hw.symm.trans hww)).2).symm
    refine ⟨fun hnone tm ht => ?_, fun w hww => ?_, fun w hww => ?_⟩
    · have hup := haupd (hupd ⟨tm, htok tm ht⟩)
      rw [hw, if_pos (by rw [hup, Bool.or_true])] at hnone
      cases hnone
    · rw [hw' w hww]
      exact (hkept.trans (hdkept.trans hakept)).mono (by simp [stepKeys])
    · rw [hw' w hww]
      rcases hblocks with ⟨hsame, hne⟩ | ⟨tm, bs, htm, hinw, hbs, hmem, hbs'⟩
      · refine .inl ⟨blockedOf_congr (hasame.trans (hsame.trans hdsame)), ?_,
          fun tm ht => hne tm (htok tm ht)⟩
        rw [hasame, hsame, hdsame]
        exact hdis
      · refine .inr ⟨mode, hmode, tm, bs, hin tm hinw, ?_, hmem, ?_, fun t ht => ?_⟩
        · rw [← hbs, blockedOf_congr hdsame]
        · rw [blockedOf_congr hasame, hbs', hwindow]
        · have := (htok t ht).symm.trans htm
          cases this
          rfl

/-! ## Any interleaving of logins -/

theorem inWindow_bounds {buf : List UInt8} {now tm : Int} (h : InWindow buf now tm) (h0 : 0 ≤ now)
    (h1 : now < 30 * 2 ^ 30) : now / 30 + timeSkew buf - (windowSize buf - 1) / 2 ≤ tm ∧
      tm ≤ now / 30 + timeSkew buf + windowSize buf / 2 := by
  obtain ⟨i, hi, rfl⟩ := h
  obtain ⟨k, hk, rfl⟩ := List.mem_map.1 hi
  rw [List.mem_range] at hk
  rw [getTimestamp, Int.tdiv_eq_ediv_of_nonneg h0, toInt_of_int (by omega) (by omega)]
  omega

/-- The clock times of a history: they fit an `int`, and those of a call that writes are not before
those of the calls that have written. -/
structure Timed (log : List Call) : Prop where
  times : ∀ call ∈ log, ∀ mode < 4, 0 ≤ call.env.limitTime ∧
    call.env.limitTime ≤ call.env.checkTime mode ∧ call.env.checkTime mode < 30 * 2 ^ 30
  ordered : ∀ extra call log', log = extra ++ call :: log' → call.outcome.write ≠ none →
    Before log' call.env.limitTime

theorem Timed.suffix {log log' : List Call} (h : Timed log) (hsuffix : log' <:+ log) :
    Timed log' := by
  obtain ⟨pre, rfl⟩ := hsuffix
  refine ⟨fun call hc => h.times call (List.mem_append_right _ hc), fun extra call l he hw => ?_⟩
  exact h.ordered (pre ++ extra) call l (by rw [he, List.append_assoc]) hw

/-- The time steps that logins were granted for. -/
def steps (log : List Call) : List Int := (tokens log).filterMap fun token =>
  match token with
  | .step tm => some tm
  | _ => none

theorem steps_cons_of_step {call : Call} {tm : Int} (h : call.outcome.token = some (.step tm))
    (log : List Call) : steps (call :: log) = tm :: steps log := by
  rw [steps, tokens_cons, h]
  rfl

theorem steps_cons_of_ne {call : Call} (h : ∀ tm, call.outcome.token ≠ some (.step tm))
    (log : List Call) : steps (call :: log) = steps log := by
  rw [steps, tokens_cons]
  cases ht : call.outcome.token with
  | none => rfl
  | some token =>
    cases token with
    | step tm => exact absurd ht (h tm)
    | _ => rfl

theorem Before.of_cons {call : Call} {log : List Call} {t : Int} (h : Before (call :: log) t) :
    Before log t := fun c hc => h c (List.mem_cons_of_mem _ hc)

theorem Before.mono {log : List Call} {t t' : Int} (h : Before log t) (hle : t ≤ t') :
    Before log t' := fun c hc hw mode hm => Int.le_trans (h c hc hw mode hm) hle

/-- A time step that was accepted is still blocked, or out of the window for good. -/
def Spoiled (init text : List UInt8) (log : List Call) (tm : Int) : Prop :=
  ∀ now, 0 ≤ now → now < 30 * 2 ^ 30 → Before log now →
    tm ≤ now / 30 + timeSkew init + windowSize init / 2 ∧
    ((∃ bs, blockedOf text = some bs ∧ tm ∈ bs) ∨
      tm < now / 30 + timeSkew init - (windowSize init - 1) / 2)

/-- The next call that writes keeps a time step spoiled. -/
theorem Spoiled.next {init text w : List UInt8} {call : Call} {log : List Call} {t : Int}
    (h : Spoiled init text log t) (hw : call.outcome.write = some w) {mode : Nat} (hmode : mode < 4)
    {tm : Int} {bs : List Int} (h0 : 0 ≤ call.env.checkTime mode)
    (h1 : call.env.checkTime mode < 30 * 2 ^ 30) (hbefore : Before log (call.env.checkTime mode))
    (htm : call.env.checkTime mode / 30 + timeSkew init - (windowSize init - 1) / 2 ≤ tm ∧
      tm ≤ call.env.checkTime mode / 30 + timeSkew init + windowSize init / 2)
    (hbs : blockedOf text = some bs)
    (hbs' : blockedOf w = some (within (windowSize init) tm bs ++ [tm])) :
    Spoiled init w (call :: log) t := by
  intro now hnow hnow' hb
  have hle : call.env.checkTime mode ≤ now :=
    hb call List.mem_cons_self (by rw [hw]; exact nofun) mode hmode
  obtain ⟨hle1, -⟩ := h now hnow hnow' hb.of_cons
  refine ⟨hle1, ?_⟩
  obtain ⟨hle2, ⟨bs', hbs'', hmem⟩ | hgone⟩ := h _ h0 h1 hbefore
  · rw [hbs] at hbs''
    cases hbs''
    by_cases hin : t ∈ within (windowSize init) tm bs
    · exact .inl ⟨_, hbs', List.mem_append_left _ hin⟩
    · rw [mem_within] at hin
      have : ¬ (t - tm < windowSize init ∧ tm - t < windowSize init) := fun h => hin ⟨hmem, h⟩
      exact .inr (by omega)
  · exact .inr (by omega)

/-- Over a serial history the accepted time steps are spoiled. -/
theorem steps_of_serial {init text : List UInt8} {log : List Call} (h : SerialLog init log text)
    (hlog : Logins compute params log) (ht : Timed log) (hskew : params.noskewadj = true)
    (hplain : Plain init) (hdis : getCfgValue "DISALLOW_REUSE".asciiBytes init ≠ none)
    (hlow : -2 ^ 30 ≤ timeSkew init) (hhigh : timeSkew init ≤ 2 ^ 30 - 100) :
    (Kept stepKeys init text ∧ getCfgValue "DISALLOW_REUSE".asciiBytes text ≠ none) ∧
      (steps log).Nodup ∧ ∀ tm ∈ steps log, Spoiled init text log tm := by
  have hsame : ∀ {a}, Kept stepKeys init a →
      windowSize a = windowSize init ∧ timeSkew a = timeSkew init := fun hk =>
    ⟨windowSize_congr (hk.options _ isWord_windowSize (by decide)),
      timeSkew_congr (hk.options _ isWord_timeSkew (by decide))⟩
  -- one login with a text that has the options
  have hlogin : ∀ (call : Call) (a : List UInt8), call.outcome = login compute params call.env a →
      Kept stepKeys init a → getCfgValue "DISALLOW_REUSE".asciiBytes a ≠ none →
      (∀ mode < 4, 0 ≤ call.env.checkTime mode ∧ call.env.checkTime mode < 30 * 2 ^ 30) →
      Reuses call.env a call.outcome := fun call a ho hk hd htimes => by
    rw [ho]
    refine login_reuses hskew call.env hk.plain hd fun mode hm tm hin => ?_
    have hb := inWindow_bounds hin (htimes mode hm).1 (htimes mode hm).2
    have hsize := windowSize_le a
    rw [(hsame hk).2] at hb
    have := htimes mode hm
    omega
  induction h with
  | nil => exact ⟨⟨.refl hplain _, hdis⟩, List.nodup_nil, nofun⟩
  | @write log a b call hrun hread hw ih =>
    obtain ⟨⟨hk, hd⟩, hnodup, hall⟩ := ih (fun c hc => hlog c (List.mem_cons_of_mem _ hc))
      (ht.suffix (List.suffix_cons _ _))
    have htimes : ∀ mode < 4, 0 ≤ call.env.checkTime mode ∧
        call.env.checkTime mode < 30 * 2 ^ 30 := fun mode hm => by
      have := ht.times call List.mem_cons_self mode hm
      omega
    have ho := hlog call List.mem_cons_self
    rw [hread] at ho
    have hreuse := hlogin call a ho hk hd htimes
    have hk' : Kept stepKeys init b :=
      (hk.trans (hreuse.kept b hw)).mono fun key hkey => (List.mem_append.1 hkey).elim id id
    rcases hreuse.blocks b hw with ⟨hsamelist, hdb, hne⟩ |
      ⟨mode, hmode, tm, bs, hin, hbs, hmem, hbs', htok⟩
    · rw [steps_cons_of_ne hne]
      refine ⟨⟨hk', hdb⟩, hnodup, fun t htm now h0 h1 hb => ?_⟩
      rw [hsamelist]
      exact hall t htm now h0 h1 hb.of_cons
    · have hdb : getCfgValue "DISALLOW_REUSE".asciiBytes b ≠ none := fun hnone => by
        rw [blockedOf, hnone] at hbs'
        cases hbs'
      have htime := ht.times call List.mem_cons_self mode hmode
      have hbefore : Before log (call.env.checkTime mode) :=
        (ht.ordered [] call log rfl (by rw [hw]; exact nofun)).mono htime.2.1
      have hbounds := inWindow_bounds hin (htimes mode hmode).1 (htimes mode hmode).2
      rw [(hsame hk).1] at hbs' hbounds
      rw [(hsame hk).2] at hbounds
      have hnext : ∀ t ∈ steps log, Spoiled init b (call :: log) t := fun t htm =>
        (hall t htm).next hw hmode (htimes mode hmode).1 (htimes mode hmode).2 hbefore hbounds hbs
          hbs'
      refine ⟨⟨hk', hdb⟩, ?_⟩
      by_cases hstep : ∃ t, call.outcome.token = some (.step t)
      · obtain ⟨t, hstep⟩ := hstep
        obtain rfl := htok t hstep
        rw [steps_cons_of_step hstep]
        refine ⟨List.nodup_cons.2 ⟨fun hmem' => ?_, hnodup⟩, fun u hu => ?_⟩
        · -- it would still be blocked, or out of the window
          obtain ⟨-, ⟨bs', hbs'', hmem''⟩ | hgone⟩ :=
            hall t hmem' _ (htimes mode hmode).1 (htimes mode hmode).2 hbefore
          · rw [hbs] at hbs''
            cases hbs''
            exact hmem hmem''
          · omega
        · rcases List.mem_cons.1 hu with rfl | hu
          · intro now h0 h1 hb
            have hle := hb call List.mem_cons_self (by rw [hw]; exact nofun) mode hmode
            exact ⟨by omega, .inl ⟨_, hbs', List.mem_append_right _ List.mem_cons_self⟩⟩
          · exact hnext u hu
      · rw [steps_cons_of_ne fun t h => hstep ⟨t, h⟩]
        exact ⟨hnodup, hnext⟩
  | @read log log' a call hrun hsuffix hrun' hw ih ih' =>
    have hrest : Logins compute params log := fun c hc => hlog c (List.mem_cons_of_mem _ hc)
    have htail := ht.suffix (List.suffix_cons call log)
    obtain ⟨hkd, hnodup, hall⟩ := ih hrest htail
    obtain ⟨⟨hk', hd'⟩, -, -⟩ :=
      ih' (fun c hc => hrest c (hsuffix.subset hc)) (htail.suffix hsuffix)
    have hreuse := hlogin call _ (hlog call List.mem_cons_self) hk' hd' fun mode hm => by
      have := ht.times call List.mem_cons_self mode hm
      omega
    rw [steps_cons_of_ne (hreuse.silent hw)]
    exact ⟨hkd, hnodup, fun t htm now h0 h1 hb => hall t htm now h0 h1 hb.of_cons⟩

/-- A state file that blocks the time steps that are used. -/
def stepText : List UInt8 := "AAAAAAAA\n\" TOTP_AUTH\n\" DISALLOW_REUSE\n".asciiBytes

/-- A login with the code of the time step 0. -/
theorem login_step : login (fun _ value => value.toUInt32) ⟨.prompt, false, true, false⟩
    (sampleEnv 0 "000000".asciiBytes) stepText =
      ⟨true, some (.step 0),
        some "AAAAAAAA\n\" TOTP_AUTH\n\" DISALLOW_REUSE 0\n".asciiBytes⟩ := by
  decide +kernel

/-- One with that of the next time step. -/
theorem login_next_step : login (fun _ value => value.toUInt32) ⟨.prompt, false, true, false⟩
    (sampleEnv 1 "000001".asciiBytes)
      "AAAAAAAA\n\" TOTP_AUTH\n\" DISALLOW_REUSE 0\n".asciiBytes =
      ⟨true, some (.step 1),
        some "AAAAAAAA\n\" TOTP_AUTH\n\" DISALLOW_REUSE 0 1\n".asciiBytes⟩ := by
  decide +kernel

/-- **A time step is accepted once:** with `DISALLOW_REUSE` and without the adjustment of the skew,
however the logins of a user are interleaved, no two of them are granted for one time step. -/
theorem steps_accepted_once {clock : Int} {file : Version} {s : System}
    (h : Reachable compute params (System.begin clock file) s) (hdistinct : s.Distinct)
    (hplain : Plain file.text) (hskew : params.noskewadj = true)
    (hdis : getCfgValue "DISALLOW_REUSE".asciiBytes file.text ≠ none)
    (hlow : -2 ^ 30 ≤ timeSkew file.text) (hhigh : timeSkew file.text ≤ 2 ^ 30 - 100)
    (hclock : ∀ call ∈ s.log, ∀ mode < 4, call.env.checkTime mode < 30 * 2 ^ 30) :
    (steps s.log).Nodup := by
  have hinv := inv_of_reachable h hdistinct
  have htimed : Timed s.log := by
    refine ⟨fun call hc mode hm => ?_, hinv.ordered⟩
    obtain ⟨hpast, -, hmodes⟩ := (hinv.valid call hc).within
    exact ⟨hpast, (hmodes mode hm).1, hclock call hc mode hm⟩
  exact (steps_of_serial hinv.serial (fun call hc => (hinv.valid call hc).outcome) htimed hskew
    hplain hdis hlow hhigh).2.1

/-- The code of the time step 0 is entered twice at once, and then that of the next one. -/
theorem steps_accepted_once_race : ∃ s, Reachable (fun _ value => value.toUInt32)
      ⟨.prompt, false, true, false⟩ (System.begin 0 ⟨stepText, 0⟩) s ∧
    s.phase 1 = .returned false ∧ steps s.log = [1, 0] ∧ (steps s.log).Nodup := by
  obtain ⟨s, h, hdistinct, -, hlog, -, hrefused, -⟩ :=
    reachable_race (sampleEnv_within (Int.le_refl 0) _) (congrArg Outcome.write login_step)
      (sampleEnv_within (by decide) _) (congrArg Outcome.write login_next_step)
  have hclock : ∀ call ∈ s.log, ∀ mode < 4, call.env.checkTime mode < 30 * 2 ^ 30 := by
    rw [hlog]
    exact List.forall_mem_cons.2 ⟨fun _ _ => show (1 : Int) < 30 * 2 ^ 30 by decide,
      List.forall_mem_singleton.2 fun _ _ => show (0 : Int) < 30 * 2 ^ 30 by decide⟩
  refine ⟨s, h, hrefused, ?_, steps_accepted_once h hdistinct (by decide +kernel) rfl
    (by decide +kernel) (by decide +kernel) (by decide +kernel) hclock⟩
  rw [hlog, login_step, login_next_step]
  rfl

end Libpam
