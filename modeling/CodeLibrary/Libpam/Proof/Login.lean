import CodeLibrary.Libpam.Login
import CodeLibrary.Libpam.Proof.Account

/-!
# What a login can do to the state file

* `Decided`: how the checks of a code end, with what each of them accepts and writes.
* `tryModes_spec`: a mode that finds no code leaves the state as it was, so that the test for the
  internal error at the head of the loop never fires (`modeHeads_unchanged`); the loop ends as the
  checks of one code end.
* `login_cases`: the state file that a login writes.
-/

set_option autoImplicit false

namespace Libpam

/-- `tm` is a time step of the window at the time `now`. -/
def InWindow (buf : List UInt8) (now tm : Int) : Prop :=
  ∃ i ∈ windowOffsets (windowSize buf), tm = getTimestamp now + timeSkew buf + i

/-- How the checks of one code end: `rc`, what was accepted, and the state. -/
inductive Decided (noskewadj : Bool) (hotp now : Int) (s : State) :
    Bool → Option Token → State → Prop
  | nothing : Decided noskewadj hotp now s false none s
  | scratch {code : Int} {s' : State} :
      checkScratchCodes s code = (.accepted (.scratch code), s') →
      Decided noskewadj hotp now s true (some (.scratch code)) s'
  | counter {i : Nat} : 0 < hotp → (i : Int) < windowSize s.buf →
      Decided noskewadj hotp now s true (some (.counter (hotp + i)))
        (s.set "HOTP_COUNTER".asciiBytes (printInt (hotp + i + 1)))
  | step {tm : Int} {s' : State} : hotp ≤ 0 → windowSize s.buf ≠ 0 → InWindow s.buf now tm →
      invalidateTimebasedCode tm s = (.accepted (.step tm), s') →
      Decided noskewadj hotp now s true (some (.step tm)) s'
  | skew (avgSkew : Int) : hotp ≤ 0 → noskewadj = false →
      Decided noskewadj hotp now s true (some .skew)
        ((s.set "TIME_SKEW".asciiBytes (printInt avgSkew)).set "RESETTING_TIME_SKEW".asciiBytes [])
  | trying (entries : List Skewed) : hotp ≤ 0 → noskewadj = false →
      Decided noskewadj hotp now s false none
        (s.set "RESETTING_TIME_SKEW".asciiBytes (skewsText entries))

/-! ## The checks -/

/-- What a check returns, and with which state. -/
def Checked (noskewadj : Bool) (hotp now : Int) (s : State) : Verdict → State → Prop
  | .error, s' => Decided noskewadj hotp now s false none s'
  | .accepted token, s' => Decided noskewadj hotp now s true (some token) s'
  | .next, s' => s' = s

theorem checkScratchCodes_cases (s : State) (code : Int) :
    checkScratchCodes s code = (.next, s) ∨
      ∃ s', checkScratchCodes s code = (.accepted (.scratch code), s') := by
  rw [checkScratchCodes]
  split
  · exact .inl rfl
  · exact .inr ⟨_, rfl⟩

theorem invalidateTimebasedCode_cases (tm : Int) (s : State) :
    invalidateTimebasedCode tm s = (.error, s) ∨
      ∃ s', invalidateTimebasedCode tm s = (.accepted (.step tm), s') := by
  rw [invalidateTimebasedCode]
  split
  · exact .inr ⟨s, rfl⟩
  · dsimp only
    split
    · exact .inl rfl
    · split
      · exact .inl rfl
      · exact .inr ⟨_, rfl⟩

theorem checkTimeSkew_cases {hotp now : Int} (skew tm : Int) (s : State) (h : hotp ≤ 0) :
    Checked false hotp now s (checkTimeSkew skew tm s).1 (checkTimeSkew skew tm s).2 := by
  rw [checkTimeSkew]
  dsimp only
  split
  · exact .nothing
  · split
    · exact .skew _ h rfl
    · exact .trying _ h rfl

theorem checkTimebasedCode_cases (compute : UInt64 → UInt32) (noskewadj : Bool) {hotp : Int}
    (now code : Int) (s : State) (h : hotp ≤ 0) :
    Checked noskewadj hotp now s (checkTimebasedCode compute noskewadj now code s).1
      (checkTimebasedCode compute noskewadj now code s).2 := by
  rw [checkTimebasedCode]
  split
  · exact rfl
  · split
    · exact rfl
    · dsimp only
      split
      · exact .nothing
      · rename_i hwindow
        split
        · rename_i i hfind
          have hmem := List.mem_of_find?_eq_some hfind
          rcases invalidateTimebasedCode_cases (getTimestamp now + timeSkew s.buf + i) s with
            he | ⟨s', he⟩
          · rw [he]
            exact .nothing
          · rw [he]
            exact .step h hwindow ⟨i, hmem, rfl⟩ he
        · split
          · rename_i hskew
            have : noskewadj = false := by simpa using hskew
            subst this
            split
            · exact checkTimeSkew_cases _ _ s h
            · exact rfl
          · exact rfl

theorem checkCounterbasedCode_cases (compute : UInt64 → UInt32) (noskewadj : Bool)
    (hotp now code : Int) (s : State) :
    let r := checkCounterbasedCode compute code hotp s
    Checked noskewadj hotp now s r.1 r.2.1 ∧
      (∀ n, r.1 = .accepted (.counter n) → r.2.2 = some false) ∧ (r.2.2 ≠ none → 0 < hotp) := by
  rw [checkCounterbasedCode]
  split
  · exact ⟨rfl, nofun, fun h => absurd rfl h⟩
  · rename_i hpos
    have hpos : 0 < hotp := by omega
    split
    · exact ⟨rfl, nofun, fun h => absurd rfl h⟩
    · dsimp only
      split
      · exact ⟨.nothing, nofun, fun h => absurd rfl h⟩
      · split
        · rename_i i hfind
          have hmem := List.mem_range.1 (List.mem_of_find?_eq_some hfind)
          exact ⟨.counter hpos (by omega), fun _ _ => rfl, fun _ => hpos⟩
        · exact ⟨rfl, nofun, fun _ => hpos⟩

/-! ## The loop over the modes -/

variable (compute : UInt64 → UInt32) (params : Params) (env : Env) {hotp : Int}

/-- The variables at the head of the loop: no mode has found a code. -/
structure LoopHead (hotp : Int) (s : State) (a : Auth) : Prop where
  state : a.state = s
  rc : a.rc = false
  token : a.token = none
  pw : a.pw = none
  advance : a.mustAdvance = true → 0 < hotp

/-- The variables behind the loop. -/
structure Finished (params : Params) (env : Env) (hotp : Int) (s : State) (a : Auth) : Prop where
  decided : ∃ mode < 4, Decided params.noskewadj hotp (env.checkTime mode) s a.rc a.token a.state
  advance : a.mustAdvance = true → 0 < hotp ∧ ∀ n, a.token ≠ some (.counter n)

theorem checkCode_cases (hotp now code : Int) (s : State) :
    let r := checkCode compute params now code hotp s
    Checked params.noskewadj hotp now s r.1 r.2.1 ∧
      (∀ n, r.1 = .accepted (.counter n) → r.2.2 = some false) ∧ (r.2.2 ≠ none → 0 < hotp) := by
  rw [checkCode]
  split
  · exact checkCounterbasedCode_cases compute params.noskewadj hotp now code s
  · rename_i hpos
    have hpos : hotp ≤ 0 := by omega
    have h := checkTimebasedCode_cases compute params.noskewadj now code s hpos
    refine ⟨h, fun n hn => ?_, fun h => absurd rfl h⟩
    generalize checkTimebasedCode compute params.noskewadj now code s = r at h hn
    obtain ⟨verdict, s'⟩ := r
    dsimp only at hn
    subst hn
    cases h with
    | counter h0 _ => omega

/-- **One mode:** it goes on with the state as it was, or ends as the checks of a code end. -/
theorem tryMode_spec {mode : Nat} (hmode : mode < 4) {s : State} (hs : s.updated = false)
    {a : Auth} (ha : LoopHead hotp s a) :
    Sum.elim (LoopHead hotp s) (Finished params env hotp s)
      (tryMode compute params env hotp mode a) := by
  obtain ⟨rfl, hrc, htoken, hpw, hadv⟩ := ha
  rw [tryMode, if_neg (by simp [hs, hpw])]
  generalize passwordOf params env mode a.savedPw = p
  obtain ⟨pw, savedPw⟩ := p
  have hgo : ∀ b : Auth, b.state = a.state → b.rc = a.rc → b.token = a.token → b.pw = a.pw →
      b.mustAdvance = a.mustAdvance → LoopHead hotp a.state b := fun b h1 h2 h3 h4 h5 =>
    ⟨h1, h2.trans hrc, h3.trans htoken, h4.trans hpw, fun h => hadv (h5 ▸ h)⟩
  dsimp only
  split
  · exact hgo _ rfl rfl rfl rfl rfl
  · split
    · exact hgo _ rfl rfl rfl rfl rfl
    · rename_i pw code _
      split
      · exact hgo _ rfl rfl rfl rfl rfl
      · rcases checkScratchCodes_cases a.state code with hcheck | ⟨s', hcheck⟩
        · rw [hcheck]
          dsimp only
          obtain ⟨hdec, hcounter, hpos⟩ :=
            checkCode_cases compute params hotp (env.checkTime mode) code a.state
          generalize checkCode compute params (env.checkTime mode) code hotp a.state = r at *
          obtain ⟨verdict, state, advance⟩ := r
          dsimp only at hdec hcounter hpos ⊢
          have hadv' : advance.getD a.mustAdvance = true → 0 < hotp := fun h => by
            cases advance with
            | none => exact hadv h
            | some b => exact hpos nofun
          cases verdict with
          | accepted token =>
            refine ⟨⟨mode, hmode, hdec⟩, fun h => ⟨hadv' h, fun n hn => ?_⟩⟩
            have := hcounter n (by rw [Option.some.inj hn])
            rw [this] at h
            cases h
          | next =>
            cases hdec
            exact ⟨rfl, hrc, htoken, hpw, hadv'⟩
          | error =>
            refine ⟨⟨mode, hmode, ?_⟩, fun h => ⟨hadv' h, ?_⟩⟩
            · rw [hrc, htoken]
              exact hdec
            · rw [htoken]
              exact nofun
        · rw [hcheck]
          exact ⟨⟨mode, hmode, .scratch hcheck⟩, fun h => ⟨hadv h, nofun⟩⟩

theorem LoopHead.finished {s : State} {a : Auth} (h : LoopHead hotp s a) :
    Finished params env hotp s a := by
  obtain ⟨rfl, hrc, htoken, -, hadv⟩ := h
  refine ⟨⟨0, by decide, ?_⟩, fun h => ⟨hadv h, ?_⟩⟩
  · rw [hrc, htoken]
    exact .nothing
  · rw [htoken]
    exact nofun

theorem tryModes_spec {s : State} (hs : s.updated = false) : ∀ {modes : List Nat} {a : Auth},
    (∀ mode ∈ modes, mode < 4) → LoopHead hotp s a →
    Finished params env hotp s (tryModes compute params env hotp modes a)
  | [], _, _, ha => ha.finished params env
  | mode :: modes, a, hm, ha => by
    have hstep := tryMode_spec compute params env (hm mode List.mem_cons_self) hs ha
    rw [tryModes]
    cases he : tryMode compute params env hotp mode a with
    | inl b =>
      rw [he] at hstep
      exact tryModes_spec hs (fun m h => hm m (List.mem_cons_of_mem _ h)) hstep
    | inr b =>
      rw [he] at hstep
      exact hstep

/-- The variables each time the loop is at its head, at the end included. -/
def modeHeads (compute : UInt64 → UInt32) (params : Params) (env : Env) (hotp : Int) :
    List Nat → Auth → List Auth
  | [], a => [a]
  | mode :: modes, a =>
    a :: match tryMode compute params env hotp mode a with
      | .inl b => modeHeads compute params env hotp modes b
      | .inr _ => []

theorem modeHeads_spec {s : State} (hs : s.updated = false) : ∀ {modes : List Nat} {a : Auth},
    (∀ mode ∈ modes, mode < 4) → LoopHead hotp s a →
    ∀ b ∈ modeHeads compute params env hotp modes a, LoopHead hotp s b
  | [], _, _, ha, b, hb => by
    cases List.mem_singleton.1 hb
    exact ha
  | mode :: modes, a, hm, ha, b, hb => by
    rcases List.mem_cons.1 hb with rfl | hb
    · exact ha
    · have hstep := tryMode_spec compute params env (hm mode List.mem_cons_self) hs ha
      cases he : tryMode compute params env hotp mode a with
      | inl c =>
        rw [he] at hstep hb
        exact modeHeads_spec hs (fun m h => hm m (List.mem_cons_of_mem _ h)) hstep b hb
      | inr c =>
        rw [he] at hb
        cases hb

/-- **A mode that finds no code leaves the state as it was:** whenever the loop is at its head
nothing is updated and no password is kept, so that the test for an internal error never fires. -/
theorem modeHeads_unchanged (buf : List UInt8) :
    ∀ a ∈ modeHeads compute params env hotp [0, 1, 2, 3]
      ⟨false, none, ⟨buf, false⟩, none, none, false⟩,
      a.state = ⟨buf, false⟩ ∧ a.pw = none ∧ a.rc = false := by
  intro a ha
  have h0 : LoopHead hotp ⟨buf, false⟩ ⟨false, none, ⟨buf, false⟩, none, none, false⟩ :=
    ⟨rfl, rfl, rfl, rfl, nofun⟩
  have h := modeHeads_spec compute params env rfl (by simp) h0 a ha
  exact ⟨h.state, h.pw, h.rc⟩

theorem modeHeads_unchanged_scratch :
    let a : Auth := ⟨false, none, ⟨"AAAAAAAA\n12345678\n".asciiBytes, false⟩, none,
      some "12345678".asciiBytes, false⟩
    a.state = ⟨"AAAAAAAA\n12345678\n".asciiBytes, false⟩ ∧ a.pw = none ∧ a.rc = false :=
  @modeHeads_unchanged (fun value => value.toUInt32) ⟨.prompt, false, true, false⟩
    ⟨0, fun _ => 0, none, fun _ => some "12345678".asciiBytes, true⟩ 0
    "AAAAAAAA\n12345678\n".asciiBytes _ (by decide +kernel)

/-! ## The state file a login writes -/

/-- **A login** goes on behind the rate limit, and ends as the checks of a code end; then the
counter may be advanced by one. -/
theorem login_cases (compute : List UInt8 → UInt64 → UInt32) (params : Params) (env : Env)
    (text : List UInt8) :
    let limited := rateLimit (UInt32.ofInt env.limitTime) ⟨text, false⟩
    let o := login compute params env text
    (o.rc = false ∧ o.token = none ∧
      (o.write = none ∨ o.write = some limited.2.buf ∧ limited.2.updated = true)) ∨
    (limited.1 = true ∧ ∃ rc token, ∃ mode < 4, ∃ s s' : State,
      Decided params.noskewadj (getHotpCounter limited.2.buf) (env.checkTime mode)
        ⟨limited.2.buf, false⟩ rc token s ∧
      (s' = s ∨ 0 < getHotpCounter limited.2.buf ∧ (∀ n, token ≠ some (.counter n)) ∧
        s' = s.set "HOTP_COUNTER".asciiBytes (printInt (getHotpCounter limited.2.buf + 1))) ∧
      o.rc = (rc && (!params.forwardPass || o.rc)) ∧ o.token = (if o.rc then token else none) ∧
      o.write = if limited.2.updated || s'.updated then some s'.buf else none) := by
  rw [login]
  split
  · exact .inl ⟨rfl, rfl, .inl rfl⟩
  · split
    · exact .inl ⟨rfl, rfl, .inl rfl⟩
    · rename_i secret _
      generalize rateLimit (UInt32.ofInt env.limitTime) ⟨text, false⟩ = r
      obtain ⟨go, limited⟩ := r
      dsimp only
      split
      · refine .inl ⟨rfl, rfl, ?_⟩
        dsimp only
        split
        · exact .inr ⟨rfl, by assumption⟩
        · exact .inl rfl
      · rename_i hgo
        have hfin : Finished params env (getHotpCounter limited.buf) ⟨limited.buf, false⟩
            (tryModes (compute secret) params env (getHotpCounter limited.buf) [0, 1, 2, 3]
              ⟨false, none, ⟨limited.buf, false⟩, none, none, false⟩) :=
          tryModes_spec (compute secret) params env rfl (by simp) ⟨rfl, rfl, rfl, rfl, nofun⟩
        generalize tryModes (compute secret) params env (getHotpCounter limited.buf) [0, 1, 2, 3]
          ⟨false, none, ⟨limited.buf, false⟩, none, none, false⟩ = a at hfin ⊢
        obtain ⟨⟨mode, hmode, hdec⟩, hadv⟩ := hfin
        refine .inr ⟨by simpa using hgo, a.rc, a.token, mode, hmode, a.state,
          (finishLogin params env (getHotpCounter limited.buf) a).2, hdec, ?_, ?_, rfl, rfl⟩
        · rw [finishLogin]
          dsimp only
          split
          · rename_i h
            rw [Bool.and_eq_true] at h
            obtain ⟨hpos, hne⟩ := hadv h.2
            exact .inr ⟨hpos, hne, rfl⟩
          · exact .inl rfl
        · rw [finishLogin]
          dsimp only
          cases a.rc <;> cases params.forwardPass <;> simp

end Libpam
