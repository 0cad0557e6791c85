import CodeLibrary.Lib.Serial
import CodeLibrary.Libpam.Session

/-!
# Concurrent logins are serial

* `Inv`: only the call that has created `secret~` is between there and the renaming, so that the
  state file it has compared is the one it replaces.
* `logins_serializable`: where no two versions of the state file share their size and modification
  time, the calls take effect one after the other: each state file is written by a call that has
  read the one before.
* `reachable_stale`: where they share them, an update may be lost.
-/

set_option autoImplicit false

namespace Libpam

variable {compute : List UInt8 → UInt64 → UInt32} {params : Params}

/-- What a call has read, and when, until it returns. -/
def Phase.held : Phase → Option (Version × Int)
  | .opened v t => some (v, t)
  | .checked call | .created call | .compared call | .written call _ =>
    some (call.read, call.readTime)
  | _ => none

/-- A call with something to write. -/
def Phase.call : Phase → Option Call
  | .checked call | .created call | .compared call | .written call _ => some call
  | _ => none

/-- `secret~` is the call's. -/
def Phase.Owner : Phase → Prop
  | .created _ | .compared _ | .written _ _ => True
  | _ => False

/-- The call has found the state file unchanged. -/
def Phase.Verified : Phase → Prop
  | .compared _ | .written _ _ => True
  | _ => False

theorem Phase.Verified.owner {p : Phase} (h : p.Verified) : p.Owner := by
  cases p <;> first | exact h | exact trivial

/-- The times of the calls that have written are not after `t`. -/
def Before (log : List Call) (t : Int) : Prop :=
  ∀ call ∈ log, call.outcome.write ≠ none → ∀ mode < 4, call.env.checkTime mode ≤ t

/-- A call is a login with what it has read, its times in order. -/
structure Call.Valid (compute : List UInt8 → UInt64 → UInt32) (params : Params) (call : Call)
    (clock : Int) : Prop where
  outcome : call.outcome = login compute params call.env call.read.text
  within : call.env.Within call.readTime clock

/-- The serial history of the state file's text. -/
abbrev SerialLog (init : List UInt8) : List Call → List UInt8 → Prop :=
  Serial.Run (fun call => call.read.text) (fun call => call.outcome.write) init

/-- What a call has read: the state file of some time, and of now if the stamp is the same. -/
structure Held (init : List UInt8) (s : System) (v : Version) (t : Int) : Prop where
  mem : v ∈ s.versions
  past : ∃ extra log, s.log = extra ++ log ∧ SerialLog init log v.text ∧ Before log t ∧
    (v.stamp = s.file.stamp → ∀ call ∈ extra, call.outcome.write = none)

/-- The invariant of the steps. -/
structure Inv (compute : List UInt8 → UInt64 → UInt32) (params : Params) (init : List UInt8)
    (s : System) : Prop where
  serial : SerialLog init s.log s.file.text
  valid : ∀ call ∈ s.log, call.Valid compute params s.clock
  ordered : ∀ extra call log, s.log = extra ++ call :: log → call.outcome.write ≠ none →
    Before log call.env.limitTime
  file : s.file ∈ s.versions
  held : ∀ i v t, (s.phase i).held = some (v, t) → Held init s v t
  call : ∀ i call, (s.phase i).call = some call → call.Valid compute params s.clock
  tmp : ∀ i, (s.phase i).Owner → s.tmp = true
  mutex : ∀ i j, (s.phase i).Owner → (s.phase j).Owner → i = j
  verified : ∀ i v t, (s.phase i).Verified → (s.phase i).held = some (v, t) →
    v.stamp = s.file.stamp

/-! ## Steps of one call -/

@[simp] theorem goto_phase_self (s : System) (i : Nat) (p : Phase) :
    (s.goto i p).phase i = p := by
  simp [System.goto]

theorem goto_phase_ne (s : System) {i j : Nat} (p : Phase) (h : j ≠ i) :
    (s.goto i p).phase j = s.phase j := by
  simp [System.goto, h]

variable {init : List UInt8} {s : System}

/-- A call goes on and may create or remove `secret~`; nothing else changes. -/
theorem Inv.goto (h : Inv compute params init s) {i : Nat} {p : Phase} (tmp : Bool)
    (hheld : ∀ v t, p.held = some (v, t) → Held init s v t)
    (hcall : ∀ call, p.call = some call → call.Valid compute params s.clock)
    (hown : p.Owner → tmp = true) (hothers : ∀ j ≠ i, (s.phase j).Owner → tmp = true ∧ ¬ p.Owner)
    (hverified : p.Verified → ∀ v t, p.held = some (v, t) → v.stamp = s.file.stamp) :
    Inv compute params init { s.goto i p with tmp } := by
  have hphase : ∀ j, (j = i ∧ (s.goto i p).phase j = p) ∨
      (j ≠ i ∧ (s.goto i p).phase j = s.phase j) := fun j => by
    by_cases hj : j = i
    · exact .inl ⟨hj, by rw [hj, goto_phase_self]⟩
    · exact .inr ⟨hj, goto_phase_ne s p hj⟩
  refine ⟨h.serial, h.valid, h.ordered, h.file, fun j v t hj => ?_, fun j call hj => ?_,
    fun j hj => ?_, fun j k hj hk => ?_, fun j v t hj hjh => ?_⟩
  · have hheld' : Held init s v t := by
      rcases hphase j with ⟨-, he⟩ | ⟨-, he⟩
      · exact hheld v t (he ▸ hj)
      · exact h.held j v t (he ▸ hj)
    exact ⟨hheld'.mem, hheld'.past⟩
  · rcases hphase j with ⟨-, he⟩ | ⟨-, he⟩
    · exact hcall call (he ▸ hj)
    · exact h.call j call (he ▸ hj)
  · rcases hphase j with ⟨-, he⟩ | ⟨hne, he⟩
    · exact hown (he ▸ hj)
    · exact (hothers j hne (he ▸ hj)).1
  · rcases hphase j with ⟨rfl, he⟩ | ⟨hne, he⟩ <;> rcases hphase k with ⟨rfl, he'⟩ | ⟨hne', he'⟩
    · rfl
    · exact absurd (he ▸ hj) (hothers k hne' (he' ▸ hk)).2
    · exact absurd (he' ▸ hk) (hothers j hne (he ▸ hj)).2
    · exact h.mutex j k (he ▸ hj) (he' ▸ hk)
  · rcases hphase j with ⟨-, he⟩ | ⟨-, he⟩
    · exact hverified (he ▸ hj) v t (he ▸ hjh)
    · exact h.verified j v t (he ▸ hj) (he ▸ hjh)

/-- A call gives `secret~` up, or has none. -/
theorem Inv.leave (h : Inv compute params init s) {i : Nat} {p : Phase} {tmp : Bool}
    (hp : p.held = none) (hc : p.call = none) (ho : ¬ p.Owner)
    (htmp : tmp = s.tmp ∨ (s.phase i).Owner) : Inv compute params init { s.goto i p with tmp } :=
  h.goto tmp (fun v t hv => by rw [hp] at hv; cases hv) (fun call hv => by rw [hc] at hv; cases hv)
    (fun hv => absurd hv ho)
    (fun j hj hv => by
      rcases htmp with rfl | hi
      · exact ⟨h.tmp j hv, ho⟩
      · exact absurd (h.mutex j i hv hi) hj)
    (fun hv => absurd hv.owner ho)

/-- A call goes from one phase to another with what it holds. -/
theorem Inv.advance (h : Inv compute params init s) {i : Nat} {p : Phase} (tmp : Bool)
    (hheld : p.held = (s.phase i).held) (hcall : p.call = (s.phase i).call)
    (hown : p.Owner → tmp = true) (htmp : tmp = s.tmp ∧ (s.phase i).Owner ∨ s.tmp = false)
    (hverified : p.Verified → ∀ v t, p.held = some (v, t) → v.stamp = s.file.stamp) :
    Inv compute params init { s.goto i p with tmp } :=
  h.goto tmp (fun v t hv => h.held i v t (hheld ▸ hv))
    (fun call hv => h.call i call (hcall ▸ hv)) hown
    (fun j hj hv => by
      rcases htmp with ⟨-, hi⟩ | hf
      · exact absurd (h.mutex j i hv hi) hj
      · have := h.tmp j hv
        rw [hf] at this
        cases this)
    hverified

/-! ## All steps -/

theorem Env.Within.mono {env : Env} {first last last' : Int} (h : env.Within first last)
    (hle : last ≤ last') : env.Within first last' :=
  ⟨h.1, h.2.1, fun mode hm => ⟨(h.2.2 mode hm).1, Int.le_trans (h.2.2 mode hm).2 hle⟩⟩

theorem Call.Valid.mono {call : Call} {clock clock' : Int} (h : call.Valid compute params clock)
    (hle : clock ≤ clock') : call.Valid compute params clock' := ⟨h.outcome, h.within.mono hle⟩

/-- The calls that have written have done so before now. -/
theorem Inv.before (h : Inv compute params init s) : Before s.log s.clock :=
  fun call hc _ mode hm => ((h.valid call hc).within.2.2 mode hm).2

theorem Inv.tick (h : Inv compute params init s) {clock : Int} (hle : s.clock ≤ clock) :
    Inv compute params init { s with clock } :=
  ⟨h.serial, fun call hc => (h.valid call hc).mono hle, h.ordered, h.file,
    fun i v t hv => ⟨(h.held i v t hv).mem, (h.held i v t hv).past⟩,
    fun i call hc => (h.call i call hc).mono hle, h.tmp, h.mutex, h.verified⟩

/-- A call with nothing to write returns. -/
theorem Inv.answer (h : Inv compute params init s) {i : Nat} {v : Version} {t : Int} {env : Env}
    (hi : s.phase i = .opened v t) (hw : env.Within t s.clock)
    (hnone : (login compute params env v.text).write = none) :
    Inv compute params init { s.goto i (.returned (login compute params env v.text).rc) with
      log := ⟨i, v, t, env, login compute params env v.text⟩ :: s.log } := by
  have hl : Inv compute params init
      { s.goto i (.returned (login compute params env v.text).rc) with tmp := s.tmp } :=
    h.leave rfl rfl (fun h => h) (.inl rfl)
  have hheld := h.held i v t (by rw [hi]; rfl)
  obtain ⟨extra, log, hlog, hrun, -⟩ := hheld.past
  refine ⟨.read h.serial (hlog ▸ List.suffix_append extra log) hrun hnone, fun call hc => ?_,
    fun extra' call log' he hcw => ?_, h.file, fun j v' t' hj => ?_, hl.call, hl.tmp, hl.mutex,
    hl.verified⟩
  · rcases List.mem_cons.1 hc with rfl | hc
    · exact ⟨rfl, hw⟩
    · exact h.valid call hc
  · cases extra' with
    | nil =>
      cases he
      exact absurd hnone hcw
    | cons c extra' => exact h.ordered extra' call log' (List.cons.inj he).2 hcw
  · obtain ⟨extra', log', hlog', hrun', hbefore, hsame⟩ := (hl.held j v' t' hj).past
    refine ⟨(hl.held j v' t' hj).mem, _ :: extra', log', congrArg _ hlog', hrun', hbefore,
      fun hstamp call hc => ?_⟩
    rcases List.mem_cons.1 hc with rfl | hc
    · exact hnone
    · exact hsame hstamp call hc

/-- A call that owns `secret~` and has found the state file unchanged has read what is there. -/
theorem Inv.unchanged (h : Inv compute params init s) {i : Nat} {v : Version} {t : Int}
    (hi : (s.phase i).Verified) (hheld : (s.phase i).held = some (v, t)) :
    v.text = s.file.text ∧ Before s.log t := by
  obtain ⟨extra, log, hlog, hrun, hbefore, hsame⟩ := (h.held i v t hheld).past
  have hnone := hsame (h.verified i v t hi hheld)
  have hserial := h.serial
  rw [hlog] at hserial
  refine ⟨Serial.det hrun (Serial.of_append hserial hnone), fun call hc hw => ?_⟩
  rw [hlog] at hc
  rcases List.mem_append.1 hc with hc | hc
  · exact absurd (hnone call hc) hw
  · exact hbefore call hc hw

theorem Inv.rename (h : Inv compute params init s) {i : Nat} {call : Call} {mtime : Int}
    {text : List UInt8} (hi : s.phase i = .written call mtime)
    (hw : call.outcome.write = some text)
    (hdistinct : (Version.mk text mtime).stamp ∉ s.versions.map Version.stamp) :
    Inv compute params init { s.goto i (.returned call.outcome.rc) with
      file := ⟨text, mtime⟩, tmp := false
      versions := ⟨text, mtime⟩ :: s.versions, log := call :: s.log } := by
  have hown : (s.phase i).Owner := by rw [hi]; trivial
  have hl : Inv compute params init { s.goto i (.returned call.outcome.rc) with tmp := false } :=
    h.leave rfl rfl (fun h => h) (.inr hown)
  obtain ⟨htext, hbefore⟩ : call.read.text = s.file.text ∧ Before s.log call.readTime :=
    h.unchanged (i := i) (by rw [hi]; trivial) (by rw [hi]; rfl)
  have hvalid := h.call i call (by rw [hi]; rfl)
  have hne : ∀ j, ((s.goto i (.returned call.outcome.rc)).phase j).Owner → False := fun j hj => by
    have := hl.tmp j hj
    cases this
  refine ⟨.write h.serial htext hw, fun c hc => ?_, fun extra c log he hcw => ?_,
    List.mem_cons_self, fun j v t hj => ?_, hl.call, hl.tmp, hl.mutex,
    fun j v t hj _ => (hne j hj.owner).elim⟩
  · rcases List.mem_cons.1 hc with rfl | hc
    · exact hvalid
    · exact h.valid c hc
  · cases extra with
    | nil =>
      cases he
      exact fun c hc hcw mode hm =>
        Int.le_trans (hbefore c hc hcw mode hm) hvalid.within.2.1
    | cons d extra => exact h.ordered extra c log (List.cons.inj he).2 hcw
  · obtain ⟨extra, log, hlog, hrun, hbefore', -⟩ := (hl.held j v t hj).past
    have hmem : v ∈ s.versions := (hl.held j v t hj).mem
    refine ⟨List.mem_cons_of_mem _ hmem, call :: extra, log, congrArg _ hlog, hrun, hbefore',
      fun hstamp => absurd ?_ hdistinct⟩
    rw [← hstamp]
    exact List.mem_map_of_mem hmem

theorem Inv.step {s' : System} (hs : Step compute params s s') (hdistinct : s'.Distinct)
    (h : Inv compute params init s) : Inv compute params init s' := by
  cases hs with
  | tick hle => exact h.tick hle
  | @read i hi =>
    refine h.goto s.tmp (fun v t hv => ?_) (by simp [Phase.call]) (fun hv => hv.elim)
      (fun j _ hj => ⟨h.tmp j hj, fun hv => hv⟩) (fun hv => hv.elim)
    cases hv
    exact ⟨h.file, [], s.log, rfl, h.serial, h.before, fun _ => List.forall_mem_nil _⟩
  | answer hi hw hnone => exact h.answer hi hw hnone
  | @check i v t env hi hw hnone =>
    refine h.goto s.tmp (fun v' t' hv => ?_) (fun call hc => ?_) (fun hv => hv.elim)
      (fun j _ hj => ⟨h.tmp j hj, fun hv => hv⟩) (fun hv => hv.elim)
    · cases hv
      exact h.held i v t (by rw [hi]; rfl)
    · cases hc
      exact ⟨rfl, hw⟩
  | create hi htmp =>
    exact h.advance true (by rw [hi]; rfl) (by rw [hi]; rfl) (fun _ => rfl) (.inr htmp)
      (fun hv => hv.elim)
  | refuse hi => exact h.leave rfl rfl (fun hv => hv) (.inl rfl)
  | @compare i call hi hstamp =>
    have hown : (s.phase i).Owner := by rw [hi]; trivial
    exact h.advance s.tmp (by rw [hi]; rfl) (by rw [hi]; rfl) (fun _ => h.tmp i hown)
      (.inl ⟨rfl, hown⟩) fun _ v t hv => by cases hv; exact hstamp
  | changed hi => exact h.leave rfl rfl (fun hv => hv) (.inr (by rw [hi]; trivial))
  | @write i call hi =>
    have hown : (s.phase i).Owner := by rw [hi]; trivial
    exact h.advance s.tmp (by rw [hi]; rfl) (by rw [hi]; rfl) (fun _ => h.tmp i hown)
      (.inl ⟨rfl, hown⟩) fun _ v t hv =>
        h.verified i v t (by rw [hi]; trivial) (by rw [hi]; exact hv)
  | failWrite hi => exact h.leave rfl rfl (fun hv => hv) (.inr (by rw [hi]; trivial))
  | rename hi hw => exact h.rename hi hw (List.nodup_cons.1 hdistinct).1
  | failRename hi => exact h.leave rfl rfl (fun hv => hv) (.inr (by rw [hi]; trivial))
  | die i => exact h.leave rfl rfl (fun hv => hv) (.inl rfl)

theorem inv_begin (clock : Int) (file : Version) :
    Inv compute params file.text (System.begin clock file) :=
  { serial := .nil, valid := List.forall_mem_nil _
    ordered := fun extra call log he => by cases extra <;> cases he
    file := List.mem_cons_self, held := fun _ _ _ hv => (by cases hv)
    call := fun _ _ hv => (by cases hv), tmp := fun _ hv => hv.elim
    mutex := fun _ _ hv => hv.elim, verified := fun _ _ _ hv => hv.elim }

/-- The versions before a step are among those behind it. -/
theorem Step.versions_suffix {s' : System} (h : Step compute params s s') :
    s.versions <:+ s'.versions := by
  cases h <;> first | exact List.suffix_rfl | exact List.suffix_cons _ _

/-- The invariant of all reachable states. -/
theorem inv_of_reachable {clock : Int} {file : Version} {s : System}
    (h : Reachable compute params (System.begin clock file) s) (hdistinct : s.Distinct) :
    Inv compute params file.text s := by
  induction h with
  | refl => exact inv_begin clock file
  | tail _ hs ih =>
    exact Inv.step hs hdistinct (ih ((hs.versions_suffix.sublist.map _).nodup hdistinct))

/-! ## What has returned is in the history -/

/-- A call that takes no more steps. -/
def Phase.Finished : Phase → Prop
  | .returned _ | .dead => True
  | _ => False

/-- The calls of the history have finished, each is there once, and with each call that has returned
success. -/
structure Logged (s : System) : Prop where
  id : ∀ i call, (s.phase i).call = some call → call.id = i
  finished : ∀ call ∈ s.log, (s.phase call.id).Finished
  nodup : (s.log.map Call.id).Nodup
  success : ∀ i, s.phase i = .returned true → ∃ call ∈ s.log, call.id = i ∧ call.outcome.rc = true

/-- A call goes on, with one more call in the history if it has returned success. -/
theorem Logged.goto (h : Logged s) {i : Nat} {p : Phase} {log : List Call}
    (hi : (s.phase i).Finished → p.Finished) (hcall : ∀ call, p.call = some call → call.id = i)
    (hlog : log = s.log ∧ p ≠ .returned true ∨ p.Finished ∧ ¬ (s.phase i).Finished ∧
      ∃ call, log = call :: s.log ∧ call.id = i ∧ (p = .returned true → call.outcome.rc = true)) :
    Logged { s.goto i p with log } := by
  have hmem : ∀ call ∈ s.log, call ∈ log := fun call hc => by
    rcases hlog with ⟨rfl, -⟩ | ⟨-, -, c, rfl, -⟩
    · exact hc
    · exact List.mem_cons_of_mem _ hc
  have hphase : ∀ j, j ≠ i → (s.goto i p).phase j = s.phase j := fun j hj => goto_phase_ne s p hj
  have hfin : ∀ j, (s.phase j).Finished → ((s.goto i p).phase j).Finished := fun j hj => by
    by_cases he : j = i
    · rw [he, goto_phase_self]
      exact hi (he ▸ hj)
    · rw [hphase j he]
      exact hj
  refine ⟨fun j call hj => ?_, fun call hc => ?_, ?_, fun j hj => ?_⟩
  · by_cases he : j = i
    · subst he
      have hj : ((s.goto j p).phase j).call = some call := hj
      rw [goto_phase_self] at hj
      exact hcall call hj
    · exact h.id j call (hphase j he ▸ hj)
  · rcases hlog with ⟨rfl, -⟩ | ⟨hp, -, c, rfl, hid, -⟩
    · exact hfin _ (h.finished call hc)
    · rcases List.mem_cons.1 hc with rfl | hc
      · rw [hid]
        show ((s.goto i p).phase i).Finished
        rw [goto_phase_self]
        exact hp
      · exact hfin _ (h.finished call hc)
  · rcases hlog with ⟨rfl, -⟩ | ⟨-, hnot, c, rfl, hid, -⟩
    · exact h.nodup
    · refine List.nodup_cons.2 ⟨fun hc => ?_, h.nodup⟩
      obtain ⟨d, hd, he⟩ := List.mem_map.1 hc
      exact hnot (hid ▸ he ▸ h.finished d hd)
  · by_cases he : j = i
    · subst he
      have hp : (s.goto j p).phase j = .returned true := hj
      rw [goto_phase_self] at hp
      rcases hlog with ⟨-, hne⟩ | ⟨-, -, c, rfl, hid, hrc⟩
      · exact absurd hp hne
      · exact ⟨c, List.mem_cons_self, hid, hrc hp⟩
    · obtain ⟨call, hc, hid⟩ := h.success j (hphase j he ▸ hj)
      exact ⟨call, hmem call hc, hid⟩

theorem Logged.step {s' : System} (hs : Step compute params s s') (h : Logged s) : Logged s' := by
  -- a call that goes on without a result
  have hgoto : ∀ {i : Nat} {p q : Phase}, s.phase i = q → ¬ q.Finished →
      (∀ call, p.call = some call → call.id = i) → p ≠ .returned true → Logged (s.goto i p) :=
    fun hi hq hcall hp => h.goto (fun hf => absurd (hi ▸ hf) hq) hcall (.inl ⟨rfl, hp⟩)
  -- and one that has returned
  have hreturn : ∀ {i : Nat} {rc : Bool} {q : Phase} {call : Call}, s.phase i = q → ¬ q.Finished →
      call.id = i → call.outcome.rc = rc →
      Logged { s.goto i (.returned rc) with log := call :: s.log } := fun hi hq hid hrc =>
    h.goto (fun hf => absurd (hi ▸ hf) hq) (by simp [Phase.call])
      (.inr ⟨trivial, fun hf => absurd (hi ▸ hf) hq, _, rfl, hid, fun he => by cases he; exact hrc⟩)
  have hsame : ∀ {i : Nat} {p q : Phase}, s.phase i = q → p.call = q.call →
      ∀ call, p.call = some call → call.id = i := fun hi hpq call hc =>
    h.id _ call (by rw [hi, ← hpq]; exact hc)
  have hkeep : ∀ {t : System} (file : Version) (tmp : Bool) (versions : List Version),
      Logged t → Logged { t with file, tmp, versions } := fun _ _ _ ht =>
    ⟨ht.id, ht.finished, ht.nodup, ht.success⟩
  cases hs with
  | tick hle => exact ⟨h.id, h.finished, h.nodup, h.success⟩
  | read hi => exact hgoto hi (fun h => h) (by simp [Phase.call]) (by simp)
  | answer hi _ _ => exact hreturn hi (fun h => h) rfl rfl
  | check hi _ _ => exact hgoto hi (fun h => h) (fun call hc => by cases hc; rfl) (by simp)
  | create hi _ => exact hkeep _ _ _ (hgoto hi (fun h => h) (hsame hi rfl) (by simp))
  | refuse hi => exact hgoto hi (fun h => h) (by simp [Phase.call]) (by simp)
  | compare hi _ => exact hgoto hi (fun h => h) (hsame hi rfl) (by simp)
  | changed hi => exact hkeep _ _ _ (hgoto hi (fun h => h) (by simp [Phase.call]) (by simp))
  | write hi => exact hgoto hi (fun h => h) (hsame hi rfl) (by simp)
  | failWrite hi => exact hkeep _ _ _ (hgoto hi (fun h => h) (by simp [Phase.call]) (by simp))
  | rename hi _ =>
    exact hkeep _ _ _ (hreturn hi (fun h => h) (h.id _ _ (by rw [hi]; rfl)) rfl)
  | failRename hi => exact hkeep _ _ _ (hgoto hi (fun h => h) (by simp [Phase.call]) (by simp))
  | die i => exact h.goto (fun _ => trivial) (by simp [Phase.call]) (.inl ⟨rfl, by simp⟩)

theorem logged_of_reachable {clock : Int} {file : Version} {s : System}
    (h : Reachable compute params (System.begin clock file) s) : Logged s := by
  induction h with
  | refl => exact ⟨nofun, nofun, List.nodup_nil, nofun⟩
  | tail _ hs ih => exact ih.step hs

/-- **Concurrent logins are serial:** where no two versions of the state file share their size and
modification time, each call that writes has read what the one before it has written, no update is
lost, each call takes effect once, and each one that returns success is among them. -/
theorem logins_serializable {clock : Int} {file : Version} {s : System}
    (h : Reachable compute params (System.begin clock file) s) (hdistinct : s.Distinct) :
    SerialLog file.text s.log s.file.text ∧
    (∀ call ∈ s.log, call.outcome = login compute params call.env call.read.text) ∧
    (s.log.map Call.id).Nodup ∧
    ∀ i, s.phase i = .returned true → ∃ call ∈ s.log, call.id = i ∧ call.outcome.rc = true :=
  have hinv := inv_of_reachable h hdistinct
  have hlogged := logged_of_reachable h
  ⟨hinv.serial, fun call hc => (hinv.valid call hc).outcome, hlogged.nodup, hlogged.success⟩

/-! ## Runs -/

/-- A call that has checked its code writes, where `secret~` is free and the state file has the
stamp of the one it has read. -/
theorem reachable_write {i : Nat} {call : Call} {w : List UInt8} (hi : s.phase i = .checked call)
    (htmp : s.tmp = false) (hstamp : call.read.stamp = s.file.stamp)
    (hw : call.outcome.write = some w) :
    ∃ s', Reachable compute params s s' ∧ s'.file = ⟨w, s.clock⟩ ∧ s'.tmp = false ∧
      s'.clock = s.clock ∧ s'.versions = ⟨w, s.clock⟩ :: s.versions ∧ s'.log = call :: s.log ∧
      s'.phase = Function.update s.phase i (.returned call.outcome.rc) := by
  let s1 : System := { s.goto i (.created call) with tmp := true }
  let s2 := s1.goto i (.compared call)
  let s3 := s2.goto i (.written call s.clock)
  have h1 : Step compute params s s1 := .create hi htmp
  have h2 : Step compute params s1 s2 := .compare (goto_phase_self s i _) hstamp
  have h3 : Step compute params s2 s3 := .write (goto_phase_self s1 i _)
  have h4 : Step compute params s3 _ := .rename (goto_phase_self s2 i _) hw
  refine ⟨_, .tail (.tail (.tail (.single h1) h2) h3) h4, rfl, rfl, rfl, rfl, rfl, ?_⟩
  simp [s3, s2, s1, System.goto]

/-- A login that nobody disturbs, and that writes a second after it has read. -/
theorem reachable_login {i : Nat} {env : Env} {w : List UInt8} (hi : s.phase i = .start)
    (htmp : s.tmp = false) (henv : env.Within s.clock s.clock)
    (hw : (login compute params env s.file.text).write = some w) :
    ∃ s', Reachable compute params s s' ∧ s'.file = ⟨w, s.clock + 1⟩ ∧ s'.tmp = false ∧
      s'.clock = s.clock + 1 ∧ s'.versions = ⟨w, s.clock + 1⟩ :: s.versions ∧
      s'.log = ⟨i, s.file, s.clock, env, login compute params env s.file.text⟩ :: s.log ∧
      s'.phase = Function.update s.phase i
        (.returned (login compute params env s.file.text).rc) := by
  let call : Call := ⟨i, s.file, s.clock, env, login compute params env s.file.text⟩
  let s1 := s.goto i (.opened s.file s.clock)
  let s2 := s1.goto i (.checked call)
  let s3 : System := { s2 with clock := s.clock + 1 }
  have h1 : Step compute params s s1 := .read hi
  have h2 : Step compute params s1 s2 :=
    .check (goto_phase_self s i _) henv (by rw [hw]; exact Option.some_ne_none w)
  have h3 : Step compute params s2 s3 := .tick (show s.clock ≤ s.clock + 1 by omega)
  obtain ⟨s', h, hfile, htmp', hclock, hversions, hlog, hphase⟩ :=
    @reachable_write compute params s3 i call w (goto_phase_self s1 i _) htmp rfl hw
  refine ⟨s', .trans (.tail (.tail (.single h1) h2) h3) h, hfile, htmp', hclock, hversions, hlog,
    ?_⟩
  rw [hphase]
  simp [s3, s2, s1, call, System.goto]

/-- Two logins with the same answers: one has read the state file when the other writes, and finds
it changed. A third one reads what was written, and writes again. -/
theorem reachable_race {text w w' : List UInt8} {env env' : Env} (henv : env.Within 0 0)
    (hw : (login compute params env text).write = some w) (henv' : env'.Within 1 1)
    (hw' : (login compute params env' w).write = some w') :
    ∃ s, Reachable compute params (System.begin 0 ⟨text, 0⟩) s ∧ s.Distinct ∧ s.file = ⟨w', 2⟩ ∧
      s.log = [⟨2, ⟨w, 1⟩, 1, env', login compute params env' w⟩,
        ⟨0, ⟨text, 0⟩, 0, env, login compute params env text⟩] ∧
      s.phase 0 = .returned (login compute params env text).rc ∧ s.phase 1 = .returned false ∧
      s.phase 2 = .returned (login compute params env' w).rc := by
  let call : Call := ⟨1, ⟨text, 0⟩, 0, env, login compute params env text⟩
  let s0 := System.begin 0 ⟨text, 0⟩
  let s1 := s0.goto 1 (.opened ⟨text, 0⟩ 0)
  let s2 := s1.goto 1 (.checked call)
  have h1 : Step compute params s0 s1 := .read rfl
  have h2 : Step compute params s1 s2 :=
    .check (goto_phase_self s0 1 _) henv (by rw [hw]; exact Option.some_ne_none w)
  obtain ⟨t, h, hfile, htmp, hclock, hversions, hlog, hphase⟩ :=
    @reachable_login compute params s2 0 env w rfl rfl henv hw
  -- the other one is refused
  let t1 : System := { t.goto 1 (.created call) with tmp := true }
  let t2 : System := { t1.goto 1 (.returned false) with tmp := false }
  have hchecked : t.phase 1 = .checked call := by
    rw [hphase]
    rfl
  have k1 : Step compute params t t1 := .create hchecked htmp
  have k2 : Step compute params t1 t2 := .changed (goto_phase_self t 1 _)
  have hphase2 : t2.phase = Function.update t.phase 1 (.returned false) := by
    simp [t2, t1, System.goto]
  have hstart : t2.phase 2 = .start := by
    rw [hphase2, hphase]
    rfl
  have hclock2 : t2.clock = 1 := hclock
  have hfile2 : t2.file = ⟨w, 1⟩ := hfile
  -- and the third one goes on
  obtain ⟨s, h', hfile', -, -, hversions', hlog', hphase'⟩ :=
    @reachable_login compute params t2 2 env' w' hstart rfl (by rw [hclock2]; exact henv')
      (by rw [hfile2]; exact hw')
  rw [hclock2] at hfile' hversions' hlog'
  rw [hfile2] at hlog' hphase'
  refine ⟨s, ?_, ?_, hfile', hlog'.trans (congrArg (List.cons _) hlog), ?_, ?_, ?_⟩
  · exact ((Relation.ReflTransGen.single h1).tail h2).trans
      (h.trans (((Relation.ReflTransGen.single k1).tail k2).trans h'))
  · have hall : s.versions = [⟨w', 2⟩, ⟨w, 1⟩, ⟨text, 0⟩] :=
      hversions'.trans (congrArg (List.cons _) hversions)
    rw [System.Distinct, hall]
    simp [Version.stamp]
  · rw [hphase', hphase2, hphase]
    rfl
  · rw [hphase', hphase2]
    rfl
  · rw [hphase', Function.update_self]

/-- Where the new state file has the size and the modification time of the old one, another login
that has read the old one takes effect too, and the update of the first one is lost. -/
theorem reachable_stale {text w : List UInt8} {env : Env} (henv : env.Within 0 0)
    (hw : (login compute params env text).write = some w) (hlength : w.length = text.length) :
    ∃ s, Reachable compute params (System.begin 0 ⟨text, 0⟩) s ∧
      s.log.map Call.outcome = [login compute params env text, login compute params env text] ∧
      s.file = ⟨w, 0⟩ := by
  let call (i : Nat) : Call := ⟨i, ⟨text, 0⟩, 0, env, login compute params env text⟩
  let s0 := System.begin 0 ⟨text, 0⟩
  let s1 := s0.goto 0 (.opened ⟨text, 0⟩ 0)
  let s2 := s1.goto 1 (.opened ⟨text, 0⟩ 0)
  let s3 := s2.goto 0 (.checked (call 0))
  let s4 := s3.goto 1 (.checked (call 1))
  have hne : (login compute params env text).write ≠ none := by
    rw [hw]
    simp
  have h1 : Step compute params s0 s1 := .read rfl
  have h2 : Step compute params s1 s2 := .read rfl
  have h3 : Step compute params s2 s3 := .check rfl henv hne
  have h4 : Step compute params s3 s4 := .check rfl henv hne
  -- the first one writes
  obtain ⟨s, h, hfile, htmp, hclock, -, hlog, hphase⟩ :=
    @reachable_write compute params s4 0 (call 0) w rfl rfl rfl hw
  -- and the second one finds what it has read
  have hstamp : (call 1).read.stamp = s.file.stamp := by
    rw [hfile]
    exact Prod.ext hlength.symm rfl
  have hphase' : s.phase 1 = .checked (call 1) := by
    rw [hphase]
    rfl
  obtain ⟨s', h', hfile', -, -, -, hlog', -⟩ := reachable_write hphase' htmp hstamp hw
  refine ⟨s', .trans (.tail (.tail (.tail (.single h1) h2) h3) h4) (.trans h h'), ?_, ?_⟩
  · rw [hlog', hlog]
    rfl
  · rw [hfile', hclock]
    rfl

/-- A state file with a counter and a scratch code. -/
def sampleText : List UInt8 := "AAAAAAAA\n\" HOTP_COUNTER 1\n12345678\n".asciiBytes

/-- The answer to the prompt at some time, everything else at rest. -/
def sampleEnv (time : Int) (answer : List UInt8) : Env :=
  ⟨time, fun _ => time, none, fun _ => some answer, true⟩

theorem sampleEnv_within {time : Int} (h : 0 ≤ time) (answer : List UInt8) :
    (sampleEnv time answer).Within time time :=
  ⟨h, Int.le_refl _, fun _ _ => ⟨Int.le_refl _, Int.le_refl _⟩⟩

/-- A login with the first value of the counter. -/
theorem login_counter_one : login (fun _ value => value.toUInt32) ⟨.prompt, false, true, false⟩
    (sampleEnv 0 "000001".asciiBytes) sampleText =
      ⟨true, some (.counter 1), some "AAAAAAAA\n\" HOTP_COUNTER 2\n12345678\n".asciiBytes⟩ := by
  decide +kernel

/-- Then one with the scratch code. -/
theorem login_then_scratch : login (fun _ value => value.toUInt32) ⟨.prompt, false, true, false⟩
    (sampleEnv 1 "12345678".asciiBytes)
      "AAAAAAAA\n\" HOTP_COUNTER 2\n12345678\n".asciiBytes =
      ⟨true, some (.scratch 12345678), some "AAAAAAAA\n\" HOTP_COUNTER 2\n".asciiBytes⟩ := by
  decide +kernel

/-- The code of the counter is entered twice at once, and then the scratch code. -/
theorem logins_serializable_race : ∃ s, Reachable (fun _ value => value.toUInt32)
      ⟨.prompt, false, true, false⟩ (System.begin 0 ⟨sampleText, 0⟩) s ∧
    s.phase 1 = .returned false ∧
    SerialLog sampleText s.log "AAAAAAAA\n\" HOTP_COUNTER 2\n".asciiBytes ∧
    (∃ call ∈ s.log, call.id = 0 ∧ call.outcome.rc = true) ∧
    ∃ call ∈ s.log, call.id = 2 ∧ call.outcome.rc = true := by
  obtain ⟨s, h, hdistinct, hfile, -, hphase, hrefused, hphase'⟩ :=
    reachable_race (sampleEnv_within (Int.le_refl 0) _) (congrArg Outcome.write login_counter_one)
      (sampleEnv_within (by decide) _) (congrArg Outcome.write login_then_scratch)
  obtain ⟨hserial, -, -, hsuccess⟩ := logins_serializable h hdistinct
  rw [hfile] at hserial
  rw [login_counter_one] at hphase
  rw [login_then_scratch] at hphase'
  exact ⟨s, h, hrefused, hserial, hsuccess 0 hphase, hsuccess 2 hphase'⟩

end Libpam
