import CodeLibrary.VpLog.Session

/-!
# When the logger writes through a `NULL` stream

* `Agrees`: the logger holds what its session is; kept by every guarded call (`run_agrees`).
* `runAll_isSome_iff`: the calls are made without a write through `NULL` just when all are guarded.
-/

namespace VpLog

variable {loc : Locale} {s : Session} {z : Szlog} {w : World} {c : LogCall}

/-! ## `vzlog` on the logger and the files -/

/-- The logger and the files. -/
def World.files (w : World) : Option Szlog × FileSys := (w.zlog, w.fs)

theorem files_ite {p : Prop} [Decidable p] {w w' : World} (h : w'.files = w.files) :
    (if p then w' else w).files = w.files := by
  split
  · exact h
  · rfl

theorem files_syslogOutput (w : World) : (syslogOutput loc z w c).files = w.files :=
  files_ite rfl

theorem files_stdOutput (w : World) : (stdOutput loc z w c).files = w.files := by
  refine (files_ite ?_).trans (files_ite ?_)
  · rfl
  · rfl

/-- Of `vzlog`, only the file output changes the logger and the files. -/
theorem vzlog_files (loc : Locale) (c : LogCall) (hz : w.zlog = some z) :
    (vzlog loc w c).map World.files =
      if c.priority ≤ z.maskpri ∧ has z.flags ZLOG_FILE = true then
        (fileOutput loc z w.fs c).map fun r => (some r.1, r.2)
      else some w.files := by
  have hsys : (syslogOutput loc z w c).files = w.files := files_syslogOutput w
  have hfs : (syslogOutput loc z w c).fs = w.fs := congrArg Prod.snd hsys
  unfold vzlog
  rw [hz]
  dsimp only
  by_cases hp : c.priority > z.maskpri
  · rw [if_pos hp, if_neg (fun h => absurd h.1 (by omega))]
    rfl
  · rw [if_neg hp, hfs]
    by_cases hf : has z.flags ZLOG_FILE = true
    · rw [if_pos hf, if_pos ⟨by omega, hf⟩]
      cases fileOutput loc z w.fs c with
      | none => rfl
      | some r => exact congrArg some (files_stdOutput _)
    · rw [if_neg hf, if_neg (fun h => hf h.2)]
      exact congrArg some ((files_stdOutput _).trans hsys)

/-! ## Sessions -/

/-- The logger of an opened session. -/
def Session.szlog (s : Session) (ident : Bytes) (facility : UInt32) : Szlog where
  ident := ident
  flags := s.flags
  fp := if s.opened then some s.name else none
  filename := if s.opened then some s.name else none
  fsize := s.size
  maskpri := s.level
  facility := facility

/-- The files after a record is written to the log file of a session. -/
def Session.written (loc : Locale) (s : Session) (fs : FileSys) (c : LogCall) : FileSys :=
  FileSys.append
    (if s.rotates then (fs.rename s.name (rotatedName loc s.name c.rotateTime)).fopen s.name
      else fs) s.name (bufLog loc c)

theorem rotates_iff : s.rotates = true ↔ s.size > LOG_FILE_SIZE_MAX := decide_eq_true_iff

/-- A record goes to the log file of an opened session, which is renamed first or not. -/
theorem fileOutput_opened {fs : FileSys} {ident : Bytes} {facility : UInt32}
    (ho : s.opened = true) (hr : s.rotates = true → c.reopen = true) :
    fileOutput loc (s.szlog ident facility) fs c =
      some (Session.szlog { s with
        size := (if s.rotates then 0 else s.size) + (bufLog loc c).length } ident facility,
        s.written loc fs c) := by
  unfold fileOutput Session.szlog Session.written
  rw [if_pos ho]
  by_cases hrot : s.rotates = true
  · simp only [hrot, if_true, if_pos (rotates_iff.1 hrot), zlogRotate, hr hrot]
  · simp only [hrot, Bool.false_eq_true, if_false, if_neg (mt rotates_iff.2 hrot)]

/-- One that goes to the log file of a session that is not opened, or that cannot be reopened, is
written through `NULL`. -/
theorem fileOutput_null {fs : FileSys} {ident : Bytes} {facility : UInt32}
    (hno : ¬ (s.opened = true ∧ (s.rotates = true → c.reopen = true))) :
    fileOutput loc (s.szlog ident facility) fs c = none := by
  unfold fileOutput Session.szlog
  by_cases ho : s.opened = true
  · have hrot : s.rotates = true := by
      by_contra hrot
      exact hno ⟨ho, fun h => absurd h hrot⟩
    have hre : c.reopen = false := by
      cases hc : c.reopen with
      | false => rfl
      | true => exact absurd ⟨ho, fun _ => hc⟩ hno
    simp only [if_pos ho, if_pos (rotates_iff.1 hrot), zlogRotate, hre, Bool.false_eq_true,
      if_false]
  · simp only [if_neg ho, zlogRotate, ite_self]

/-- There is a logger just when there is a session, and it holds what the session is. -/
def Shows : Option Session → World → Prop
  | none, w => w.zlog = none
  | some s, w => ∃ ident facility, w.zlog = some (s.szlog ident facility)

/-- A guarded record that goes to the log file. -/
theorem vzlog_writes (loc : Locale) {ident : Bytes} {facility : UInt32}
    (hz : w.zlog = some (s.szlog ident facility)) (hw : s.writes c = true) :
    (vzlog loc w c).map World.files = if s.opened = true ∧ (s.rotates = true → c.reopen = true)
      then some (some ((s.log loc c).szlog ident facility), s.written loc w.fs c) else none := by
  have hfile := hw
  rw [Session.writes, Bool.and_eq_true, decide_eq_true_iff] at hfile
  rw [vzlog_files loc c hz]
  apply (if_pos hfile).trans
  by_cases hg : s.opened = true ∧ (s.rotates = true → c.reopen = true)
  · rw [fileOutput_opened hg.1 hg.2, if_pos hg, Session.log, if_pos hw]
    rfl
  · rw [fileOutput_null hg, if_neg hg]
    rfl

/-- A record that does not. -/
theorem vzlog_passes (loc : Locale) {ident : Bytes} {facility : UInt32}
    (hz : w.zlog = some (s.szlog ident facility)) (hw : ¬ s.writes c = true) :
    (vzlog loc w c).map World.files = some w.files := by
  rw [Session.writes, Bool.and_eq_true, decide_eq_true_iff] at hw
  rw [vzlog_files loc c hz]
  exact if_neg hw

theorem shows_of_files {w' : World} {o : Option Session} (h : Shows o w)
    (he : w'.files = w.files) : Shows o w' := by
  have hz : w'.zlog = w.zlog := congrArg Prod.fst he
  cases o with
  | none => exact hz.trans h
  | some s =>
    obtain ⟨ident, facility, h⟩ := h
    exact ⟨ident, facility, hz.trans h⟩

/-! ## Calls -/

/-- The legal calls where there is a session or not. -/
def LegalNext : Option Session → Op → Prop
  | o, .open .. => o = none
  | o, .setFlag _ => o.isSome
  | o, .resetFlag _ => o.isSome
  | _, _ => True

/-- **One call** is made without a write through `NULL` just when it is guarded, and the logger then
shows the next session. -/
theorem run_shows (loc : Locale) {o : Option Session} (h : Shows o w) {op : Op}
    (hl : LegalNext o op) :
    (Guard o op → ∃ w', op.run loc w = some w' ∧ Shows (Session.next loc o op) w') ∧
      (¬ Guard o op → op.run loc w = none) := by
  cases op with
  | «open» progname flags facility level opens =>
    have ho : o = none := hl
    subst ho
    refine ⟨fun _ => ⟨_, rfl, progname, facility, ?_⟩, fun hg => absurd trivial hg⟩
    have hz : w.zlog = none := h
    unfold zlogOpen zlogSetFile Session.szlog
    rw [hz]
    cases hf : has flags ZLOG_FILE <;> cases opens <;> simp
  | zlog c =>
    cases o with
    | none =>
      have hz : w.zlog = none := h
      refine ⟨fun _ => ⟨w.print .stderr (bufLog loc c), ?_, hz⟩, fun hg => ?_⟩
      · rw [Op.run, vzlog, hz]
      · exact absurd (fun _ hs => nomatch hs) hg
    | some s =>
      obtain ⟨ident, facility, hz⟩ := h
      by_cases hw : s.writes c = true
      · have hfiles := vzlog_writes loc hz hw
        refine ⟨fun hg => ?_, fun hg => ?_⟩
        · rw [if_pos (hg s rfl hw)] at hfiles
          obtain ⟨w', hrun, he⟩ := Option.map_eq_some_iff.1 hfiles
          exact ⟨w', hrun, ident, facility, congrArg Prod.fst he⟩
        · rw [if_neg fun hs => hg ?_] at hfiles
          · exact Option.map_eq_none_iff.1 hfiles
          · intro s' hs' _
            cases hs'
            exact hs
      · refine ⟨fun _ => ?_, fun hg => absurd (fun _ hs hw' => ?_) hg⟩
        · obtain ⟨w', hrun, he⟩ := Option.map_eq_some_iff.1 (vzlog_passes loc hz hw)
          refine ⟨w', hrun, ?_⟩
          rw [Session.next, Option.map_some, Session.log, if_neg hw]
          exact shows_of_files ⟨ident, facility, hz⟩ he
        · cases hs
          exact absurd hw' hw
  | setFlag flags =>
    obtain ⟨s, rfl⟩ := Option.isSome_iff_exists.1 hl
    obtain ⟨ident, facility, hz⟩ := h
    refine ⟨fun _ => ⟨_, by rw [Op.run, zlogSetFlag, hz]; rfl, ident, facility, rfl⟩,
      fun hg => absurd trivial hg⟩
  | resetFlag flags =>
    obtain ⟨s, rfl⟩ := Option.isSome_iff_exists.1 hl
    obtain ⟨ident, facility, hz⟩ := h
    refine ⟨fun _ => ⟨_, by rw [Op.run, zlogResetFlag, hz]; rfl, ident, facility, rfl⟩,
      fun hg => absurd trivial hg⟩
  | close =>
    refine ⟨fun _ => ⟨_, rfl, ?_⟩, fun hg => absurd trivial hg⟩
    cases o <;> rfl

theorem legalNext_of_legal {o : Option Session} {op : Op} {ops : List Op}
    (h : Legal o.isSome (op :: ops)) (loc : Locale) :
    LegalNext o op ∧ Legal (Session.next loc o op).isSome ops := by
  cases op with
  | «open» =>
    obtain ⟨ho, h⟩ := h
    have ho : o = none := by simpa using ho
    subst ho
    exact ⟨rfl, h⟩
  | zlog c => exact ⟨trivial, by rw [Session.next, Option.isSome_map]; exact h⟩
  | setFlag => exact ⟨h.1, by rw [Session.next, Option.isSome_map, h.1]; exact h.2⟩
  | resetFlag => exact ⟨h.1, by rw [Session.next, Option.isSome_map, h.1]; exact h.2⟩
  | close =>
    cases o with
    | none => exact ⟨trivial, h⟩
    | some s => exact ⟨trivial, h⟩

theorem runAll_cons (op : Op) (ops : List Op) :
    runAll loc w (op :: ops) = (op.run loc w).bind fun w' => runAll loc w' ops :=
  List.foldlM_cons

/-- Any number of calls. -/
theorem runAll_shows : ∀ (ops : List Op) {o : Option Session} {w : World}, Shows o w →
    Legal o.isSome ops → ((runAll loc w ops).isSome ↔ Guarded loc o ops)
  | [], _, _, _, _ => iff_of_true rfl trivial
  | op :: ops, o, w, h, hl => by
    obtain ⟨hnext, hl⟩ := legalNext_of_legal hl loc
    obtain ⟨hgood, hbad⟩ := run_shows loc h hnext
    rw [runAll_cons, Guarded]
    by_cases hg : Guard o op
    · obtain ⟨w', hrun, hs⟩ := hgood hg
      rw [hrun, and_iff_right hg]
      exact runAll_shows ops hs hl
    · rw [hbad hg]
      exact iff_of_false Bool.false_ne_true fun h => hg h.1

/-- **No write through `NULL`**: legal calls, with any answers of `fopen`, write through no `NULL`
stream just when every record that goes to the log file finds it opened by `zlog_open`, and
reopened where it was renamed. -/
theorem runAll_isSome_iff (loc : Locale) (w : World) (hw : w.zlog = none) (ops : List Op)
    (hops : Legal false ops) : (runAll loc w ops).isSome ↔ Guarded loc none ops :=
  runAll_shows ops hw hops

/-! ## Runs -/

/-- Times in decimal. -/
def decimal : Locale := ⟨fun t => (toString t).asciiBytes, fun t => (toString t).asciiBytes⟩

/-- A record at a time, of some length. -/
def recordAt (time length : Nat) (reopen : Bool) : LogCall :=
  ⟨3, by decide, List.replicate length 65, time, 1, 1, time, reopen⟩

/-- A log file that opens, then a record. -/
def opensOps : List Op := [.open [112] ZLOG_FILE 8 7 true, .zlog (recordAt 0 1 true)]

theorem runAll_isSome_opens :
    (runAll decimal ⟨none, fun _ => none, []⟩ opensOps).isSome ↔ Guarded decimal none opensOps :=
  runAll_isSome_iff _ _ rfl _ ⟨rfl, trivial⟩

/-- The log file cannot be opened, and the record is written through `NULL`. -/
theorem runAll_null : Legal false [.open [112] ZLOG_FILE 8 7 false, .zlog (recordAt 0 1 true)] ∧
    runAll decimal ⟨none, fun _ => none, []⟩
      [.open [112] ZLOG_FILE 8 7 false, .zlog (recordAt 0 1 true)] = none :=
  ⟨⟨rfl, trivial⟩, rfl⟩

end VpLog
