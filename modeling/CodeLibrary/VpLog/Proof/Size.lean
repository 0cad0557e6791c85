import CodeLibrary.VpLog.Proof.Rotate

/-!
# When `fsize` is the length of the log file

`zlog_open` and a rotation set `fsize` to 0 for a file they open to append to.

* `step_sized`: a call on a file that is opened empty, and not renamed to itself, keeps `fsize` the
  length of the file; any other does not.
* `alwaysSized_iff`: over any calls.
-/

namespace VpLog

variable {loc : Locale} {w w' : World} {z : Szlog} {fs : FileSys} {f : Path} {c : LogCall}

/-- A logger whose stream is the log file, open where records are to go there. -/
structure Opened (z : Szlog) (fs : FileSys) : Prop where
  filename : z.filename = z.fp
  fp : has z.flags ZLOG_FILE = true → z.fp ≠ none
  there : ∀ f, z.fp = some f → (fs f).isSome

/-- The same of the logger there is, if any. -/
def AllOpened (w : World) : Prop := ∀ z, w.zlog = some z → Opened z w.fs

/-- The log file after a rotation, if it is time. -/
def rotatedFiles (loc : Locale) (z : Szlog) (fs : FileSys) (c : LogCall) (f : Path) : FileSys :=
  if z.fsize > LOG_FILE_SIZE_MAX then (fs.rename f (rotatedName loc f c.rotateTime)).fopen f
  else fs

/-- The file output of an opened logger. -/
theorem fileOutput_eq (hz : Opened z fs) (hf : z.fp = some f) (hc : c.reopen = true) :
    fileOutput loc z fs c = some
      ({ z with fsize := (if z.fsize > LOG_FILE_SIZE_MAX then 0 else z.fsize) +
          (bufLog loc c).length },
        (rotatedFiles loc z fs c f).append f (bufLog loc c)) := by
  obtain ⟨ident, flags, fp, filename, fsize, maskpri, facility⟩ := z
  obtain ⟨hname, -, -⟩ := hz
  dsimp only at hname hf
  subst hname
  subst hf
  unfold fileOutput rotatedFiles zlogRotate
  by_cases hgt : fsize > LOG_FILE_SIZE_MAX
  · simp only [if_pos hgt, hc, if_true]
  · simp only [if_neg hgt]

theorem length_fopen : (fs.fopen f).length f = fs.length f := by
  rw [FileSys.length, FileSys.content_fopen, ← FileSys.length]

/-- How long the log file is after a rotation. -/
theorem length_rotatedFiles (hfs : (fs f).isSome) :
    (rotatedFiles loc z fs c f).length f =
      if z.fsize > LOG_FILE_SIZE_MAX ∧ rotatedName loc f c.rotateTime ≠ f then 0
      else fs.length f := by
  unfold rotatedFiles
  by_cases hgt : z.fsize > LOG_FILE_SIZE_MAX
  · rw [if_pos hgt, length_fopen]
    by_cases hne : rotatedName loc f c.rotateTime = f
    · rw [if_neg (fun h => h.2 hne), hne, FileSys.rename_self]
    · rw [if_pos ⟨hgt, hne⟩, FileSys.length, FileSys.content_rename hfs (fun h => hne h.symm),
        if_neg (fun h => hne h.symm), if_pos rfl]
      rfl
  · rw [if_neg hgt, if_neg (fun h => hgt h.1)]

/-! ## One call -/

/-- A record that is written to the log file. -/
theorem vzlog_opened (loc : Locale) (hz : w.zlog = some z) (ho : Opened z w.fs)
    (hc : c.reopen = true)
    (hw : c.priority ≤ z.maskpri ∧ has z.flags ZLOG_FILE = true) :
    ∃ f w', z.fp = some f ∧ vzlog loc w c = some w' ∧
      w'.zlog = some { z with fsize := (if z.fsize > LOG_FILE_SIZE_MAX then 0 else z.fsize) +
        (bufLog loc c).length } ∧
      w'.fs = (rotatedFiles loc z w.fs c f).append f (bufLog loc c) := by
  obtain ⟨f, hf⟩ := Option.ne_none_iff_exists'.1 (ho.fp hw.2)
  have hfiles := vzlog_files loc c hz
  rw [if_pos hw, fileOutput_eq ho hf hc] at hfiles
  obtain ⟨w', hrun, he⟩ := Option.map_eq_some_iff.1 hfiles
  exact ⟨f, w', hf, hrun, congrArg Prod.fst he, congrArg Prod.snd he⟩

/-- One that is not. -/
theorem vzlog_skips (loc : Locale) (hw : ∀ z, w.zlog = some z →
    ¬ (c.priority ≤ z.maskpri ∧ has z.flags ZLOG_FILE = true)) :
    ∃ w', vzlog loc w c = some w' ∧ w'.zlog = w.zlog ∧ w'.fs = w.fs := by
  cases hz : w.zlog with
  | none => exact ⟨w.print .stderr (bufLog loc c), by rw [vzlog, hz], hz, rfl⟩
  | some z =>
    have hfiles := vzlog_files loc c hz
    rw [if_neg (hw z hz)] at hfiles
    obtain ⟨w', hrun, he⟩ := Option.map_eq_some_iff.1 hfiles
    exact ⟨w', hrun, (congrArg Prod.fst he).trans hz, congrArg Prod.snd he⟩

/-- `zlog_open` of a new logger. -/
theorem open_sized (hz : w.zlog = none) (progname : Bytes) (flags facility : UInt32)
    (level : Nat) :
    AllOpened (zlogOpen w progname flags facility level true) ∧
      (Sized (zlogOpen w progname flags facility level true) ↔
        Fresh loc w (.open progname flags facility level true)) ∧
      (Fresh loc w (.open progname flags facility level true) →
        Bounded loc w (.open progname flags facility level true)
          (zlogOpen w progname flags facility level true)) := by
  by_cases hflag : has flags ZLOG_FILE = true
  · have he : zlogOpen w progname flags facility level true =
        { w with
          zlog := some ⟨progname, 0 ||| flags, some (logName progname), some (logName progname),
            0, level, facility⟩
          fs := w.fs.fopen (logName progname) } := by
      rw [zlogOpen, hz, hflag]
      rfl
    rw [he]
    refine ⟨fun z h => ?_, ⟨fun h _ _ => ?_, fun h z f h' hf => ?_⟩, fun _ c f hc => ?_⟩
    · cases h
      refine ⟨rfl, fun _ => Option.some_ne_none _, fun f hf => ?_⟩
      cases hf
      show (w.fs.fopen (logName progname) (logName progname)).isSome = true
      rw [FileSys.fopen, Function.update_self]
      rfl
    · have := h _ _ rfl rfl
      dsimp only at this
      rw [length_fopen] at this
      exact this.symm
    · cases h'
      cases hf
      dsimp only
      rw [length_fopen]
      exact (h hz hflag).symm
    · cases hc
  · have he : zlogOpen w progname flags facility level true =
        { w with zlog := some ⟨progname, 0 ||| flags, none, none, 0, level, facility⟩ } := by
      rw [zlogOpen, hz, Bool.eq_false_of_not_eq_true hflag]
      rfl
    rw [he]
    refine ⟨fun z h => ?_, iff_of_true (fun z f h hf => ?_) fun _ h => absurd h hflag,
      fun _ c f hc => ?_⟩
    · cases h
      refine ⟨rfl, fun h => ?_, fun f hf => ?_⟩
      · rw [UInt32.zero_or] at h
        exact absurd h hflag
      · cases hf
    · cases h
      cases hf
    · cases hc

/-- A record in the log file. -/
theorem zlog_sized (hs : Sized w) (hz : w.zlog = some z) (ho : Opened z w.fs)
    (hc : c.reopen = true) (hw : c.priority ≤ z.maskpri ∧ has z.flags ZLOG_FILE = true) :
    ∃ w', vzlog loc w c = some w' ∧ AllOpened w' ∧ (Sized w' ↔ Fresh loc w (.zlog c)) ∧
      (Fresh loc w (.zlog c) → Bounded loc w (.zlog c) w') := by
  obtain ⟨f, w', hf, hrun, hz', hfs⟩ := vzlog_opened loc hz ho hc hw
  have hn := hs z f hz hf
  have hlen : w'.fs.length f = (if z.fsize > LOG_FILE_SIZE_MAX ∧
      rotatedName loc f c.rotateTime ≠ f then 0 else z.fsize) + (bufLog loc c).length := by
    rw [hfs, length_append, length_rotatedFiles (ho.there f hf), hn]
  have hfresh : Fresh loc w (.zlog c) ↔
      (z.fsize > LOG_FILE_SIZE_MAX → rotatedName loc f c.rotateTime ≠ f) := by
    refine ⟨fun h => h z f hz hw.1 hw.2 hf, fun h z₁ f₁ hz₁ _ _ hf₁ => ?_⟩
    rw [hz] at hz₁
    cases hz₁
    rw [hf] at hf₁
    cases hf₁
    exact h
  refine ⟨w', hrun, fun z₁ hz₁ => ?_, ?_, fun h c₁ f₁ hc₁ hf₁ _ => ?_⟩
  · rw [hz'] at hz₁
    cases hz₁
    refine ⟨ho.filename, ho.fp, fun f₁ hf₁ => ?_⟩
    rw [hf] at hf₁
    cases hf₁
    rw [hfs, FileSys.append, Function.update_self]
    rfl
  · rw [hfresh]
    refine ⟨fun h hgt he => ?_, fun h z₁ f₁ hz₁ hf₁ => ?_⟩
    · have := h _ f hz' hf
      rw [hlen] at this
      dsimp only at this
      rw [if_pos hgt, if_neg (fun h => h.2 he)] at this
      omega
    · rw [hz'] at hz₁
      cases hz₁
      rw [hf] at hf₁
      cases hf₁
      rw [hlen]
      refine congrArg (· + _) (if_congr ?_ rfl rfl)
      exact ⟨fun hgt => ⟨hgt, h hgt⟩, And.left⟩
  · cases hc₁
    have : f₁ = f := by
      rw [World.file, hz'] at hf₁
      exact Option.some.inj (hf₁.symm.trans hf)
    rw [this, hlen]
    have := hfresh.1 h
    split
    · omega
    · rename_i hnot
      have : ¬ z.fsize > LOG_FILE_SIZE_MAX := fun hgt => hnot ⟨hgt, this hgt⟩
      omega

/-- A record that does not go to the log file. -/
theorem skip_sized (ho : AllOpened w) (hs : Sized w) (hskip : ∀ z, w.zlog = some z →
    ¬ (c.priority ≤ z.maskpri ∧ has z.flags ZLOG_FILE = true)) :
    ∃ w', vzlog loc w c = some w' ∧ AllOpened w' ∧ (Sized w' ↔ Fresh loc w (.zlog c)) ∧
      (Fresh loc w (.zlog c) → Bounded loc w (.zlog c) w') := by
  obtain ⟨w', hrun, hz', hfs⟩ := vzlog_skips loc hskip
  refine ⟨w', hrun, fun z hz => ?_, ?_, fun _ c₁ f _ _ hlt => ?_⟩
  · rw [hfs]
    exact ho z (hz'.symm.trans hz)
  · refine iff_of_true (fun z f hz hf => ?_) fun z f hz hp hflag => ?_
    · rw [hfs]
      exact hs z f (hz'.symm.trans hz) hf
    · exact absurd ⟨hp, hflag⟩ (hskip z hz)
  · rw [hfs] at hlt
    exact absurd hlt (Nat.lt_irrefl _)

/-- **One call** that succeeds leaves `fsize` the length of the log file just when it is fresh, and
then bounds the file. -/
theorem step_sized (loc : Locale) (ho : AllOpened w) (hs : Sized w) {op : Op} (hop : op.Succeeds) :
    ∃ w', op.run loc w = some w' ∧ AllOpened w' ∧ (Sized w' ↔ Fresh loc w op) ∧
      (Fresh loc w op → Bounded loc w op w') := by
  cases op with
  | «open» progname flags facility level opens =>
    have hop : opens = true := hop
    subst hop
    refine ⟨_, rfl, ?_⟩
    cases hz : w.zlog with
    | some z =>
      have he : zlogOpen w progname flags facility level true = w := by rw [zlogOpen, hz]
      rw [he]
      refine ⟨ho, iff_of_true hs fun hn _ => ?_, fun _ c f hc => ?_⟩
      · rw [hz] at hn
        cases hn
      · cases hc
    | none => exact open_sized hz progname flags facility level
  | zlog c =>
    by_cases hw : ∃ z, w.zlog = some z ∧ c.priority ≤ z.maskpri ∧ has z.flags ZLOG_FILE = true
    · obtain ⟨z, hz, hw⟩ := hw
      exact zlog_sized hs hz (ho z hz) hop hw
    · exact skip_sized ho hs fun z hz h => hw ⟨z, hz, h⟩
  | setFlag => exact hop.elim
  | resetFlag => exact hop.elim
  | close =>
    have hz : (zlogClose w).zlog = none := rfl
    refine ⟨_, rfl, fun z h => ?_, iff_of_true (fun z f h => ?_) trivial, fun _ c f h => ?_⟩
    · rw [hz] at h
      cases h
    · rw [hz] at h
      cases h
    · cases h

/-! ## Any calls -/

theorem sized_of_alwaysSized : ∀ {ops : List Op} {w : World}, AlwaysSized loc w ops → Sized w
  | [], _, h => h
  | _ :: _, _, h => h.1

theorem alwaysSized_of_opened : ∀ (ops : List Op) {w : World}, AllOpened w → Sized w →
    (∀ op ∈ ops, op.Succeeds) → (AlwaysSized loc w ops ↔ AllFresh loc w ops)
  | [], _, _, hs, _ => iff_of_true hs trivial
  | op :: ops, w, ho, hs, hops => by
    obtain ⟨w', hrun, ho', hiff, hbound⟩ :=
      step_sized loc ho hs (hops op List.mem_cons_self)
    have hrest : Sized w' → (AlwaysSized loc w' ops ↔ AllFresh loc w' ops) := fun hs' =>
      alwaysSized_of_opened ops ho' hs' fun op hop => hops op (List.mem_cons_of_mem _ hop)
    rw [AlwaysSized, AllFresh]
    refine ⟨fun ⟨_, w₁, hrun₁, _, h⟩ => ?_, fun ⟨hf, h⟩ => ?_⟩
    · rw [hrun] at hrun₁
      cases hrun₁
      have hs' := sized_of_alwaysSized h
      refine ⟨hiff.1 hs', fun w₂ hrun₂ => ?_⟩
      rw [hrun] at hrun₂
      cases hrun₂
      exact (hrest hs').1 h
    · exact ⟨hs, w', hrun, hbound hf, (hrest (hiff.2 hf)).2 (h w' hrun)⟩

/-- **Bounded log files**: over any `zlog_open`, `zlog` and `zlog_close` calls that succeed, `fsize`
is the length of the open log file, and no record makes the file longer than `LOG_FILE_SIZE_MAX`
and itself, just when every log file is empty when it is opened, and no path is so long that a
rotation leaves the file where it is. -/
theorem alwaysSized_iff (loc : Locale) (w : World) (hw : w.zlog = none) (ops : List Op)
    (hops : ∀ op ∈ ops, op.Succeeds) : AlwaysSized loc w ops ↔ AllFresh loc w ops := by
  refine alwaysSized_of_opened ops (fun z hz => ?_) (fun z f hz => ?_) hops
  · rw [hw] at hz
    cases hz
  · rw [hw] at hz
    cases hz

/-! ## Runs -/

/-- A log file that is opened, closed and opened again with nothing in it, and then renamed before
the second of two records. -/
def rotatesReopened : List Op :=
  [.open [112] ZLOG_FILE 8 7 true, .close, .open [112] ZLOG_FILE 8 7 true,
    .zlog (recordAt 0 5200 true), .zlog (recordAt 1 5200 true)]

theorem alwaysSized_rotatesReopened : AlwaysSized decimal .start rotatesReopened := by
  refine (alwaysSized_iff decimal .start rfl rotatesReopened fun op hop => ?_).2 ?_
  · simp only [rotatesReopened, List.mem_cons, List.not_mem_nil, or_false] at hop
    rcases hop with rfl | rfl | rfl | rfl | rfl
    · rfl
    · trivial
    · rfl
    · rfl
    · rfl
  · have hname : ∀ t ∈ [0, 1], rotatedName decimal (logName [112]) t ≠ logName [112] := by
      decide +kernel
    refine ⟨fun _ _ => rfl, fun w₁ h₁ => ?_⟩
    cases h₁
    refine ⟨trivial, fun w₂ h₂ => ?_⟩
    cases h₂
    refine ⟨fun _ _ => rfl, fun w₃ h₃ => ?_⟩
    cases h₃
    refine ⟨fun z f hz _ _ hf _ => ?_, fun w₄ h₄ => ?_⟩
    · cases hz
      cases hf
      exact hname 0 (by decide)
    · cases h₄
      refine ⟨fun z f hz _ _ hf _ => ?_, fun _ _ => trivial⟩
      cases hz
      cases hf
      exact hname 1 (by decide)

/-- A log file that is opened again with a record in it. -/
def reopens : List Op :=
  [.open [112] ZLOG_FILE 8 7 true, .zlog (recordAt 0 1 true), .close,
    .open [112] ZLOG_FILE 8 7 true]

/-- `fsize` is 0, and the file is not empty. -/
theorem reopens_not_sized :
    (∀ op ∈ reopens, op.Succeeds) ∧ ¬ AlwaysSized decimal .start reopens := by
  refine ⟨fun op hop => ?_, fun h => ?_⟩
  · simp only [reopens, List.mem_cons, List.not_mem_nil, or_false] at hop
    rcases hop with rfl | rfl | rfl | rfl
    · rfl
    · rfl
    · trivial
    · rfl
  · obtain ⟨-, w₁, h₁, -, h⟩ := h
    cases h₁
    obtain ⟨-, w₂, h₂, -, h⟩ := h
    cases h₂
    obtain ⟨-, w₃, h₃, -, h⟩ := h
    cases h₃
    obtain ⟨-, w₄, h₄, -, h⟩ := h
    cases h₄
    exact absurd (h _ _ rfl rfl) (by decide +kernel)

end VpLog
