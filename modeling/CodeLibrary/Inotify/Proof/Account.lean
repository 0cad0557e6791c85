import CodeLibrary.Inotify.Kernel

/-!
# What `watched_items` counts

A `watch_dir` of a watched inode counts its watch once more, and an `ignore_wd` takes its watch off
at once and again with its `IN_IGNORED` event.

* `step_balance`, `run_balance`: `watched_items` is the number of live watches and of the
  `IN_IGNORED` events to come, more by the calls of the one kind and less by those of the other.
* `accounts_iff`: it is the number of live watches just when there are as many of each kind.
-/

namespace Inotify

/-- A `watch_dir` of an inode that has a watch. -/
def Act.isAgain : Act → Bool
  | .watchAgain _ _ => true
  | _ => false

/-- An `ignore_wd` of a live watch. -/
def Act.isIgnore : Act → Bool
  | .ignore _ _ => true
  | _ => false

/-- The `IN_IGNORED` events of a queue. -/
def pending (events : List InotifyEvent) : Nat := events.countP isIgnored

/-- The books: what `watched_items` is made of, after `again` calls of the one kind and `ignored`
of the other. -/
structure Balance (again ignored : Nat) (s : System) : Prop where
  items : s.prog.watchedItems + ignored =
    s.watches.length + pending s.events + pending s.prog.q + again
  pos : ∀ w ∈ s.watches, 0 < w.1

theorem isIgnored_ignoredEvent (wd : Int) : isIgnored (ignoredEvent wd) = true := by
  simp only [isIgnored, ignoredEvent]
  decide

theorem pending_append (l l' : List InotifyEvent) : pending (l ++ l') = pending l + pending l' :=
  List.countP_append

theorem handleEvents_eq (s : State) :
    handleEvents s = ⟨s.watchedItems - pending s.q, []⟩ := by
  obtain ⟨n, q⟩ := s
  unfold handleEvents
  dsimp only
  induction q generalizing n with
  | nil => simp [pending]
  | cons e q ih =>
    rw [List.foldl_cons, handleEvent, List.tail_cons]
    by_cases he : isIgnored e = true
    · rw [if_pos he, ih, pending, pending, List.countP_cons_of_pos he]
      simp only [State.mk.injEq, and_true]
      omega
    · rw [if_neg he, ih, pending, pending, List.countP_cons_of_neg he]

theorem watchDir_pos {s : State} {wd : Int} (h : 0 < wd) :
    (watchDir s wd).1 = { s with watchedItems := s.watchedItems + 1 } := by
  rw [watchDir, if_neg (by omega)]

/-- **One step** keeps the books. -/
theorem step_balance {again ignored : Nat} {s s' : System} {a : Act}
    (h : Balance again ignored s) (hs : Step s a s') :
    Balance (again + if a.isAgain then 1 else 0) (ignored + if a.isIgnore then 1 else 0) s' := by
  obtain ⟨hitems, hpos⟩ := h
  have herase : ∀ {w : Int × Nat}, w ∈ s.watches → (s.watches.erase w).length + 1 =
      s.watches.length := fun hw => by
    rw [List.length_erase_of_mem hw]
    exact Nat.sub_add_cancel (List.length_pos_of_mem hw)
  have hone : ∀ wd, pending [ignoredEvent wd] = 1 := fun wd => by
    rw [pending, List.countP_singleton, if_pos (isIgnored_ignoredEvent wd)]
  cases hs with
  | watchNew hwd _ _ =>
    refine ⟨?_, fun w hw => ?_⟩
    · rw [watchDir_pos hwd]
      simp only [Act.isAgain, Act.isIgnore, Bool.false_eq_true, if_false, List.length_cons]
      omega
    · rcases List.mem_cons.1 hw with rfl | hw
      · exact hwd
      · exact hpos w hw
  | watchAgain hw =>
    refine ⟨?_, hpos⟩
    rw [watchDir_pos (hpos _ hw)]
    simp only [Act.isAgain, Act.isIgnore, Bool.false_eq_true, if_false, if_true]
    omega
  | watchFails hwd =>
    refine ⟨?_, hpos⟩
    rw [watchDir, if_pos hwd]
    exact hitems
  | ignore hw =>
    refine ⟨?_, fun w hm => hpos w (List.mem_of_mem_erase hm)⟩
    have := herase hw
    rw [ignoreWd, if_neg (Int.lt_irrefl 0)]
    simp only [Act.isAgain, Act.isIgnore, Bool.false_eq_true, if_false, if_true, pending_append,
      hone]
    omega
  | ignoreFails hr =>
    refine ⟨?_, hpos⟩
    rw [ignoreWd, if_pos hr]
    exact hitems
  | removed hw =>
    refine ⟨?_, fun w hm => hpos w (List.mem_of_mem_erase hm)⟩
    have := herase hw
    simp only [Act.isAgain, Act.isIgnore, Bool.false_eq_true, if_false, pending_append, hone]
    omega
  | queued he =>
    refine ⟨?_, hpos⟩
    rw [pending_append, pending, pending, List.countP_singleton, he]
    exact hitems
  | @read n r hr =>
    refine ⟨?_, hpos⟩
    have hsplit := pending_append (s.events.take n) (s.events.drop n)
    rw [List.take_append_drop] at hsplit
    rw [readEvents, if_neg (by omega)]
    simp only [Act.isAgain, Act.isIgnore, Bool.false_eq_true, if_false, pending_append]
    omega
  | readFails hr =>
    refine ⟨?_, hpos⟩
    rw [readEvents, if_pos hr]
    exact hitems
  | handle =>
    refine ⟨?_, hpos⟩
    rw [handleEvents_eq]
    simp only [Act.isAgain, Act.isIgnore, Bool.false_eq_true, if_false, pending, List.countP_nil]
    rw [pending, pending] at hitems
    omega

/-- **A run** keeps the books. -/
theorem run_balance {acts : List Act} {s : System} (h : Run acts s) :
    Balance (acts.countP (·.isAgain)) (acts.countP (·.isIgnore)) s := by
  induction h with
  | nil => exact ⟨rfl, fun w hw => absurd hw List.not_mem_nil⟩
  | snoc _ hs ih =>
    have := step_balance ih hs
    rwa [← List.countP_singleton, ← List.countP_singleton, ← List.countP_append,
      ← List.countP_append] at this

/-- **Watch accounting**: in every run, where all queued events have been handled, `watched_items`
is the number of live watches just when the run has as many `watch_dir` calls on watched inodes as
`ignore_wd` calls on live watches. -/
theorem accounts_iff {acts : List Act} {s : System} (h : Run acts s) (hs : s.Handled) :
    s.Accounts ↔ acts.countP (·.isAgain) = acts.countP (·.isIgnore) := by
  have hitems := (run_balance h).items
  rw [hs.1, hs.2, pending, List.countP_nil] at hitems
  refine ⟨fun ha => ?_, fun he => ?_⟩
  · have := ha.count
    omega
  · have hcount : s.prog.watchedItems = s.watches.length := by omega
    refine ⟨hcount, ?_⟩
    rw [goesOn, Bool.true_and, decide_eq_false_iff_not, hcount, ← List.length_eq_zero_iff]
    omega

/-- In a run with no such call it is the number of live watches. -/
theorem accounts_of_clean {acts : List Act} {s : System} (h : Run acts s) (hs : s.Handled)
    (hclean : ∀ a ∈ acts, a.isAgain = false ∧ a.isIgnore = false) : s.Accounts := by
  apply (accounts_iff h hs).2
  rw [List.countP_eq_zero.2 fun a ha => by rw [(hclean a ha).1]; exact Bool.false_ne_true,
    List.countP_eq_zero.2 fun a ha => by rw [(hclean a ha).2]; exact Bool.false_ne_true]

/-- A round of `process_inotify_events` that goes on does nothing, or reads and handles. -/
theorem processStep_run {acts : List Act} {s : System} (h : Run acts s) {check r : Int} {n : Nat}
    {p : State} (hr : 0 < r)
    (hp : processStep true check r (s.events.take n) s.prog = .inl p) :
    p = s.prog ∨ Run (acts ++ [.read n] ++ [.handle]) ⟨s.watches, s.events.drop n, p⟩ := by
  unfold processStep at hp
  split at hp
  · split at hp
    · have hread : readEvents s.prog r (s.events.take n) =
          ((readEvents s.prog r (s.events.take n)).1, ((s.events.take n).length : Int)) := by
        rw [readEvents, if_neg (by omega)]
      rw [hread] at hp
      dsimp only at hp
      rw [if_neg (by omega)] at hp
      cases hp
      exact .inr ((h.snoc (.read hr)).snoc .handle)
    · cases hp
      exact .inl rfl
  · cases hp

/-! ## Runs -/

/-- `inotify_test a a`, after which `a` is deleted and the event of it handled. -/
def twice : List Act := [.watchNew 1 1, .watchAgain 1 1, .removed 1 1, .read 1, .handle]

theorem twice_run : Run twice ⟨[], [], ⟨1, []⟩⟩ := by
  have h1 : Run [.watchNew 1 1] ⟨[(1, 1)], [], ⟨1, []⟩⟩ :=
    .snoc .nil (.watchNew (by decide) (by decide) (by decide))
  have h2 : Run [.watchNew 1 1, .watchAgain 1 1] ⟨[(1, 1)], [], ⟨2, []⟩⟩ :=
    .snoc h1 (.watchAgain (by decide))
  have h3 : Run [.watchNew 1 1, .watchAgain 1 1, .removed 1 1] ⟨[], [ignoredEvent 1], ⟨2, []⟩⟩ :=
    .snoc h2 (.removed (by decide))
  have h4 : Run [.watchNew 1 1, .watchAgain 1 1, .removed 1 1, .read 1]
      ⟨[], [], ⟨2, [ignoredEvent 1]⟩⟩ := .snoc h3 (.read (r := 16) (by decide))
  exact .snoc h4 .handle

theorem accounts_iff_twice : (⟨[], [], ⟨1, []⟩⟩ : System).Accounts ↔
    twice.countP (·.isAgain) = twice.countP (·.isIgnore) :=
  accounts_iff twice_run ⟨rfl, rfl⟩

/-- No watch is left, and `process_inotify_events` goes on. -/
theorem twice_not_accounts : Run twice ⟨[], [], ⟨1, []⟩⟩ ∧
    (⟨[], [], ⟨1, []⟩⟩ : System).Handled ∧ goesOn true ⟨1, []⟩ = true ∧
    ¬ (⟨[], [], ⟨1, []⟩⟩ : System).Accounts :=
  ⟨twice_run, ⟨rfl, rfl⟩, by decide, fun h => absurd h.count (by decide)⟩

end Inotify
