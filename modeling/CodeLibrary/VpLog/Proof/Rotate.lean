import Mathlib.Algebra.BigOperators.Group.Finset.Piecewise
import Mathlib.Algebra.Order.Group.Multiset
import Mathlib.Tactic.Abel
import Mathlib.Tactic.SplitIfs
import Mathlib.Tactic.Tauto
import CodeLibrary.VpLog.Proof.Guard

/-!
# What rotation keeps of a session

A rotation renames the log file to a path made of its name and the time to the second. A file that
it was renamed to before in the session is replaced, with the records in it.

* `Kept`: what the files of a session hold, and what is lost of it; kept by a record that is
  appended (`Kept.append`) and by one before which the file is renamed (`Kept.rotate`).
* `nothingLost_iff`: nothing is lost just when no path is renamed to twice.
-/

namespace VpLog

open Finset

/-! ## Sums over files -/

section
variable {ι M : Type*} [DecidableEq ι] [AddCommMonoid M] {S : Finset ι} {g : ι → M} {x : ι}

theorem sum_update_add (hx : x ∈ S) (v : M) :
    ∑ i ∈ S, Function.update g x v i + g x = ∑ i ∈ S, g i + v := by
  rw [sum_update_of_mem hx, ← add_sum_erase S g hx, erase_eq]
  abel

/-- The value at `x` moves to `y`, where it replaces another or none, and `x` gets `v`. -/
theorem sum_move [IsCancelAdd M] {y : ι} (hx : x ∈ S) (hxy : y ≠ x) (v : M) :
    ∑ i ∈ insert y S, Function.update (Function.update g y (g x)) x v i +
      (if y ∈ S then g y else 0) = ∑ i ∈ S, g i + v := by
  have hgx : Function.update g y (g x) x = g x := Function.update_of_ne hxy.symm ..
  by_cases hy : y ∈ S
  · rw [insert_eq_of_mem hy, if_pos hy]
    have h1 := sum_update_add (g := g) hy (g x)
    have h2 := sum_update_add (g := Function.update g y (g x)) hx v
    rw [hgx] at h2
    apply add_right_cancel (b := g x)
    rw [add_right_comm, h2, add_right_comm, h1]
    abel
  · have hcongr : ∀ i ∈ S, Function.update (Function.update g y (g x)) x v i =
        Function.update g x v i := fun i hi => by
      by_cases hix : i = x
      · rw [hix, Function.update_self, Function.update_self]
      · rw [Function.update_of_ne hix, Function.update_of_ne hix,
          Function.update_of_ne (ne_of_mem_of_not_mem hi hy)]
    rw [sum_insert hy, if_neg hy, add_zero, sum_congr rfl hcongr, Function.update_of_ne hxy,
      Function.update_self, add_comm, sum_update_add hx]

end

/-! ## The files of a session -/

/-- The files of a session, `name` and `renames`, hold `logged` but for `lost`. -/
structure Kept (name : Path) (renames : Finset Path) (logged : List Bytes) (lost : Multiset Bytes)
    (fs : FileSys) : Prop where
  once : ∑ f ∈ insert name renames, (fs.content f : Multiset Bytes) + lost = logged
  order : ∀ f ∈ insert name renames, (fs.content f).Sublist logged
  current : fs.content name <:+ logged
  nonempty : ∀ f ∈ renames, f ≠ name → fs.content f ≠ []
  exists_name : (fs name).isSome

variable {name : Path} {renames : Finset Path} {logged : List Bytes} {lost : Multiset Bytes}
  {fs : FileSys}

theorem Kept.append (h : Kept name renames logged lost fs) (x : Bytes) :
    Kept name renames (logged ++ [x]) lost (fs.append name x) := by
  have hmem : name ∈ insert name renames := mem_insert_self ..
  refine ⟨?_, fun f hf => ?_, ?_, fun f hf hne => ?_, ?_⟩
  · have hg : (fun f => ((fs.append name x).content f : Multiset Bytes)) =
        Function.update (fun f => (fs.content f : Multiset Bytes)) name
          ((fs.content name ++ [x] : List Bytes) : Multiset Bytes) := by
      funext f
      by_cases hf : f = name
      · rw [hf, Function.update_self, FileSys.content_append_self]
      · rw [Function.update_of_ne hf, FileSys.content_append_of_ne hf]
    have hsum := sum_update_add (g := fun f => (fs.content f : Multiset Bytes)) hmem
      ((fs.content name ++ [x] : List Bytes) : Multiset Bytes)
    rw [← hg, ← Multiset.coe_add, add_comm (fs.content name : Multiset Bytes), ← add_assoc] at hsum
    rw [add_right_cancel hsum, add_right_comm, h.once, Multiset.coe_add]
  · by_cases hn : f = name
    · rw [hn, FileSys.content_append_self]
      exact (h.order name hmem).append (.refl [x])
    · rw [FileSys.content_append_of_ne hn]
      exact (h.order f hf).trans (List.sublist_append_left ..)
  · rw [FileSys.content_append_self]
    obtain ⟨l, hl⟩ := h.current
    exact ⟨l, by rw [← hl, List.append_assoc]⟩
  · rw [FileSys.content_append_of_ne hne]
    exact h.nonempty f hf hne
  · rw [FileSys.append, Function.update_self]
    rfl

/-- The files of a session after its log file was renamed to `t`. -/
theorem content_rotate (hf : (fs name).isSome) {t : Path} (ht : name ≠ t) (f : Path) :
    ((fs.rename name t).fopen name).content f =
      if f = t then fs.content name else if f = name then [] else fs.content f := by
  rw [FileSys.content_fopen, FileSys.content_rename hf ht]

/-- The log file is renamed to `t`: what was in a file of the session there is lost. -/
theorem Kept.rotate (h : Kept name renames logged lost fs) {t : Path} (ht : name ≠ t)
    (hne : fs.content name ≠ []) :
    Kept name (insert t renames) logged (lost + if t ∈ renames then (fs.content t : Multiset Bytes)
      else 0) ((fs.rename name t).fopen name) := by
  have hmem : name ∈ insert name renames := mem_insert_self ..
  have hcontent := content_rotate h.exists_name ht
  refine ⟨?_, fun f hf => ?_, ?_, fun f hf hn => ?_, ?_⟩
  · have hg : (fun f => (((fs.rename name t).fopen name).content f : Multiset Bytes)) =
        Function.update (Function.update (fun f => (fs.content f : Multiset Bytes)) t
          (fs.content name : Multiset Bytes)) name 0 := by
      funext f
      rw [hcontent]
      by_cases hfn : f = name
      · rw [hfn, Function.update_self, if_neg ht, if_pos rfl]
        rfl
      · rw [Function.update_of_ne hfn]
        by_cases hft : f = t
        · rw [hft, Function.update_self, if_pos rfl]
        · rw [Function.update_of_ne hft, if_neg hft, if_neg hfn]
    have hsum := sum_move (g := fun f => (fs.content f : Multiset Bytes)) hmem ht.symm 0
    have hiff : (t ∈ insert name renames) = (t ∈ renames) := by
      rw [mem_insert, or_iff_right ht.symm]
    rw [← hg, add_zero, insert_comm] at hsum
    simp only [hiff] at hsum
    rw [← h.once, ← hsum]
    abel
  · rw [hcontent]
    split_ifs with h1 h2
    · exact h.order name hmem
    · exact List.nil_sublist _
    · apply h.order f
      rw [mem_insert, mem_insert] at hf
      rw [mem_insert]
      tauto
  · rw [hcontent, if_neg ht, if_pos rfl]
    exact List.nil_suffix
  · rw [hcontent]
    split_ifs with h1
    · exact hne
    · exact h.nonempty f (mem_of_mem_insert_of_ne hf h1) hn
  · rw [FileSys.fopen, Function.update_self]
    rfl

/-! ## The records of a session -/

section
variable (loc : Locale) (s : Session)

/-- The session after some calls. -/
def Session.after (loc : Locale) (s : Session) (calls : List LogCall) : Session :=
  calls.foldl (Session.log loc) s

theorem after_concat (calls : List LogCall) (c : LogCall) :
    s.after loc (calls ++ [c]) = (s.after loc calls).log loc c := by
  rw [Session.after, List.foldl_append]
  rfl

theorem log_fields (c : LogCall) : (s.log loc c).name = s.name ∧ (s.log loc c).flags = s.flags ∧
    (s.log loc c).level = s.level ∧ (s.log loc c).opened = s.opened := by
  unfold Session.log
  split
  · exact ⟨rfl, rfl, rfl, rfl⟩
  · exact ⟨rfl, rfl, rfl, rfl⟩

theorem after_fields : ∀ (calls : List LogCall) (s : Session),
    (s.after loc calls).name = s.name ∧ (s.after loc calls).flags = s.flags ∧
      (s.after loc calls).level = s.level ∧ (s.after loc calls).opened = s.opened
  | [], _ => ⟨rfl, rfl, rfl, rfl⟩
  | c :: calls, s => by
    obtain ⟨h1, h2, h3, h4⟩ := after_fields calls (s.log loc c)
    obtain ⟨k1, k2, k3, k4⟩ := log_fields loc s c
    exact ⟨h1.trans k1, h2.trans k2, h3.trans k3, h4.trans k4⟩

theorem writes_after (calls : List LogCall) (c : LogCall) :
    (s.after loc calls).writes c = s.writes c := by
  obtain ⟨-, h2, h3, -⟩ := after_fields loc calls s
  rw [Session.writes, Session.writes, h2, h3]

theorem records_concat (calls : List LogCall) (c : LogCall) :
    s.records loc (calls ++ [c]) =
      s.records loc calls ++ if s.writes c then [bufLog loc c] else [] := by
  rw [Session.records, List.filter_append, List.map_append, ← Session.records]
  congr 1
  by_cases hc : s.writes c = true
  · rw [if_pos hc, List.filter_cons_of_pos hc]
    rfl
  · rw [if_neg hc, List.filter_cons_of_neg hc]
    rfl

theorem renames_concat : ∀ (calls : List LogCall) (s : Session) (c : LogCall),
    Session.renames loc s (calls ++ [c]) = Session.renames loc s calls ++
      if s.writes c && (s.after loc calls).rotates then [rotatedName loc s.name c.rotateTime]
      else []
  | [], s, c => by
    show (if s.writes c && s.rotates then _ else _) ++ [] = [] ++ _
    rw [List.append_nil, List.nil_append]
    rfl
  | c' :: calls, s, c => by
    have hname := (log_fields loc s c').1
    have hwrites : (s.log loc c').writes c = s.writes c := by
      obtain ⟨-, h2, h3, -⟩ := log_fields loc s c'
      rw [Session.writes, Session.writes, h2, h3]
    rw [List.cons_append, Session.renames, renames_concat calls _ c, Session.renames, hname,
      hwrites, List.append_assoc]
    rfl

end

theorem Kept.of_rename_self (h : Kept name renames logged lost fs) :
    Kept name (insert name renames) logged lost ((fs.rename name name).fopen name) := by
  obtain ⟨h1, h2, h3, h4, -⟩ := h
  rw [FileSys.rename_self]
  refine ⟨?_, fun f hf => ?_, ?_, fun f hf hn => ?_, ?_⟩
  · simp only [FileSys.content_fopen, insert_idem]
    exact h1
  · rw [insert_idem] at hf
    rw [FileSys.content_fopen]
    exact h2 f hf
  · rw [FileSys.content_fopen]
    exact h3
  · rw [FileSys.content_fopen]
    exact h4 f (mem_of_mem_insert_of_ne hf hn) hn
  · rw [FileSys.fopen, Function.update_self]
    rfl

theorem length_append (x : Bytes) : (fs.append name x).length name = fs.length name + x.length := by
  rw [FileSys.length, FileSys.content_append_self, List.flatten_append, List.length_append,
    ← FileSys.length, List.flatten_singleton]

theorem toFinset_concat (l : List Path) (t : Path) :
    (l ++ [t]).toFinset = insert t l.toFinset := by
  ext f
  simp only [List.mem_toFinset, List.mem_append, List.mem_singleton, mem_insert]
  exact or_comm

/-- The paths other than the log file's own that it is renamed to. -/
def others (name : Path) (l : List Path) : List Path := l.filter fun t => decide (t ≠ name)

theorem others_concat (l : List Path) (t : Path) : others name (l ++ [t]) =
    others name l ++ if t ≠ name then [t] else [] := by
  rw [others, List.filter_append, ← others, List.filter_singleton]
  by_cases h : t ≠ name
  · rw [if_pos h, decide_eq_true h, cond_true]
  · rw [if_neg h, decide_eq_false h, cond_false]

/-- The files after some records, of a session that had `before` in its log file. -/
structure KeptBy (loc : Locale) (s : Session) (before : List Bytes) (calls : List LogCall)
    (fs : FileSys) : Prop where
  kept : ∃ lost, Kept s.name (s.renames loc calls).toFinset (before ++ s.records loc calls) lost
      fs ∧ (lost = 0 ↔ (others s.name (s.renames loc calls)).Nodup)
  size : (s.after loc calls).size ≤ fs.length s.name

/-- **One record** that goes to the log file. -/
theorem KeptBy.written {loc : Locale} {s : Session} {before : List Bytes} {calls : List LogCall}
    {c : LogCall} (h : KeptBy loc s before calls fs) (hw : s.writes c = true) :
    KeptBy loc s before (calls ++ [c]) ((s.after loc calls).written loc fs c) := by
  obtain ⟨⟨lost, hk, hlost⟩, hsize⟩ := h
  have hname := (after_fields loc calls s).1
  have hlog : ((s.after loc calls).log loc c).size =
      (if (s.after loc calls).rotates then 0 else (s.after loc calls).size) +
        (bufLog loc c).length := by
    rw [Session.log, if_pos (by rw [writes_after]; exact hw)]
  unfold Session.written
  rw [hname]
  by_cases hrot : (s.after loc calls).rotates = true
  · have hren := renames_concat loc calls s c
    rw [hw, hrot, Bool.and_self, if_pos rfl] at hren
    simp only [hrot, if_true]
    refine ⟨?_, ?_⟩
    · rw [records_concat, if_pos hw, hren, toFinset_concat, others_concat, ← List.append_assoc]
      by_cases ht : rotatedName loc s.name c.rotateTime = s.name
      · rw [ht, if_neg (fun h => h rfl), List.append_nil]
        exact ⟨lost, hk.of_rename_self.append _, hlost⟩
      · have hne : fs.content s.name ≠ [] := fun he => by
          have hzero : fs.length s.name = 0 := by rw [FileSys.length, he]; rfl
          have hgt := rotates_iff.1 hrot
          omega
        refine ⟨_, (hk.rotate (fun he => ht he.symm) hne).append _, ?_⟩
        have hmem : rotatedName loc s.name c.rotateTime ∈ others s.name (s.renames loc calls) ↔
            rotatedName loc s.name c.rotateTime ∈ (s.renames loc calls).toFinset := by
          rw [others, List.mem_filter, List.mem_toFinset, and_iff_left (decide_eq_true ht)]
        rw [if_pos ht, List.nodup_append_comm, List.singleton_append, List.nodup_cons, hmem,
          ← Multiset.card_eq_zero, Multiset.card_add, Nat.add_eq_zero_iff, Multiset.card_eq_zero,
          Multiset.card_eq_zero, hlost, and_comm]
        apply and_congr_left'
        by_cases hin : rotatedName loc s.name c.rotateTime ∈ (s.renames loc calls).toFinset
        · rw [if_pos hin, Multiset.coe_eq_zero]
          exact iff_of_false (hk.nonempty _ hin ht) fun h => h hin
        · rw [if_neg hin]
          exact iff_of_true rfl hin
    · rw [after_concat, hlog, hrot, if_pos rfl, length_append]
      omega
  · have hren := renames_concat loc calls s c
    rw [Bool.eq_false_of_not_eq_true hrot, Bool.and_false, if_neg Bool.false_ne_true,
      List.append_nil] at hren
    simp only [hrot, Bool.false_eq_true, if_false]
    refine ⟨⟨lost, ?_, ?_⟩, ?_⟩
    · rw [hren, records_concat, if_pos hw, ← List.append_assoc]
      exact hk.append _
    · rw [hren]
      exact hlost
    · rw [after_concat, hlog, if_neg hrot, length_append]
      omega

/-- The records of a session, with every `fopen` a success. -/
theorem runAll_kept {loc : Locale} {s : Session} {ident : Bytes} {facility : UInt32} {w : World}
    (ho : s.opened = true) (hsize : s.size = 0) (hz : w.zlog = some (s.szlog ident facility))
    (hfile : (w.fs s.name).isSome) (calls : List LogCall) (hcalls : ∀ c ∈ calls, c.reopen = true) :
    ∃ w', runAll loc w (calls.map Op.zlog) = some w' ∧
      w'.zlog = some ((s.after loc calls).szlog ident facility) ∧
      KeptBy loc s (w.fs.content s.name) calls w'.fs := by
  induction calls using List.reverseRecOn with
  | nil =>
    refine ⟨w, rfl, hz, ⟨0, ⟨?_, fun f hf => ?_, ?_, fun f hf _ => ?_, hfile⟩, ?_⟩, ?_⟩
    · simp [Session.renames, Session.records]
    · have : f = s.name := by simpa [Session.renames] using hf
      rw [this]
      exact List.sublist_append_left ..
    · rw [show s.records loc [] = [] from rfl, List.append_nil]
    · simp [Session.renames] at hf
    · exact iff_of_true rfl List.nodup_nil
    · rw [show s.after loc [] = s from rfl, hsize]
      exact Nat.zero_le _
  | append_singleton calls c ih =>
    obtain ⟨w₁, hrun, hz₁, hk⟩ := ih fun c hc => hcalls c (List.mem_append_left _ hc)
    have hre : c.reopen = true := hcalls c (List.mem_append_right _ List.mem_cons_self)
    have hstep : runAll loc w ((calls ++ [c]).map Op.zlog) = vzlog loc w₁ c := by
      rw [List.map_append, runAll, List.foldlM_append]
      show ((calls.map Op.zlog).foldlM (Op.run loc) w >>= _) = _
      rw [← runAll, hrun]
      exact bind_pure (vzlog loc w₁ c)
    rw [hstep, after_concat]
    by_cases hw : s.writes c = true
    · have hw' : (s.after loc calls).writes c = true := by rwa [writes_after]
      have hfiles := vzlog_writes loc hz₁ hw'
      rw [if_pos ⟨(after_fields loc calls s).2.2.2.trans ho, fun _ => hre⟩] at hfiles
      obtain ⟨w', hrun', he⟩ := Option.map_eq_some_iff.1 hfiles
      refine ⟨w', hrun', congrArg Prod.fst he, ?_⟩
      have hfs : w'.fs = (s.after loc calls).written loc w₁.fs c := congrArg Prod.snd he
      rw [hfs]
      exact hk.written hw
    · have hw' : ¬ (s.after loc calls).writes c = true := by rwa [writes_after]
      obtain ⟨w', hrun', he⟩ := Option.map_eq_some_iff.1 (vzlog_passes loc hz₁ hw')
      have hfs : w'.fs = w₁.fs := congrArg Prod.snd he
      have hlog : (s.after loc calls).log loc c = s.after loc calls := by
        rw [Session.log, if_neg hw']
      refine ⟨w', hrun', ?_, ?_⟩
      · rw [hlog]
        exact (congrArg Prod.fst he).trans hz₁
      · rw [hfs]
        refine ⟨?_, ?_⟩
        · rw [records_concat, renames_concat, if_neg hw, Bool.eq_false_of_not_eq_true hw,
            Bool.false_and, if_neg Bool.false_ne_true, List.append_nil, List.append_nil]
          exact hk.kept
        · rw [after_concat, hlog]
          exact hk.size

/-- Nothing of what the files of a session are to hold is lost, and it is in order, just when no
path is renamed to twice. -/
theorem nothingLost_of_kept {loc : Locale} {s : Session} {before fs : FileSys}
    {calls : List LogCall} (h : KeptBy loc s (before.content s.name) calls fs) :
    NothingLost before fs s.name (s.renames loc calls) (s.records loc calls) ↔
      (others s.name (s.renames loc calls)).Nodup := by
  obtain ⟨⟨lost, hk, hlost⟩, -⟩ := h
  rw [← hlost]
  refine ⟨fun h => ?_, fun h0 => ⟨?_, hk.order⟩⟩
  · refine add_left_cancel (a := ∑ f ∈ insert s.name (s.renames loc calls).toFinset,
      (fs.content f : Multiset Bytes)) ?_
    rw [hk.once, add_zero, h.once]
  · rw [← hk.once, h0, add_zero]

/-- The files of a session that opens its log file. -/
theorem open_kept (loc : Locale) {w : World} (hw : w.zlog = none) (progname : Bytes)
    {flags : UInt32} (facility : UInt32) (level : Nat) (hflags : has flags ZLOG_FILE = true)
    {calls : List LogCall} (hcalls : ∀ c ∈ calls, c.reopen = true) :
    ∃ s w', Session.next loc none (.open progname flags facility level true) = some s ∧
      runAll loc w (.open progname flags facility level true :: calls.map .zlog) = some w' ∧
      KeptBy loc s (w.fs.content s.name) calls w'.fs := by
  let s : Session := ⟨logName progname, 0 ||| flags, level, has flags ZLOG_FILE && true, 0⟩
  have hs : s.opened = true := by
    show (has flags ZLOG_FILE && true) = true
    rw [hflags, Bool.and_self]
  have hlegal : LegalNext none (.open progname flags facility level true) := rfl
  obtain ⟨hgood, -⟩ := run_shows loc (show Shows none w from hw) hlegal
  obtain ⟨w₁, hrun, ident, facility', hz⟩ := hgood trivial
  have hfs : w₁.fs = w.fs.fopen (logName progname) := by
    cases hrun
    unfold zlogOpen zlogSetFile
    rw [hw, hflags]
    rfl
  have hfile : (w₁.fs s.name).isSome := by
    rw [hfs, FileSys.fopen, Function.update_self]
    rfl
  obtain ⟨w', hrun', -, hk⟩ := runAll_kept hs rfl hz hfile calls hcalls
  refine ⟨s, w', rfl, ?_, ?_⟩
  · rw [runAll_cons, hrun]
    exact hrun'
  · have hcontent : w₁.fs.content s.name = w.fs.content s.name := by
      rw [hfs, FileSys.content_fopen]
    rwa [← hcontent]

/-- **What rotation loses**: after a `zlog_open` with the log file and any records, with any clock,
the log file and the files it was renamed to hold what was in the log file before and each record
once, in the order they were logged, just when no two rotations gave the same name: the time, to
the second, was never the same for two of them. -/
theorem nothingLost_iff (loc : Locale) (w : World) (hw : w.zlog = none) (progname : Bytes)
    (flags facility : UInt32) (level : Nat) (hflags : has flags ZLOG_FILE = true)
    (calls : List LogCall) (hcalls : ∀ c ∈ calls, c.reopen = true) :
    ∃ s w', Session.next loc none (.open progname flags facility level true) = some s ∧
      runAll loc w (.open progname flags facility level true :: calls.map .zlog) = some w' ∧
      (NothingLost w.fs w'.fs s.name (s.renames loc calls) (s.records loc calls) ↔
        (others s.name (s.renames loc calls)).Nodup) := by
  obtain ⟨s, w', hs, hrun, hk⟩ := open_kept loc hw progname facility level hflags hcalls
  exact ⟨s, w', hs, hrun, nothingLost_of_kept hk⟩

/-! ## Runs -/

/-- No files, and no logger. -/
def World.start : World := ⟨none, fun _ => none, []⟩

theorem length_bufLog (loc : Locale) (c : LogCall) : (bufLog loc c).length =
    (header loc c).length + min (LOG_BUF_LENGTH - (header loc c).length - 1) c.msg.length := by
  rw [bufLog, List.length_append, List.length_take]

theorem size_log {loc : Locale} {s : Session} {c : LogCall} (hw : s.writes c = true) :
    (s.log loc c).size = (if s.rotates then 0 else s.size) + (bufLog loc c).length := by
  rw [Session.log, if_pos hw]

/-- Records longer than `LOG_FILE_SIZE_MAX`: each finds the log file too long, if the first does. -/
theorem renames_long {loc : Locale} : ∀ {calls : List LogCall} {s : Session},
    (∀ c ∈ calls, s.writes c = true ∧ LOG_FILE_SIZE_MAX < (bufLog loc c).length) →
    s.rotates = true →
    s.renames loc calls = calls.map fun c => rotatedName loc s.name c.rotateTime
  | [], _, _, _ => rfl
  | c :: calls, s, h, hrot => by
    obtain ⟨hw, hlen⟩ := h c List.mem_cons_self
    have hrot' : (s.log loc c).rotates = true := by
      rw [rotates_iff, size_log hw]
      omega
    have hrest : ∀ c' ∈ calls, (s.log loc c).writes c' = true ∧
        LOG_FILE_SIZE_MAX < (bufLog loc c').length := fun c' hc' => by
      obtain ⟨hw', hlen'⟩ := h c' (List.mem_cons_of_mem _ hc')
      exact ⟨(writes_after loc s [c] c').trans hw', hlen'⟩
    rw [Session.renames, hw, hrot, Bool.and_self, if_pos rfl, renames_long hrest hrot',
      (log_fields loc s c).1]
    rfl

/-- From a new log file on, each but the first renames it. -/
theorem renames_first {loc : Locale} {c : LogCall} {calls : List LogCall} {s : Session}
    (h : ∀ c' ∈ c :: calls, s.writes c' = true ∧ LOG_FILE_SIZE_MAX < (bufLog loc c').length)
    (h0 : s.size = 0) :
    s.renames loc (c :: calls) = calls.map fun c' => rotatedName loc s.name c'.rotateTime := by
  obtain ⟨hw, hlen⟩ := h c List.mem_cons_self
  have hno : s.rotates = false := by
    apply Bool.eq_false_of_not_eq_true
    rw [rotates_iff, h0]
    exact Nat.not_lt_zero _
  have hrot : (s.log loc c).rotates = true := by
    rw [rotates_iff, size_log hw]
    omega
  have hrest : ∀ c' ∈ calls, (s.log loc c).writes c' = true ∧
      LOG_FILE_SIZE_MAX < (bufLog loc c').length := fun c' hc' => by
    obtain ⟨hw', hlen'⟩ := h c' (List.mem_cons_of_mem _ hc')
    exact ⟨(writes_after loc s [c] c').trans hw', hlen'⟩
  rw [Session.renames, hw, hno, Bool.and_false, if_neg Bool.false_ne_true, List.nil_append,
    renames_long hrest hrot, (log_fields loc s c).1]

/-- Records of 5200 bytes, made at these times. -/
def longRecords (times : List Nat) : List LogCall := times.map fun t => recordAt t 5200 true

theorem reopen_longRecords {times : List Nat} {c : LogCall} (hc : c ∈ longRecords times) :
    c.reopen = true := by
  obtain ⟨t, -, rfl⟩ := List.mem_map.1 hc
  rfl

/-- What they rename the new log file `p.log` to. -/
theorem renames_longRecords {s : Session} (t : Nat) (times : List Nat)
    (hs : Session.next decimal none (.open [112] ZLOG_FILE 8 7 true) = some s) :
    s.renames decimal (longRecords (t :: times)) =
      times.map fun t => rotatedName decimal s.name t := by
  cases hs
  have hlong : ∀ c ∈ longRecords (t :: times), Session.writes
      ⟨logName [112], 0 ||| ZLOG_FILE, 7, has ZLOG_FILE ZLOG_FILE && true, 0⟩ c = true ∧
      LOG_FILE_SIZE_MAX < (bufLog decimal c).length := fun c hc => by
    obtain ⟨t', -, rfl⟩ := List.mem_map.1 hc
    refine ⟨rfl, ?_⟩
    rw [length_bufLog, recordAt, List.length_replicate]
    unfold LOG_BUF_LENGTH LOG_FILE_SIZE_MAX
    omega
  rw [longRecords, List.map_cons] at hlong ⊢
  rw [renames_first hlong rfl, List.map_map]
  rfl

/-- One second apart, the log file is renamed twice, and nothing is lost. -/
theorem nothingLost_spread : ∃ s w',
    Session.next decimal none (.open [112] ZLOG_FILE 8 7 true) = some s ∧
      runAll decimal .start (.open [112] ZLOG_FILE 8 7 true :: (longRecords [0, 1, 2]).map .zlog) =
        some w' ∧
      (s.renames decimal (longRecords [0, 1, 2])).length = 2 ∧
      NothingLost World.start.fs w'.fs s.name (s.renames decimal (longRecords [0, 1, 2]))
        (s.records decimal (longRecords [0, 1, 2])) := by
  obtain ⟨s, w', hs, hrun, hiff⟩ := nothingLost_iff decimal .start rfl [112] ZLOG_FILE 8 7 rfl
    (longRecords [0, 1, 2]) fun _ hc => reopen_longRecords hc
  have hrenames := renames_longRecords 0 [1, 2] hs
  refine ⟨s, w', hs, hrun, by rw [hrenames]; rfl, hiff.2 ?_⟩
  rw [hrenames]
  cases hs
  decide +kernel

/-- Three records of 5200 bytes within a second. -/
def burst : List LogCall := longRecords [0, 0, 0]

/-- The log file is renamed twice to the same path, and the first record is lost. -/
theorem burst_loses_record : (∀ c ∈ burst, c.time = 0 ∧ c.rotateTime = 0 ∧ c.reopen = true) ∧
    ∃ s w', Session.next decimal none (.open [112] ZLOG_FILE 8 7 true) = some s ∧
      runAll decimal .start (.open [112] ZLOG_FILE 8 7 true :: burst.map .zlog) = some w' ∧
      ¬ NothingLost World.start.fs w'.fs s.name (s.renames decimal burst)
        (s.records decimal burst) := by
  have hflags : has ZLOG_FILE ZLOG_FILE = true := rfl
  have hreopen : ∀ c ∈ burst, c.reopen = true := fun _ hc => reopen_longRecords hc
  obtain ⟨s, w', hs, hrun, hk⟩ := open_kept decimal (show World.start.zlog = none from rfl)
    [112] 8 7 hflags hreopen
  refine ⟨fun c hc => ?_, s, w', hs, hrun, fun hlost => ?_⟩
  · obtain ⟨t, ht, rfl⟩ := List.mem_map.1 hc
    obtain rfl : t = 0 := by simpa using ht
    exact ⟨rfl, rfl, rfl⟩
  · have hnodup := (nothingLost_of_kept hk).1 hlost
    rw [burst, renames_longRecords 0 [0, 0] hs] at hnodup
    cases hs
    exact absurd hnodup (by decide +kernel)

end VpLog
