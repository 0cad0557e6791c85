import Mathlib.Algebra.BigOperators.Group.Finset.Basic
import CodeLibrary.VpLog.Log

/-!
# What the logger is for

A session runs from a `zlog_open` to a `zlog_close`. `Session` is what its calls make of the flags,
the level and the number of bytes written since the log file was opened or renamed, with no look at
a file: `Session.writes` tells the records that go to the log file, `Session.renames` the paths it
is renamed to.

* `Guarded`: no record is to go to a file that was not opened.
* `NothingLost`: each record of a session is in one of its files, once.
* `AlwaysSized`: the logger knows the length of its file, and so bounds it.
-/

namespace VpLog

/-! ## Sessions -/

structure Session where
  name : Path
  flags : UInt32
  level : Nat
  /-- the log file was opened -/
  opened : Bool
  /-- bytes written since then, or since it was last renamed -/
  size : Nat

namespace Session

variable (loc : Locale) (s : Session)

/-- The record goes to the log file. -/
def writes (c : LogCall) : Bool := decide (c.priority ≤ s.level) && has s.flags ZLOG_FILE

/-- The log file is renamed first. -/
def rotates : Bool := decide (LOG_FILE_SIZE_MAX < s.size)

def log (c : LogCall) : Session :=
  if s.writes c then
    { s with size := (if s.rotates then 0 else s.size) + (bufLog loc c).length }
  else s

/-- The paths some calls rename the log file to. -/
def renames : Session → List LogCall → List Path
  | _, [] => []
  | s, c :: calls =>
    (if s.writes c && s.rotates then [rotatedName loc s.name c.rotateTime] else []) ++
      renames (s.log loc c) calls

/-- The records some calls write to the log file. -/
def records (calls : List LogCall) : List Bytes := (calls.filter s.writes).map (bufLog loc)

/-- The session after a call, if there is one. -/
def next : Option Session → Op → Option Session
  | none, .open progname flags _ level opens =>
    some ⟨logName progname, 0 ||| flags, level, has flags ZLOG_FILE && opens, 0⟩
  | some s, .open .. => some s
  | s, .zlog c => s.map (·.log loc c)
  | s, .setFlag flags => s.map fun s => { s with flags := s.flags ||| flags }
  | s, .resetFlag flags => s.map fun s => { s with flags := s.flags &&& ~~~flags }
  | _, .close => none

end Session

/-! ## No write through a `NULL` stream -/

/-- `zlog_open` comes at the start or after a `zlog_close`, flag calls between the two. -/
def Legal : Bool → List Op → Prop
  | _, [] => True
  | isOpen, .open .. :: ops => isOpen = false ∧ Legal true ops
  | isOpen, .zlog _ :: ops => Legal isOpen ops
  | isOpen, .setFlag _ :: ops => isOpen = true ∧ Legal true ops
  | isOpen, .resetFlag _ :: ops => isOpen = true ∧ Legal true ops
  | _, .close :: ops => Legal false ops

/-- A record that goes to the log file finds it opened by `zlog_open`, and where the file is to be
renamed, `fopen` succeeds. -/
def Guard (s : Option Session) : Op → Prop
  | .zlog c => ∀ s', s = some s' → s'.writes c = true →
    s'.opened = true ∧ (s'.rotates = true → c.reopen = true)
  | _ => True

/-- Every call is guarded. -/
def Guarded (loc : Locale) : Option Session → List Op → Prop
  | _, [] => True
  | s, op :: ops => Guard s op ∧ Guarded loc (Session.next loc s op) ops

/-! ## Nothing lost -/

/-- Of the files of a session, the log file and those it was renamed to: they hold what was in the
log file before, and each record once; and each holds them in the order they were written. -/
structure NothingLost (before after : FileSys) (name : Path) (renames : List Path)
    (records : List Bytes) : Prop where
  once : ∑ f ∈ insert name renames.toFinset, (after.content f : Multiset Bytes) =
    (before.content name ++ records : List Bytes)
  order : ∀ f ∈ insert name renames.toFinset,
    (after.content f).Sublist (before.content name ++ records)

/-! ## Bounded files -/

/-- The file the logger has open. -/
def World.file (w : World) : Option Path := w.zlog.bind (·.fp)

/-- `fsize` is the length of the open log file. -/
def Sized (w : World) : Prop :=
  ∀ z f, w.zlog = some z → z.fp = some f → z.fsize = w.fs.length f

/-- A record makes the log file no longer than `LOG_FILE_SIZE_MAX` and the record. -/
def Bounded (loc : Locale) (w : World) (op : Op) (w' : World) : Prop :=
  ∀ c f, op = .zlog c → w'.file = some f → w.fs.length f < w'.fs.length f →
    w'.fs.length f ≤ LOG_FILE_SIZE_MAX + (bufLog loc c).length

/-- In every state of the calls from `w`. -/
def AlwaysSized (loc : Locale) : World → List Op → Prop
  | w, [] => Sized w
  | w, op :: ops => Sized w ∧
    ∃ w', op.run loc w = some w' ∧ Bounded loc w op w' ∧ AlwaysSized loc w' ops

/-- All input and output succeeds, and no flag is set by hand. -/
def Op.Succeeds : Op → Prop
  | .open _ _ _ _ opens => opens = true
  | .zlog c => c.reopen = true
  | .close => True
  | .setFlag _ => False
  | .resetFlag _ => False

/-- A file that is opened is empty, and one that is renamed gets another name. -/
def Fresh (loc : Locale) (w : World) : Op → Prop
  | .open progname flags _ _ _ => w.zlog = none → has flags ZLOG_FILE = true →
    w.fs.length (logName progname) = 0
  | .zlog c => ∀ z f, w.zlog = some z → c.priority ≤ z.maskpri → has z.flags ZLOG_FILE = true →
    z.fp = some f → LOG_FILE_SIZE_MAX < z.fsize → rotatedName loc f c.rotateTime ≠ f
  | _ => True

/-- In every state of the calls from `w`. -/
def AllFresh (loc : Locale) : World → List Op → Prop
  | _, [] => True
  | w, op :: ops => Fresh loc w op ∧ ∀ w', op.run loc w = some w' → AllFresh loc w' ops

end VpLog
