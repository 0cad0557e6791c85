import CodeLibrary.Libpam.Login

/-!
# Concurrent logins

Any number of calls of `google_authenticator` for one user, interleaved. A call reads the state
file, checks the code and writes the new state file as `write_file_contents` does: it creates
`secret~` with `O_EXCL`, compares the size and the modification time of the state file with those
it has read, writes `secret~` and renames it to the state file. `write` and `rename` may fail, and a
call may die at any time. The state file exists and is changed by nobody else.
-/

set_option autoImplicit false

namespace Libpam

/-- The state file at some time. -/
structure Version where
  text : List UInt8
  mtime : Int
deriving DecidableEq

/-- `st_size` and `st_mtime` -/
def Version.stamp (v : Version) : Nat × Int := (v.text.length, v.mtime)

/-- A call that has checked its code. -/
structure Call where
  id : Nat
  /-- what it has read, and when -/
  read : Version
  readTime : Int
  env : Env
  outcome : Outcome

/-- Where a call is. -/
inductive Phase where
  | start
  | opened (read : Version) (readTime : Int)
  /-- there is something to write -/
  | checked (call : Call)
  /-- `secret~` is created -/
  | created (call : Call)
  /-- the state file is still the same -/
  | compared (call : Call)
  /-- `secret~` is written -/
  | written (call : Call) (mtime : Int)
  /-- the result of `google_authenticator` -/
  | returned (rc : Bool)
  | dead

/-- The calls, the state file and `secret~`. The rest is the history: the versions of the state file
and the calls that took effect, the last one first. -/
structure System where
  clock : Int
  file : Version
  /-- `secret~` exists -/
  tmp : Bool
  phase : Nat → Phase
  versions : List Version
  log : List Call

/-- The clock times of a call are in order, between two times; none is negative. -/
def Env.Within (env : Env) (first last : Int) : Prop :=
  0 ≤ env.limitTime ∧ first ≤ env.limitTime ∧
    ∀ mode < 4, env.limitTime ≤ env.checkTime mode ∧ env.checkTime mode ≤ last

/-- The call `i` goes on to `phase`. -/
def System.goto (s : System) (i : Nat) (phase : Phase) : System :=
  { s with phase := Function.update s.phase i phase }

/-- One step of one call, or of the clock. -/
inductive Step (compute : List UInt8 → UInt64 → UInt32) (params : Params) :
    System → System → Prop
  | tick {s : System} {clock : Int} : s.clock ≤ clock →
      Step compute params s { s with clock }
  | read {s : System} {i : Nat} : s.phase i = .start →
      Step compute params s (s.goto i (.opened s.file s.clock))
  /-- Nothing is to be written. -/
  | answer {s : System} {i : Nat} {v : Version} {t : Int} {env : Env} :
      s.phase i = .opened v t → env.Within t s.clock →
      (login compute params env v.text).write = none →
      Step compute params s
        { s.goto i (.returned (login compute params env v.text).rc) with
          log := ⟨i, v, t, env, login compute params env v.text⟩ :: s.log }
  | check {s : System} {i : Nat} {v : Version} {t : Int} {env : Env} :
      s.phase i = .opened v t → env.Within t s.clock →
      (login compute params env v.text).write ≠ none →
      Step compute params s (s.goto i (.checked ⟨i, v, t, env, login compute params env v.text⟩))
  | create {s : System} {i : Nat} {call : Call} : s.phase i = .checked call → s.tmp = false →
      Step compute params s { s.goto i (.created call) with tmp := true }
  /-- `open` fails with `EEXIST`, or for another reason. -/
  | refuse {s : System} {i : Nat} {call : Call} : s.phase i = .checked call →
      Step compute params s (s.goto i (.returned false))
  | compare {s : System} {i : Nat} {call : Call} : s.phase i = .created call →
      call.read.stamp = s.file.stamp → Step compute params s (s.goto i (.compared call))
  /-- The state file is another one, or `stat` fails. -/
  | changed {s : System} {i : Nat} {call : Call} : s.phase i = .created call →
      Step compute params s { s.goto i (.returned false) with tmp := false }
  | write {s : System} {i : Nat} {call : Call} : s.phase i = .compared call →
      Step compute params s (s.goto i (.written call s.clock))
  /-- `write` fails. -/
  | failWrite {s : System} {i : Nat} {call : Call} : s.phase i = .compared call →
      Step compute params s { s.goto i (.returned false) with tmp := false }
  | rename {s : System} {i : Nat} {call : Call} {mtime : Int} {text : List UInt8} :
      s.phase i = .written call mtime → call.outcome.write = some text →
      Step compute params s
        { s.goto i (.returned call.outcome.rc) with
          file := ⟨text, mtime⟩, tmp := false
          versions := ⟨text, mtime⟩ :: s.versions, log := call :: s.log }
  /-- `rename` fails. -/
  | failRename {s : System} {i : Nat} {call : Call} {mtime : Int} :
      s.phase i = .written call mtime →
      Step compute params s { s.goto i (.returned false) with tmp := false }
  | die {s : System} (i : Nat) : Step compute params s (s.goto i .dead)

/-- No call has begun. -/
def System.begin (clock : Int) (file : Version) : System :=
  ⟨clock, file, false, fun _ => .start, [file], []⟩

/-- A system some steps away. -/
def Reachable (compute : List UInt8 → UInt64 → UInt32) (params : Params) (s s' : System) : Prop :=
  Relation.ReflTransGen (Step compute params) s s'

/-- No two versions of the state file have the same size and modification time. -/
def System.Distinct (s : System) : Prop := (s.versions.map Version.stamp).Nodup

end Libpam
