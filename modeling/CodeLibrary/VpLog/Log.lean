import CodeLibrary.Lib.Bytes
import CodeLibrary.VpLog.Files

/-!
# The logger of `vp_log.c`

The functions of `vp_log.c` on the logger `g_zlog`, the file system and what else is printed. A call
is given what the environment answers: whether `fopen` succeeds, what the clock tells when a record
is made and when a file is renamed, and how the time is written (`Locale`). `none` is a write
through a `NULL` stream, or a flag call without a logger.

The stream `fp` is named by the path it was opened at: it is closed before the file is renamed.
Memory is there for `malloc` and `strdup`.
-/

namespace VpLog

/-! ## `vp_log.h` -/

def ZLOG_FILE : UInt32 := 0x01

def ZLOG_SYSLOG : UInt32 := 0x02

def ZLOG_STDOUT : UInt32 := 0x04

def ZLOG_STDERR : UInt32 := 0x08

def LOG_BUF_LENGTH : Nat := 10240

def LOG_FILE_SIZE_MAX : Nat := 5 * 1024

def PATH_MAX : Nat := 4096

/-- `SZLOG` -/
structure Szlog where
  ident : Bytes
  flags : UInt32
  fp : Option Path
  filename : Option Path
  fsize : Nat
  maskpri : Nat
  facility : UInt32
deriving DecidableEq, Repr

/-- The flag is set. -/
def has (flags flag : UInt32) : Bool := flags &&& flag != 0

/-! ## The environment -/

/-- How `strftime` writes the local time: by `"%Y%m%d%H%M%S"`, and by `"%Y-%m-%d %T"`. -/
structure Locale where
  compact : Nat → Bytes
  full : Nat → Bytes

/-- `get_time_str` at time `t` -/
def getTimeStr (loc : Locale) (t type : Nat) : Bytes :=
  if type = 1 then loc.compact t else loc.full t

/-- Where a record goes besides the log file. -/
inductive Sink where
  | syslog (priority : UInt32)
  | stdout
  | stderr
deriving DecidableEq, Repr

/-- The logger, the files, and what was printed. -/
structure World where
  zlog : Option Szlog
  fs : FileSys
  printed : List (Sink × Bytes)

def World.print (w : World) (sink : Sink) (x : Bytes) : World :=
  { w with printed := w.printed ++ [(sink, x)] }

/-- A call of `zlog`: its arguments, `msg` the text its format makes, and what the environment
answers. The priority is an index of `zlog_priority`, with the `NULL` at its end. -/
structure LogCall where
  priority : Nat
  priority_le : priority ≤ 8
  msg : Bytes
  time : Nat
  pid : Nat
  tid : Nat
  rotateTime : Nat
  reopen : Bool

/-! ## `vp_log.c` -/

def zlogPriority : List String :=
  ["emergencies", "alerts", "critical", "errors", "warnings", "notifications", "informational",
    "debugging"]

/-- `"[level:%s time:%s pid:%u tid:%ld]"` -/
def header (loc : Locale) (c : LogCall) : Bytes :=
  "[level:".asciiBytes ++ ((zlogPriority[c.priority]?).getD "(null)").asciiBytes ++
    " time:".asciiBytes ++ getTimeStr loc c.time 0 ++ " pid:".asciiBytes ++
    (toString c.pid).asciiBytes ++ " tid:".asciiBytes ++ (toString c.tid).asciiBytes ++
    "]".asciiBytes

/-- `buf_log` -/
def bufLog (loc : Locale) (c : LogCall) : Bytes :=
  header loc c ++ c.msg.take (LOG_BUF_LENGTH - (header loc c).length - 1)

/-- `log_name` of `zlog_open`: `"%s.log"`, as far as it fits -/
def logName (progname : Bytes) : Path := (progname ++ ".log".asciiBytes).take (PATH_MAX - 1)

/-- `buf_log_name` of `zlog_rotate`: `"%s.%s"`, as far as it fits -/
def rotatedName (loc : Locale) (filename : Path) (t : Nat) : Path :=
  (filename ++ ".".asciiBytes ++ getTimeStr loc t 1).take (PATH_MAX - 1)

/-- `zlog_set_file`, where `fopen` succeeds or not -/
def zlogSetFile (z : Szlog) (fs : FileSys) (filename : Path) (opens : Bool) : Szlog × FileSys :=
  if opens then ({ z with filename := some filename, fp := some filename }, fs.fopen filename)
  else (z, fs)

/-- `zlog_open` -/
def zlogOpen (w : World) (progname : Bytes) (flags facility : UInt32) (level : Nat)
    (opens : Bool) : World :=
  match w.zlog with
  | some _ => w
  | none =>
    let z : Szlog :=
      { ident := progname, flags := 0 ||| flags, fp := none, filename := none, fsize := 0,
        maskpri := level, facility := facility }
    if has flags ZLOG_FILE then
      let (z, fs) := zlogSetFile z w.fs (logName progname) opens
      { w with zlog := some z, fs := fs }
    else { w with zlog := some z }

/-- `zlog_close`: the file is closed, and the logger released. -/
def zlogClose (w : World) : World := { w with zlog := none }

/-- `zlog_set_flag` -/
def zlogSetFlag (w : World) (flags : UInt32) : Option World :=
  w.zlog.map fun z => { w with zlog := some { z with flags := z.flags ||| flags } }

/-- `zlog_reset_flag` -/
def zlogResetFlag (w : World) (flags : UInt32) : Option World :=
  w.zlog.map fun z => { w with zlog := some { z with flags := z.flags &&& ~~~flags } }

/-- `zlog_rotate`, at time `t`, where `fopen` succeeds or not -/
def zlogRotate (loc : Locale) (z : Szlog) (fs : FileSys) (t : Nat) (opens : Bool) :
    Szlog × FileSys :=
  match z.filename with
  | none => (z, fs)
  | some filename =>
    let z := { z with fp := none }
    let fs := fs.rename filename (rotatedName loc filename t)
    if opens then ({ z with fp := some filename, fsize := 0 }, fs.fopen filename)
    else (z, fs)

/-- The syslog output of `vzlog` -/
def syslogOutput (loc : Locale) (z : Szlog) (w : World) (c : LogCall) : World :=
  if has z.flags ZLOG_SYSLOG then
    w.print (.syslog (UInt32.ofNat c.priority ||| z.facility)) (bufLog loc c)
  else w

/-- The file output of `vzlog`, on the logger and the files -/
def fileOutput (loc : Locale) (z : Szlog) (fs : FileSys) (c : LogCall) :
    Option (Szlog × FileSys) :=
  let (z, fs) :=
    if z.fsize > LOG_FILE_SIZE_MAX then zlogRotate loc z fs c.rotateTime c.reopen else (z, fs)
  match z.fp with
  | none => none
  | some f => some
      ({ z with fsize := z.fsize + (bufLog loc c).length }, fs.append f (bufLog loc c))

/-- The stdout and the stderr output of `vzlog` -/
def stdOutput (loc : Locale) (z : Szlog) (w : World) (c : LogCall) : World :=
  let w := if has z.flags ZLOG_STDOUT then w.print .stdout (bufLog loc c) else w
  if has z.flags ZLOG_STDERR then w.print .stderr (bufLog loc c) else w

/-- `vzlog` -/
def vzlog (loc : Locale) (w : World) (c : LogCall) : Option World :=
  match w.zlog with
  | none => some (w.print .stderr (bufLog loc c))
  | some z =>
    if c.priority > z.maskpri then some w
    else
      let w := syslogOutput loc z w c
      if has z.flags ZLOG_FILE then
        match fileOutput loc z w.fs c with
        | none => none
        | some (z, fs) => some (stdOutput loc z { w with zlog := some z, fs := fs } c)
      else some (stdOutput loc z w c)

/-! ## Sequences of calls -/

/-- A call, with what `fopen` answers it. -/
inductive Op where
  | open (progname : Bytes) (flags facility : UInt32) (level : Nat) (opens : Bool)
  | zlog (c : LogCall)
  | setFlag (flags : UInt32)
  | resetFlag (flags : UInt32)
  | close

def Op.run (loc : Locale) (w : World) : Op → Option World
  | .open progname flags facility level opens =>
    some (zlogOpen w progname flags facility level opens)
  | .zlog c => vzlog loc w c
  | .setFlag flags => zlogSetFlag w flags
  | .resetFlag flags => zlogResetFlag w flags
  | .close => some (zlogClose w)

/-- The calls one after the other. -/
def runAll (loc : Locale) (w : World) (ops : List Op) : Option World := ops.foldlM (Op.run loc) w

end VpLog
