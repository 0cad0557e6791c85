import CodeLibrary.Lib.CInt
import CodeLibrary.Lib.Scanf
import CodeLibrary.Libpam.StateFile
import Mathlib.Data.List.Sort

/-!
# The checks of a login, `pam_google_authenticator.c`

Each check reads and changes the buffer with the state file and says whether the code that the user
entered is accepted. `code` stands for `compute_code` with the user's secret. `int`s are integers:
what they hold is cast where the source casts, signed overflow is undefined in the source and not
modelled.
-/

set_option autoImplicit false

namespace Libpam

open CInt Scanf

/-! ## Numbers -/

/-- What `(int)strtoul(ptr, &endptr, 10)` gives, and whether it sets `errno`. -/
structure Number where
  value : Int
  erange : Bool
  endptr : List UInt8

/-- `(int)strtoul(ptr, &endptr, 10)` -/
def strtoul (ptr : List UInt8) : Number :=
  match scanInt ptr with
  | none => ⟨0, false, ptr⟩
  | some (n, endptr) =>
    if n.natAbs < 2 ^ 64 then ⟨toInt n, false, endptr⟩ else ⟨toInt (2 ^ 64 - 1), true, endptr⟩

/-- `strtol(str, NULL, 10)` -/
def strtol (str : List UInt8) : Int :=
  match scanInt str with
  | none => 0
  | some (n, _) => max (-2 ^ 63) (min n (2 ^ 63 - 1))

/-- What `"%d"` and `"%ld"` print. -/
def printInt (n : Int) : List UInt8 :=
  if n < 0 then 45 :: decimal n.natAbs else decimal n.natAbs

/-- What `"%+d"` prints. -/
def printSigned (n : Int) : List UInt8 := if n < 0 then printInt n else 43 :: printInt n

theorem length_scanInt_lt {ptr endptr : List UInt8} {n : Int} (h : scanInt ptr = some (n, endptr)) :
    endptr.length < ptr.length := by
  obtain ⟨t, rfl, ⟨space, sign, digits, rfl, -, hne, -⟩, -⟩ := scanInt_eq_some.1 h
  have := List.length_pos_of_ne_nil hne
  simp only [List.length_append]
  omega

theorem length_strtoul_lt {ptr : List UInt8} (h : (strtoul ptr).endptr ≠ ptr) :
    (strtoul ptr).endptr.length < ptr.length := by
  rw [strtoul] at h ⊢
  split at h
  · exact absurd rfl h
  · rename_i n endptr hs
    split <;> exact length_scanInt_lt hs

/-- The end of the text, a blank or a line end. -/
def endsNumber : List UInt8 → Bool
  | [] => true
  | c :: _ => isBlank c || isEol c

/-- `get_hotp_counter` -/
def getHotpCounter (buf : List UInt8) : Int :=
  match getCfgValue "HOTP_COUNTER".asciiBytes buf with
  | none => 0
  | some counterStr => strtol counterStr

/-- `window_size`: the option `WINDOW_SIZE`, or 3 without one; 0 where it is invalid. -/
def windowSize (buf : List UInt8) : Int :=
  match getCfgValue "WINDOW_SIZE".asciiBytes buf with
  | none => 3
  | some value =>
    let window := strtoul value
    if window.erange ∨ value = [] ∨ window.endptr = value ∨ !endsNumber window.endptr ∨
      window.value < 1 ∨ window.value > 100 then 0
    else window.value

/-! ## The state of a login -/

/-- The buffer with the state file, and `updated`. -/
structure State where
  buf : List UInt8
  updated : Bool
deriving DecidableEq

/-- `set_cfg_value(pamh, key, val, &buf)` with `*updated = 1`. -/
def State.set (s : State) (key val : List UInt8) : State := ⟨setCfgValue key val s.buf, true⟩

/-- What a code was accepted as. -/
inductive Token where
  /-- a scratch code -/
  | scratch (code : Int)
  /-- the code of a value of the counter -/
  | counter (value : Int)
  /-- the code of a time step -/
  | step (tm : Int)
  /-- the last of three codes that establish a time skew -/
  | skew
deriving DecidableEq, Repr

/-- What a check returns: -1, 0 with what the code was accepted as, or 1. -/
inductive Verdict where
  | error
  | accepted (token : Token)
  | next
deriving DecidableEq, Repr

/-! ## The rate limit -/

/-- `comparator` -/
def comparator (a b : UInt32) : Int := toInt (a - b).toNat

/-- The attempts and the interval that `RATE_LIMIT` begins with, and what follows them. -/
def readLimit (value : List UInt8) : Option (Int × Int × List UInt8) :=
  let attempts := strtoul value
  if attempts.value < 1 ∨ attempts.endptr = value ∨ attempts.value > 100 ∨ attempts.erange ∨
    !attempts.endptr.head?.any isBlank then none
  else
    let interval := strtoul attempts.endptr
    if interval.value < 1 ∨ interval.endptr = attempts.endptr ∨ interval.value > 3600 ∨
      interval.erange then none
    else some (attempts.value, interval.value, interval.endptr)

/-- The time stamps of the previous login attempts. -/
def readTimestamps : List UInt8 → Option (List UInt32)
  | [] => some []
  | c :: s =>
    if isEol c then some []
    else if _h : !isBlank c ∨ (strtoul (c :: s)).erange ∨ (strtoul (c :: s)).endptr = c :: s then
      none
    else
      (readTimestamps (strtoul (c :: s)).endptr).map (UInt32.ofInt (strtoul (c :: s)).value :: ·)
termination_by endptr => endptr.length
decreasing_by exact length_strtoul_lt fun he => _h (.inr (.inr he))

/-- The loop that prunes the sorted time stamps: `start` and `stop`. -/
def pruneTimestamps (now interval : UInt32) : List UInt32 → Nat → Nat → Int → Nat × Int
  | [], _, start, stop => (start, stop)
  | t :: timestamps, i, start, stop =>
    if t < now - interval then pruneTimestamps now interval timestamps (i + 1) (i + 1) i
    else if t > now then (start, stop)
    else pruneTimestamps now interval timestamps (i + 1) start i

/-- The text of the option `RATE_LIMIT`. -/
def limitText (attempts interval : Int) (timestamps : List UInt32) : List UInt8 :=
  printInt attempts ++ [32] ++ printInt interval ++
    timestamps.flatMap fun t => 32 :: decimal t.toNat

/-- `rate_limit` at the time `now`: whether it lets the attempt go on, and the state. `comparator`
is an order only among time stamps less than `2 ^ 31` apart; `qsort` may leave others in any
order. -/
def rateLimit (now : UInt32) (s : State) : Bool × State :=
  match getCfgValue "RATE_LIMIT".asciiBytes s.buf with
  | none => (true, s)
  | some value =>
    match readLimit value with
    | none => (false, s)
    | some (attempts, interval, endptr) =>
      match readTimestamps endptr with
      | none => (false, s)
      | some stamps =>
        let timestamps := (now :: stamps).mergeSort fun a b => decide (comparator a b ≤ 0)
        let (start, stop) := pruneTimestamps now (UInt32.ofInt interval) timestamps 0 0 (-1)
        let exceeded : Bool := decide (stop - start + 1 > attempts)
        let start := if exceeded then stop - attempts + 1 else start
        let list := (timestamps.take (stop + 1).toNat).drop start.toNat
        (!exceeded, s.set "RATE_LIMIT".asciiBytes (limitText attempts interval list))

/-! ## Scratch codes -/

/-- A line end or the end of the text. -/
def endsLine : List UInt8 → Bool
  | [] => true
  | c :: _ => isEol c

/-- The number at `ptr` is a scratch code: eight digits and nothing else on the line. -/
def isScratchCode (ptr : List UInt8) (number : Number) : Bool :=
  !number.erange && number.endptr ≠ ptr && endsLine number.endptr &&
    decide (10000000 ≤ number.value) && decide (number.value < 100000000)

/-- The loop of `check_scratch_codes`: the text from `ptr` on without the code and its line, or
`none` where the code is not one of the scratch codes. -/
def useScratchCode (code : Int) (ptr : List UInt8) : Option (List UInt8) :=
  let eols := ptr.takeWhile isEol
  match _h : ptr.dropWhile isEol with
  | [] => none
  | c :: s =>
    if c = 34 then
      (useScratchCode code (s.dropWhile (· ≠ 10))).map (eols ++ c :: s.takeWhile (· ≠ 10) ++ ·)
    else
      let number := strtoul (c :: s)
      if _hc : isScratchCode (c :: s) number then
        if number.value = code then some (eols ++ number.endptr.dropWhile isEol)
        else
          (useScratchCode code number.endptr).map
            (eols ++ (c :: s).take ((c :: s).length - number.endptr.length) ++ ·)
      else none
termination_by ptr.length
decreasing_by
  all_goals
    have hle : (c :: s).length ≤ ptr.length := _h ▸ (List.dropWhile_suffix _).length_le
  · have := (List.dropWhile_suffix (l := s) fun x => decide (x ≠ 10)).length_le
    simp only [List.length_cons] at hle
    omega
  · refine Nat.lt_of_lt_of_le (length_strtoul_lt ?_) hle
    rw [isScratchCode] at _hc
    simp only [Bool.and_eq_true, decide_eq_true_eq] at _hc
    exact _hc.1.1.1.2

/-- `check_scratch_codes` -/
def checkScratchCodes (s : State) (code : Int) : Verdict × State :=
  let first := s.buf.takeWhile (· ≠ 10)
  match useScratchCode code (s.buf.dropWhile (· ≠ 10)) with
  | none => (.next, s)
  | some rest => (.accepted (.scratch code), ⟨first ++ rest, true⟩)

/-! ## Time-based codes -/

/-- The white space `strspn(ptr, " \t\r\n")` passes. -/
def isWhite (c : UInt8) : Bool := isBlank c || isEol c

/-- The loop over the list of `DISALLOW_REUSE` from `ptr` on: the list without the time steps that
are out of the window, or `none` where it is invalid or has `tm`. -/
def pruneBlocked (tm window : Int) (ptr : List UInt8) : Option (List UInt8) :=
  let white := ptr.takeWhile isWhite
  match _h : ptr.dropWhile isWhite with
  | [] => some white
  | c :: s =>
    let blocked := strtoul (c :: s)
    if _hb : blocked.erange ∨ blocked.endptr = c :: s ∨ !endsNumber blocked.endptr then none
    else if tm = blocked.value then none
    else if blocked.value - tm ≥ window ∨ tm - blocked.value ≥ window then
      (pruneBlocked tm window (blocked.endptr.dropWhile isBlank)).map (white ++ ·)
    else
      (pruneBlocked tm window blocked.endptr).map
        (white ++ (c :: s).take ((c :: s).length - blocked.endptr.length) ++ ·)
termination_by ptr.length
decreasing_by
  all_goals
    have hle : (c :: s).length ≤ ptr.length := _h ▸ (List.dropWhile_suffix _).length_le
    have hlt := length_strtoul_lt fun he => _hb (.inr (.inl he))
  · exact Nat.lt_of_le_of_lt (List.dropWhile_suffix _).length_le (Nat.lt_of_lt_of_le hlt hle)
  · exact Nat.lt_of_lt_of_le hlt hle

/-- `invalidate_timebased_code` -/
def invalidateTimebasedCode (tm : Int) (s : State) : Verdict × State :=
  match getCfgValue "DISALLOW_REUSE".asciiBytes s.buf with
  | none => (.accepted (.step tm), s)
  | some disallow =>
    let window := windowSize s.buf
    if window = 0 then (.error, s)
    else
      match pruneBlocked tm window disallow with
      | none => (.error, s)
      | some disallow =>
        let disallow := if disallow = [] then printInt tm else disallow ++ 32 :: printInt tm
        (.accepted (.step tm), s.set "DISALLOW_REUSE".asciiBytes disallow)

/-- A time stamp and a skew of `RESETTING_TIME_SKEW`. -/
structure Skewed where
  tm : UInt32
  skew : Int
deriving DecidableEq

/-- The entries with one more; the arrays hold three. -/
def pushEntry (entries : List Skewed) (e : Skewed) : List Skewed :=
  (if entries.length = 3 then entries.drop 1 else entries) ++ [e]

/-- The loop that reads `RESETTING_TIME_SKEW`. -/
def readSkews (ptr : List UInt8) (entries : List Skewed) : List Skewed :=
  if endsLine ptr then entries
  else
    let i := strtoul ptr
    if _h : i.erange ∨ i.endptr = ptr then entries
    else
      match _hs : i.endptr with
      | [] => entries
      | sign :: digits =>
        if sign ≠ 43 ∧ sign ≠ 45 then entries
        else
          let j := strtoul digits
          if j.erange ∨ !endsNumber j.endptr then entries
          else
            let skew := if sign = 45 then -j.value else j.value
            readSkews j.endptr (pushEntry entries ⟨UInt32.ofInt i.value, skew⟩)
termination_by ptr.length
decreasing_by
  have h1 := length_strtoul_lt fun he => _h (.inr he)
  have h2 : (strtoul digits).endptr.length ≤ digits.length := by
    by_cases he : (strtoul digits).endptr = digits
    · rw [he]
    · exact Nat.le_of_lt (length_strtoul_lt he)
  rw [show (strtoul ptr).endptr = sign :: digits from _hs, List.length_cons] at h1
  omega

/-- The loop over the entries behind the first one: the sum of the skews, or `none` where it goes
on trying. -/
def steadySkew (skew : Int) (lastTm : UInt32) (lastSkew avgSkew : Int) : List Skewed → Option Int
  | [] => some avgSkew
  | e :: entries =>
    if e.tm ≤ lastTm ∨ e.tm > lastTm + 2 ∨ lastSkew - skew < -1 ∨ lastSkew - skew > 1 then none
    else steadySkew skew e.tm e.skew (avgSkew + e.skew) entries

/-- The text of `RESETTING_TIME_SKEW`. -/
def skewsText : List Skewed → List UInt8
  | [] => []
  | e :: entries =>
    printInt (toInt e.tm.toNat) ++ printSigned e.skew ++ entries.flatMap fun e =>
      32 :: printInt (toInt e.tm.toNat) ++ printSigned e.skew

/-- The entries of `RESETTING_TIME_SKEW`. -/
def skewEntries (buf : List UInt8) : List Skewed :=
  match getCfgValue "RESETTING_TIME_SKEW".asciiBytes buf with
  | none => []
  | some resetting => readSkews resetting []

/-- The sum of the skews of three entries in quick succession. -/
def establishedSkew (skew : Int) : List Skewed → Option Int
  | [first, second, third] => steadySkew skew first.tm first.skew first.skew [second, third]
  | _ => none

/-- `check_time_skew` -/
def checkTimeSkew (skew tm : Int) (s : State) : Verdict × State :=
  let entries := skewEntries s.buf
  if entries.getLast?.any fun e =>
    decide (UInt32.ofInt (tm + skew) = e.tm + UInt32.ofInt e.skew) then (.error, s)
  else
    let entries := pushEntry entries ⟨UInt32.ofInt tm, skew⟩
    match establishedSkew skew entries with
    | some avgSkew =>
      let s := s.set "TIME_SKEW".asciiBytes (printInt (avgSkew.tdiv 3))
      (.accepted .skew, s.set "RESETTING_TIME_SKEW".asciiBytes [])
    | none => (.error, s.set "RESETTING_TIME_SKEW".asciiBytes (skewsText entries))

/-- `i` for `i` from `-((window-1)/2)` to `window/2` -/
def windowOffsets (window : Int) : List Int :=
  (List.range (window / 2 + (window - 1) / 2 + 1).toNat).map fun (i : Nat) =>
    (i : Int) - (window - 1) / 2

/-- `get_timestamp` at the time `now` -/
def getTimestamp (now : Int) : Int := toInt (now.tdiv 30)

/-- The skew of the option `TIME_SKEW`, or 0. -/
def timeSkew (buf : List UInt8) : Int :=
  match getCfgValue "TIME_SKEW".asciiBytes buf with
  | none => 0
  | some skewStr => toInt (strtol skewStr)

/-- The first skew of at most 25 * 60 time steps for which the code is right. -/
def findSkew (compute : UInt64 → UInt32) (tm : Int) (code : UInt32) : Option Int :=
  (List.range (25 * 60)).findSome? fun (i : Nat) =>
    if compute (UInt64.ofInt (tm - i)) = code then some (-i)
    else if compute (UInt64.ofInt (tm + i)) = code then some i
    else none

/-- `check_timebased_code` at the time `now` -/
def checkTimebasedCode (compute : UInt64 → UInt32) (noskewadj : Bool) (now code : Int) (s : State) :
    Verdict × State :=
  if !isTotp s.buf then (.next, s)
  else if code < 0 ∨ code ≥ 1000000 then (.next, s)
  else
    let tm := getTimestamp now
    let skew := timeSkew s.buf
    let window := windowSize s.buf
    if window = 0 then (.error, s)
    else
      match (windowOffsets window).find? fun i =>
        decide (compute (UInt64.ofInt (tm + skew + i)) = UInt32.ofInt code) with
      | some i => invalidateTimebasedCode (tm + skew + i) s
      | none =>
        if !noskewadj then
          match findSkew compute tm (UInt32.ofInt code) with
          | some skew => checkTimeSkew skew tm s
          | none => (.next, s)
        else (.next, s)

/-! ## Counter-based codes -/

/-- `check_counterbased_code`: also `must_advance_counter`, unless it stays as it was. -/
def checkCounterbasedCode (compute : UInt64 → UInt32) (code hotpCounter : Int) (s : State) :
    Verdict × State × Option Bool :=
  if hotpCounter < 1 then (.next, s, none)
  else if code < 0 ∨ code ≥ 1000000 then (.next, s, none)
  else
    let window := windowSize s.buf
    if window = 0 then (.error, s, none)
    else
      match (List.range window.toNat).find? fun (i : Nat) =>
        decide (compute (UInt64.ofInt (hotpCounter + i)) = UInt32.ofInt code) with
      | some i =>
        (.accepted (.counter (hotpCounter + i)),
          s.set "HOTP_COUNTER".asciiBytes (printInt (hotpCounter + i + 1)), some false)
      | none => (.next, s, some true)

end Libpam
