import CodeLibrary.Libpam.Base32
import CodeLibrary.Libpam.Checks

/-!
# One login, `google_authenticator`

What `google_authenticator` does between reading the state file and writing it: the rate limit, the
four modes in which it takes a code from a password, and the checks of the code. What the user, the
other PAM modules and the clock answer is an `Env`. `compute` stands for `compute_code`.
-/

set_option autoImplicit false

namespace Libpam

open CInt Scanf

/-- `params.pass_mode` -/
inductive PassMode where
  | prompt
  | tryFirstPass
  | useFirstPass
deriving DecidableEq, Repr

/-- `Params`, as far as a login reads it. -/
structure Params where
  passMode : PassMode
  forwardPass : Bool
  noskewadj : Bool
  noIncrementHotp : Bool
deriving DecidableEq, Repr

/-- What a login gets from outside. -/
structure Env where
  /-- `get_time()` in `rate_limit` -/
  limitTime : Int
  /-- `get_time()` in `check_timebased_code`, in each mode -/
  checkTime : Nat → Int
  /-- the password of the stacked modules, `get_first_pass` -/
  firstPass : Option (List UInt8)
  /-- the answer to the prompt in each mode, `request_pass` -/
  answer : Nat → Option (List UInt8)
  /-- whether `pam_set_item` takes the password -/
  setItem : Bool

/-- The variables of the loop over the modes. -/
structure Auth where
  /-- `rc == PAM_SUCCESS` -/
  rc : Bool
  /-- what the code was accepted as -/
  token : Option Token
  state : State
  pw : Option (List UInt8)
  savedPw : Option (List UInt8)
  mustAdvance : Bool
deriving DecidableEq

/-- The first bytes of a password and the code of `expected_len` digits at its end. -/
def splitPassword (expectedLen : Nat) (pw : List UInt8) : Option (List UInt8 × Int) :=
  let tail := pw.drop (pw.length - expectedLen)
  let lowest : UInt8 := if expectedLen = 8 then 49 else 48
  if pw.length < expectedLen ∨ !tail.head?.any (fun ch => lowest ≤ ch && ch ≤ 57) then none
  else
    match scanInt tail with
    | some (l, []) => some (pw.take (pw.length - expectedLen), toInt l)
    | _ => none

/-- `case 0` to `case 3`: the password of a mode, and the saved one. -/
def passwordOf (params : Params) (env : Env) (mode : Nat) (savedPw : Option (List UInt8)) :
    Option (List UInt8) × Option (List UInt8) :=
  if mode < 2 then
    (if params.passMode = .prompt then none else env.firstPass, savedPw)
  else if params.passMode = .useFirstPass then (none, savedPw)
  else
    let savedPw := savedPw.or (env.answer mode)
    (savedPw, savedPw)

/-- The check of a code that is no scratch code. -/
def checkCode (compute : UInt64 → UInt32) (params : Params) (now code hotpCounter : Int)
    (s : State) : Verdict × State × Option Bool :=
  if hotpCounter > 0 then checkCounterbasedCode compute code hotpCounter s
  else
    let (verdict, s) := checkTimebasedCode compute params.noskewadj now code s
    (verdict, s, none)

/-- One iteration of the loop over the modes: `continue`, or `break`. -/
def tryMode (compute : UInt64 → UInt32) (params : Params) (env : Env) (hotpCounter : Int)
    (mode : Nat) (a : Auth) : Auth ⊕ Auth :=
  if a.state.updated ∨ a.pw.isSome then .inr { a with rc := false, token := none, pw := none }
  else
    let (pw, savedPw) := passwordOf params env mode a.savedPw
    let a := { a with savedPw }
    match pw with
    | none => .inl a
    | some pw =>
      match splitPassword (if mode % 2 = 1 then 8 else 6) pw with
      | none => .inl a
      | some (pw, code) =>
        if mode ≥ 2 ∧ !params.forwardPass ∧ pw ≠ [] then .inl a
        else
          match checkScratchCodes a.state code with
          | (.accepted token, state) =>
            .inr { a with rc := true, token := some token, state, pw := some pw }
          | (.error, state) => .inr { a with state, pw := some pw }
          | (.next, state) =>
            let (verdict, state, advance) :=
              checkCode compute params (env.checkTime mode) code hotpCounter state
            let a := { a with state, mustAdvance := advance.getD a.mustAdvance }
            match verdict with
            | .accepted token => .inr { a with rc := true, token := some token, pw := some pw }
            | .next => .inl a
            | .error => .inr { a with pw := some pw }

/-- The loop over the modes. -/
def tryModes (compute : UInt64 → UInt32) (params : Params) (env : Env) (hotpCounter : Int) :
    List Nat → Auth → Auth
  | [], a => a
  | mode :: modes, a =>
    match tryMode compute params env hotpCounter mode a with
    | .inl a => tryModes compute params env hotpCounter modes a
    | .inr a => a

/-- What a login gives back: whether it succeeds, what the code was accepted as, and the state file
to write. -/
structure Outcome where
  rc : Bool
  token : Option Token
  write : Option (List UInt8)
deriving DecidableEq

/-- What follows the loop: the password is forwarded and the counter advanced. -/
def finishLogin (params : Params) (env : Env) (hotpCounter : Int) (a : Auth) : Bool × State :=
  let rc := a.rc && (!params.forwardPass || (a.pw.isSome && env.setItem))
  let state :=
    if !params.noIncrementHotp && a.mustAdvance then
      a.state.set "HOTP_COUNTER".asciiBytes (printInt (hotpCounter + 1))
    else a.state
  (rc, state)

/-- The checks of `open_secret_file` and `read_file_contents` on the contents of the file. -/
def readable (text : List UInt8) : Bool :=
  decide (1 ≤ text.length) && decide (text.length ≤ 64 * 1024) && !text.contains 0

/-- `get_shared_secret`: the base32 text up to the first `'\n'` is decoded in place. -/
def getSharedSecret (buf : List UInt8) : Option (List UInt8) :=
  let base32 := buf.takeWhile (· ≠ 10)
  let mem := fun i => base32.getD i 0
  match Loop.run (decodeStep 0 base32.length) (base32.length + 1) ⟨mem, 0, 0, 0, 0⟩ with
  | none => none
  | some (secretLen, mem) =>
    if secretLen < 1 then none else some ((List.range secretLen.toNat).map mem)

/-- **A login** with the state file `text`: `google_authenticator` up to `write_file_contents`. -/
def login (compute : List UInt8 → UInt64 → UInt32) (params : Params) (env : Env)
    (text : List UInt8) : Outcome :=
  if !readable text then ⟨false, none, none⟩
  else
    match getSharedSecret text with
    | none => ⟨false, none, none⟩
    | some secret =>
      let (go, limited) := rateLimit (UInt32.ofInt env.limitTime) ⟨text, false⟩
      if !go then ⟨false, none, if limited.updated then some limited.buf else none⟩
      else
        let hotpCounter := getHotpCounter limited.buf
        let a := tryModes (compute secret) params env hotpCounter [0, 1, 2, 3]
          ⟨false, none, ⟨limited.buf, false⟩, none, none, false⟩
        let (rc, state) := finishLogin params env hotpCounter a
        ⟨rc, if rc then a.token else none,
          if limited.updated || state.updated then some state.buf else none⟩

end Libpam
