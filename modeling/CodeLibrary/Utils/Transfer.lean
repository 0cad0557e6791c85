/-!
# The transfer loops of `utils.c`

`readn_block`, `writen_block`, `readn_nonblock` and `writen_nonblock` call `read()` or `write()`
for what is left of `n` bytes until nothing is. The four loops are one, `transfer`, with two
parameters: `move` is what the system call does to the memory and the peer when it transfers some
bytes at `ptr`, and `count` what the loop takes off `nleft` for a result, or `none` where it breaks.

The results of the system calls are a list, all of which a run makes use of: `none` where it would
return before the last of them, or would make one more call. `size_t` and `ssize_t` are natural
numbers and integers: no buffer has a size where they differ from these.
-/

namespace Utils

/-- The result of a system call, and `errno` after it. -/
structure SysResult where
  ret : Int
  errno : Nat
deriving DecidableEq, Repr

def EINTR : Nat := 4

def EAGAIN : Nat := 11

def EWOULDBLOCK : Nat := EAGAIN

/-- The loop from its head, returning `nleft` at its end. -/
def transfer {σ : Type} (count : SysResult → Option Nat) (move : Nat → Nat → σ → σ) :
    List SysResult → Nat → Nat → σ → Option (Nat × σ)
  | [], 0, _, s => some (0, s)
  | [], _ + 1, _, _ => none
  | _ :: _, 0, _, _ => none
  | r :: results, nleft + 1, ptr, s =>
    let s := move ptr r.ret.toNat s
    match count r with
    | none => if results = [] then some (nleft + 1, s) else none
    | some done => transfer count move results (nleft + 1 - done) (ptr + done) s

/-- `nread` in `readn_block`, `nwritten` in `writen_block`: they break at 0 and at -1. -/
def countBlock (r : SysResult) : Option Nat :=
  if r.ret ≤ 0 then none else some r.ret.toNat

/-- `nread` in `readn_nonblock`, `nwritten` in `writen_nonblock`: they go on with 0 where `errno`
tells to try again. -/
def countNonblock (r : SysResult) : Option Nat :=
  if r.ret ≤ 0 then
    if r.errno = EINTR ∨ r.errno = EWOULDBLOCK ∨ r.errno = EAGAIN then some 0 else none
  else some r.ret.toNat

/-! ## Reading -/

/-- `k` bytes of the stream from `pos` on. -/
def bytesFrom (stream : Nat → UInt8) (pos k : Nat) : List UInt8 :=
  (List.range k).map fun i => stream (pos + i)

/-- The buffer at `vptr`, and how much of the stream was read. -/
structure Reader where
  buf : List UInt8
  pos : Nat
deriving DecidableEq, Repr

/-- `read()` of `k` bytes to `ptr`. -/
def readAt (stream : Nat → UInt8) (ptr k : Nat) (s : Reader) : Reader where
  buf := s.buf.take ptr ++ bytesFrom stream s.pos k ++ s.buf.drop (ptr + k)
  pos := s.pos + k

/-- A read loop: the number it returns, and the buffer and the stream after it. -/
def readn (count : SysResult → Option Nat) (stream : Nat → UInt8) (results : List SysResult)
    (vptr : List UInt8) (n : Nat) : Option (Nat × Reader) :=
  (transfer count (readAt stream) results n 0 ⟨vptr, 0⟩).map fun (nleft, s) => (n - nleft, s)

/-- `readn_block` -/
def readnBlock := readn countBlock

/-- `readn_nonblock` -/
def readnNonblock := readn countNonblock

/-! ## Writing -/

/-- `write()` of `k` bytes from `ptr`, to a peer that got `out` so far. -/
def writeAt (buf : List UInt8) (ptr k : Nat) (out : List UInt8) : List UInt8 :=
  out ++ (buf.drop ptr).take k

/-- A write loop: the number it returns, and what the peer got. -/
def writen (count : SysResult → Option Nat) (results : List SysResult) (vptr : List UInt8)
    (n : Nat) : Option (Nat × List UInt8) :=
  (transfer count (writeAt vptr) results n 0 []).map fun (nleft, out) => (n - nleft, out)

/-- `writen_block` -/
def writenBlock := writen countBlock

/-- `writen_nonblock` -/
def writenNonblock := writen countNonblock

end Utils
