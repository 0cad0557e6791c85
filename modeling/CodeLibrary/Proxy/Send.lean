import CodeLibrary.Lib.Loop

/-!
# Sending in `proxy.c`

`Send` calls `send()` until it takes the buffer to be sent, and `tcp_data_deal` passes on to one
socket what it received from the other. The results of `send()` are a parameter, `results k` that
of the call after `k` others. Each call is recorded with the bytes it was given, so that what the
peer gets can be told (`handed`).
-/

namespace Proxy

/-- A call of `send()`. -/
structure SendCall where
  data : List UInt8
  ret : Int
deriving DecidableEq, Repr

/-- The bytes a call took. -/
def SendCall.taken (c : SendCall) : List UInt8 := c.data.take c.ret.toNat

/-- The bytes the calls took, in the order in which they did. -/
def handed (calls : List SendCall) : List UInt8 := calls.flatMap (·.taken)

/-- `Send` at its loop head. -/
structure SendState where
  len : Int
  nsend : Int
  calls : List SendCall
deriving Repr

/-- One round of the loop of `Send`; it leaves with what `Send` returns and the calls made. -/
def sendStep (results : Nat → Int) (buf : List UInt8) (total : Int) (s : SendState) :
    SendState ⊕ Int × List SendCall :=
  if s.len > 0 then
    let ret := results s.calls.length
    let calls := s.calls ++ [⟨(buf.drop s.nsend.toNat).take (total - s.nsend).toNat, ret⟩]
    if ret < 0 then .inr (-1, calls)
    else
      let nsend := s.nsend + ret
      .inl { len := s.len - nsend, nsend := nsend, calls := calls }
  else .inr (s.nsend, s.calls)

/-- `Send` of the first `len` bytes of `buf` returns `r.1`, with the calls `r.2`. -/
def SendReturns (results : Nat → Int) (buf : List UInt8) (len : Int)
    (r : Int × List SendCall) : Prop :=
  Loop.Returns (sendStep results buf len) ⟨len, 0, []⟩ r

/-- What `tcp_data_deal` returns, from the results of `Recv` and `Send`. -/
def dealRet (recvsize sendsize : Int) : Int :=
  let ret := 0
  let ret := if recvsize ≤ 0 then -1 else ret
  if sendsize < 0 then -1 else ret

/-- `tcp_data_deal`, where `Recv` returned `recvsize` with the bytes it read in `dataBuf`, returns
`r.1`, with the calls `r.2` of `send()`. -/
def TcpDataDealReturns (results : Nat → Int) (dataBuf : List UInt8) (recvsize : Int)
    (r : Int × List SendCall) : Prop :=
  ∃ sendsize, SendReturns results dataBuf recvsize (sendsize, r.2) ∧
    r.1 = dealRet recvsize sendsize

end Proxy
