import CodeLibrary.Utils.Transfer

/-!
# The end of the stream in `readn_nonblock`

`read()` returns 0 at the end of the stream and leaves `errno` alone, but `readn_nonblock` asks
`errno` whether to try again. A run is an infinite sequence of results, of which the function takes
as many as it makes calls.

* `nleftAfter`: the loop head after some calls; `transfer_append` splits a run there.
* `errnoAt_retryable`: at a call the function makes, `errno` is retryable if it was so on entry or
  if a call before it failed.
* `readnNonblock_eof_iff`: the function returns at the 0 just where `errno` is not retryable then.
-/

namespace Utils

/-- The values of `errno` with which the non-blocking loops go on. -/
def Retryable (errno : Nat) : Prop := errno = EINTR ∨ errno = EWOULDBLOCK ∨ errno = EAGAIN

instance (errno : Nat) : Decidable (Retryable errno) := by
  unfold Retryable
  infer_instance

/-- `errno` when call `i` of a run is made, from its value on entry. -/
def errnoAt (errno : Nat) (results : Nat → SysResult) : Nat → Nat
  | 0 => errno
  | i + 1 => (results i).errno

/-- `errno` is modified only by calls that return -1. -/
def ErrnoKept (errno : Nat) (results : Nat → SysResult) : Prop :=
  ∀ i, (results i).ret ≠ -1 → (results i).errno = errnoAt errno results i

/-- The first `k` results of a run. -/
def firstCalls (results : Nat → SysResult) (k : Nat) : List SysResult :=
  (List.range k).map results

/-- `nleft` at the loop head after these calls; `none` where the loop does not make them all. -/
def nleftAfter (count : SysResult → Option Nat) : List SysResult → Nat → Option Nat
  | [], nleft => some nleft
  | _ :: _, 0 => none
  | r :: results, nleft + 1 =>
    match count r with
    | none => none
    | some done => nleftAfter count results (nleft + 1 - done)

/-- The function makes call `i` of a run. -/
def MakesCall (count : SysResult → Option Nat) (results : Nat → SysResult) (n i : Nat) : Prop :=
  ∃ nleft, nleftAfter count (firstCalls results i) n = some (nleft + 1)

/-! ## The loop head after some calls -/

theorem firstCalls_succ (results : Nat → SysResult) (k : Nat) :
    firstCalls results (k + 1) = firstCalls results k ++ [results k] := by
  simp [firstCalls, List.range_succ]

theorem firstCalls_add (results : Nat → SysResult) (i k : Nat) :
    firstCalls results (i + k) =
      firstCalls results i ++ (List.range k).map fun j => results (i + j) := by
  simp [firstCalls, List.range_add, Function.comp_def]

theorem nleftAfter_append (count : SysResult → Option Nat) (post : List SysResult) :
    ∀ (pre : List SysResult) (nleft : Nat),
      nleftAfter count (pre ++ post) nleft =
        (nleftAfter count pre nleft).bind (nleftAfter count post)
  | [], _ => rfl
  | _ :: _, 0 => rfl
  | r :: pre, nleft + 1 => by
    rw [List.cons_append, nleftAfter, nleftAfter]
    cases count r with
    | none => rfl
    | some done => exact nleftAfter_append count post pre _

/-- A function that makes a call also made those before it. -/
theorem MakesCall.of_le {count : SysResult → Option Nat} {results : Nat → SysResult} {n i k : Nat}
    (h : MakesCall count results n i) (hk : k ≤ i) : MakesCall count results n k := by
  obtain ⟨nleft, h⟩ := h
  obtain ⟨d, rfl⟩ : ∃ d, i = k + d := ⟨i - k, by omega⟩
  rw [firstCalls_add, nleftAfter_append] at h
  obtain ⟨left, hleft, h⟩ := Option.bind_eq_some_iff.1 h
  cases left with
  | zero =>
    cases hl : (List.range d).map fun j => results (k + j) with
    | nil => rw [hl] at h; cases h
    | cons r rs => rw [hl] at h; cases h
  | succ left => exact ⟨left, hleft⟩

/-- The calls that come after those that bring the loop to `nleft'`. -/
theorem transfer_append {σ : Type} {count : SysResult → Option Nat} (move : Nat → Nat → σ → σ)
    (post : List SysResult) :
    ∀ {pre : List SysResult} {nleft nleft' : Nat} (ptr : Nat) (s : σ),
      nleftAfter count pre nleft = some nleft' →
      ∃ ptr' s', transfer count move (pre ++ post) nleft ptr s =
        transfer count move post nleft' ptr' s'
  | [], nleft, nleft', ptr, s, h => by
    cases h
    exact ⟨ptr, s, rfl⟩
  | r :: pre, 0, _, _, _, h => by cases h
  | r :: pre, nleft + 1, nleft', ptr, s, h => by
    rw [nleftAfter] at h
    rw [List.cons_append, transfer]
    cases hc : count r with
    | none => simp [hc] at h
    | some done =>
      simp only [hc] at h
      exact transfer_append move post _ _ h

/-- The loop does not return before a call that it makes. -/
theorem MakesCall.not_returns {σ : Type} {count : SysResult → Option Nat}
    {results : Nat → SysResult} {n i : Nat} (h : MakesCall count results n i)
    (move : Nat → Nat → σ → σ) (ptr : Nat) (s : σ) :
    transfer count move (firstCalls results i) n ptr s = none := by
  obtain ⟨nleft, h⟩ := h
  obtain ⟨ptr', s', ht⟩ := transfer_append move [] ptr s h
  rw [List.append_nil] at ht
  rw [ht, transfer]

/-! ## `errno` -/

theorem countNonblock_some {r : SysResult} {done : Nat} (h : countNonblock r = some done)
    (hr : r.ret ≤ 0) : Retryable r.errno := by
  rw [countNonblock, if_pos hr] at h
  by_cases hd : r.errno = EINTR ∨ r.errno = EWOULDBLOCK ∨ r.errno = EAGAIN
  · exact hd
  · rw [if_neg hd] at h
    cases h

theorem countNonblock_of_not_pos {r : SysResult} (hr : r.ret ≤ 0) :
    countNonblock r = if Retryable r.errno then some 0 else none := by
  rw [countNonblock, if_pos hr]
  rfl

theorem MakesCall.count {count : SysResult → Option Nat} {results : Nat → SysResult} {n i : Nat}
    (h : MakesCall count results n (i + 1)) : ∃ done, count (results i) = some done := by
  obtain ⟨nleft, hleft⟩ := h
  rw [firstCalls_succ, nleftAfter_append] at hleft
  obtain ⟨left, -, hleft⟩ := Option.bind_eq_some_iff.1 hleft
  cases left with
  | zero => cases hleft
  | succ left =>
    rw [nleftAfter] at hleft
    cases hc : count (results i) with
    | none => simp [hc] at hleft
    | some done => exact ⟨done, rfl⟩

/-- At a call the function makes, `errno` is retryable if it was so on entry, or if a call before it
failed: one that fails with another `errno` ends the loop. -/
theorem errnoAt_retryable {results : Nat → SysResult} {n errno : Nat}
    (hkept : ErrnoKept errno results) :
    ∀ {i : Nat}, MakesCall countNonblock results n i →
      (Retryable (errnoAt errno results i) ↔ Retryable errno ∨ ∃ j < i, (results j).ret = -1)
  | 0, _ => by simp [errnoAt]
  | i + 1, h => by
    have ih := errnoAt_retryable hkept (h.of_le (Nat.le_succ i))
    obtain ⟨done, hc⟩ := h.count
    rw [errnoAt]
    by_cases hr : (results i).ret = -1
    · have hre : Retryable (results i).errno := countNonblock_some hc (by omega)
      exact iff_of_true hre (.inr ⟨i, Nat.lt_succ_self i, hr⟩)
    · rw [hkept i hr, ih]
      refine or_congr_right ⟨fun hx => ?_, fun hx => ?_⟩
      · obtain ⟨j, hj, hjr⟩ := hx
        exact ⟨j, by omega, hjr⟩
      · obtain ⟨j, hj, hjr⟩ := hx
        have hji : j ≠ i := fun he => hr (he ▸ hjr)
        exact ⟨j, by omega, hjr⟩

/-- Calls that return 0 leave `errno` as it is. -/
theorem errnoAt_zeros {results : Nat → SysResult} {errno i : Nat} (hkept : ErrnoKept errno results)
    (hend : ∀ j, i ≤ j → (results j).ret = 0) :
    ∀ d, errnoAt errno results (i + d) = errnoAt errno results i
  | 0 => rfl
  | d + 1 => by
    have h0 := hend (i + d) (by omega)
    rw [← Nat.add_assoc, errnoAt, hkept (i + d) (by omega), errnoAt_zeros hkept hend d]

/-! ## Where `read()` returns 0 -/

/-- The loop at a result of 0: with `errno` retryable it goes round with nothing changed, else it
returns. -/
theorem transfer_zero {σ : Type} (move : Nat → Nat → σ → σ) {r : SysResult} (hr : r.ret = 0)
    (results : List SysResult) (nleft ptr : Nat) (s : σ) :
    transfer countNonblock move (r :: results) (nleft + 1) ptr s =
      if Retryable r.errno then transfer countNonblock move results (nleft + 1) ptr (move ptr 0 s)
      else if results = [] then some (nleft + 1, move ptr 0 s) else none := by
  rw [transfer, countNonblock_of_not_pos (by omega), hr]
  by_cases hre : Retryable r.errno
  · simp [hre]
  · simp [hre]

/-- The loop never leaves a stream that is at its end while `errno` is retryable. -/
theorem transfer_zeros {σ : Type} (move : Nat → Nat → σ → σ) {nleft : Nat} :
    ∀ {results : List SysResult} (ptr : Nat) (s : σ),
      (∀ r ∈ results, r.ret = 0 ∧ Retryable r.errno) →
      transfer countNonblock move results (nleft + 1) ptr s = none
  | [], _, _, _ => rfl
  | r :: results, ptr, s, hz => by
    obtain ⟨h0, hre⟩ := hz r List.mem_cons_self
    rw [transfer_zero move h0, if_pos hre]
    apply transfer_zeros move
    intro q hq
    exact hz q (List.mem_cons_of_mem _ hq)

/-- The function returns at a call that returns 0 if `errno` is not retryable. -/
theorem readnNonblock_zero (stream : Nat → UInt8) (vptr : List UInt8) {n errno i : Nat}
    {results : Nat → SysResult} (hkept : ErrnoKept errno results)
    (hcall : MakesCall countNonblock results n i) (h0 : (results i).ret = 0) :
    (readnNonblock stream (firstCalls results (i + 1)) vptr n).isSome ↔
      ¬Retryable (errnoAt errno results i) := by
  obtain ⟨nleft, hleft⟩ := hcall
  obtain ⟨ptr, s, ht⟩ := transfer_append (readAt stream) [results i] 0 ⟨vptr, 0⟩ hleft
  rw [readnNonblock, readn, firstCalls_succ, ht, transfer_zero _ h0, hkept i (by omega)]
  split
  · simp [transfer, *]
  · simp [*]

/-- It never returns if `errno` is retryable and the calls go on to return 0. -/
theorem readnNonblock_zeros (stream : Nat → UInt8) (vptr : List UInt8) {n errno i : Nat}
    {results : Nat → SysResult} (hkept : ErrnoKept errno results)
    (hcall : MakesCall countNonblock results n i) (hend : ∀ j, i ≤ j → (results j).ret = 0)
    (hre : Retryable (errnoAt errno results i)) (k : Nat) :
    readnNonblock stream (firstCalls results k) vptr n = none := by
  rw [readnNonblock, readn, Option.map_eq_none_iff]
  by_cases hki : k ≤ i
  · exact (hcall.of_le hki).not_returns _ _ _
  · obtain ⟨nleft, hleft⟩ := hcall
    obtain ⟨d, rfl⟩ : ∃ d, k = i + d := ⟨k - i, by omega⟩
    obtain ⟨ptr, s, ht⟩ := transfer_append (readAt stream)
      ((List.range d).map fun j => results (i + j)) 0 ⟨vptr, 0⟩ hleft
    rw [firstCalls_add, ht]
    apply transfer_zeros
    intro r hr
    obtain ⟨j, -, rfl⟩ := List.mem_map.1 hr
    have h0 := hend (i + j) (by omega)
    rw [hkept (i + j) (by omega), errnoAt_zeros hkept hend]
    exact ⟨h0, hre⟩

/-- **The end of the stream**: where a call returns 0, `readn_nonblock` returns just where `errno`
was not retryable on entry and no call before it failed; and where the calls go on to return 0, it
returns at all just there. -/
theorem readnNonblock_eof_iff (stream : Nat → UInt8) (vptr : List UInt8) (n errno : Nat)
    (results : Nat → SysResult) (hkept : ErrnoKept errno results) (i : Nat)
    (hcall : MakesCall countNonblock results n i) (h0 : (results i).ret = 0) :
    ((readnNonblock stream (firstCalls results (i + 1)) vptr n).isSome ↔
      ¬Retryable errno ∧ ∀ j < i, (results j).ret ≠ -1) ∧
    ((∀ j, i ≤ j → (results j).ret = 0) →
      ((∃ k, (readnNonblock stream (firstCalls results k) vptr n).isSome) ↔
        ¬Retryable errno ∧ ∀ j < i, (results j).ret ≠ -1)) := by
  have hstop := readnNonblock_zero stream vptr hkept hcall h0
  have hcond : ¬Retryable (errnoAt errno results i) ↔
      ¬Retryable errno ∧ ∀ j < i, (results j).ret ≠ -1 := by
    rw [errnoAt_retryable hkept hcall, not_or]
    simp
  refine ⟨hstop.trans hcond, fun hend => ⟨fun hk => ?_, fun h => ⟨i + 1, hstop.2 (hcond.2 h)⟩⟩⟩
  obtain ⟨k, hk⟩ := hk
  rw [← hcond]
  intro hre
  rw [readnNonblock_zeros stream vptr hkept hcall hend hre k] at hk
  cases hk

/-- Three bytes come, and then the peer closes the connection. -/
def closing (k : Nat) : SysResult := if k = 0 then ⟨3, 0⟩ else ⟨0, 0⟩

theorem closing_kept : ErrnoKept 0 closing := by
  intro i _
  cases i with
  | zero => rfl
  | succ i => cases i <;> rfl

theorem readnNonblock_eof_closing : ErrnoKept 0 closing ∧
    (readnNonblock UInt8.ofNat (firstCalls closing 2) [9, 9, 9, 9] 4).isSome :=
  ⟨closing_kept, (readnNonblock_eof_iff UInt8.ofNat [9, 9, 9, 9] 4 0 closing closing_kept 1
    ⟨0, by decide⟩ (by decide)).1.2 ⟨by decide, by decide⟩⟩

/-- The same, with a call between them that a signal interrupts. -/
def interruptedClosing (k : Nat) : SysResult :=
  if k = 0 then ⟨3, 0⟩ else if k = 1 then ⟨-1, EINTR⟩ else ⟨0, EINTR⟩

theorem interruptedClosing_kept : ErrnoKept 0 interruptedClosing := by
  intro i hi
  cases i with
  | zero => rfl
  | succ i =>
    cases i with
    | zero => exact absurd rfl hi
    | succ i => cases i <;> rfl

/-- After the interrupted call the function does not return at the 0, and never does. -/
theorem readnNonblock_eof_not_returned :
    ErrnoKept 0 interruptedClosing ∧ MakesCall countNonblock interruptedClosing 4 2 ∧
      (∀ j, 2 ≤ j → (interruptedClosing j).ret = 0) ∧
      ∀ k, readnNonblock UInt8.ofNat (firstCalls interruptedClosing k) [9, 9, 9, 9] 4 = none := by
  have hcall : MakesCall countNonblock interruptedClosing 4 2 := ⟨0, by decide⟩
  have hend : ∀ j, 2 ≤ j → (interruptedClosing j).ret = 0 := by
    intro j hj
    rw [interruptedClosing, if_neg (by omega), if_neg (by omega)]
  refine ⟨interruptedClosing_kept, hcall, hend, ?_⟩
  exact readnNonblock_zeros _ _ interruptedClosing_kept hcall hend (.inl rfl)

end Utils
