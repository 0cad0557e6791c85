import CodeLibrary.Utils.Transfer

/-!
# The transfer loops lose no byte

* `transfer_spec`: what a system call keeps when it moves the pointer on, the loop keeps.
* `transfers_ok`: the four functions return the number of bytes they transferred, which is short
  only after a call that returned 0 or failed.
-/

namespace Utils

/-- No result is above the amount requested. -/
def Sized : List SysResult → Nat → Prop
  | [], _ => True
  | r :: results, nleft => r.ret ≤ nleft ∧ Sized results (nleft - r.ret.toNat)

/-- The number of bytes that the calls transferred. -/
def moved : List SysResult → Nat
  | [] => 0
  | r :: results => r.ret.toNat + moved results

/-- The last call returned 0 or failed. -/
def LastFails (results : List SysResult) : Prop := ∃ r, results.getLast? = some r ∧ r.ret ≤ 0

/-- What a read of `n` bytes comes to: the calls read the first `k` bytes of the stream, and they
are the first `k` bytes of the buffer. -/
structure ReadOk (stream : Nat → UInt8) (results : List SysResult) (vptr : List UInt8) (n k : Nat)
    (s : Reader) : Prop where
  le : k ≤ n
  sum : k = moved results
  buf : s.buf = bytesFrom stream 0 k ++ vptr.drop k
  pos : s.pos = k
  all : k = n ∨ LastFails results

/-- What a write of `n` bytes comes to: the calls wrote the first `k` bytes of the buffer, and the
peer got them. -/
structure WriteOk (results : List SysResult) (vptr : List UInt8) (n k : Nat)
    (out : List UInt8) : Prop where
  le : k ≤ n
  sum : k = moved results
  out : out = vptr.take k
  all : k = n ∨ LastFails results

/-- The loop goes on with the number of bytes the system call transferred, and breaks only where
it transferred none. -/
def Counts (count : SysResult → Option Nat) : Prop :=
  ∀ r, match count r with
    | none => r.ret ≤ 0
    | some done => done = r.ret.toNat

theorem counts_block : Counts countBlock := by
  intro r
  unfold countBlock
  split
  · rename_i h
    split at h
    · assumption
    · cases h
  · rename_i h
    split at h
    · cases h
    · cases h
      rfl

theorem counts_nonblock : Counts countNonblock := by
  intro r
  unfold countNonblock
  by_cases hr : r.ret ≤ 0
  · rw [if_pos hr]
    have h0 : r.ret.toNat = 0 := by omega
    split
    · rename_i h
      exact hr
    · rename_i h
      split at h
      · cases h
        exact h0.symm
      · cases h
  · rw [if_neg hr]

/-! ## The loop -/

theorem LastFails.cons {results : List SysResult} (h : LastFails results) (r : SysResult) :
    LastFails (r :: results) := by
  obtain ⟨q, hq, hle⟩ := h
  refine ⟨q, ?_, hle⟩
  rw [List.getLast?_cons, hq]
  rfl

/-- What the system calls keep as they move `ptr` on, up to `n`, holds where the loop ends, with
what they transferred taken off `nleft`; and it ends early only after a call that transferred
nothing. -/
theorem transfer_spec {σ : Type} {count : SysResult → Option Nat} {move : Nat → Nat → σ → σ}
    (hcount : Counts count) {n : Nat} {P : Nat → σ → Prop}
    (hmove : ∀ ptr k s, ptr + k ≤ n → P ptr s → P (ptr + k) (move ptr k s)) :
    ∀ (results : List SysResult) {nleft ptr : Nat} {s : σ} {nleft' : Nat} {s' : σ},
      ptr + nleft = n → P ptr s → Sized results nleft →
      transfer count move results nleft ptr s = some (nleft', s') →
      nleft' + moved results = nleft ∧ P (n - nleft') s' ∧ (nleft' = 0 ∨ LastFails results)
  | [], 0, ptr, s, nleft', s', hn, hP, _, h => by
    cases h
    refine ⟨rfl, ?_, .inl rfl⟩
    rwa [← hn]
  | [], _ + 1, _, _, _, _, _, _, _, h => nomatch h
  | _ :: _, 0, _, _, _, _, _, _, _, h => nomatch h
  | r :: results, nleft + 1, ptr, s, nleft', s', hn, hP, hsize, h => by
    obtain ⟨hr, hsize⟩ := hsize
    have hk : r.ret.toNat ≤ nleft + 1 := by omega
    have hP' := hmove ptr r.ret.toNat s (by omega) hP
    have hc := hcount r
    rw [transfer] at h
    cases hd : count r with
    | none =>
      rw [hd] at h hc
      dsimp only at h hc
      split at h
      · rename_i hnil
        cases h
        have h0 : r.ret.toNat = 0 := by omega
        rw [h0] at hP'
        refine ⟨?_, ?_, .inr ⟨r, by rw [hnil]; rfl, hc⟩⟩
        · rw [hnil, moved, moved, h0]
        · rw [h0, show n - (nleft + 1) = ptr + 0 by omega]
          exact hP'
      · cases h
    | some done =>
      rw [hd] at h hc
      dsimp only at h hc
      subst hc
      obtain ⟨h1, h2, h3⟩ := transfer_spec hcount hmove results (by omega) hP' hsize h
      refine ⟨?_, h2, h3.imp_right fun hl => hl.cons r⟩
      rw [moved]
      omega

/-! ## Reading -/

theorem length_bytesFrom (stream : Nat → UInt8) (pos k : Nat) :
    (bytesFrom stream pos k).length = k := by
  simp [bytesFrom]

theorem bytesFrom_add (stream : Nat → UInt8) (i j : Nat) :
    bytesFrom stream 0 (i + j) = bytesFrom stream 0 i ++ bytesFrom stream i j := by
  simp [bytesFrom, List.range_add, Function.comp_def]

/-- The first `ptr` bytes are read. -/
structure ReadTo (stream : Nat → UInt8) (vptr : List UInt8) (ptr : Nat) (s : Reader) : Prop where
  buf : s.buf = bytesFrom stream 0 ptr ++ vptr.drop ptr
  pos : s.pos = ptr

theorem readAt_spec {stream : Nat → UInt8} {vptr : List UInt8} (ptr k : Nat) (s : Reader)
    (h : ReadTo stream vptr ptr s) : ReadTo stream vptr (ptr + k) (readAt stream ptr k s) := by
  obtain ⟨hbuf, hpos⟩ := h
  have hlen := length_bytesFrom stream 0 ptr
  have htake : s.buf.take ptr = bytesFrom stream 0 ptr := by
    rw [hbuf, List.take_left' hlen]
  have hdrop : s.buf.drop (ptr + k) = vptr.drop (ptr + k) := by
    rw [← List.drop_drop, hbuf, List.drop_left' hlen, List.drop_drop]
  refine ⟨?_, by rw [readAt, hpos]⟩
  show s.buf.take ptr ++ bytesFrom stream s.pos k ++ s.buf.drop (ptr + k) = _
  rw [htake, hdrop, hpos, bytesFrom_add]

theorem readn_spec {count : SysResult → Option Nat} (hcount : Counts count)
    {stream : Nat → UInt8} {results : List SysResult} {vptr : List UInt8} {n k : Nat} {s : Reader}
    (hres : Sized results n) (h : readn count stream results vptr n = some (k, s)) :
    ReadOk stream results vptr n k s := by
  obtain ⟨⟨nleft, s'⟩, ht, he⟩ := Option.map_eq_some_iff.1 h
  cases he
  obtain ⟨hle, hto, hall⟩ := transfer_spec hcount (fun ptr k s _ => readAt_spec ptr k s) results
    (Nat.zero_add n) (P := ReadTo stream vptr) ⟨rfl, rfl⟩ hres ht
  exact ⟨Nat.sub_le _ _, by omega, hto.buf, hto.pos, hall.imp_left fun h0 => by rw [h0]; rfl⟩

/-! ## Writing -/

theorem writen_spec {count : SysResult → Option Nat} (hcount : Counts count)
    {results : List SysResult} {vptr : List UInt8} {n k : Nat} {out : List UInt8}
    (hres : Sized results n) (h : writen count results vptr n = some (k, out)) :
    WriteOk results vptr n k out := by
  obtain ⟨⟨nleft, out'⟩, ht, he⟩ := Option.map_eq_some_iff.1 h
  cases he
  have hmove : ∀ ptr k out, ptr + k ≤ n → out = vptr.take ptr →
      writeAt vptr ptr k out = vptr.take (ptr + k) := by
    intro ptr k out _ ho
    rw [writeAt, ho, List.take_add]
  obtain ⟨hle, hout, hall⟩ := transfer_spec hcount hmove results (Nat.zero_add n)
    (P := fun ptr out => out = vptr.take ptr) rfl hres ht
  exact ⟨Nat.sub_le _ _, by omega, hout, hall.imp_left fun h0 => by rw [h0]; rfl⟩

/-- **No byte is lost or read twice**: on every list of results of the system calls on which one of
the four functions returns, it returns the number of bytes its calls transferred, and these are at
their place in the buffer or with the peer, in order; they are fewer than `n` only after a call that
returned 0 or failed. -/
theorem transfers_ok (stream : Nat → UInt8) (results : List SysResult) (vptr : List UInt8)
    (n : Nat) (hres : Sized results n) :
    (∀ k s, readnBlock stream results vptr n = some (k, s) → ReadOk stream results vptr n k s) ∧
      (∀ k s, readnNonblock stream results vptr n = some (k, s) →
        ReadOk stream results vptr n k s) ∧
      (∀ k out, writenBlock results vptr n = some (k, out) → WriteOk results vptr n k out) ∧
      ∀ k out, writenNonblock results vptr n = some (k, out) → WriteOk results vptr n k out :=
  ⟨fun _ _ h => readn_spec counts_block hres h, fun _ _ h => readn_spec counts_nonblock hres h,
    fun _ _ h => writen_spec counts_block hres h, fun _ _ h => writen_spec counts_nonblock hres h⟩

/-- Two short transfers of four bytes, with an interrupted call between them. -/
def interrupted : List SysResult := [⟨3, 0⟩, ⟨-1, EINTR⟩, ⟨1, EINTR⟩]

/-- The non-blocking loops return on it, the blocking ones on its first two results. -/
theorem transfers_ok_interrupted :
    (∃ s, readnNonblock UInt8.ofNat interrupted [9, 9, 9, 9] 4 = some (4, s) ∧
      ReadOk UInt8.ofNat interrupted [9, 9, 9, 9] 4 4 s) ∧
    ∃ out, writenBlock (interrupted.take 2) [5, 6, 7, 8] 4 = some (3, out) ∧
      WriteOk (interrupted.take 2) [5, 6, 7, 8] 4 3 out :=
  ⟨⟨_, rfl, (transfers_ok UInt8.ofNat interrupted [9, 9, 9, 9] 4
      ⟨by decide, by decide, by decide, trivial⟩).2.1 _ _ rfl⟩,
    _, rfl, (transfers_ok UInt8.ofNat (interrupted.take 2) [5, 6, 7, 8] 4
      ⟨by decide, by decide, trivial⟩).2.2.1 _ _ rfl⟩

end Utils
