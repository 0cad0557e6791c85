import CodeLibrary.Proxy.Send

/-!
# What `Send` hands to `send()`

`Send` takes the amount sent so far, not the last result, off `len`: after `k` calls `len` has
gone down by `spent results k`, the sum of the amounts sent by then, and the loop ends as soon as
that reaches `len`.

* `sendReturns`: how `Send` ends.
* `relays_iff`: it relays the buffer just when that sum stays below `len` until the buffer is sent.
-/

namespace Proxy

/-- The number of bytes the first `k` calls took. -/
def sent (results : Nat → Int) : Nat → Int
  | 0 => 0
  | k + 1 => sent results k + results k

/-- What the first `k` rounds take off `len`. -/
def spent (results : Nat → Int) : Nat → Int
  | 0 => 0
  | k + 1 => spent results k + sent results (k + 1)

/-- Each result, up to a negative one, is between 1 and the number of bytes offered, as long as
there are bytes to offer. -/
def WellSized (results : Nat → Int) (len : Int) : Prop :=
  ∀ k, (∀ i < k, 0 < results i) → sent results k < len →
    results k < 0 ∨ 0 < results k ∧ sent results k + results k ≤ len

/-- As long as the first calls have not sent all, the sum of the amounts sent by each of them is
below `len`. -/
def Paced (results : Nat → Int) (len : Int) : Prop :=
  ∀ k, (∀ i < k, 0 < results i) → sent results k < len → spent results k < len

/-- What `Send` and `tcp_data_deal` are for. -/
structure Relays (results : Nat → Int) (buf : List UInt8) (len : Int) : Prop where
  send : (∀ k, sent results k < len → 0 < results k) →
    ∃ calls, SendReturns results buf len (len, calls) ∧ handed calls = buf.take len.toNat
  error : ∀ calls, SendReturns results buf len (-1, calls) → ∃ c ∈ calls, c.ret < 0
  deal : ∀ calls, TcpDataDealReturns results buf len (0, calls) →
    handed calls = buf.take len.toNat

variable {results : Nat → Int} {buf : List UInt8} {len : Int}

/-! ## The run of `Send` -/

/-- The first `k` calls. -/
def callsOf (results : Nat → Int) (buf : List UInt8) (len : Int) (k : Nat) : List SendCall :=
  (List.range k).map fun i =>
    ⟨(buf.drop (sent results i).toNat).take (len - sent results i).toNat, results i⟩

theorem callsOf_succ (k : Nat) : callsOf results buf len (k + 1) = callsOf results buf len k ++
    [⟨(buf.drop (sent results k).toNat).take (len - sent results k).toNat, results k⟩] := by
  simp [callsOf, List.range_succ]

theorem length_callsOf (k : Nat) : (callsOf results buf len k).length = k := by
  simp [callsOf]

theorem sent_nonneg : ∀ {k : Nat}, (∀ i < k, 0 < results i) → 0 ≤ sent results k
  | 0, _ => Int.le_refl 0
  | k + 1, h => by
    have := sent_nonneg (k := k) fun i hi => h i (by omega)
    have := h k (by omega)
    rw [sent]
    omega

theorem sent_le {k : Nat} : ∀ {m : Nat}, k ≤ m → (∀ i < m, 0 < results i) →
    sent results k ≤ sent results m
  | 0, hkm, _ => by
    obtain rfl := Nat.le_zero.1 hkm
    exact Int.le_refl _
  | m + 1, hkm, h => by
    rcases Nat.lt_or_eq_of_le hkm with hlt | rfl
    · have := sent_le (m := m) (Nat.le_of_lt_succ hlt) fun i hi => h i (by omega)
      have := h m (by omega)
      rw [sent]
      omega
    · exact Int.le_refl _

/-- What is sent is never more than what is spent. -/
theorem sent_le_spent : ∀ {k : Nat}, (∀ i < k, 0 < results i) → sent results k ≤ spent results k
  | 0, _ => Int.le_refl 0
  | k + 1, h => by
    have hk : ∀ i < k, 0 < results i := fun i hi => h i (by omega)
    have h0 := sent_nonneg hk
    have h1 := sent_le_spent hk
    rw [spent]
    omega

/-- The calls took the bytes of the buffer in order. -/
theorem handed_callsOf : ∀ {k : Nat}, (∀ i < k, 0 < results i) → sent results k ≤ len →
    handed (callsOf results buf len k) = buf.take (sent results k).toNat
  | 0, _, _ => rfl
  | k + 1, h, hle => by
    have hk : ∀ i < k, 0 < results i := fun i hi => h i (by omega)
    have h0 := sent_nonneg hk
    have hpos := h k (by omega)
    rw [sent] at hle
    have htake : (results k).toNat ≤ (len - sent results k).toNat := by omega
    have hsum : (sent results k + results k).toNat =
        (sent results k).toNat + (results k).toNat := by
      omega
    rw [callsOf_succ, handed, List.flatMap_append, ← handed, handed_callsOf hk (by omega), sent,
      hsum, List.take_add]
    simp [SendCall.taken, List.take_take, Nat.min_eq_left htake]

/-- The state before call `k`: the calls before it were made, each with bytes left to send. -/
structure Before (results : Nat → Int) (buf : List UInt8) (len : Int) (k : Nat)
    (s : SendState) : Prop where
  state : s = ⟨len - spent results k, sent results k, callsOf results buf len k⟩
  pos : ∀ i < k, 0 < results i
  paced : ∀ i < k, spent results i < len
  sent_le : sent results k ≤ len

/-- How `Send` ends: with an error at call `k`, or with all that the first `k` calls took. -/
def Ends (results : Nat → Int) (buf : List UInt8) (len : Int) (r : Int × List SendCall) : Prop :=
  ∃ k, (∀ i < k, 0 < results i) ∧ (∀ i < k, spent results i < len) ∧ sent results k ≤ len ∧
    (spent results k < len ∧ results k < 0 ∧ r = (-1, callsOf results buf len (k + 1)) ∨
      len ≤ spent results k ∧ r = (sent results k, callsOf results buf len k))

theorem sendStep_before (hres : WellSized results len) {k : Nat} {s : SendState}
    (h : Before results buf len k s) :
    Sum.elim (fun b => Before results buf len (k + 1) b ∧
        (len - b.nsend).toNat < (len - s.nsend).toNat)
      (Ends results buf len) (sendStep results buf len s) := by
  obtain ⟨rfl, hpos, hpaced, hle⟩ := h
  unfold sendStep
  dsimp only
  rw [length_callsOf]
  by_cases hgo : len - spent results k > 0
  · rw [if_pos hgo, ← callsOf_succ]
    have hsent := sent_le_spent hpos
    rcases hres k hpos (by omega) with hneg | ⟨hk, hfit⟩
    · rw [if_pos hneg]
      exact ⟨k, hpos, hpaced, hle, .inl ⟨by omega, hneg, rfl⟩⟩
    · rw [if_neg (by omega)]
      refine ⟨⟨?_, ?_, ?_, hfit⟩, ?_⟩
      · rw [spent, sent, Int.sub_sub]
      · intro i hi
        rcases Nat.lt_succ_iff_lt_or_eq.1 hi with hi | rfl
        · exact hpos i hi
        · exact hk
      · intro i hi
        rcases Nat.lt_succ_iff_lt_or_eq.1 hi with hi | rfl
        · exact hpaced i hi
        · omega
      · dsimp only
        omega
  · rw [if_neg hgo]
    exact ⟨k, hpos, hpaced, hle, .inr ⟨by omega, rfl⟩⟩

/-- `Send` returns, in one of the two ways. -/
theorem sendReturns (buf : List UInt8) (hlen : 1 ≤ len) (hres : WellSized results len) :
    ∃ r, SendReturns results buf len r ∧ Ends results buf len r := by
  have h0 : ∃ k, Before results buf len k ⟨len, 0, []⟩ :=
    ⟨0, by rw [spent, sent, Int.sub_zero]; rfl, fun i hi => absurd hi (Nat.not_lt_zero i),
      fun i hi => absurd hi (Nat.not_lt_zero i), by rw [sent]; omega⟩
  refine Loop.total_rule (I := fun s => ∃ k, Before results buf len k s)
    (fun s => (len - s.nsend).toNat) h0 fun s hs => ?_
  obtain ⟨k, hk⟩ := hs
  have hstep := sendStep_before hres hk
  cases hr : sendStep results buf len s with
  | inl b =>
    rw [hr] at hstep
    exact ⟨⟨k + 1, hstep.1⟩, hstep.2⟩
  | inr r =>
    rw [hr] at hstep
    exact hstep

/-! ## What it relays -/

theorem error_of_ends {calls : List SendCall} (h : Ends results buf len (-1, calls)) :
    ∃ c ∈ calls, c.ret < 0 := by
  obtain ⟨k, hpos, -, -, ⟨-, hneg, hr⟩ | ⟨-, hr⟩⟩ := h
  · rw [(Prod.mk.inj hr).2, callsOf_succ]
    exact ⟨_, List.mem_append_right _ List.mem_cons_self, hneg⟩
  · have := sent_nonneg hpos
    have := (Prod.mk.inj hr).1
    omega

/-- Where the calls that were made left something to send, there is an error among them. -/
theorem all_of_ends {r : Int × List SendCall} (hp : Paced results len)
    (h : Ends results buf len r) :
    r.1 = -1 ∧ (∃ k, sent results k < len ∧ results k < 0) ∨
      r.1 = len ∧ handed r.2 = buf.take len.toNat := by
  obtain ⟨k, hpos, -, hle, ⟨hlt, hneg, rfl⟩ | ⟨hend, rfl⟩⟩ := h
  · have := sent_le_spent hpos
    exact .inl ⟨rfl, k, by omega, hneg⟩
  · have hall : sent results k = len := by
      have := hp k hpos
      omega
    have : handed (callsOf results buf len k) = buf.take (sent results k).toNat :=
      handed_callsOf hpos hle
    rw [hall] at this
    exact .inr ⟨hall, this⟩

/-- Where the sum of the amounts sent reaches `len` early, `Send` returns early. -/
theorem early_of_ends {r : Int × List SendCall} {k : Nat} (hpos : ∀ i < k, 0 < results i)
    (hsent : sent results k < len) (hspent : len ≤ spent results k)
    (h : Ends results buf len r) : ∃ m, r = (sent results m, callsOf results buf len m) ∧
      (∀ i < m, 0 < results i) ∧ sent results m < len := by
  obtain ⟨m, hposm, hpaced, -, hend⟩ := h
  have hmk : m ≤ k := Nat.le_of_not_lt fun hkm => by
    have := hpaced k hkm
    omega
  have hlt : sent results m < len := by
    have := sent_le hmk hpos
    omega
  rcases hend with ⟨hgo, hneg, -⟩ | ⟨-, hr⟩
  · rcases Nat.lt_or_eq_of_le hmk with hm | rfl
    · have := hpos m hm
      omega
    · omega
  · exact ⟨m, hr, hposm, hlt⟩

/-- **What `Send` relays**: for results of `send()` that are negative or between 1 and the number
of bytes offered, `Send` and `tcp_data_deal` relay the buffer, or tell that they did not, just when
the sum of the amounts sent by each call stays below `len` until all is sent. -/
theorem relays_iff (results : Nat → Int) (buf : List UInt8) (len : Int) (hlen : 1 ≤ len)
    (hbuf : len ≤ buf.length) (hres : WellSized results len) :
    Relays results buf len ↔ Paced results len := by
  obtain ⟨⟨ret, calls⟩, hr, hends⟩ := sendReturns buf hlen hres
  refine ⟨fun h => ?_, fun hp => ⟨fun hok => ?_, fun _ hc => ?_, fun _ hc => ?_⟩⟩
  · intro k hpos hsent
    apply Int.not_le.1
    intro hspent
    obtain ⟨m, he, hposm, hlt⟩ := early_of_ends hpos hsent hspent hends
    rw [he] at hr
    have h0 := sent_nonneg hposm
    have hdeal : TcpDataDealReturns results buf len (0, callsOf results buf len m) := by
      refine ⟨_, hr, ?_⟩
      rw [dealRet, if_neg (by omega), if_neg (by omega)]
    have hall := h.deal _ hdeal
    rw [handed_callsOf hposm (by omega)] at hall
    have hlength := congrArg List.length hall
    rw [List.length_take, List.length_take] at hlength
    omega
  · rcases all_of_ends hp hends with ⟨-, k, hsent, hneg⟩ | ⟨h1, h2⟩
    · have := hok k hsent
      omega
    · dsimp only at h1 h2
      subst h1
      exact ⟨calls, hr, h2⟩
  · rw [hr.det hc] at hends
    exact error_of_ends hends
  · obtain ⟨sendsize, hs, hret⟩ := hc
    rw [hr.det hs] at hends
    rcases all_of_ends hp hends with ⟨hneg, -⟩ | ⟨-, hall⟩
    · rw [dealRet, if_pos (show sendsize < 0 by dsimp only at hneg; omega)] at hret
      cases hret
    · exact hall

/-! ## Runs -/

/-- `send()` takes two bytes, then one at a time. -/
def trickle (k : Nat) : Int := if k = 0 then 2 else 1

theorem sent_trickle : ∀ k : Nat, sent trickle (k + 1) = k + 2
  | 0 => rfl
  | k + 1 => by
    rw [sent, sent_trickle k, trickle, if_neg (Nat.succ_ne_zero k)]
    omega

/-- `send()` takes three bytes, then one at a time. -/
def nearlyAll (k : Nat) : Int := if k = 0 then 3 else 1

theorem sent_nearlyAll : ∀ k : Nat, sent nearlyAll (k + 1) = k + 3
  | 0 => rfl
  | k + 1 => by
    rw [sent, sent_nearlyAll k, nearlyAll, if_neg (Nat.succ_ne_zero k)]
    omega

/-- Four bytes go out in two short writes. -/
theorem nearlyAll_relays : Relays nearlyAll [1, 2, 3, 4] 4 := by
  have hres : WellSized nearlyAll 4 := fun k _ hsent => .inr <| by
    cases k with
    | zero => decide
    | succ k =>
      rw [sent_nearlyAll] at hsent ⊢
      rw [nearlyAll, if_neg (Nat.succ_ne_zero k)]
      omega
  have hpaced : Paced nearlyAll 4 := fun k _ hsent => by
    match k with
    | 0 => decide
    | 1 => decide
    | k + 2 =>
      rw [sent_nearlyAll] at hsent
      omega
  exact (relays_iff nearlyAll [1, 2, 3, 4] 4 (by decide) (by decide) hres).2 hpaced

/-- Of four bytes `Send` hands over three, returns 3, and `tcp_data_deal` reports success. -/
theorem trickle_loses_byte : (∀ k, 0 < trickle k) ∧ WellSized trickle 4 ∧
    SendReturns trickle [1, 2, 3, 4] 4 (3, [⟨[1, 2, 3, 4], 2⟩, ⟨[3, 4], 1⟩]) ∧
    ¬ Relays trickle [1, 2, 3, 4] 4 := by
  have hret : SendReturns trickle [1, 2, 3, 4] 4 (3, [⟨[1, 2, 3, 4], 2⟩, ⟨[3, 4], 1⟩]) :=
    Loop.returns_of_run 3 (by decide +kernel)
  have hpos : ∀ k, 0 < trickle k := fun k => by
    unfold trickle
    split
    · decide
    · decide
  refine ⟨hpos, fun k _ hsent => .inr ⟨hpos k, ?_⟩, hret, fun h => ?_⟩
  · cases k with
    | zero => decide
    | succ k =>
      rw [sent_trickle] at hsent ⊢
      rw [trickle, if_neg (Nat.succ_ne_zero k)]
      omega
  · have := h.deal _ ⟨3, hret, rfl⟩
    revert this
    decide

end Proxy
