import CodeLibrary.Dechunk.Cuts
import CodeLibrary.Dechunk.Proof.Decode

/-!
# How `dechunk` decodes a response cut into segments

* `cuts_agree`: two cuts of a response that go well agree. A cut whose header does not end in the
  first segment agrees with none, and for responses without chunks just the cuts that go well
  agree, where a NUL is mapped behind each segment.

What a call leaves to the next is `Held`, and what is copied of a response does not depend on its
cut (`Reads`). `Tidy.feeds` puts them together, by induction on how the segments end.
-/

namespace Dechunk

open CHeap

/-! ## What is copied of a response -/

/-- `bytes` are copied of `rest`, were it all in one segment before a NUL, from where `dechunk` has
`pending` more bytes of a chunk to copy. -/
inductive Reads : Nat → List UInt8 → List UInt8 → Prop
  | last {rest : List UInt8} : lineLen (rest ++ [0]) = some 0 → Reads 0 rest []
  | line {rest bytes : List UInt8} {k c : Nat} : FirstAt crlf rest k →
      lineLen (rest ++ [0]) = some c → 0 < c → Reads c (rest.drop (k + 2)) bytes →
      Reads 0 rest bytes
  | payload {pending : Nat} {rest bytes : List UInt8} : 0 < pending → pending + 2 ≤ rest.length →
      Reads 0 (rest.drop (pending + 2)) bytes → Reads pending rest (rest.take pending ++ bytes)

theorem Reads.unique {pending : Nat} {rest bytes bytes' : List UInt8}
    (h : Reads pending rest bytes) (h' : Reads pending rest bytes') : bytes = bytes' := by
  induction h generalizing bytes' with
  | last hz =>
    cases h' with
    | last => rfl
    | line _ hc hpos =>
      rw [hz] at hc
      cases hc
      omega
    | payload hpos => omega
  | line hk hc hpos _ ih =>
    cases h' with
    | last hz =>
      rw [hz] at hc
      cases hc
      omega
    | line hk' hc' _ h' =>
      rw [hc] at hc'
      cases hc'
      cases hk.unique hk'
      exact ih h'
    | payload hpos' => omega
  | payload hpos _ _ ih =>
    cases h' with
    | last => omega
    | line => omega
    | payload _ _ h' => rw [ih h']

/-- The first bytes of a payload come before the rest of it. -/
theorem Reads.part {pending : Nat} {seg rest bytes : List UInt8} (hlt : seg.length < pending)
    (h : Reads (pending - seg.length) rest bytes) : Reads pending (seg ++ rest) (seg ++ bytes) := by
  generalize hq : pending - seg.length = q at h
  cases h with
  | last => omega
  | line => omega
  | @payload _ _ bytes hpos hle h =>
    have htake : (seg ++ rest).take pending = seg ++ rest.take q := by
      rw [List.take_append, List.take_of_length_le (by omega), hq]
    have hdrop : (seg ++ rest).drop (pending + 2) = rest.drop (q + 2) := by
      rw [List.drop_append, List.drop_eq_nil_of_le (by omega), List.nil_append]
      congr 1
      omega
    rw [← List.append_assoc, ← htake]
    refine .payload (by omega) (by rw [List.length_append]; omega) ?_
    rw [hdrop]
    exact h

theorem isAt_append {sub a : List UInt8} {k : Nat} (h : IsAt sub a k) (hs : sub ≠ [])
    (b : List UInt8) : IsAt sub (a ++ b) k := by
  have hle := h.length_le hs
  unfold IsAt at h ⊢
  rw [List.drop_append_of_le_length (by omega), List.map_append]
  exact h.trans (List.prefix_append _ _)

theorem FirstAt.append {sub a : List UInt8} {k : Nat} (h : FirstAt sub a k) (hs : sub ≠ [])
    (b : List UInt8) : FirstAt sub (a ++ b) k := by
  have hle := h.1.length_le hs
  exact ⟨isAt_append h.1 hs b, fun j hj hat => h.2 j hj (isAt_append_left hat (by omega))⟩

theorem bytesOf_cons (seg tail : List UInt8) (segs : Segs) :
    bytesOf ((seg, tail) :: segs) = seg ++ bytesOf segs := by simp [bytesOf]

/-! ## Between two calls -/

/-- Behind the header: `out` is copied, `pending` bytes of a chunk are to come, and `n` requests
were made, for `total` bytes. -/
structure Held (s : State) (n total pending : Nat) (out : List UInt8) : Prop where
  running : s.isRunning = true
  first : s.isFirst = false
  begun : s.isChunkbegin = decide (0 < pending)
  allocs : s.allocs = n
  len : s.chunkRead + pending = s.chunkLen
  outlen : s.buffOutlen = total
  sum : out.length + pending = total
  bound : total < 2 ^ 64
  block : match s.buffOut with
    | none => n = 0 ∧ out = [] ∧ pending = 0
    | some b => n ≠ 0 ∧ (s.heap.block b).live = true ∧ (s.heap.block b).size = total ∧
        s.buffPt = some (b, out.length) ∧ ∀ i < out.length, (s.heap.block b).cells i = out[i]?

theorem inBody_held : Held inBody 0 0 0 [] :=
  ⟨rfl, rfl, rfl, rfl, rfl, rfl, rfl, Nat.two_pow_pos 64, rfl, rfl, rfl⟩

/-- What was copied is what `dechunk_getbuff` gives. -/
theorem Held.sameBuff {s s' : State} {n n' total total' : Nat} {out : List UInt8}
    (h : Held s n total 0 out) (h' : Held s' n' total' 0 out) : SameBuff s s' := by
  have cells : ∀ {s : State} {n total : Nat}, Held s n total 0 out →
      (dechunkGetbuff s).2 = out.length ∧ ∀ i < out.length, (dechunkGetbuff s).1 i = out[i]? := by
    intro s n total h
    have hsum := h.sum
    have hout := h.outlen
    have hblock := h.block
    refine ⟨by simp only [dechunkGetbuff]; omega, fun i hi => ?_⟩
    cases hb : s.buffOut with
    | none =>
      rw [hb] at hblock
      rw [hblock.2.1] at hi
      exact absurd hi (Nat.not_lt_zero i)
    | some b =>
      rw [hb] at hblock
      simp only [dechunkGetbuff, hb]
      exact hblock.2.2.2.2 i hi
  obtain ⟨hsize, hcells⟩ := cells h
  obtain ⟨hsize', hcells'⟩ := cells h'
  refine ⟨hsize.trans hsize'.symm, fun i hi => ?_⟩
  rw [hsize] at hi
  refine ⟨out[i], ?_, ?_⟩
  · rw [hcells i hi, List.getElem?_eq_getElem hi]
  · rw [hcells' i hi, List.getElem?_eq_getElem hi]

section
variable {alloc : Allocator} {mem seg tail : List UInt8} {s : State} {n total pending p : Nat}
  {out : List UInt8}

theorem Held.afterHeader_size (h : Held s n total 0 out) (p m : Nat) :
    Frame.afterHeader s p m = .size s p m := by
  simp [Frame.afterHeader, h.begun]

theorem Held.afterHeader_payload (h : Held s n total pending out) (hpos : 0 < pending) (p m : Nat) :
    Frame.afterHeader s p m = .payload s (some p) m := by
  simp [Frame.afterHeader, h.begun, hpos]

/-- A call on the next segment goes on where the last one stopped. -/
theorem Held.step_entry (h : Held s n total pending out) {m : Nat} (hm : m ≠ 0) :
    step alloc mem (.entry s p m) = .inl (.afterHeader s p m) := by
  simp only [step, exec]
  rw [execEntry_rest h.running hm h.first]

/-- A segment passed over leaves everything as it is. -/
theorem Held.passed (alloc : Allocator) (h : Held s n total 0 out) (hp : Passed (seg, tail)) :
    ∃ s', Held s' n total 0 out ∧ ∀ mem p, mem.drop p = seg ++ tail →
      Loop.Returns (step alloc mem) (.afterHeader s p seg.length) (s', .ret .ok) := by
  obtain ⟨hz, hne⟩ := hp
  obtain ⟨v, hv, h0⟩ := Option.map_eq_some_iff.1 hz
  dsimp only at hv hne
  have hlen : (s.beginChunk v).chunkLen = 0 := h0
  have halloc : ∀ src m, allocChunk alloc (s.beginChunk v) src m =
      .inl (.payload (s.beginChunk v) src m) := by
    intro src m
    unfold allocChunk
    rw [if_neg (by omega)]
  have hpay : ∀ mem src m, Loop.Returns (step alloc mem) (.payload (s.beginChunk v) src m)
      ((s.beginChunk v).chunkInit, .ret .ok) := by
    intro mem src m
    refine .done ?_
    simp only [step, exec]
    rw [execPayload_done (by omega)]
  have hout : (s.beginChunk v).buffOutlen = total := by
    have := h.bound
    have := h.outlen
    simp only [State.beginChunk, h0]
    omega
  refine ⟨(s.beginChunk v).chunkInit, ⟨h.running, h.first, rfl, h.allocs, rfl, hout, h.sum, h.bound,
    h.block⟩, fun mem p hmem => ?_⟩
  rw [← hmem] at hv hne
  rw [h.afterHeader_size]
  cases hc : (memstr (mem.drop p) seg.length crlf).value with
  | none => exact absurd hc hne
  | some found =>
    cases found with
    | none =>
      refine .next ?_ (hpay mem none seg.length)
      simp only [step, exec]
      rw [execSize_wild hv hc, halloc]
    | some k =>
      refine .next ?_ (hpay mem (some (p + (k + 2))) (subSize seg.length (k + 2)))
      simp only [step, exec]
      rw [execSize_line hv hc, halloc]

/-- The block with room for a chunk. -/
theorem Held.grow (h : Held s n total 0 out) {v : Int} (hpos : 0 < chunkLenOf v)
    (hw : total + chunkLenOf v < 2 ^ 64) (ha : alloc n ≠ .fail)
    (hkeep : n ≠ 0 → alloc n = .inPlace) : (((s.beginChunk v).grow alloc).buffOut ≠ none) ∧
      Held ((s.beginChunk v).grow alloc) (n + 1) (total + chunkLenOf v) (chunkLenOf v) out := by
  have hlen : (s.beginChunk v).buffOutlen = total + chunkLenOf v := by
    rw [beginChunk_buffOutlen (by rwa [h.outlen]), h.outlen]
  have hallocs : (s.beginChunk v).allocs = n := h.allocs
  have hblock := h.block
  have hsum := h.sum
  have held : ∀ b, ((s.beginChunk v).grow alloc).buffOut = some b →
      (((s.beginChunk v).grow alloc).heap.block b).live = true →
      (((s.beginChunk v).grow alloc).heap.block b).size = total + chunkLenOf v →
      ((s.beginChunk v).grow alloc).buffPt = some (b, out.length) →
      (∀ i < out.length, (((s.beginChunk v).grow alloc).heap.block b).cells i = out[i]?) →
      Held ((s.beginChunk v).grow alloc) (n + 1) (total + chunkLenOf v) (chunkLenOf v) out := by
    intro b hb hl hs hpt hcells
    refine ⟨?_, ?_, ?_, ?_, ?_, ?_, by omega, hw, ?_⟩
    · rw [grow_isRunning]
      exact h.running
    · rw [grow_isFirst]
      exact h.first
    · rw [grow_isChunkbegin]
      simpa [State.beginChunk] using hpos
    · rw [grow_allocs, hallocs]
    · rw [grow_chunkRead, grow_chunkLen]
      exact Nat.zero_add _
    · rw [grow_buffOutlen, hlen]
    · rw [hb]
      exact ⟨Nat.succ_ne_zero n, hl, hs, hpt, hcells⟩
  cases hb : s.buffOut with
  | none =>
    rw [hb] at hblock
    obtain ⟨-, rfl, -⟩ := hblock
    obtain ⟨b, hb', hnew, hpt⟩ := grow_first (s := s.beginChunk v) hb (by rwa [hallocs])
    refine ⟨by rw [hb']; simp, held b hb' (by rw [hnew]) (by rw [hnew]; exact hlen) hpt ?_⟩
    exact fun i hi => absurd hi (Nat.not_lt_zero i)
  | some b =>
    rw [hb] at hblock
    obtain ⟨hn, hl, hsz, hpt, hcells⟩ := hblock
    have hans : alloc (s.beginChunk v).allocs = .inPlace := by
      rw [hallocs]
      exact hkeep hn
    obtain ⟨h1, h2, h3⟩ := grow_some (s := s.beginChunk v) (b := b) hb hl hans
    refine ⟨by rw [h1]; simp, held b h1 ?_ ?_ (by rw [h3]; exact hpt) fun i hi => ?_⟩
    · rw [h2]
      exact hl
    · rw [h2]
      exact hlen
    · rw [h2]
      simp only [Block.resize]
      rw [if_pos (by omega)]
      exact hcells i hi

/-- A size line that ends in the segment begins a chunk. -/
theorem Held.line (h : Held s n total 0 out) (hlt : seg.length < 2 ^ 64) {k c : Nat}
    (hk : FirstAt crlf seg k) (hc : lineLen (seg ++ tail) = some c) (hpos : 0 < c)
    (hw : total + c < 2 ^ 64) (ha : alloc n ≠ .fail) (hkeep : n ≠ 0 → alloc n = .inPlace) :
    ∃ s', Held s' (n + 1) (total + c) c out ∧ ∀ mem p, mem.drop p = seg ++ tail →
      step alloc mem (.afterHeader s p seg.length) =
          .inl (.afterHeader s' (p + (k + 2)) (seg.drop (k + 2)).length) ∧
        mem.drop (p + (k + 2)) = seg.drop (k + 2) ++ tail := by
  obtain ⟨v, hv, rfl⟩ := Option.map_eq_some_iff.1 hc
  obtain ⟨hne, hheld⟩ := h.grow hpos hw ha hkeep
  refine ⟨(s.beginChunk v).grow alloc, hheld, fun mem p hmem => ?_⟩
  obtain ⟨hkl, hstep⟩ : _ ∧ step alloc mem (.size s p seg.length) = _ :=
    step_size hmem rfl hlt hv hk
  constructor
  · have hlen : (s.beginChunk v).buffOutlen = total + chunkLenOf v := by
      rw [← hheld.outlen, grow_buffOutlen]
    rw [h.afterHeader_size, hstep, hheld.afterHeader_payload hpos, List.length_drop]
    unfold allocChunk
    rw [if_pos ⟨hpos, by omega⟩, if_neg hne]
  · rw [← List.drop_drop, hmem, List.drop_append_of_le_length (by omega)]

/-- The copy of a part of the chunk. -/
theorem Held.copy (h : Held s n total pending out) (hpos : 0 < pending) {bytes : List UInt8}
    (hle : bytes.length ≤ pending) : s.canCopy bytes.length = true ∧
      (bytes.length < pending → Held (s.copy bytes) n total (pending - bytes.length)
        (out ++ bytes)) ∧
      (bytes.length = pending → Held (s.copy bytes).chunkInit n total 0 (out ++ bytes)) := by
  have hsum := h.sum
  have hlen := h.len
  have hblock := h.block
  cases hb : s.buffOut with
  | none =>
    rw [hb] at hblock
    omega
  | some b =>
    rw [hb] at hblock
    obtain ⟨hn, hl, hsz, hpt, hcells⟩ := hblock
    obtain ⟨hnew, hpt'⟩ := copy_block hpt hl bytes
    have hout : (s.copy bytes).buffOut = some b := hb
    have hcopied : n ≠ 0 ∧ ((s.copy bytes).heap.block b).live = true ∧
        ((s.copy bytes).heap.block b).size = total ∧
        (s.copy bytes).buffPt = some (b, (out ++ bytes).length) ∧
        ∀ i < (out ++ bytes).length,
          ((s.copy bytes).heap.block b).cells i = (out ++ bytes)[i]? := by
      rw [hnew, List.length_append]
      refine ⟨hn, hl, hsz, hpt', fun i hi => ?_⟩
      dsimp only
      by_cases hi' : i < out.length
      · rw [if_neg (by omega), List.getElem?_append_left hi', hcells i hi']
      · rw [if_pos (by omega), List.getElem?_append_right (by omega)]
    refine ⟨?_, fun hlt => ?_, fun heq => ?_⟩
    · exact canCopy_of_room hpt hl (by omega)
    · refine ⟨h.running, h.first, ?_, h.allocs, ?_, h.outlen, ?_, h.bound, ?_⟩
      · have := h.begun
        simp only [State.copy, this, decide_eq_decide]
        omega
      · simp only [State.copy]
        omega
      · rw [List.length_append]
        omega
      · rw [hout]
        exact hcopied
    · refine ⟨h.running, h.first, rfl, h.allocs, rfl, h.outlen, ?_, h.bound, ?_⟩
      · rw [List.length_append]
        omega
      · have : (s.copy bytes).chunkInit.buffOut = some b := hb
        rw [this]
        exact hcopied

/-- A segment that ends inside the payload. -/
theorem Held.part (h : Held s n total pending out) (hmem : mem.drop p = seg ++ tail)
    (hlt : seg.length < pending) :
    step alloc mem (.afterHeader s p seg.length) = .inr (s.copy seg, .ret .ok) := by
  have hpos : 0 < pending := by omega
  have hlen := h.len
  obtain ⟨hcan, -⟩ := h.copy hpos hlt.le
  have hcps : s.cpsize seg.length = seg.length := by
    have := cpsize_le s seg.length
    omega
  have htake : (mem.drop p).take seg.length = seg := by rw [hmem, List.take_left]
  have hcopy := (@execPayload_copy mem s p seg.length (by omega) (by rw [hcps, htake])
    (by rw [hcps]; exact hcan)).2
  rw [hcps, htake, if_neg (by omega)] at hcopy
  rw [h.afterHeader_payload hpos]
  exact hcopy

/-- A payload that ends in the segment: the call goes on two bytes behind it, or returns there. -/
theorem Held.payload (alloc : Allocator) (tail : List UInt8) (h : Held s n total pending out)
    (hlt : seg.length < 2 ^ 64)
    (hpos : 0 < pending) (hle : pending + 2 ≤ seg.length) :
    ∃ s', Held s' n total 0 (out ++ seg.take pending) ∧ ∀ mem p, mem.drop p = seg ++ tail →
      step alloc mem (.afterHeader s p seg.length) =
          (if seg.drop (pending + 2) = [] then .inr (s', .ret .ok)
            else .inl (.entry s' (p + (pending + 2)) (seg.drop (pending + 2)).length)) ∧
        mem.drop (p + (pending + 2)) = seg.drop (pending + 2) ++ tail := by
  have hlen := h.len
  have htl : (seg.take pending).length = pending := List.length_take_of_le (by omega)
  obtain ⟨hcan, -, hheld⟩ := h.copy hpos htl.le
  rw [htl] at hcan
  have hcps : s.cpsize seg.length = pending := by
    have := cpsize_le s seg.length
    omega
  refine ⟨(s.copy (seg.take pending)).chunkInit, hheld htl, fun mem p hmem => ?_⟩
  have htake : (mem.drop p).take pending = seg.take pending := by
    rw [hmem, List.take_append_of_le_length (by omega)]
  constructor
  · have hcopy := (@execPayload_copy mem s p seg.length (by omega) (by rw [hcps, htake, htl])
      (by rw [hcps]; exact hcan)).2
    rw [hcps, htake, if_pos (by omega), subSize_of_le hle hlt] at hcopy
    rw [h.afterHeader_payload hpos, List.length_drop]
    refine hcopy.trans ?_
    by_cases hd : seg.length - (pending + 2) = 0
    · rw [if_neg (by omega), if_pos (List.drop_eq_nil_of_le (by omega))]
    · rw [if_pos (by omega), if_neg]
      rw [List.drop_eq_nil_iff]
      omega
  · rw [← List.drop_drop, hmem, List.drop_append_of_le_length hle]

end

/-! ## The calls -/

section
variable {alloc : Allocator}

/-- From where a call stands in the first of the segments, this and the further calls return
`DCE_OK`. A segment that is used up is not looked at. -/
def Resumes (alloc : Allocator) (s : State) (pending : Nat) : Segs → State → Prop
  | [], s' => s' = s
  | (seg, tail) :: segs, s' =>
    if seg = [] ∧ pending = 0 then FeedsOk alloc s segs s'
    else ∃ s1, FeedsOk alloc s1 segs s' ∧ ∀ mem p, mem.drop p = seg ++ tail →
      Loop.Returns (step alloc mem) (.afterHeader s p seg.length) (s1, .ret .ok)

/-- A call goes on where `dechunk` stands in its segment, and the further calls behind it. -/
theorem Held.feeds_cons {s s1 s' : State} {n total pending : Nat} {out seg tail : List UInt8}
    {segs : Segs} (h : Held s n total pending out) (hseg : seg ≠ [])
    (hret : ∀ mem p, mem.drop p = seg ++ tail →
      Loop.Returns (step alloc mem) (.afterHeader s p seg.length) (s1, .ret .ok))
    (hfeeds : FeedsOk alloc s1 segs s') : FeedsOk alloc s ((seg, tail) :: segs) s' := by
  have hlen : seg.length ≠ 0 := mt List.eq_nil_of_length_eq_zero hseg
  exact .cons (.next (h.step_entry hlen) (hret (seg ++ tail) 0 rfl)) hfeeds

theorem Resumes.feeds {s s' : State} {n total pending : Nat} {out : List UInt8}
    (h : Held s n total pending out) : ∀ {segs : Segs}, (∀ x ∈ segs, x.1 ≠ []) →
      Resumes alloc s pending segs s' → FeedsOk alloc s segs s'
  | [], _, hr => by
    cases hr
    exact .nil
  | (seg, tail) :: segs, hne, hr => by
    have hseg : seg ≠ [] := hne (seg, tail) (.head _)
    rw [Resumes, if_neg fun hx => hseg hx.1] at hr
    obtain ⟨s1, hfeeds, hret⟩ := hr
    exact h.feeds_cons hseg hret hfeeds

theorem Held.passed_feeds : ∀ {segs : Segs} {s : State} {n total : Nat} {out : List UInt8},
    Held s n total 0 out → (∀ x ∈ segs, Passed x) → (∀ x ∈ segs, x.1 ≠ []) →
      ∃ s', Held s' n total 0 out ∧ FeedsOk alloc s segs s'
  | [], s, _, _, _, h, _, _ => ⟨s, h, .nil⟩
  | (seg, tail) :: segs, s, n, total, out, h, hp, hne => by
    obtain ⟨s1, h1, hret⟩ := h.passed alloc (hp (seg, tail) (.head _))
    obtain ⟨s', h', hfeeds⟩ := h1.passed_feeds (fun x hx => hp x (.tail _ hx))
      fun x hx => hne x (.tail _ hx)
    exact ⟨s', h', h.feeds_cons (hne (seg, tail) (.head _)) hret hfeeds⟩

/-- **The calls on segments that end well** copy what is copied of the response. -/
theorem Tidy.feeds (ha : ∀ n, alloc n ≠ .fail) {n total pending : Nat} {segs : Segs}
    (h : Tidy alloc n total pending segs) : ∀ {s : State} {out : List UInt8},
    Held s n total pending out → (∀ x ∈ segs.tail, x.1 ≠ []) →
    (bytesOf segs).length < 2 ^ 64 → ∃ bytes s' n' total', Reads pending (bytesOf segs) bytes ∧
      Held s' n' total' 0 (out ++ bytes) ∧ Resumes alloc s pending segs s' := by
  induction h with
  | done =>
    intro s out hs _ _
    exact ⟨[], s, _, _, .last rfl, by rwa [List.append_nil], rfl⟩
  | next _ ih =>
    intro s out hs hne hlt
    obtain ⟨bytes, s', n', total', hr, hs', hres⟩ :=
      ih hs (fun x hx => hne x (List.mem_of_mem_tail hx)) hlt
    refine ⟨bytes, s', n', total', hr, hs', ?_⟩
    rw [Resumes, if_pos ⟨rfl, rfl⟩]
    exact hres.feeds hs hne
  | @last n total seg tail segs hseg hz hp =>
    intro s out hs hne _
    obtain ⟨s1, h1, hret⟩ := hs.passed alloc (hp (seg, tail) (.head _))
    obtain ⟨s', h', hfeeds⟩ := h1.passed_feeds (fun x hx => hp x (.tail _ hx)) hne
    refine ⟨[], s', n, total, .last (by rwa [bytesOf_cons]), by rwa [List.append_nil], ?_⟩
    rw [Resumes, if_neg fun hx => hseg hx.1]
    exact ⟨s1, hfeeds, hret⟩
  | @line n total seg tail segs k c hk hc hr hpos hw hkeep _ ih =>
    intro s out hs hne hlt
    have hkl := hk.1.length_le crlf_ne_nil
    rw [crlf_length] at hkl
    rw [bytesOf_cons, List.length_append] at hlt
    obtain ⟨s1, h1, hstep⟩ := hs.line (by omega) hk hc hpos hw (ha n) hkeep
    obtain ⟨bytes, s', n', total', hreads, h', hres⟩ := ih h1 hne (by
      rw [bytesOf_cons, List.length_append, List.length_drop]
      omega)
    refine ⟨bytes, s', n', total', ?_, h', ?_⟩
    · rw [bytesOf_cons] at hreads ⊢
      refine .line (hk.append crlf_ne_nil _) hr hpos ?_
      rwa [List.drop_append_of_le_length hkl]
    · rw [Resumes, if_neg (by omega)] at hres
      obtain ⟨s2, hfeeds, hret⟩ := hres
      rw [Resumes, if_neg]
      · refine ⟨s2, hfeeds, fun mem p hmem => ?_⟩
        obtain ⟨hgo, hrest⟩ := hstep mem p hmem
        exact .next hgo (hret mem _ hrest)
      · rintro ⟨rfl, -⟩
        simp at hkl
  | @part n total pending seg tail segs hlt' _ ih =>
    intro s out hs hne hlt
    rw [bytesOf_cons, List.length_append] at hlt
    have h1 := (hs.copy (by omega) hlt'.le).2.1 hlt'
    obtain ⟨bytes, s', n', total', hreads, h', hres⟩ :=
      ih h1 (fun x hx => hne x (List.mem_of_mem_tail hx)) (by omega)
    refine ⟨seg ++ bytes, s', n', total', ?_, by rwa [← List.append_assoc], ?_⟩
    · rw [bytesOf_cons]
      exact hreads.part hlt'
    · rw [Resumes, if_neg (by omega)]
      exact ⟨s.copy seg, hres.feeds h1 hne, fun mem p hmem => .done (hs.part hmem hlt')⟩
  | @payload n total pending seg tail segs hpos hle _ ih =>
    intro s out hs hne hlt
    rw [bytesOf_cons, List.length_append] at hlt
    obtain ⟨s1, h1, hstep⟩ := hs.payload alloc tail (by omega) hpos hle
    obtain ⟨bytes, s', n', total', hreads, h', hres⟩ := ih h1 hne (by
      rw [bytesOf_cons, List.length_append, List.length_drop]
      omega)
    refine ⟨seg.take pending ++ bytes, s', n', total', ?_, by rwa [← List.append_assoc], ?_⟩
    · rw [bytesOf_cons] at hreads ⊢
      have htake : (seg ++ bytesOf segs).take pending = seg.take pending :=
        List.take_append_of_le_length (by omega)
      rw [← htake]
      refine .payload hpos (by rw [List.length_append]; omega) ?_
      rwa [List.drop_append_of_le_length hle]
    · rw [Resumes, if_neg (by omega)]
      by_cases hd : seg.drop (pending + 2) = []
      · rw [Resumes, if_pos ⟨hd, rfl⟩] at hres
        refine ⟨s1, hres, fun mem p hmem => .done ?_⟩
        rw [(hstep mem p hmem).1, if_pos hd]
      · rw [Resumes, if_neg fun hx => hd hx.1] at hres
        obtain ⟨s2, hfeeds, hret⟩ := hres
        refine ⟨s2, hfeeds, fun mem p hmem => ?_⟩
        obtain ⟨hgo, hrest⟩ := hstep mem p hmem
        rw [if_neg hd] at hgo
        exact .next hgo (.next (h1.step_entry fun h0 => hd (List.eq_nil_of_length_eq_zero h0))
          (hret mem _ hrest))

/-- The first call passes over a header that ends in its segment. -/
theorem step_found {seg : List UInt8} (tail : List UInt8) {k : Nat} (hk : FirstAt crlf2 seg k)
    (hlt : seg.length < 2 ^ 64) :
    step alloc (seg ++ tail) (.entry (dechunkInit .start).1 0 seg.length) =
        .inl (.afterHeader inBody (0 + (k + 4)) (seg.drop (k + 4)).length) ∧
      (seg ++ tail).drop (0 + (k + 4)) = seg.drop (k + 4) ++ tail := by
  have hkl := hk.1.length_le crlf2_ne_nil
  rw [crlf2_length] at hkl
  constructor
  · obtain ⟨hv, -⟩ := memstr_found crlf2_ne_nil tail hk
    simp only [step, exec]
    rw [@execEntry_found (seg ++ tail) _ 0 _ rfl (by omega) rfl _ hv,
      subSize_of_le hkl hlt, List.length_drop]
    rfl
  · rw [Nat.zero_add, List.drop_append_of_le_length hkl]

/-- **The calls on a cut that goes well** copy what is copied of the response. -/
theorem CutsWell.feeds (ha : ∀ n, alloc n ≠ .fail) {cut : Segs} (h : CutsWell alloc cut)
    (hne : ∀ x ∈ cut, x.1 ≠ []) (hlt : (bytesOf cut).length < 2 ^ 64) :
    ∃ k bytes s n total, FirstAt crlf2 (bytesOf cut) k ∧
      Reads 0 ((bytesOf cut).drop (k + 4)) bytes ∧ Held s n total 0 bytes ∧
      FeedsOk alloc (dechunkInit .start).1 cut s := by
  match cut, h with
  | (seg, tail) :: segs, h =>
    obtain ⟨k, hk, htidy⟩ := h
    have hkl := hk.1.length_le crlf2_ne_nil
    rw [crlf2_length] at hkl
    have hne' : ∀ x ∈ segs, x.1 ≠ [] := fun x hx => hne x (.tail _ hx)
    rw [bytesOf_cons, List.length_append] at hlt
    obtain ⟨hstep, hrest⟩ : step alloc (seg ++ tail) _ = _ ∧ _ :=
      step_found tail hk (by omega)
    refine ⟨k, ?_⟩
    rw [bytesOf_cons, List.drop_append_of_le_length hkl]
    split at htidy
    · -- the segment ends with the header
      rename_i hend
      have hnil : seg.drop (k + 4) = [] := List.drop_eq_nil_of_le (by omega)
      rw [hnil] at hstep hrest ⊢
      obtain ⟨s1, h1, hret⟩ := inBody_held.passed alloc htidy.1
      obtain ⟨bytes, s', n', total', hreads, h', hres⟩ :=
        htidy.2.feeds ha h1 (fun x hx => hne' x (List.mem_of_mem_tail hx)) (by omega)
      exact ⟨bytes, s', n', total', hk.append crlf2_ne_nil _, hreads, h',
        .cons (.next hstep (hret (seg ++ tail) _ hrest)) (hres.feeds h1 hne')⟩
    · rename_i hend
      have hcons : seg.drop (k + 4) ≠ [] := by
        rw [ne_eq, List.drop_eq_nil_iff]
        omega
      obtain ⟨bytes, s', n', total', hreads, h', hres⟩ := htidy.feeds ha inBody_held hne' (by
        rw [bytesOf_cons, List.length_append, List.length_drop]
        omega)
      rw [Resumes, if_neg fun hx => hcons hx.1] at hres
      obtain ⟨s1, hfeeds, hret⟩ := hres
      exact ⟨bytes, s', n', total', hk.append crlf2_ne_nil _, by rwa [bytesOf_cons] at hreads, h',
        .cons (.next hstep (hret (seg ++ tail) _ hrest)) hfeeds⟩

end

/-! ## Before a NUL -/

theorem foldByte_eq_zero {c : UInt8} (h : foldByte c = 0) : c = 0 := by
  unfold foldByte at h
  split at h
  · have := congrArg UInt8.toNat h
    rw [UInt8.toNat_or, show (0x20 : UInt8).toNat = 32 from rfl,
      show (0 : UInt8).toNat = 0 from rfl] at this
    have hle : 32 ≤ c.toNat ||| 32 := Nat.right_le_or
    omega
  · exact h

/-- A comparison ends at a NUL behind the segment. -/
theorem matchSub_nul (t : List UInt8) : ∀ (seg : List UInt8) {sub : List UInt8}, 0 ∉ sub →
    ¬ sub.map foldByte <+: seg.map foldByte → (matchSub (seg ++ 0 :: t) sub).value = some false
  | _, [], _, h => absurd (List.nil_prefix) h
  | [], cq :: sub, h0, _ => by
    have hne : foldByte cq ≠ foldByte 0 := fun he => by
      have : cq = 0 := foldByte_eq_zero he
      exact h0 (by rw [this]; exact .head _)
    simp [matchSub, hne]
  | cp :: seg, cq :: sub, h0, h => by
    rw [List.cons_append, matchSub]
    by_cases he : foldByte cq = foldByte cp
    · rw [if_neg (not_not.2 he)]
      refine matchSub_nul t seg (fun hm => h0 (.tail _ hm)) fun hp => h ?_
      rw [List.map_cons, List.map_cons, List.cons_prefix_cons]
      exact ⟨he, hp⟩
    · rw [if_pos he]

theorem memstrLoop_nul (t : List UInt8) {sub : List UInt8} (h0 : 0 ∉ sub) : ∀ seg : List UInt8,
    ¬ Occurs sub seg → (memstrLoop sub (seg ++ 0 :: t) seg.length).value = some none
  | [], _ => rfl
  | c :: seg, ho => by
    have hv : (matchSub (c :: (seg ++ 0 :: t)) sub).value = some false :=
      matchSub_nul t (c :: seg) h0 fun hp => ho ⟨0, by simpa [IsAt] using hp⟩
    have ih := memstrLoop_nul t h0 seg (by
      rintro ⟨k, hk⟩
      exact ho ⟨k + 1, isAt_cons.2 hk⟩)
    rw [List.cons_append, List.length_cons, memstrLoop]
    simp [hv, ih]

/-- `memstr` finds nothing that goes on behind a NUL. -/
theorem memstr_nul {sub seg tail : List UInt8} (h0 : 0 ∉ sub) (ht : tail.head? = some 0)
    (ho : ¬ Occurs sub seg) : (memstr (seg ++ tail) seg.length sub).value = some none := by
  obtain ⟨t, rfl⟩ := List.head?_eq_some_iff.1 ht
  unfold memstr
  split
  · rfl
  · exact memstrLoop_nul t h0 seg ho

theorem matchSub_ne_none {mem sub : List UInt8} (h : sub.length ≤ mem.length) :
    (matchSub mem sub).value ≠ none := by
  intro hv
  have h1 := matchSub_none hv
  have h2 := matchSub_read_le mem sub
  omega

theorem memstrLoop_ne_none {sub : List UInt8} : ∀ {mem : List UInt8} {indx : Nat},
    indx + sub.length ≤ mem.length + 1 → (memstrLoop sub mem indx).value ≠ none
  | _, 0, _ => by simp [memstrLoop]
  | [], indx + 1, h => by
    rw [List.length_nil] at h
    have hv : (matchSub [] sub).value ≠ none := matchSub_ne_none (by
      rw [List.length_nil]
      omega)
    simpa [memstrLoop] using hv
  | c :: mem, indx + 1, h => by
    rw [List.length_cons] at h
    have hv : (matchSub (c :: mem) sub).value ≠ none := matchSub_ne_none (by
      rw [List.length_cons]
      omega)
    have ih : (memstrLoop sub mem indx).value ≠ none := memstrLoop_ne_none (by omega)
    rw [memstrLoop]
    split
    · rename_i hn
      exact absurd hn hv
    · simp
    · simpa using ih

/-- With enough memory behind the segment `memstr` stays on it. -/
theorem memstr_ne_none {sub seg tail : List UInt8} (h : sub.length ≤ tail.length + 1) :
    (memstr (seg ++ tail) seg.length sub).value ≠ none := by
  unfold memstr
  split
  · simp
  · exact memstrLoop_ne_none (by rw [List.length_append]; omega)

/-- The cut agrees with none where the header does not end in its first segment. -/
theorem FeedsOk.headerInside {alloc : Allocator} {cut : Segs} {s : State}
    (h : FeedsOk alloc (dechunkInit .start).1 cut s) (hcons : cut ≠ [])
    (hne : ∀ x ∈ cut, x.1 ≠ []) (hnul : ∀ x ∈ cut, x.2.head? = some 0) : HeaderInside cut := by
  cases h with
  | nil => exact absurd rfl hcons
  | @cons _ _ _ seg tail _ hret _ =>
    by_contra ho
    have hlen : seg.length ≠ 0 :=
      mt List.eq_nil_of_length_eq_zero (hne (seg, tail) (.head _))
    have h0 : (0 : UInt8) ∉ crlf2 := by decide
    have hv := memstr_nul h0 (hnul (seg, tail) (.head _)) ho
    have := hret.of_done (q := ((dechunkInit .start).1, .ret .format)) (by
      simp only [step, exec]
      rw [@execEntry_format (seg ++ tail) _ 0 _ rfl hlen rfl hv])
    cases this

/-! ## A response without chunks -/

/-- The bytes of a size line of value 0 and of line ends. -/
def Zeros (l : List UInt8) : Prop := ∀ c ∈ l, c = 48 ∨ c = 13 ∨ c = 10

theorem hexDigit?_eq_zero {c : UInt8} (h : hexDigit? c = some 0) : c = 48 := by
  unfold hexDigit? at h
  simp only [Bool.and_eq_true, decide_eq_true_eq, UInt8.le_iff_toNat_le,
    show '0'.toUInt8.toNat = 48 from rfl, show 'a'.toUInt8.toNat = 97 from rfl,
    show 'A'.toUInt8.toNat = 65 from rfl] at h
  apply UInt8.toNat_inj.1
  change c.toNat = 48
  split at h
  · simp only [Option.some.injEq] at h
    omega
  · split at h
    · simp only [Option.some.injEq] at h
      omega
    · split at h
      · simp only [Option.some.injEq] at h
        omega
      · cases h

theorem hexValueFrom_zero : ∀ {line : List UInt8} {acc : Nat}, hexValueFrom acc line = some 0 →
    acc = 0 ∧ ∀ c ∈ line, c = 48
  | [], _, h => by
    cases h
    exact ⟨rfl, fun c hc => absurd hc List.not_mem_nil⟩
  | b :: line, acc, h => by
    obtain ⟨d, hd, h⟩ := Option.bind_eq_some_iff.1 h
    obtain ⟨hacc, hline⟩ := hexValueFrom_zero h
    obtain ⟨rfl, rfl⟩ : acc = 0 ∧ d = 0 := by omega
    refine ⟨rfl, fun c hc => ?_⟩
    rcases List.mem_cons.1 hc with rfl | hc
    · exact hexDigit?_eq_zero hd
    · exact hline c hc

theorem zeros_body {last : List UInt8} (h : hexValue? last = some 0) :
    Zeros (last ++ crlf ++ crlf) := by
  unfold hexValue? at h
  split at h
  · cases h
  · intro c hc
    simp only [List.mem_append] at hc
    have hcrlf : ∀ c ∈ crlf, c = 13 ∨ c = 10 := by
      rw [show crlf = [13, 10] from rfl]
      simp
    rcases hc with (hc | hc) | hc
    · exact .inl ((hexValueFrom_zero h).2 c hc)
    · exact .inr (hcrlf c hc)
    · exact .inr (hcrlf c hc)

theorem scanFrom_zeros (t : List UInt8) : ∀ {l : List UInt8} (st : HexState),
    st = .space ∨ st = .zero false ∨ st = .digits false 0 → Zeros l →
      scanFrom st (l ++ 0 :: t) = some 0
  | [], _, hst, _ => by rcases hst with rfl | rfl | rfl <;> rfl
  | c :: l, st, hst, hz => by
    have ih := fun st hst => scanFrom_zeros t st hst fun c hc => hz c (.tail _ hc)
    rw [List.cons_append]
    rcases hst with rfl | rfl | rfl <;> rcases hz c (.head _) with rfl | rfl | rfl
    · exact ih (.zero false) (by simp)
    · exact ih .space (by simp)
    · exact ih .space (by simp)
    · exact ih (.digits false 0) (by simp)
    · rfl
    · rfl
    · exact ih (.digits false 0) (by simp)
    · rfl
    · rfl

theorem lineLen_zeros {l tail : List UInt8} (h : Zeros l) (ht : tail.head? = some 0) :
    lineLen (l ++ tail) = some 0 := by
  obtain ⟨t, rfl⟩ := List.head?_eq_some_iff.1 ht
  have hv : (scanHex (l ++ 0 :: t)).value = some 0 :=
    scanHex_eq_some.2 ⟨List.mem_append_right _ (.head _), scanFrom_zeros t .space (.inl rfl) h⟩
  rw [lineLen, hv]
  rfl

theorem passed_zeros {seg tail : List UInt8} (h : Zeros seg) (ht : tail.head? = some 0) :
    Passed (seg, tail) := by
  obtain ⟨t, rfl⟩ := List.head?_eq_some_iff.1 ht
  refine ⟨lineLen_zeros h rfl, memstr_ne_none ?_⟩
  rw [crlf_length, List.length_cons]
  omega

theorem tidy_zeros {alloc : Allocator} {n total : Nat} : ∀ {segs : Segs}, Zeros (bytesOf segs) →
    (∀ x ∈ segs, x.1 ≠ []) → (∀ x ∈ segs, x.2.head? = some 0) → Tidy alloc n total 0 segs
  | [], _, _, _ => .done
  | (seg, tail) :: segs, hz, hne, hnul => by
    refine .last (hne (seg, tail) (.head _)) ?_ fun x hx => ?_
    · rw [bytesOf_cons] at hz
      exact lineLen_zeros hz rfl
    · refine passed_zeros (fun c hc => hz c ?_) (hnul x hx)
      exact List.mem_flatten.2 ⟨x.1, List.mem_map.2 ⟨x, hx, rfl⟩, hc⟩

/-- Behind the header of a response without chunks a segment may end anywhere. -/
theorem cutsWell_of_headerInside {F : Framing} (hF : F.Ok) (hl : F.lines = [])
    {payloads : List (List UInt8)} {alloc : Allocator} {cut : Segs}
    (hcut : IsCut (F.stream payloads) cut) (hnul : ∀ x ∈ cut, x.2.head? = some 0)
    (hin : HeaderInside cut) : CutsWell alloc cut := by
  obtain ⟨hbytes, hne⟩ := hcut
  match cut, hin with
  | (seg, tail) :: segs, hin =>
    obtain ⟨k, hk⟩ := Occurs.firstAt hin
    have hkl := hk.1.length_le crlf2_ne_nil
    rw [crlf2_length] at hkl
    rw [bytesOf_cons] at hbytes
    -- the header is the one of the response
    have hstream : F.stream payloads = F.header ++ crlf2 ++ (F.last ++ crlf ++ crlf) := by
      unfold Framing.stream
      rw [hl]
      cases payloads <;> rfl
    have hk' := hk.append crlf2_ne_nil (bytesOf segs)
    rw [hbytes, hstream] at hk'
    have hkh := hk'.unique (firstAt_header hF.header _)
    have hrest : seg.drop (k + 4) ++ bytesOf segs = F.last ++ crlf ++ crlf := by
      rw [← List.drop_append_of_le_length hkl, hbytes, hstream, hkh]
      exact List.drop_left' (by rw [List.length_append, crlf2_length])
    have hz := zeros_body hF.last
    rw [← hrest] at hz
    have hne' : ∀ x ∈ segs, x.1 ≠ [] := fun x hx => hne x (.tail _ hx)
    have hnul' : ∀ x ∈ segs, x.2.head? = some 0 := fun x hx => hnul x (.tail _ hx)
    have htail := hnul (seg, tail) (.head _)
    refine ⟨k, hk, ?_⟩
    split
    · exact ⟨passed_zeros (fun c hc => absurd hc List.not_mem_nil) htail,
        tidy_zeros (fun c hc => hz c (List.mem_append_right _ hc)) hne' hnul'⟩
    · refine tidy_zeros (by rwa [bytesOf_cons]) ?_ ?_
      · rintro x (_ | ⟨_, hx⟩)
        · rw [ne_eq, List.drop_eq_nil_iff]
          omega
        · exact hne' x hx
      · rintro x (_ | ⟨_, hx⟩)
        · exact htail
        · exact hnul' x hx

/-- **Two cuts of a response that go well agree.** A NUL behind each segment, a cut whose header
does not end in the first one agrees with none; and without chunks only the cuts that go well
agree. -/
theorem cuts_agree {F : Framing} (hF : F.Ok) {payloads : List (List UInt8)}
    (hfit : (F.stream payloads).length < 2 ^ 64) {alloc alloc' : Allocator}
    (ha : ∀ n, alloc n ≠ .fail) (ha' : ∀ n, alloc' n ≠ .fail) {cut cut' : Segs}
    (hcut : IsCut (F.stream payloads) cut) (hcut' : IsCut (F.stream payloads) cut') :
    (CutsWell alloc cut ∧ CutsWell alloc' cut' → Agree alloc alloc' cut cut') ∧
      ((∀ x ∈ cut ++ cut', x.2.head? = some 0) → Agree alloc alloc' cut cut' →
        (HeaderInside cut ∧ HeaderInside cut') ∧
          (F.lines = [] → CutsWell alloc cut ∧ CutsWell alloc' cut')) := by
  constructor
  · rintro ⟨h, h'⟩
    obtain ⟨k, bytes, s, n, total, hk, hr, hs, hfeeds⟩ :=
      h.feeds ha hcut.2 (by rw [hcut.1]; exact hfit)
    obtain ⟨k', bytes', s', n', total', hk', hr', hs', hfeeds'⟩ :=
      h'.feeds ha' hcut'.2 (by rw [hcut'.1]; exact hfit)
    rw [hcut.1] at hk hr
    rw [hcut'.1] at hk' hr'
    cases hk.unique hk'
    cases hr.unique hr'
    exact ⟨s, s', hfeeds, hfeeds', hs.sameBuff hs'⟩
  · rintro hnul ⟨s, s', hfeeds, hfeeds', -⟩
    have hcons : ∀ {cut : Segs}, IsCut (F.stream payloads) cut → cut ≠ [] := by
      rintro _ ⟨hb, -⟩ rfl
      have := congrArg List.length hb
      unfold Framing.stream at this
      simp only [List.length_append, crlf2_length, bytesOf, List.map_nil, List.flatten_nil,
        List.length_nil] at this
      omega
    have hnul1 : ∀ x ∈ cut, x.2.head? = some 0 := fun x hx => hnul x (List.mem_append_left _ hx)
    have hnul2 : ∀ x ∈ cut', x.2.head? = some 0 := fun x hx => hnul x (List.mem_append_right _ hx)
    have hin := hfeeds.headerInside (hcons hcut) hcut.2 hnul1
    have hin' := hfeeds'.headerInside (hcons hcut') hcut'.2 hnul2
    exact ⟨⟨hin, hin'⟩, fun hl => ⟨cutsWell_of_headerInside hF hl hcut hnul1 hin,
      cutsWell_of_headerInside hF hl hcut' hnul2 hin'⟩⟩

/-- A response with a chunk, in one segment and cut inside its payload and before its last line
end. -/
theorem cuts_agree_hello : Agree .steady .steady
    [("HTTP/1.1 200 OK\r\n\r\n5\r\nhello\r\n0\r\n\r\n".asciiBytes, [0])]
    [("HTTP/1.1 200 OK\r\n\r\n5\r\nhe".asciiBytes, [0]), ("llo\r\n0\r\n".asciiBytes, [0]),
      ("\r\n".asciiBytes, [0])] := by
  have hok : Framing.Ok ⟨"HTTP/1.1 200 OK".asciiBytes, ["5".asciiBytes], "0".asciiBytes⟩ := by
    refine ⟨?_, ?_, by decide +kernel⟩
    · unfold IsAt
      decide +kernel
    · intro line hl
      obtain rfl := List.mem_singleton.1 hl
      exact ⟨5, by decide +kernel, by decide⟩
  have hwhole : CutsWell .steady
      [("HTTP/1.1 200 OK\r\n\r\n5\r\nhello\r\n0\r\n\r\n".asciiBytes, [0])] := by
    refine ⟨15, by decide +kernel, ?_⟩
    rw [if_neg (by decide +kernel)]
    refine .line (k := 1) (c := 3) (by decide +kernel) (by decide +kernel) (by decide +kernel)
      (by decide) (by decide) (fun _ => rfl) ?_
    refine .payload (by decide) (by decide +kernel) ?_
    exact .last (by decide +kernel) (by decide +kernel) (by decide +kernel)
  have hcut : CutsWell .steady [("HTTP/1.1 200 OK\r\n\r\n5\r\nhe".asciiBytes, [0]),
      ("llo\r\n0\r\n".asciiBytes, [0]), ("\r\n".asciiBytes, [0])] := by
    refine ⟨15, by decide +kernel, ?_⟩
    rw [if_neg (by decide +kernel)]
    refine .line (k := 1) (c := 3) (by decide +kernel) (by decide +kernel) (by decide +kernel)
      (by decide) (by decide) (fun _ => rfl) ?_
    refine .part (by decide +kernel) ?_
    refine .payload (by decide +kernel) (by decide +kernel) ?_
    exact .last (by decide +kernel) (by decide +kernel) (by decide +kernel)
  have hfit : (Framing.stream ⟨"HTTP/1.1 200 OK".asciiBytes, ["5".asciiBytes], "0".asciiBytes⟩
      ["hello".asciiBytes]).length < 2 ^ 64 := by
    decide +kernel
  exact (cuts_agree hok hfit Allocator.steady_ne_fail Allocator.steady_ne_fail
    ⟨by decide +kernel, by decide +kernel⟩ ⟨by decide +kernel, by decide +kernel⟩).1
    ⟨hwhole, hcut⟩

/-- A response cut behind its status line: the first call returns `DCE_FORMAT`. -/
theorem status_line_refused :
    ¬ Independent "HTTP/1.1 200 OK\r\n\r\n0\r\n\r\n".asciiBytes := by
  intro h
  have hcut : IsCut "HTTP/1.1 200 OK\r\n\r\n0\r\n\r\n".asciiBytes
      [("HTTP/1.1 200 OK".asciiBytes, [0]), ("\r\n\r\n0\r\n\r\n".asciiBytes, [0])] :=
    ⟨by decide +kernel, by decide +kernel⟩
  obtain ⟨s, -, hfeeds, -⟩ := h .steady .steady Allocator.steady_ne_fail
    Allocator.steady_ne_fail _ _ hcut hcut
  cases hfeeds with
  | cons hret _ =>
    obtain ⟨r, hret', hr⟩ : ∃ r, DechunkReturns .steady (dechunkInit .start).1
        "HTTP/1.1 200 OK".asciiBytes [0] r ∧ r.2 = .ret .format :=
      Loop.returns_of_run_any 1 (by decide +kernel)
    rw [hret'.det hret] at hr
    cases hr

end Dechunk
