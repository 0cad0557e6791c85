import CodeLibrary.Dechunk.Proof.Step

/-!
# The output buffer of `dechunk`

Over all runs of a program, for any allocator:

* `copied_le_requested`: where no size line makes `g_buff_outlen` wrap around or the block move, and
  no call goes on to copy after a request that failed (`KeepsBlock`), no copy goes over the size
  last requested or out of the live block.
* `buffer_ok`: where moreover every request for a chunk is met in place and every chunk ends in
  the segment its size line is in (`KeepsUp`), the buffer is exactly what was copied (`BuffOk`).

Both are an invariant of the frames of a call, kept by each step (`CountInv`, `FrameOk`).
-/

namespace Dechunk

open CHeap

def Frame.state : Frame → State
  | .entry s _ _ => s
  | .size s _ _ => s
  | .payload s _ _ => s

theorem Frame.afterHeader_state (s : State) (p m : Nat) : (Frame.afterHeader s p m).state = s := by
  unfold Frame.afterHeader
  split <;> rfl

/-! ## The bytes copied -/

/-- The size line does not make `g_buff_outlen` wrap around, and `realloc` does not move the block
for it; no call goes on to copy where a request failed. -/
def KeepsBlock (alloc : Allocator) (mem : List UInt8) : Frame → Prop
  | .entry _ _ _ => True
  | .size s dataStart _ => ∀ itmp, (scanHex (mem.drop dataStart)).value = some itmp →
      s.buffOutlen + chunkLenOf itmp < 2 ^ 64 ∧
        (0 < chunkLenOf itmp → s.buffOut ≠ none → alloc s.allocs ≠ .moved)
  | .payload s _ _ => s.chunkRead < s.chunkLen → s.buffOut ≠ none

instance (alloc : Allocator) (mem : List UInt8) : DecidablePred (KeepsBlock alloc mem)
  | .entry _ _ _ => inferInstanceAs (Decidable True)
  | .size _ dataStart _ =>
    inferInstanceAs (Decidable (∀ itmp ∈ (scanHex (mem.drop dataStart)).value, _ ∧ (_ → _ → _)))
  | .payload _ _ _ => inferInstanceAs (Decidable (_ → _))

/-- What was copied and what is left of the chunk are within the size last requested and the size
announced. -/
structure CountInv (s : State) : Prop where
  requested : s.copied + (s.chunkLen - s.chunkRead) ≤ s.requested
  outlen : s.copied + (s.chunkLen - s.chunkRead) ≤ s.buffOutlen

/-- The block is live and of the size last requested, and `g_buff_pt` points behind the bytes
copied; without a block nothing is copied, or the request for the chunk failed. -/
def InBlock (s : State) : Prop :=
  match s.buffOut with
  | none => s.copied = 0 ∨ s.isChunkbegin = true ∧ s.chunkRead < s.chunkLen
  | some b => (s.heap.block b).live = true ∧ (s.heap.block b).size = s.requested ∧
      s.buffPt = some (b, s.copied)

@[simp] theorem grow_copied (alloc : Allocator) (s : State) : (s.grow alloc).copied = s.copied := by
  unfold State.grow
  split <;> rfl

@[simp] theorem grow_chunkLen (alloc : Allocator) (s : State) :
    (s.grow alloc).chunkLen = s.chunkLen := by
  unfold State.grow
  split <;> rfl

@[simp] theorem grow_chunkRead (alloc : Allocator) (s : State) :
    (s.grow alloc).chunkRead = s.chunkRead := by
  unfold State.grow
  split <;> rfl

@[simp] theorem grow_buffOutlen (alloc : Allocator) (s : State) :
    (s.grow alloc).buffOutlen = s.buffOutlen := by
  unfold State.grow
  split <;> rfl

@[simp] theorem grow_requested (alloc : Allocator) (s : State) :
    (s.grow alloc).requested = s.buffOutlen := by
  unfold State.grow
  split <;> rfl

@[simp] theorem grow_isChunkbegin (alloc : Allocator) (s : State) :
    (s.grow alloc).isChunkbegin = s.isChunkbegin := by
  unfold State.grow
  split <;> rfl

@[simp] theorem grow_isRunning (alloc : Allocator) (s : State) :
    (s.grow alloc).isRunning = s.isRunning := by
  unfold State.grow
  split <;> rfl

@[simp] theorem grow_isFirst (alloc : Allocator) (s : State) :
    (s.grow alloc).isFirst = s.isFirst := by
  unfold State.grow
  split <;> rfl

@[simp] theorem grow_allocs (alloc : Allocator) (s : State) :
    (s.grow alloc).allocs = s.allocs + 1 := by
  unfold State.grow
  split <;> rfl

theorem beginChunk_buffOutlen {s : State} {itmp : Int}
    (hw : s.buffOutlen + chunkLenOf itmp < 2 ^ 64) :
    (s.beginChunk itmp).buffOutlen = s.buffOutlen + chunkLenOf itmp := Nat.mod_eq_of_lt hw

/-- A first block. -/
theorem grow_none {alloc : Allocator} {s : State} (h : s.buffOut = none) {b : Nat}
    (hb : (s.grow alloc).buffOut = some b) :
    (s.grow alloc).heap.block b = ⟨s.buffOutlen, fun _ => none, true⟩ ∧
      (s.grow alloc).buffPt = some (b, 0) := by
  unfold State.grow at hb ⊢
  rw [h] at hb ⊢
  dsimp only at hb ⊢
  exact ⟨Heap.block_malloc hb, by rw [hb]; rfl⟩

/-- `malloc` gives a first block where it does not fail. -/
theorem grow_first {alloc : Allocator} {s : State} (h : s.buffOut = none)
    (ha : alloc s.allocs ≠ .fail) : ∃ b, (s.grow alloc).buffOut = some b ∧
      (s.grow alloc).heap.block b = ⟨s.buffOutlen, fun _ => none, true⟩ ∧
      (s.grow alloc).buffPt = some (b, 0) := by
  obtain ⟨b, hb⟩ : ∃ b, (s.grow alloc).buffOut = some b := by
    unfold State.grow
    rw [h]
    dsimp only
    cases hans : alloc s.allocs with
    | fail => exact absurd hans ha
    | inPlace => exact ⟨_, rfl⟩
    | moved => exact ⟨_, rfl⟩
  exact ⟨b, hb, grow_none h hb⟩

/-- A block that grows in place. -/
theorem grow_some {alloc : Allocator} {s : State} {b : Nat} (h : s.buffOut = some b)
    (hl : (s.heap.block b).live = true) (ha : alloc s.allocs = .inPlace) :
    (s.grow alloc).buffOut = some b ∧
      (s.grow alloc).heap.block b = (s.heap.block b).resize s.buffOutlen ∧
      (s.grow alloc).buffPt = s.buffPt := by
  unfold State.grow
  rw [h]
  dsimp only
  rw [ha]
  exact ⟨rfl, Heap.block_realloc_inPlace hl _, rfl⟩

/-- The request for a chunk, where `realloc` does not move the block. -/
theorem grow_inBlock {alloc : Allocator} {s : State} (hs : InBlock s)
    (h0 : s.buffOut = none → s.copied = 0) (hbegun : s.isChunkbegin = true)
    (hpos : s.chunkRead < s.chunkLen) (hm : s.buffOut ≠ none → alloc s.allocs ≠ .moved) :
    InBlock (s.grow alloc) := by
  unfold InBlock
  cases hg : (s.grow alloc).buffOut with
  | none =>
    dsimp only
    rw [grow_isChunkbegin, grow_chunkRead, grow_chunkLen]
    exact .inr ⟨hbegun, hpos⟩
  | some b' =>
    dsimp only
    cases h : s.buffOut with
    | none =>
      obtain ⟨hblock, hpt⟩ := grow_none h hg
      rw [hblock, hpt, grow_requested, grow_copied, h0 h]
      exact ⟨rfl, rfl, rfl⟩
    | some b =>
      unfold InBlock at hs
      rw [h] at hs
      obtain ⟨hl, -, hpt⟩ := hs
      have ha : alloc s.allocs = .inPlace := by
        cases hans : alloc s.allocs with
        | inPlace => rfl
        | moved => exact absurd hans (hm (by rw [h]; simp))
        | fail =>
          unfold State.grow at hg
          rw [h] at hg
          dsimp only at hg
          rw [hans] at hg
          cases hg
      obtain ⟨h1, h2, h3⟩ := grow_some h hl ha
      rw [h1] at hg
      cases hg
      rw [h2, h3, grow_requested, grow_copied]
      exact ⟨hl, rfl, hpt⟩

/-- A copy writes at the pointer, and moves it behind the bytes. -/
theorem copy_block {s : State} {b off : Nat} (hpt : s.buffPt = some (b, off))
    (hl : (s.heap.block b).live = true) (bytes : List UInt8) :
    (s.copy bytes).heap.block b = { s.heap.block b with
        cells := fun i => if off ≤ i ∧ i < off + bytes.length then bytes[i - off]?
          else (s.heap.block b).cells i } ∧
      (s.copy bytes).buffPt = some (b, off + bytes.length) := by
  simp only [State.copy, hpt]
  exact ⟨Heap.block_store (p := (b, off)) hl bytes, rfl⟩

theorem canCopy_of_room {s : State} {b off n : Nat} (hpt : s.buffPt = some (b, off))
    (hl : (s.heap.block b).live = true) (hle : off + n ≤ (s.heap.block b).size) :
    s.canCopy n = true := by
  unfold State.canCopy
  rw [hpt]
  simp only [Bool.or_eq_true, decide_eq_true_eq]
  exact .inr (Heap.canStore_iff.2 ⟨hl, hle⟩)

/-- A copy inside the block keeps its size. -/
theorem copy_inBlock {s : State} {bytes : List UInt8} (h : InBlock s) {b : Nat}
    (hb : s.buffOut = some b) : InBlock (s.copy bytes) := by
  unfold InBlock at h ⊢
  have hout : (s.copy bytes).buffOut = some b := hb
  rw [hb] at h
  rw [hout]
  obtain ⟨hl, hsz, hpt⟩ := h
  obtain ⟨hblock, hpt'⟩ := copy_block hpt hl bytes
  dsimp only
  rw [hblock]
  exact ⟨hl, hsz, hpt'⟩

theorem copy_count {s : State} (h : CountInv s) {bytes : List UInt8}
    (hlen : bytes.length ≤ s.chunkLen - s.chunkRead) : CountInv (s.copy bytes) := by
  obtain ⟨h1, h2⟩ := h
  constructor
  · simp only [State.copy]
    omega
  · simp only [State.copy]
    omega

theorem chunkInit_count {s : State} (h : CountInv s) : CountInv s.chunkInit := by
  obtain ⟨h1, h2⟩ := h
  constructor
  · simp only [State.chunkInit]
    omega
  · simp only [State.chunkInit]
    omega

theorem chunkInit_inBlock {s : State} (h : InBlock s)
    (hdone : s.buffOut = none → ¬ s.chunkRead < s.chunkLen) : InBlock s.chunkInit := by
  unfold InBlock at h ⊢
  have : s.chunkInit.buffOut = s.buffOut := rfl
  rw [this]
  cases hb : s.buffOut with
  | none =>
    rw [hb] at h
    exact .inl (h.resolve_right fun hx => hdone hb hx.2)
  | some b =>
    rw [hb] at h
    exact h

/-- The counters and the block of a state. -/
structure StateCount (s : State) : Prop where
  count : CountInv s
  block : InBlock s

/-- The counters and the block in the frames of a call; a size line is read between two chunks. -/
def FrameCount : Frame → Prop
  | .entry s _ _ => StateCount s
  | .size s _ _ => StateCount s ∧ s.isChunkbegin = false
  | .payload s _ _ => StateCount s

/-- The size line keeps the counters. -/
theorem beginChunk_count {alloc : Allocator} {s : State} (h : StateCount s)
    (hidle : s.isChunkbegin = false) {itmp : Int}
    (hw : s.buffOutlen + chunkLenOf itmp < 2 ^ 64)
    (hm : 0 < chunkLenOf itmp → s.buffOut ≠ none → alloc s.allocs ≠ .moved) (src : Option Nat)
    (m : Nat) : Sum.elim FrameCount (fun r => StateCount r.1)
      (allocChunk alloc (s.beginChunk itmp) src m) := by
  obtain ⟨⟨hq, ho⟩, hb⟩ := h
  have hlen := beginChunk_buffOutlen hw
  have hc : (s.beginChunk itmp).chunkLen = chunkLenOf itmp := rfl
  have hr0 : (s.beginChunk itmp).chunkRead = 0 := rfl
  have hcp : (s.beginChunk itmp).copied = s.copied := rfl
  have hrq : (s.beginChunk itmp).requested = s.requested := rfl
  have hout : (s.beginChunk itmp).buffOut = s.buffOut := rfl
  have hcopied : (s.beginChunk itmp).buffOut = none → s.copied = 0 := fun h0 => by
    unfold InBlock at hb
    rw [← hout, h0] at hb
    exact hb.resolve_right fun hx => absurd hx.1 (by simp [hidle])
  have hbegin : InBlock (s.beginChunk itmp) := by
    unfold InBlock at hb ⊢
    rw [hout]
    cases h0 : s.buffOut with
    | none => exact .inl (hcopied h0)
    | some b =>
      rw [h0] at hb
      exact hb
  -- the state after the request
  have hgrow : 0 < chunkLenOf itmp → StateCount ((s.beginChunk itmp).grow alloc) := by
    intro hpos
    refine ⟨⟨?_, ?_⟩, grow_inBlock hbegin hcopied rfl (by omega) (hm hpos)⟩
    · rw [grow_copied, grow_chunkLen, grow_chunkRead, grow_requested]
      omega
    · rw [grow_copied, grow_chunkLen, grow_chunkRead, grow_buffOutlen]
      omega
  rcases allocChunk_cases alloc (s.beginChunk itmp) src m with
    ⟨hno, he⟩ | ⟨⟨hpos, -⟩, ⟨-, he⟩ | ⟨-, he⟩⟩
  · -- nothing requested: the chunk is empty
    rw [he]
    exact ⟨⟨by omega, by omega⟩, hbegin⟩
  · rw [he]
    exact hgrow hpos
  · rw [he]
    exact hgrow hpos

/-- **One step keeps the counters**, where it keeps the block. -/
theorem step_count {alloc : Allocator} {mem : List UInt8} (f : Frame) (h : FrameCount f)
    (hk : KeepsBlock alloc mem f) :
    Sum.elim FrameCount (fun r => StateCount r.1) (step alloc mem f) := by
  cases f with
  | entry s p m =>
    simp only [step, exec]
    have h : StateCount s := h
    rcases execEntry_cases mem s p m with ⟨o, he⟩ | ⟨first, p', m', he⟩
    · rw [he]
      exact h
    · rw [he]
      have hs : StateCount { s with isFirst := first } :=
        ⟨⟨h.count.requested, h.count.outlen⟩, h.block⟩
      simp only [Sum.elim_inl, Frame.afterHeader]
      split
      · rename_i hbegun
        exact ⟨hs, by simpa using hbegun⟩
      · exact hs
  | size s p m =>
    simp only [step, exec]
    obtain ⟨hs, hidle⟩ : StateCount s ∧ s.isChunkbegin = false := h
    rcases execSize_cases alloc mem s p m with he | ⟨itmp, src, m', hv, he⟩
    · rw [he]
      exact hs
    · rw [he]
      obtain ⟨hw, hm⟩ := hk itmp hv
      exact beginChunk_count hs hidle hw hm src m'
  | payload s p m =>
    obtain ⟨hcount, hblock⟩ : StateCount s := h
    simp only [step, exec]
    rcases execPayload_cases mem s m p with ⟨hdone, he⟩ | ⟨hlt, he | ⟨bytes, hlen, -, hcases⟩⟩
    · rw [he]
      exact ⟨chunkInit_count hcount, chunkInit_inBlock hblock fun _ => hdone⟩
    · rw [he]
      exact ⟨hcount, hblock⟩
    · have hcp := cpsize_le s m
      obtain ⟨b, hb⟩ := Option.ne_none_iff_exists'.1 (hk hlt)
      have hcopy : StateCount (s.copy bytes) :=
        ⟨copy_count hcount (by omega), copy_inBlock hblock hb⟩
      have hinit : StateCount (s.copy bytes).chunkInit := by
        refine ⟨chunkInit_count hcopy.count, chunkInit_inBlock hcopy.block fun hnone => ?_⟩
        cases hb.symm.trans hnone
      rcases hcases with ⟨-, he⟩ | ⟨-, he | ⟨p', m', he⟩⟩
      · rw [he]
        exact hcopy
      · rw [he]
        exact hinit
      · rw [he]
        exact hinit

theorem reset_count (s : State) (running : Bool) : StateCount (s.reset running) :=
  ⟨⟨le_refl _, le_refl _⟩, .inl rfl⟩

/-- The counters of every state between two calls. -/
theorem reached_count {alloc : Allocator} {s : State} (h : Reached alloc (KeepsBlock alloc) s) :
    StateCount s := by
  induction h with
  | start => exact ⟨⟨le_refl _, le_refl _⟩, .inl rfl⟩
  | init _ ih =>
    unfold dechunkInit
    split
    · exact ih
    · exact reset_count _ _
  | @dechunk s s' seg _ _ _ hgood hret ih =>
    have h0 : FrameCount (.entry s 0 seg.length) := ih
    exact (Loop.invariant_rule h0 step_count hgood).2 _ hret
  | free _ ih =>
    unfold dechunkFree
    exact reset_count _ _

/-- **Every copy stays inside the block**, and within the size last requested, in any run whose size
lines do not make `g_buff_outlen` wrap around or the block move, and that does not go on to copy
after a request that failed. -/
theorem copied_le_requested {alloc : Allocator} {s : State}
    (h : Reached alloc (KeepsBlock alloc) s) :
    s.copied ≤ s.requested ∧
      ∀ seg tail, (∀ f, Comes alloc s seg tail f → KeepsBlock alloc (seg ++ tail) f) →
        ∀ s' p m, Comes alloc s seg tail (.payload s' p m) → s'.chunkRead < s'.chunkLen →
          s'.copied + s'.cpsize m ≤ s'.requested ∧ s'.canCopy (s'.cpsize m) = true := by
  have hs := reached_count h
  refine ⟨by have := hs.count.requested; omega, fun seg tail hgood s' p m hc hlt => ?_⟩
  have h0 : FrameCount (.entry s 0 seg.length) := hs
  obtain ⟨hcount, hblock⟩ : StateCount s' := (Loop.invariant_rule h0 step_count hgood).1 _ hc
  have hq := hcount.requested
  have hcp := cpsize_le s' m
  refine ⟨by omega, ?_⟩
  obtain ⟨b, hb⟩ := Option.ne_none_iff_exists'.1 (hgood _ hc hlt)
  unfold InBlock at hblock
  rw [hb] at hblock
  obtain ⟨hl, hsz, hpt⟩ := hblock
  exact canCopy_of_room hpt hl (by omega)

/-- Two chunks, for the second of which the block grows in place. -/
def twoChunks : List UInt8 := "\r\n\r\n5\r\nabcxx4\r\ndeyy".asciiBytes

/-- The copies of a call with two chunks, and the state after it. -/
theorem copied_le_requested_two :
    (∀ s p m, Comes .steady (dechunkInit .start).1 twoChunks [0] (.payload s p m) →
      s.chunkRead < s.chunkLen →
        s.copied + s.cpsize m ≤ s.requested ∧ s.canCopy (s.cpsize m) = true) ∧
    ∃ s, Reached .steady (KeepsBlock .steady) s ∧ s.copied = 5 ∧ s.allocs = 2 ∧
      s.copied ≤ s.requested := by
  have hgood : ∀ f, Comes .steady (dechunkInit .start).1 twoChunks [0] f →
      KeepsBlock .steady (twoChunks ++ [0]) f := fun _ hf =>
    Loop.forall_visits_of_checkRun 9 (by decide +kernel) hf
  obtain ⟨⟨s, o⟩, hret, ho, hcopied, hallocs⟩ : ∃ r, DechunkReturns .steady (dechunkInit .start).1
      twoChunks [0] r ∧ r.2 = .ret .ok ∧ r.1.copied = 5 ∧ r.1.allocs = 2 :=
    Loop.returns_of_run_any 9 (by decide +kernel)
  dsimp only at ho
  subst ho
  have hrun : Reached .steady (KeepsBlock .steady) s := .dechunk (.init .start) hgood hret
  exact ⟨(copied_le_requested (.init .start)).2 twoChunks [0] hgood, s, hrun, hcopied, hallocs,
    (copied_le_requested hrun).1⟩

/-- The copy behind the frame goes over the size last requested. -/
def Frame.overruns : Frame → Bool
  | .payload s _ m => s.chunkRead < s.chunkLen && s.requested < s.copied + s.cpsize m
  | _ => false

/-- A size line `1` behind a chunk of 3 bytes: 2 bytes are requested, 3 are copied already and a
copy of 2 more follows. -/
theorem copy_overruns : ∃ f, Comes .steady (dechunkInit .start).1
    "\r\n\r\n5\r\nabcxx1\r\nyy".asciiBytes [0] f ∧ f.overruns = true :=
  Loop.visits_of_iter 5 (by decide +kernel)

/-! ## The buffer -/

/-- The size line of a chunk does not wrap `g_buff_outlen` around and its request is met, by the
old block if there is one; the rest of a chunk is in the segment. -/
def KeepsUp (alloc : Allocator) (mem : List UInt8) : Frame → Prop
  | .entry _ _ _ => True
  | .size s dataStart _ => ∀ itmp, (scanHex (mem.drop dataStart)).value = some itmp →
      0 < chunkLenOf itmp → s.buffOutlen + chunkLenOf itmp < 2 ^ 64 ∧
        if s.buffOut = none then alloc s.allocs ≠ .fail else alloc s.allocs = .inPlace
  | .payload s _ dataLen => s.chunkLen - s.chunkRead ≤ dataLen

instance (alloc : Allocator) (mem : List UInt8) : DecidablePred (KeepsUp alloc mem)
  | .entry _ _ _ => inferInstanceAs (Decidable True)
  | .size s dataStart _ =>
    inferInstanceAs (Decidable (∀ itmp ∈ (scanHex (mem.drop dataStart)).value,
      0 < chunkLenOf itmp → s.buffOutlen + chunkLenOf itmp < 2 ^ 64 ∧
        if s.buffOut = none then alloc s.allocs ≠ .fail else alloc s.allocs = .inPlace))
  | .payload _ _ _ => inferInstanceAs (Decidable (_ ≤ _))

/-- The buffer is what was copied: `g_buff_pt` points behind it in the live block, and
`dechunk_getbuff` reports its size and only bytes that were written. -/
structure BuffOk (s : State) : Prop where
  size : (dechunkGetbuff s).2 = s.copied
  written : ∀ i < s.copied, ((dechunkGetbuff s).1 i).isSome = true
  pointer : match s.buffOut with
    | none => s.buffPt = none ∧ s.copied = 0
    | some b => s.buffPt = some (b, s.copied) ∧ (s.heap.block b).live = true ∧
        s.copied ≤ (s.heap.block b).size

/-- Between two calls the buffer is in order and no chunk is begun. -/
structure IdleOk (s : State) : Prop where
  buff : BuffOk s
  bound : s.buffOutlen < 2 ^ 64
  begun : s.isChunkbegin = false
  len : s.chunkLen = 0
  read : s.chunkRead = 0

/-- Behind a size line: room for the chunk in the live block. -/
structure RoomOk (s : State) (b : Nat) : Prop where
  out : s.buffOut = some b
  pt : s.buffPt = some (b, s.copied)
  live : (s.heap.block b).live = true
  size : (s.heap.block b).size = s.buffOutlen
  room : s.buffOutlen = s.copied + s.chunkLen
  bound : s.buffOutlen < 2 ^ 64
  pending : 0 < s.chunkLen
  read : s.chunkRead = 0
  written : ∀ i < s.copied, ((s.heap.block b).cells i).isSome = true

/-- The buffer in the frames of a call. -/
def FrameOk : Frame → Prop
  | .entry s _ _ => IdleOk s
  | .size s _ _ => IdleOk s
  | .payload s _ _ => IdleOk s.chunkInit ∧ s.chunkLen ≤ s.chunkRead ∨ ∃ b, RoomOk s b

theorem IdleOk.written {s : State} (h : IdleOk s) {b : Nat} (hb : s.buffOut = some b) :
    ∀ i < s.copied, ((s.heap.block b).cells i).isSome = true := by
  have := h.buff.written
  simp only [dechunkGetbuff, hb] at this
  exact this

/-- The request for a chunk leaves room for it. -/
theorem grow_room {alloc : Allocator} {s : State} (h : IdleOk s) {itmp : Int}
    (hpos : 0 < chunkLenOf itmp)
    (hw : s.buffOutlen + chunkLenOf itmp < 2 ^ 64)
    (ha : if s.buffOut = none then alloc s.allocs ≠ .fail else alloc s.allocs = .inPlace) :
    ∃ b, RoomOk ((s.beginChunk itmp).grow alloc) b := by
  have hlen := beginChunk_buffOutlen hw
  have hc : (s.beginChunk itmp).chunkLen = chunkLenOf itmp := rfl
  have hcp : (s.beginChunk itmp).copied = s.copied := rfl
  have hsize : s.buffOutlen = s.copied := h.buff.size
  have hpt := h.buff.pointer
  -- the counters do not depend on where the block is
  have hroom : ((s.beginChunk itmp).grow alloc).buffOutlen =
      ((s.beginChunk itmp).grow alloc).copied + ((s.beginChunk itmp).grow alloc).chunkLen := by
    rw [grow_buffOutlen, grow_copied, grow_chunkLen]
    omega
  have hbound : ((s.beginChunk itmp).grow alloc).buffOutlen < 2 ^ 64 := by
    rw [grow_buffOutlen]
    omega
  have hgpos : 0 < ((s.beginChunk itmp).grow alloc).chunkLen := by
    rw [grow_chunkLen]
    exact hpos
  have hread : ((s.beginChunk itmp).grow alloc).chunkRead = 0 := by
    rw [grow_chunkRead]
    rfl
  cases hb : s.buffOut with
  | none =>
    rw [hb] at hpt ha
    obtain ⟨-, h0⟩ := hpt
    have hans : alloc s.allocs ≠ .fail := by simpa using ha
    obtain ⟨b, hb', hblock, hpt'⟩ := grow_first (s := s.beginChunk itmp) hb hans
    refine ⟨b, hb', by rw [hpt', grow_copied, hcp, h0], by rw [hblock], ?_, hroom, hbound, hgpos,
      hread, ?_⟩
    · rw [hblock, grow_buffOutlen]
    · intro i hi
      rw [grow_copied, hcp, h0] at hi
      omega
  | some b =>
    rw [hb] at hpt ha
    obtain ⟨hpt, hl, hle⟩ := hpt
    have ha' : alloc s.allocs = .inPlace := by simpa using ha
    obtain ⟨h1, h2, h3⟩ := grow_some (s := s.beginChunk itmp) (b := b) hb hl ha'
    refine ⟨b, h1, by rw [h3, grow_copied]; exact hpt, by rw [h2]; exact hl, ?_, hroom, hbound,
      hgpos, hread, ?_⟩
    · rw [h2, grow_buffOutlen]
      rfl
    · intro i hi
      rw [grow_copied, hcp] at hi
      rw [h2]
      simp only [Block.resize]
      rw [if_pos (by omega)]
      exact h.written hb i hi

/-- The copy of a whole chunk leaves the buffer in order. -/
theorem RoomOk.copy {s : State} {b : Nat} (h : RoomOk s b) (bytes : List UInt8)
    (hlen : bytes.length = s.chunkLen) : IdleOk (s.copy bytes).chunkInit := by
  obtain ⟨hblock, hpt⟩ : ((s.copy bytes).chunkInit).heap.block b = _ ∧
      ((s.copy bytes).chunkInit).buffPt = _ := copy_block h.pt h.live bytes
  have hout : ((s.copy bytes).chunkInit).buffOut = some b := h.out
  have hcopied : ((s.copy bytes).chunkInit).copied = s.copied + bytes.length := rfl
  have hol : ((s.copy bytes).chunkInit).buffOutlen = s.buffOutlen := rfl
  have hroom := h.room
  refine ⟨⟨?_, fun i hi => ?_, ?_⟩, by rw [hol]; exact h.bound, rfl, rfl, rfl⟩
  · show ((s.copy bytes).chunkInit).buffOutlen = _
    omega
  · simp only [dechunkGetbuff, hout]
    rw [hblock]
    dsimp only
    by_cases hi' : i < s.copied
    · rw [if_neg (by omega)]
      exact h.written i hi'
    · rw [if_pos (by omega), List.getElem?_eq_getElem (by omega)]
      rfl
  · rw [hout]
    refine ⟨hpt, ?_, ?_⟩
    · rw [hblock]
      exact h.live
    · rw [hblock, hcopied]
      have := h.size
      dsimp only
      omega

/-- An empty chunk leaves the buffer as it is. -/
theorem IdleOk.beginChunk {s : State} (h : IdleOk s) {itmp : Int} (h0 : chunkLenOf itmp = 0) :
    IdleOk (s.beginChunk itmp).chunkInit := by
  have : (s.beginChunk itmp).chunkInit = s := by
    obtain ⟨-, hb, h1, h2, h3⟩ := h
    cases s
    simp only [State.chunkInit, State.beginChunk, State.mk.injEq, and_true, true_and] at *
    rw [h0]
    exact ⟨Nat.mod_eq_of_lt hb, h2.symm, h3.symm, h1.symm⟩
  rw [this]
  exact h

/-- **One step keeps the buffer in order**, where it keeps up. -/
theorem step_ok {alloc : Allocator} {mem : List UInt8} (f : Frame) (h : FrameOk f)
    (hk : KeepsUp alloc mem f) :
    Sum.elim FrameOk (fun r => r.2 ≠ .crash → IdleOk r.1) (step alloc mem f) := by
  cases f with
  | entry s p m =>
    simp only [step, exec]
    have h : IdleOk s := h
    rcases execEntry_cases mem s p m with ⟨o, he⟩ | ⟨first, p', m', he⟩
    · rw [he]
      exact fun _ => h
    · rw [he]
      have hok : IdleOk { s with isFirst := first } :=
        ⟨⟨h.buff.size, h.buff.written, h.buff.pointer⟩, h.bound, h.begun, h.len, h.read⟩
      have hsize : Frame.afterHeader { s with isFirst := first } p' m' =
          .size { s with isFirst := first } p' m' := by
        simp [Frame.afterHeader, h.begun]
      rw [hsize]
      exact hok
  | size s p m =>
    simp only [step, exec]
    have h : IdleOk s := h
    rcases execSize_cases alloc mem s p m with he | ⟨itmp, src, m', hv, he⟩
    · rw [he]
      exact fun hne => absurd rfl hne
    · rw [he]
      by_cases h0 : chunkLenOf itmp = 0
      · -- no chunk
        rcases allocChunk_cases alloc (s.beginChunk itmp) src m' with ⟨-, he'⟩ | ⟨⟨hpos, -⟩, -⟩
        · rw [he']
          exact .inl ⟨h.beginChunk h0, by simp [State.beginChunk, h0]⟩
        · simp [State.beginChunk, h0] at hpos
      · have hpos := Nat.pos_of_ne_zero h0
        obtain ⟨hw, ha⟩ := hk itmp hv hpos
        obtain ⟨b, hroom⟩ := grow_room h hpos hw ha
        rcases allocChunk_cases alloc (s.beginChunk itmp) src m' with
          ⟨hno, -⟩ | ⟨-, ⟨hfail, -⟩ | ⟨-, he'⟩⟩
        · refine absurd ⟨hpos, ?_⟩ hno
          have hlen := beginChunk_buffOutlen hw
          omega
        · rw [hroom.out] at hfail
          cases hfail
        · rw [he']
          exact .inr ⟨b, hroom⟩
  | payload s p m =>
    simp only [step, exec]
    rcases h with ⟨hidle, hle⟩ | ⟨b, hroom⟩
    · rcases execPayload_cases mem s m p with ⟨-, he⟩ | ⟨hlt, -⟩
      · rw [he]
        exact fun _ => hidle
      · omega
    · have hread := hroom.read
      have hpend := hroom.pending
      have hm : s.chunkLen - s.chunkRead ≤ m := hk
      rcases execPayload_cases mem s m p with ⟨hlt, -⟩ | ⟨-, he | ⟨bytes, hlen, -, hcases⟩⟩
      · omega
      · rw [he]
        exact fun hne => absurd rfl hne
      · -- the whole chunk is copied
        have hcp := cpsize_le s m
        have hcopy := hroom.copy bytes (by omega)
        rcases hcases with ⟨hlt, -⟩ | ⟨-, he | ⟨p', m', he⟩⟩
        · omega
        · rw [he]
          exact fun _ => hcopy
        · rw [he]
          exact hcopy

theorem reset_ok (s : State) (running : Bool) : IdleOk (s.reset running) :=
  ⟨⟨rfl, fun _ hi => absurd hi (Nat.not_lt_zero _), rfl, rfl⟩, Nat.two_pow_pos 64, rfl, rfl, rfl⟩

/-- **The buffer is what was copied**, in every state between two calls of a run that keeps up:
of its size, written, and with `g_buff_pt` behind it in the live block. -/
theorem buffer_ok {alloc : Allocator} {s : State} (h : Reached alloc (KeepsUp alloc) s) :
    BuffOk s := by
  have key : IdleOk s := by
    induction h with
    | start => exact reset_ok .start false
    | init _ ih =>
      unfold dechunkInit
      split
      · exact ih
      · exact reset_ok _ _
    | @dechunk s s' seg _ _ _ hgood hret ih =>
      have h0 : FrameOk (.entry s 0 seg.length) := ih
      exact (Loop.invariant_rule h0 step_ok hgood).2 _ hret (by simp)
    | free _ ih => exact reset_ok _ _
  exact key.buff

/-- After a call that copies two chunks. -/
theorem buffer_ok_two : ∃ s, Reached .steady (KeepsUp .steady) s ∧ s.copied = 5 ∧
    s.allocs = 2 ∧ BuffOk s := by
  obtain ⟨⟨s, o⟩, hret, ho, hcopied, hallocs⟩ : ∃ r, DechunkReturns .steady (dechunkInit .start).1
      twoChunks [0] r ∧ r.2 = .ret .ok ∧ r.1.copied = 5 ∧ r.1.allocs = 2 :=
    Loop.returns_of_run_any 9 (by decide +kernel)
  dsimp only at ho
  subst ho
  have hrun : Reached .steady (KeepsUp .steady) s := .dechunk (.init .start)
    (fun _ hf => Loop.forall_visits_of_checkRun 9 (by decide +kernel) hf) hret
  exact ⟨s, hrun, hcopied, hallocs, buffer_ok hrun⟩

/-- A segment that ends behind the first byte of a chunk: one byte is copied, three are reported,
two of them never written. -/
theorem buffer_cut : ∃ s, Reached .steady (fun _ _ => True) s ∧ s.copied = 1 ∧
    (dechunkGetbuff s).2 = 3 ∧ (dechunkGetbuff s).1 1 = none := by
  obtain ⟨⟨s, o⟩, hret, ho, h⟩ : ∃ r, DechunkReturns .steady (dechunkInit .start).1
      "\r\n\r\n5\r\na".asciiBytes [0] r ∧ r.2 = .ret .ok ∧ r.1.copied = 1 ∧
        (dechunkGetbuff r.1).2 = 3 ∧ (dechunkGetbuff r.1).1 1 = none :=
    Loop.returns_of_run_any 5 (by decide +kernel)
  dsimp only at ho
  subst ho
  exact ⟨s, .dechunk (.init .start) (fun _ _ => trivial) hret, h⟩

end Dechunk
