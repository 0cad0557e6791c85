import CodeLibrary.Dechunk.Decoder

/-!
# What one step of `dechunk` does

One equation for each way through a step: `execEntry_found`, `execSize_line`,
`execPayload_copy` are the ways that go on to the next byte. `execEntry_cases`, `execSize_cases`,
`execPayload_cases` say what becomes of the statics, whatever was read. `dechunk_total`: every call
returns, or crashes.
-/

namespace Dechunk

open CHeap

theorem crlf_length : crlf.length = 2 := rfl
theorem crlf2_length : crlf2.length = 4 := rfl
theorem crlf_ne_nil : crlf ≠ [] := by decide
theorem crlf2_ne_nil : crlf2 ≠ [] := by decide

theorem subSize_of_le {a b : Nat} (h : b ≤ a) (ha : a < 2 ^ 64) : subSize a b = a - b := by
  unfold subSize
  omega

section
variable {alloc : Allocator} {mem : List UInt8} {s : State} {p m : Nat}

/-! ## The head of `dechunk` -/

theorem execEntry_lock (h : s.isRunning = false) :
    execEntry mem s p m = ([], .inr (s, .ret .lock)) := by simp [execEntry, h]

theorem execEntry_argument (h : s.isRunning = true) :
    execEntry mem s p 0 = ([], .inr (s, .ret .argument)) := by simp [execEntry, h]

theorem execEntry_rest (h : s.isRunning = true) (hm : m ≠ 0) (hf : s.isFirst = false) :
    execEntry mem s p m = ([], .inl (.afterHeader s p m)) := by simp [execEntry, h, hm, hf]

section
variable (h : s.isRunning = true) (hm : m ≠ 0) (hf : s.isFirst = true)
include h hm hf

theorem execEntry_crash (hv : (memstr (mem.drop p) m crlf2).value = none) :
    execEntry mem s p m =
      ([.read (p + (memstr (mem.drop p) m crlf2).read)], .inr (s, .crash)) := by
  simp [execEntry, h, hm, hf, hv]

theorem execEntry_format (hv : (memstr (mem.drop p) m crlf2).value = some none) :
    execEntry mem s p m =
      ([.read (p + (memstr (mem.drop p) m crlf2).read)], .inr (s, .ret .format)) := by
  simp [execEntry, h, hm, hf, hv]

theorem execEntry_found {k : Nat} (hv : (memstr (mem.drop p) m crlf2).value = some (some k)) :
    execEntry mem s p m =
      ([.read (p + (memstr (mem.drop p) m crlf2).read),
          .cursor (p + (k + 4)) (subSize m (k + 4))],
        .inl (.afterHeader { s with isFirst := false } (p + (k + 4)) (subSize m (k + 4)))) := by
  simp [execEntry, h, hm, hf, hv]

end

/-! ## The size line -/

theorem execSize_crash (hv : (scanHex (mem.drop p)).value = none) :
    execSize alloc mem s p m = ([.read (p + (scanHex (mem.drop p)).read)], .inr (s, .crash)) := by
  simp [execSize, hv]

section
variable {itmp : Int} (hv : (scanHex (mem.drop p)).value = some itmp)
include hv

theorem execSize_lost (hc : (memstr (mem.drop p) m crlf).value = none) :
    execSize alloc mem s p m =
      ([.read (p + (scanHex (mem.drop p)).read), .read (p + (memstr (mem.drop p) m crlf).read)],
        .inr (s, .crash)) := by
  simp [execSize, hv, hc]

theorem execSize_wild (hc : (memstr (mem.drop p) m crlf).value = some none) :
    execSize alloc mem s p m =
      ([.read (p + (scanHex (mem.drop p)).read), .read (p + (memstr (mem.drop p) m crlf).read),
          .wild], allocChunk alloc (s.beginChunk itmp) none m) := by
  simp [execSize, hv, hc]

theorem execSize_line {k : Nat} (hc : (memstr (mem.drop p) m crlf).value = some (some k)) :
    execSize alloc mem s p m =
      ([.read (p + (scanHex (mem.drop p)).read), .read (p + (memstr (mem.drop p) m crlf).read),
          .cursor (p + (k + 2)) (subSize m (k + 2))],
        allocChunk alloc (s.beginChunk itmp) (some (p + (k + 2))) (subSize m (k + 2))) := by
  simp [execSize, hv, hc]

end

/-- Behind the size line the call goes on to the payload, or the request failed. -/
theorem allocChunk_cases (alloc : Allocator) (s : State) (src : Option Nat) (m : Nat) :
    (¬ (0 < s.chunkLen ∧ s.buffOutlen ≠ 0) ∧ allocChunk alloc s src m = .inl (.payload s src m)) ∨
      ((0 < s.chunkLen ∧ s.buffOutlen ≠ 0) ∧
        (((s.grow alloc).buffOut = none ∧
            allocChunk alloc s src m = .inr (s.grow alloc, .ret .mem)) ∨
          ((s.grow alloc).buffOut ≠ none ∧
            allocChunk alloc s src m = .inl (.payload (s.grow alloc) src m)))) := by
  unfold allocChunk
  by_cases h : 0 < s.chunkLen ∧ s.buffOutlen ≠ 0
  · by_cases h' : (s.grow alloc).buffOut = none <;> simp [h, h']
  · simp [h]

/-! ## The payload -/

theorem cpsize_le (s : State) (m : Nat) : s.cpsize m ≤ m ∧
    s.cpsize m ≤ s.chunkLen - s.chunkRead ∧
    (s.cpsize m = m ∨ s.cpsize m = s.chunkLen - s.chunkRead) := by
  unfold State.cpsize
  split <;> omega

theorem execPayload_done (h : ¬ s.chunkRead < s.chunkLen) (src : Option Nat) :
    execPayload mem s src m = ([], .inr (s.chunkInit, .ret .ok)) := by simp [execPayload, h]

theorem execPayload_wild (h : s.chunkRead < s.chunkLen) :
    execPayload mem s none m = ([], .inr (s, .crash)) := by simp [execPayload, h]

theorem execPayload_crash (h : s.chunkRead < s.chunkLen)
    (hc : ¬ (((mem.drop p).take (s.cpsize m)).length = s.cpsize m ∧
      s.canCopy (s.cpsize m) = true)) :
    execPayload mem s (some p) m = ([.read (p + s.cpsize m)], .inr (s, .crash)) := by
  unfold execPayload
  simp only [h, ↓reduceIte]
  rw [if_neg hc]

/-- The copy: the call goes on, or returns. -/
theorem execPayload_copy (h : s.chunkRead < s.chunkLen)
    (hc : ((mem.drop p).take (s.cpsize m)).length = s.cpsize m)
    (hw : s.canCopy (s.cpsize m) = true) :
    (execPayload mem s (some p) m).1 =
        [.read (p + s.cpsize m), .cursor (p + (s.cpsize m + 2)) (subSize m (s.cpsize m + 2))] ∧
      (execPayload mem s (some p) m).2 =
        if s.chunkLen - s.chunkRead ≤ m then
          if subSize m (s.cpsize m + 2) > 0 then
            .inl (.entry (s.copy ((mem.drop p).take (s.cpsize m))).chunkInit
              (p + (s.cpsize m + 2)) (subSize m (s.cpsize m + 2)))
          else .inr ((s.copy ((mem.drop p).take (s.cpsize m))).chunkInit, .ret .ok)
        else .inr (s.copy ((mem.drop p).take (s.cpsize m)), .ret .ok) := by
  have hread : (s.copy ((mem.drop p).take (s.cpsize m))).chunkRead ≥
      (s.copy ((mem.drop p).take (s.cpsize m))).chunkLen ↔ s.chunkLen - s.chunkRead ≤ m := by
    have := cpsize_le s m
    simp only [State.copy, hc]
    omega
  unfold execPayload
  simp only [h, ↓reduceIte]
  rw [if_pos ⟨hc, hw⟩]
  simp only [hread]
  split
  · split <;> exact ⟨rfl, rfl⟩
  · exact ⟨rfl, rfl⟩

end

/-! ## The statics -/

section
variable (alloc : Allocator) (mem : List UInt8) (s : State) (p m : Nat)

/-- The head returns, or goes on with at most the flag of the header changed. -/
theorem execEntry_cases : (∃ o, (execEntry mem s p m).2 = .inr (s, o)) ∨
    ∃ isFirst p' m', (execEntry mem s p m).2 = .inl (.afterHeader { s with isFirst } p' m') := by
  by_cases hr : s.isRunning = true
  swap
  · exact .inl ⟨_, by rw [execEntry_lock (by simpa using hr)]⟩
  by_cases hm : m = 0
  · subst hm
    exact .inl ⟨_, by rw [execEntry_argument hr]⟩
  by_cases hf : s.isFirst = true
  · cases hv : (memstr (mem.drop p) m crlf2).value with
    | none => exact .inl ⟨_, by rw [execEntry_crash hr hm hf hv]⟩
    | some found =>
      cases found with
      | none => exact .inl ⟨_, by rw [execEntry_format hr hm hf hv]⟩
      | some k => exact .inr ⟨_, _, _, by rw [execEntry_found hr hm hf hv]⟩
  · exact .inr ⟨s.isFirst, _, _, by rw [execEntry_rest hr hm (by simpa using hf)]⟩

/-- The size line crashes, or begins a chunk. -/
theorem execSize_cases : (execSize alloc mem s p m).2 = .inr (s, .crash) ∨
    ∃ itmp src m', (scanHex (mem.drop p)).value = some itmp ∧
      (execSize alloc mem s p m).2 = allocChunk alloc (s.beginChunk itmp) src m' := by
  cases hv : (scanHex (mem.drop p)).value with
  | none => exact .inl (by rw [execSize_crash hv])
  | some itmp =>
    cases hc : (memstr (mem.drop p) m crlf).value with
    | none => exact .inl (by rw [execSize_lost hv hc])
    | some found =>
      cases found with
      | none => exact .inr ⟨itmp, _, _, rfl, by rw [execSize_wild hv hc]⟩
      | some k => exact .inr ⟨itmp, _, _, rfl, by rw [execSize_line hv hc]⟩

/-- The payload step has nothing to copy, crashes, copies a part of the chunk and returns, or
completes it. -/
theorem execPayload_cases (src : Option Nat) :
    (¬ s.chunkRead < s.chunkLen ∧ (execPayload mem s src m).2 = .inr (s.chunkInit, .ret .ok)) ∨
      s.chunkRead < s.chunkLen ∧ ((execPayload mem s src m).2 = .inr (s, .crash) ∨
        ∃ bytes : List UInt8, bytes.length = s.cpsize m ∧ s.canCopy (s.cpsize m) = true ∧
          ((m < s.chunkLen - s.chunkRead ∧
              (execPayload mem s src m).2 = .inr (s.copy bytes, .ret .ok)) ∨
            (s.chunkLen - s.chunkRead ≤ m ∧
              ((execPayload mem s src m).2 = .inr ((s.copy bytes).chunkInit, .ret .ok) ∨
                ∃ p' m', (execPayload mem s src m).2 =
                  .inl (.entry (s.copy bytes).chunkInit p' m'))))) := by
  by_cases hlt : s.chunkRead < s.chunkLen
  swap
  · exact .inl ⟨hlt, by rw [execPayload_done hlt]⟩
  refine .inr ⟨hlt, ?_⟩
  cases src with
  | none => exact .inl (by rw [execPayload_wild hlt])
  | some p =>
    by_cases hc : ((mem.drop p).take (s.cpsize m)).length = s.cpsize m ∧
        s.canCopy (s.cpsize m) = true
    swap
    · exact .inl (by rw [execPayload_crash hlt hc])
    refine .inr ⟨_, hc.1, hc.2, ?_⟩
    rw [(execPayload_copy hlt hc.1 hc.2).2]
    by_cases hm : s.chunkLen - s.chunkRead ≤ m
    · refine .inr ⟨hm, ?_⟩
      rw [if_pos hm]
      by_cases hl : subSize m (s.cpsize m + 2) > 0
      · exact .inr ⟨_, _, by rw [if_pos hl]⟩
      · exact .inl (by rw [if_neg hl])
    · exact .inl ⟨by omega, by rw [if_neg hm]⟩

end

/-! ## Termination -/

/-- How far a call is: the bytes of memory before it, and the steps to the next one read. -/
def Frame.rank (mem : List UInt8) : Frame → Nat
  | .entry _ dataStart _ => 3 * (mem.length + 2 - dataStart) + 2
  | .size _ dataStart _ => 3 * (mem.length + 2 - dataStart) + 1
  | .payload _ (some dataStart) _ => 3 * (mem.length + 2 - dataStart)
  | .payload _ none _ => 0

theorem Frame.rank_payload_lt {mem : List UInt8} {src : Option Nat} {p : Nat}
    (h : ∀ q, src = some q → p < q) (s : State) (m : Nat) :
    (Frame.payload s src m).rank mem < 3 * (mem.length + 2 - p) + 1 := by
  cases src with
  | none => simp [Frame.rank]
  | some q =>
    have := h q rfl
    simp only [Frame.rank]
    omega

theorem Frame.afterHeader_rank (mem : List UInt8) (s : State) (p m : Nat) :
    (Frame.afterHeader s p m).rank mem < 3 * (mem.length + 2 - p) + 2 := by
  unfold Frame.afterHeader
  split <;> simp [Frame.rank]

theorem step_rank {alloc : Allocator} {mem : List UInt8} {f f' : Frame}
    (h : step alloc mem f = .inl f') : f'.rank mem < f.rank mem := by
  cases f with
  | entry s p m =>
    replace h : (execEntry mem s p m).2 = .inl f' := h
    by_cases hr : s.isRunning = true
    swap
    · rw [execEntry_lock (by simpa using hr)] at h
      cases h
    by_cases hm : m = 0
    · subst hm
      rw [execEntry_argument hr] at h
      cases h
    by_cases hf : s.isFirst = true
    · cases hv : (memstr (mem.drop p) m crlf2).value with
      | none => rw [execEntry_crash hr hm hf hv] at h; cases h
      | some found =>
        cases found with
        | none => rw [execEntry_format hr hm hf hv] at h; cases h
        | some k =>
          rw [execEntry_found hr hm hf hv] at h
          cases h
          apply lt_of_lt_of_le (Frame.afterHeader_rank mem _ _ _)
          simp only [Frame.rank]
          omega
    · rw [execEntry_rest hr hm (by simpa using hf)] at h
      cases h
      exact Frame.afterHeader_rank mem _ _ _
  | size s p m =>
    replace h : (execSize alloc mem s p m).2 = .inl f' := h
    cases hv : (scanHex (mem.drop p)).value with
    | none => rw [execSize_crash hv] at h; cases h
    | some itmp =>
      have key : ∀ (src : Option Nat) (len : Nat), (∀ q, src = some q → p < q) →
          allocChunk alloc (s.beginChunk itmp) src len = .inl f' →
          f'.rank mem < 3 * (mem.length + 2 - p) + 1 := by
        intro src len hq hf
        rcases allocChunk_cases alloc (s.beginChunk itmp) src len with
          ⟨-, he⟩ | ⟨-, ⟨-, he⟩ | ⟨-, he⟩⟩
        all_goals
          rw [he] at hf
          cases hf
        · exact Frame.rank_payload_lt hq _ _
        · exact Frame.rank_payload_lt hq _ _
      cases hc : (memstr (mem.drop p) m crlf).value with
      | none => rw [execSize_lost hv hc] at h; cases h
      | some found =>
        cases found with
        | none =>
          rw [execSize_wild hv hc] at h
          exact key _ _ (by simp) h
        | some k =>
          rw [execSize_line hv hc] at h
          exact key _ _ (by simp) h
  | payload s p m =>
    replace h : (execPayload mem s p m).2 = .inl f' := h
    by_cases hlt : s.chunkRead < s.chunkLen
    swap
    · rw [execPayload_done hlt] at h
      cases h
    cases p with
    | none => rw [execPayload_wild hlt] at h; cases h
    | some p =>
      by_cases hc : ((mem.drop p).take (s.cpsize m)).length = s.cpsize m ∧
          s.canCopy (s.cpsize m) = true
      · rw [(execPayload_copy hlt hc.1 hc.2).2] at h
        split at h
        · split at h
          · cases h
            -- the copy was not empty, so it was inside the memory
            have hle := hc.1
            have := cpsize_le s m
            rw [List.length_take, List.length_drop] at hle
            simp only [Frame.rank]
            omega
          · cases h
        · cases h
      · rw [execPayload_crash hlt hc] at h
        cases h

/-- **Every call of `dechunk` ends.** -/
theorem dechunk_total (alloc : Allocator) (s : State) (seg tail : List UInt8) :
    ∃ r, DechunkReturns alloc s seg tail r :=
  Loop.returns_of_variant (I := fun _ => True) (Frame.rank (seg ++ tail))
    (fun _ _ _ h => ⟨trivial, step_rank h⟩) trivial

end Dechunk
