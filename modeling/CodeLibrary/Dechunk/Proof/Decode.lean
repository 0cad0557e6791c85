import CodeLibrary.Dechunk.Proof.Buffer
import CodeLibrary.Dechunk.Stream
import Mathlib.Data.List.Forall2

/-!
# How `dechunk` decodes a response

* `decodes_iff`: of a framing with chunks some response is decoded wrongly; without chunks every
  one is decoded, given that a NUL is mapped behind it.
-/

namespace Dechunk

open CHeap

/-! ## Lines -/

theorem foldByte_eq_cr {c : UInt8} (h : foldByte c = 13) : c = 13 := by
  unfold foldByte at h
  split at h
  · have := congrArg UInt8.toNat h
    rw [UInt8.toNat_or, show (0x20 : UInt8).toNat = 32 from rfl,
      show (13 : UInt8).toNat = 13 from rfl] at this
    have hle : 32 ≤ c.toNat ||| 32 := Nat.right_le_or
    omega
  · exact h

/-- A line end stands at a carriage return. -/
theorem IsAt.cr {seg : List UInt8} {j : Nat} (h : IsAt crlf seg j) : seg[j]? = some 13 := by
  obtain ⟨t, ht⟩ := h
  have := congrArg (fun l => l[0]?) ht
  simp only [List.getElem?_map, List.getElem?_drop, Nat.add_zero] at this
  cases hj : seg[j]? with
  | none => rw [hj] at this; cases this
  | some c =>
    rw [hj] at this
    have hc : foldByte c = 13 := (Option.some.inj this).symm
    rw [foldByte_eq_cr hc]

/-- The first line end is behind a line without carriage return. -/
theorem firstAt_crlf {line : List UInt8} (h : ∀ c ∈ line, c ≠ 13) (rest : List UInt8) :
    FirstAt crlf (line ++ crlf ++ rest) line.length := by
  constructor
  · rw [IsAt, List.append_assoc, List.drop_left, List.map_append]
    exact List.prefix_append _ _
  · intro j hj hat
    have := hat.cr
    rw [List.append_assoc, List.getElem?_append_left hj] at this
    exact h 13 (List.mem_of_getElem? this) rfl

theorem hexValueFrom_digits : ∀ {line : List UInt8} {acc n : Nat}, hexValueFrom acc line = some n →
    ∀ c ∈ line, 48 ≤ c.toNat
  | [], _, _, _, c, hc => absurd hc List.not_mem_nil
  | b :: line, acc, n, h, c, hc => by
    obtain ⟨d, hd, h⟩ := Option.bind_eq_some_iff.1 h
    rcases List.mem_cons.1 hc with rfl | hc
    · exact hexDigit?_ge hd
    · exact hexValueFrom_digits h c hc

theorem hexValue?_ge {line : List UInt8} {n : Nat} (h : hexValue? line = some n) {c : UInt8}
    (hc : c ∈ line) : 48 ≤ c.toNat := by
  unfold hexValue? at h
  split at h
  · cases h
  · exact hexValueFrom_digits h c hc

theorem hexValue?_ne_cr {line : List UInt8} {n : Nat} (h : hexValue? line = some n) :
    ∀ c ∈ line, c ≠ 13 := by
  rintro c hc rfl
  exact absurd (hexValue?_ge h hc) (by decide)

theorem hexInt_false {n : Nat} (hn : n < 2 ^ 64) : hexInt false n =
    (if 2 ^ 31 ≤ n % 2 ^ 32 then ((n % 2 ^ 32 : Nat) : Int) - 2 ^ 32
      else ((n % 2 ^ 32 : Nat) : Int) : Int) := by
  have hul : (if 2 ^ 64 ≤ n then 2 ^ 64 - 1 else
      if false = true then (2 ^ 64 - n) % 2 ^ 64 else n) = n := by
    rw [if_neg (by omega), if_neg Bool.false_ne_true]
  unfold hexInt
  dsimp only
  rw [hul]

/-- The chunk length of a size line: nothing, close to `2 ^ 64`, or at least two less than it
says. -/
theorem chunkLenOf_cases {n : Nat} (hn : n < 2 ^ 63) :
    chunkLenOf (hexInt false n) = 0 ∨ 2 ^ 64 - 2 ^ 31 ≤ chunkLenOf (hexInt false n) ∨
      (0 < chunkLenOf (hexInt false n) ∧ chunkLenOf (hexInt false n) + 2 ≤ n) := by
  rw [hexInt_false (by omega)]
  have hle : n % 2 ^ 32 ≤ n := Nat.mod_le _ _
  have hlt : n % 2 ^ 32 < 2 ^ 32 := Nat.mod_lt _ (by decide)
  generalize n % 2 ^ 32 = u at hle hlt
  unfold chunkLenOf
  dsimp only
  by_cases h1 : 2 ^ 31 ≤ u
  · -- negative
    rw [if_pos h1, if_neg (by omega)]
    omega
  · rw [if_neg h1]
    by_cases h0 : u = 0
    · subst h0
      exact .inl rfl
    · rw [if_pos (by omega)]
      omega

theorem chunkLenOf_lt (itmp : Int) : chunkLenOf itmp < 2 ^ 64 := by
  unfold chunkLenOf
  dsimp only
  omega

/-! ## Steps on a response -/

theorem isAt_append_left {sub a b : List UInt8} {k : Nat} (h : IsAt sub (a ++ b) k)
    (hk : k + sub.length ≤ a.length) : IsAt sub a k := by
  unfold IsAt at h ⊢
  rw [List.drop_append_of_le_length (by omega), List.map_append] at h
  apply List.prefix_of_prefix_length_le h (List.prefix_append _ _)
  simp only [List.length_map, List.length_drop]
  omega

/-- A header ends where it first holds an empty line. -/
theorem firstAt_header {header : List UInt8}
    (hh : ∀ j < header.length, ¬ IsAt crlf2 (header ++ crlf2) j) (body : List UInt8) :
    FirstAt crlf2 (header ++ crlf2 ++ body) header.length := by
  constructor
  · rw [IsAt, List.append_assoc, List.drop_left, List.map_append]
    exact List.prefix_append _ _
  · intro j hj hat
    exact hh j hj (isAt_append_left hat (by rw [List.length_append]; omega))

/-- Behind the header the head of `dechunk` goes on to the size line. -/
theorem step_entry_size {alloc : Allocator} {mem : List UInt8} {s : State} {p m : Nat}
    (hr : s.isRunning = true) (hm : m ≠ 0) (hf : s.isFirst = false) (hb : s.isChunkbegin = false) :
    step alloc mem (.entry s p m) = .inl (.size s p m) := by
  simp only [step, exec]
  rw [execEntry_rest hr hm hf]
  simp [Frame.afterHeader, hb]

section
variable {alloc : Allocator} {mem R tail : List UInt8} {s : State} {p m : Nat}
  (hmem : mem.drop p = R ++ tail) (hm : m = R.length) (hlt : m < 2 ^ 64)
include hmem hm hlt

/-- The header of a response is passed over. -/
theorem step_header (hr : s.isRunning = true) (hf : s.isFirst = true)
    (hb : s.isChunkbegin = false) {header body : List UInt8} (hR : R = header ++ crlf2 ++ body)
    (hh : ∀ j < header.length, ¬ IsAt crlf2 (header ++ crlf2) j) :
    step alloc mem (.entry s p m) =
        .inl (.size { s with isFirst := false } (p + (header.length + 4)) body.length) ∧
      mem.drop (p + (header.length + 4)) = body ++ tail := by
  have hfirst : FirstAt crlf2 R header.length := by
    rw [hR]
    exact firstAt_header hh body
  have hlen : R.length = header.length + 4 + body.length := by
    rw [hR, List.length_append, List.length_append, crlf2_length]
  obtain ⟨hv, -⟩ := memstr_found crlf2_ne_nil tail hfirst
  rw [← hmem, ← hm] at hv
  constructor
  · simp only [step, exec]
    rw [execEntry_found hr (by omega) hf hv, subSize_of_le (by omega) hlt]
    simp only [Frame.afterHeader, hb, Bool.not_false, ↓reduceIte, Sum.inl.injEq, Frame.size.injEq,
      true_and]
    omega
  · rw [← List.drop_drop, hmem, hR, List.drop_append_of_le_length
      (by simp only [List.length_append, crlf2_length]; omega)]
    congr 1
    rw [List.drop_append_of_le_length (by simp only [List.length_append, crlf2_length]; omega),
      List.drop_eq_nil_of_le (by simp only [List.length_append, crlf2_length]; omega),
      List.nil_append]

/-- A size line whose end is in the segment. -/
theorem step_size {itmp : Int} (hv : (scanHex (R ++ tail)).value = some itmp) {k : Nat}
    (hk : FirstAt crlf R k) : k + 2 ≤ m ∧ step alloc mem (.size s p m) =
      allocChunk alloc (s.beginChunk itmp) (some (p + (k + 2))) (m - (k + 2)) := by
  have hkl := hk.1.length_le crlf_ne_nil
  rw [crlf_length, ← hm] at hkl
  obtain ⟨hv', -⟩ := memstr_found crlf_ne_nil tail hk
  rw [← hmem, ← hm] at hv'
  rw [← hmem] at hv
  refine ⟨hkl, ?_⟩
  simp only [step, exec]
  rw [execSize_line hv hv', subSize_of_le hkl hlt]

/-- A size line of an empty chunk, or of one longer than the segment, is the last step that
changes the size announced. -/
theorem size_outlen {itmp : Int} (hv : (scanHex (R ++ tail)).value = some itmp) {k : Nat}
    (hk : FirstAt crlf R k) (hc : chunkLenOf itmp = 0 ∨ m < chunkLenOf itmp)
    {r : State × Outcome} (hret : Loop.Returns (step alloc mem) (.size s p m) r) :
    r.1.buffOutlen = (s.buffOutlen + chunkLenOf itmp) % 2 ^ 64 := by
  obtain ⟨hkl, hstep⟩ : _ ∧ step alloc mem (.size s p m) = _ := step_size hmem hm hlt hv hk
  have hrest : ∀ s', s'.buffOutlen = (s.buffOutlen + chunkLenOf itmp) % 2 ^ 64 →
      s'.chunkLen = chunkLenOf itmp → s'.chunkRead = 0 →
      Loop.Returns (step alloc mem) (.payload s' (some (p + (k + 2))) (m - (k + 2))) r →
      r.1.buffOutlen = (s.buffOutlen + chunkLenOf itmp) % 2 ^ 64 := by
    intro s' ho hcl hcr hret'
    rcases execPayload_cases mem s' (m - (k + 2)) (some (p + (k + 2))) with
      ⟨-, he⟩ | ⟨hpend, he | ⟨bytes, -, -, ⟨-, he⟩ | ⟨hle, -⟩⟩⟩
    · rw [hret'.of_done he]
      exact ho
    · rw [hret'.of_done he]
      exact ho
    · rw [hret'.of_done he]
      exact ho
    · omega
  rcases allocChunk_cases alloc (s.beginChunk itmp) (some (p + (k + 2))) (m - (k + 2)) with
    ⟨-, he⟩ | ⟨-, ⟨-, he⟩ | ⟨-, he⟩⟩
  all_goals rw [he] at hstep
  · exact hrest _ rfl rfl rfl (hret.of_next hstep)
  · rw [hret.of_done hstep]
    exact grow_buffOutlen alloc _
  · exact hrest _ (grow_buffOutlen alloc _) (grow_chunkLen alloc _) (grow_chunkRead alloc _)
      (hret.of_next hstep)

/-- A size line of value `n`: the size announced stays, or gets too large, or a chunk of at most
`n - 2` bytes begins. -/
theorem size_cases {n : Nat} (hn : n < 2 ^ 63) (hm63 : m < 2 ^ 63) (ho : s.buffOutlen < 2 ^ 63)
    (hv : (scanHex (R ++ tail)).value = some (hexInt false n)) {k : Nat} (hk : FirstAt crlf R k)
    {r : State × Outcome} (hret : Loop.Returns (step alloc mem) (.size s p m) r) :
    r.1.buffOutlen ≤ s.buffOutlen ∨ 2 ^ 64 - 2 ^ 31 ≤ r.1.buffOutlen ∨
      (0 < chunkLenOf (hexInt false n) ∧ chunkLenOf (hexInt false n) + 2 ≤ n) := by
  have hout := fun hc => size_outlen hmem hm hlt hv hk hc hret
  have hc64 := chunkLenOf_lt (hexInt false n)
  rcases chunkLenOf_cases hn with hcase | hcase | hcase
  · have := hout (.inl hcase)
    omega
  · have := hout (.inr (by omega))
    omega
  · exact .inr (.inr hcase)

/-- **A chunk inside the segment** is copied up to its length, which is two less than its size
line says, and the next size line is read two bytes behind. -/
theorem returns_chunk (ha : ∀ n, alloc n = .inPlace) (hs : IdleOk s) (hr : s.isRunning = true)
    (hf : s.isFirst = false) {itmp : Int} (hv : (scanHex (R ++ tail)).value = some itmp) {k : Nat}
    (hk : FirstAt crlf R k) (hc : 0 < chunkLenOf itmp)
    (hfit : chunkLenOf itmp + 2 < (R.drop (k + 2)).length)
    (hw : s.buffOutlen + chunkLenOf itmp < 2 ^ 64) {r : State × Outcome}
    (hret : Loop.Returns (step alloc mem) (.size s p m) r) (hok : r.2 ≠ .crash) :
    ∃ s' b, IdleOk s' ∧ s'.isRunning = true ∧ s'.isFirst = false ∧ s'.buffOut = some b ∧
      s'.buffOutlen = s.buffOutlen + chunkLenOf itmp ∧
      (∀ i < chunkLenOf itmp,
        (s'.heap.block b).cells (s.buffOutlen + i) = (R.drop (k + 2))[i]?) ∧
      Loop.Returns (step alloc mem)
        (.size s' (p + (k + 2) + (chunkLenOf itmp + 2))
          ((R.drop (k + 2)).drop (chunkLenOf itmp + 2)).length) r ∧
      mem.drop (p + (k + 2) + (chunkLenOf itmp + 2)) =
        (R.drop (k + 2)).drop (chunkLenOf itmp + 2) ++ tail := by
  obtain ⟨hkl, hstep⟩ : _ ∧ step alloc mem (.size s p m) = _ := step_size hmem hm hlt hv hk
  have hdrop : mem.drop (p + (k + 2)) = R.drop (k + 2) ++ tail := by
    rw [← List.drop_drop, hmem, List.drop_append_of_le_length (by omega)]
  have hanswer : if s.buffOut = none then alloc s.allocs ≠ .fail
      else alloc s.allocs = .inPlace := by
    rw [ha]
    split <;> simp
  obtain ⟨b, hroom⟩ := grow_room hs hc hw hanswer
  have hlen := beginChunk_buffOutlen hw
  rcases allocChunk_cases alloc (s.beginChunk itmp) (some (p + (k + 2))) (m - (k + 2)) with
    ⟨hno, -⟩ | ⟨-, ⟨hfail, -⟩ | ⟨-, he⟩⟩
  · exact absurd ⟨hc, by omega⟩ hno
  · rw [hroom.out] at hfail
    cases hfail
  rw [he] at hstep
  replace hret := hret.of_next hstep
  have hcl : ((s.beginChunk itmp).grow alloc).chunkLen = chunkLenOf itmp := grow_chunkLen alloc _
  have hol : ((s.beginChunk itmp).grow alloc).buffOutlen = s.buffOutlen + chunkLenOf itmp := by
    rw [grow_buffOutlen, hlen]
  have hrun : ((s.beginChunk itmp).grow alloc).isRunning = true := by
    rw [grow_isRunning]
    exact hr
  have hfst : ((s.beginChunk itmp).grow alloc).isFirst = false := by
    rw [grow_isFirst]
    exact hf
  generalize (s.beginChunk itmp).grow alloc = g at hroom hret hcl hol hrun hfst
  have hread := hroom.read
  have hpend : g.chunkRead < g.chunkLen := by omega
  have hlenR : (R.drop (k + 2)).length = m - (k + 2) := by rw [List.length_drop, hm]
  have hcp := cpsize_le g (m - (k + 2))
  have hcps : g.cpsize (m - (k + 2)) = chunkLenOf itmp := by omega
  by_cases hcopy : ((mem.drop (p + (k + 2))).take (g.cpsize (m - (k + 2)))).length =
      g.cpsize (m - (k + 2)) ∧ g.canCopy (g.cpsize (m - (k + 2))) = true
  swap
  · have := hret.of_done (q := (g, .crash)) (by
      simp only [step, exec]
      rw [execPayload_crash hpend hcopy])
    rw [this] at hok
    exact absurd rfl hok
  have hpay := (execPayload_copy hpend hcopy.1 hcopy.2).2
  rw [hcps] at hpay hcopy
  rw [if_pos (by omega), subSize_of_le (by omega) (by omega), if_pos (by omega)] at hpay
  replace hret := hret.of_next hpay
  have hbytes : (mem.drop (p + (k + 2))).take (chunkLenOf itmp) =
      (R.drop (k + 2)).take (chunkLenOf itmp) := by
    rw [hdrop, List.take_append_of_le_length (by omega)]
  rw [hbytes] at hret hcopy
  have hidle := hroom.copy ((R.drop (k + 2)).take (chunkLenOf itmp)) (by omega)
  have hcells : ((g.copy ((R.drop (k + 2)).take (chunkLenOf itmp))).chunkInit).heap.block b = _ :=
    (copy_block hroom.pt hroom.live ((R.drop (k + 2)).take (chunkLenOf itmp))).1
  have hroom' := hroom.room
  have hlen2 : ((R.drop (k + 2)).drop (chunkLenOf itmp + 2)).length =
      m - (k + 2) - (chunkLenOf itmp + 2) := by rw [List.length_drop, hlenR]
  refine ⟨(g.copy ((R.drop (k + 2)).take (chunkLenOf itmp))).chunkInit, b, hidle, hrun, hfst,
    hroom.out, hol, fun i hi => ?_, ?_, ?_⟩
  · rw [hcells]
    dsimp only
    rw [if_pos (by rw [hcopy.1]; omega), show s.buffOutlen + i - g.copied = i by omega,
      List.getElem?_take_of_lt hi]
  · rw [hlen2]
    exact hret.of_next (step_entry_size hrun (by omega) hfst hidle.begun)
  · rw [← List.drop_drop, hdrop, List.drop_append_of_le_length (by omega)]

end

/-! ## A response that is decoded wrongly -/

/-- A byte that no size line holds. -/
def zs (n : Nat) : List UInt8 := List.replicate n 122

/-- The payloads of that byte, of the sizes the size lines spell. -/
def zPayloads (lines : List (List UInt8)) : List (List UInt8) :=
  lines.map fun line => zs ((hexValue? line).getD 0)

theorem carries_zPayloads {F : Framing} (hF : F.Ok) : F.Carries (zPayloads F.lines) := by
  unfold Framing.Carries zPayloads
  rw [List.forall₂_map_right_iff, List.forall₂_same]
  intro line hl
  obtain ⟨n, hn, -⟩ := hF.lines line hl
  simp [hn, zs]

theorem zPayloads_getElem {lines : List (List UInt8)} {i : Nat}
    (hi : i < (zPayloads lines).flatten.length) : (zPayloads lines).flatten[i]? = some 122 := by
  rw [List.getElem?_eq_getElem hi]
  obtain ⟨l, hl, hx⟩ := List.mem_flatten.1 (List.getElem_mem hi)
  obtain ⟨line, -, rfl⟩ := List.mem_map.1 hl
  rw [List.eq_of_mem_replicate hx]

theorem zPayloads_length_le (last : List UInt8) : ∀ lines : List (List UInt8),
    (zPayloads lines).flatten.length ≤ (Framing.body last lines (zPayloads lines)).length
  | [] => Nat.zero_le _
  | line :: lines => by
    have := zPayloads_length_le last lines
    simp only [zPayloads, List.map_cons, List.flatten_cons, List.length_append, Framing.body,
      chunk] at this ⊢
    omega

/-- A byte at offset `i` that is not the payload's, behind which the copies go on. -/
def Spoiled (i : Nat) (s : State) : Prop :=
  ∃ b off, s.buffOut = some b ∧ s.buffPt = some (b, off) ∧ (s.heap.block b).live = true ∧
    i < off ∧ (s.heap.block b).cells i ≠ some 122

theorem Spoiled.grow {alloc : Allocator} (ha : ∀ n, alloc n = .inPlace) {i : Nat} {s : State}
    (h : Spoiled i s) : Spoiled i (s.grow alloc) := by
  obtain ⟨b, off, hout, hpt, hl, hi, hne⟩ := h
  obtain ⟨h1, h2, h3⟩ := grow_some hout hl (ha _)
  refine ⟨b, off, h1, by rw [h3]; exact hpt, by rw [h2]; exact hl, hi, ?_⟩
  rw [h2]
  simp only [Block.resize]
  split
  · exact hne
  · simp

theorem Spoiled.copy {i : Nat} {s : State} (h : Spoiled i s) (bytes : List UInt8) :
    Spoiled i (s.copy bytes) := by
  obtain ⟨b, off, hout, hpt, hl, hi, hne⟩ := h
  obtain ⟨hblock, hpt'⟩ := copy_block hpt hl bytes
  refine ⟨b, off + bytes.length, hout, hpt', ?_, by omega, ?_⟩
  · rw [hblock]
    exact hl
  · rw [hblock]
    dsimp only
    rw [if_neg (by omega)]
    exact hne

/-- One step leaves the byte as it is. -/
theorem step_spoiled {alloc : Allocator} (ha : ∀ n, alloc n = .inPlace) (mem : List UInt8)
    {i : Nat} (f : Frame) (h : Spoiled i f.state) :
    Sum.elim (fun f => Spoiled i f.state) (fun r => Spoiled i r.1) (step alloc mem f) := by
  cases f with
  | entry s p m =>
    simp only [step, exec]
    rcases execEntry_cases mem s p m with ⟨o, he⟩ | ⟨first, p', m', he⟩
    · rw [he]
      exact h
    · rw [he]
      simp only [Sum.elim_inl, Frame.afterHeader_state]
      exact h
  | size s p m =>
    simp only [step, exec]
    rcases execSize_cases alloc mem s p m with he | ⟨itmp, src, m', -, he⟩
    · rw [he]
      exact h
    · rw [he]
      have hbegin : Spoiled i (s.beginChunk itmp) := h
      rcases allocChunk_cases alloc (s.beginChunk itmp) src m' with
        ⟨-, he'⟩ | ⟨-, ⟨-, he'⟩ | ⟨-, he'⟩⟩
      all_goals rw [he']
      · exact hbegin
      · exact hbegin.grow ha
      · exact hbegin.grow ha
  | payload s p m =>
    have h : Spoiled i s := h
    simp only [step, exec]
    rcases execPayload_cases mem s m p with
      ⟨-, he⟩ | ⟨-, he | ⟨bytes, -, -, ⟨-, he⟩ | ⟨-, he | ⟨p', m', he⟩⟩⟩⟩
    all_goals rw [he]
    · exact h
    · exact h
    · exact h.copy bytes
    · exact (h.copy bytes : Spoiled i (s.copy bytes))
    · exact (h.copy bytes : Spoiled i (s.copy bytes))

/-- So the byte is as it is when the call returns. -/
theorem returns_spoiled {alloc : Allocator} (ha : ∀ n, alloc n = .inPlace) {mem : List UInt8}
    {i : Nat} {f : Frame} (h : Spoiled i f.state) {r : State × Outcome}
    (hret : Loop.Returns (step alloc mem) f r) : Spoiled i r.1 := by
  have hrule := Loop.invariant_rule (I := fun f : Frame => Spoiled i f.state)
    (G := fun _ => True) (Q := fun r : State × Outcome => Spoiled i r.1) h
    (fun f hf _ => step_spoiled ha mem f hf) (fun _ _ => trivial)
  exact hrule.2 r hret

theorem scanHex_z {rest : List UInt8} (h : 0 ∈ rest) : (scanHex (122 :: rest)).value = some 0 :=
  scanHex_eq_some.2 ⟨.tail _ h, rfl⟩

theorem chunkLenOf_zero : chunkLenOf 0 = 0 := rfl

theorem hexInt_zero : hexInt false 0 = 0 := rfl

/-- The size line at the head of what is left. -/
theorem scanHex_head {ws line : List UInt8} (hws : ∀ b ∈ ws, isSpace b = true) {n : Nat}
    (h : hexValue? line = some n) {rest : List UInt8} (h0 : 0 ∈ rest) :
    (scanHex (ws ++ line ++ crlf ++ rest)).value = some (hexInt false n) := by
  refine scanHex_eq_some.2 ⟨List.mem_append_right _ h0, ?_⟩
  rw [show ws ++ line ++ crlf ++ rest = ws ++ line ++ 13 :: (10 :: rest) by
    rw [show crlf = [13, 10] from rfl]; simp]
  exact scanFrom_line hws (by decide) (by decide) (10 :: rest) h

theorem hexValue?_head {line : List UInt8} {n : Nat} (h : hexValue? line = some n) :
    ∃ d rest, line = d :: rest ∧ d ≠ 122 := by
  unfold hexValue? at h
  cases line with
  | nil => simp at h
  | cons d rest =>
    refine ⟨d, rest, rfl, ?_⟩
    rintro rfl
    rw [if_neg (by simp)] at h
    cases h

theorem crlf_isSpace : ∀ b ∈ crlf, isSpace b = true :=
  List.all_eq_true.1 (show crlf.all isSpace = true from rfl)

theorem zs_ne_cr (n : Nat) : ∀ c ∈ zs n, c ≠ 13 := by
  rintro c hc rfl
  exact absurd (List.eq_of_mem_replicate hc) (by decide)

@[simp] theorem zs_length (n : Nat) : (zs n).length = n := List.length_replicate

theorem body_cons {last line : List UInt8} {lines : List (List UInt8)} {n : Nat}
    (hn : hexValue? line = some n) :
    Framing.body last (line :: lines) (zPayloads (line :: lines)) =
      line ++ crlf ++ (zs n ++ crlf ++ Framing.body last lines (zPayloads lines)) := by
  simp [zPayloads, Framing.body, chunk, hn]

/-- Behind a chunk of which `j` bytes are left over: the size announced stays, or gets too large,
or the next size line is copied as payload. -/
theorem rest_wrong {mem R tail : List UInt8} {s s' : State} {p j : Nat} {last : List UInt8}
    {lines : List (List UInt8)} (hs : IdleOk s) (hr : s.isRunning = true)
    (hf : s.isFirst = false) (hlines : ∀ line ∈ lines, ∃ n, hexValue? line = some n ∧ 0 < n)
    (hlast : hexValue? last = some 0)
    (hR : R = zs j ++ crlf ++ Framing.body last lines (zPayloads lines))
    (hmem : mem.drop p = R ++ tail) (h0 : 0 ∈ tail) (hfit : s.buffOutlen + R.length < 2 ^ 63)
    (hret : Loop.Returns (step .steady mem) (.size s p R.length) (s', .ret .ok)) :
    s'.buffOutlen ≤ s.buffOutlen ∨ 2 ^ 64 - 2 ^ 31 ≤ s'.buffOutlen ∨
      Spoiled s.buffOutlen s' := by
  have hlt : R.length < 2 ^ 64 := by omega
  have hk : FirstAt crlf R j := by
    have := firstAt_crlf (zs_ne_cr j) (Framing.body last lines (zPayloads lines))
    rwa [← hR, zs_length] at this
  -- a size line of value 0 is the last
  have hzero : (scanHex (R ++ tail)).value = some 0 → s'.buffOutlen ≤ s.buffOutlen := by
    intro hv
    have := size_outlen hmem rfl hlt hv hk (.inl rfl) hret
    rw [chunkLenOf_zero] at this
    dsimp only at this
    omega
  cases j with
  | succ j =>
    refine .inl (hzero ?_)
    rw [hR]
    exact scanHex_z (List.mem_append_right _ h0)
  | zero =>
    cases lines with
    | nil =>
      refine .inl (hzero ?_)
      have := scanHex_head crlf_isSpace hlast (List.mem_append_right crlf h0)
      rw [hexInt_zero] at this
      rw [← this, hR]
      simp [zs, Framing.body]
    | cons line lines =>
      obtain ⟨n, hn, hpos⟩ := hlines line (.head _)
      rw [body_cons hn] at hR
      have hv : (scanHex (R ++ tail)).value = some (hexInt false n) := by
        have := scanHex_head crlf_isSpace hn (List.mem_append_right
          (zs n ++ crlf ++ Framing.body last lines (zPayloads lines)) h0)
        rw [← this, hR]
        simp [zs]
      have hlen : R.length = 2 + (line.length + 2 +
          (n + 2 + (Framing.body last lines (zPayloads lines)).length)) := by
        rw [hR]
        simp only [List.length_append, crlf_length, zs_length]
      have hdrop : R.drop (0 + 2) = line ++ crlf ++
          (zs n ++ crlf ++ Framing.body last lines (zPayloads lines)) := by
        rw [hR]
        exact List.drop_left' rfl
      rcases size_cases hmem rfl hlt (by omega) (by omega) (by omega) hv hk hret with
        hcase | hcase | ⟨hcpos, hcle⟩
      · exact .inl hcase
      · exact .inr (.inl hcase)
      · -- the copy begins with the size line
        right
        right
        obtain ⟨g, b, hg, -, -, hb, hol, hcells, hret', -⟩ := returns_chunk hmem rfl hlt
          (fun _ => rfl) hs hr hf hv hk hcpos
          (by rw [List.length_drop]; omega) (by omega) hret (by simp)
        have hspoiled : Spoiled s.buffOutlen g := by
          have hpt := hg.buff.pointer
          have hsz : g.buffOutlen = g.copied := hg.buff.size
          rw [hb] at hpt
          refine ⟨b, g.copied, hb, hpt.1, hpt.2.1, by omega, ?_⟩
          have hcell := hcells 0 hcpos
          obtain ⟨d, rest, rfl, hd⟩ := hexValue?_head hn
          rw [hdrop, Nat.add_zero] at hcell
          rw [hcell]
          simpa using hd
        exact returns_spoiled (fun _ => rfl) hspoiled hret'

/-- The statics behind the header. -/
def inBody : State := { (dechunkInit .start).1 with isFirst := false }

theorem inBody_idle : IdleOk inBody :=
  ⟨⟨rfl, fun _ hi => absurd hi (Nat.not_lt_zero _), rfl, rfl⟩, Nat.two_pow_pos 64, rfl, rfl, rfl⟩

/-- The first step on a well-formed response. -/
theorem step_stream {F : Framing} (hF : F.Ok) (alloc : Allocator) (tail : List UInt8)
    {payloads : List (List UInt8)} (hfit : (F.stream payloads).length < 2 ^ 64) :
    step alloc (F.stream payloads ++ tail)
        (.entry (dechunkInit .start).1 0 (F.stream payloads).length) =
      .inl (.size inBody (0 + (F.header.length + 4))
        (Framing.body F.last F.lines payloads).length) ∧
    (F.stream payloads ++ tail).drop (0 + (F.header.length + 4)) =
      Framing.body F.last F.lines payloads ++ tail :=
  step_header rfl rfl hfit rfl rfl rfl rfl hF.header

/-- The response with the chunks of that byte is decoded wrongly. -/
theorem not_decodes {F : Framing} (hF : F.Ok) (hne : F.lines ≠ []) {tail : List UInt8}
    (h0 : 0 ∈ tail) (hfit : (F.stream (zPayloads F.lines)).length < 2 ^ 63) :
    ¬ Decodes (F.stream (zPayloads F.lines)) tail (zPayloads F.lines).flatten := by
  intro h
  obtain ⟨s, hret, hsize, hbytes⟩ := h .steady Allocator.steady_ne_fail
  change s.buffOutlen = _ at hsize
  obtain ⟨line, lines, hl⟩ := List.exists_cons_of_ne_nil hne
  obtain ⟨n, hn, hpos⟩ := hF.lines line (by rw [hl]; exact .head _)
  have htotal : (zPayloads F.lines).flatten.length = n + (zPayloads lines).flatten.length := by
    rw [hl]
    simp [zPayloads, hn]
  have hbody : Framing.body F.last F.lines (zPayloads F.lines) =
      line ++ crlf ++ (zs n ++ crlf ++ Framing.body F.last lines (zPayloads lines)) := by
    rw [hl]
    exact body_cons hn
  have hlen : (F.stream (zPayloads F.lines)).length = F.header.length + 4 +
      (Framing.body F.last F.lines (zPayloads F.lines)).length := by
    unfold Framing.stream
    simp only [List.length_append, crlf2_length]
  have hrest := zPayloads_length_le F.last F.lines
  -- the header
  have hsize : (F.stream (zPayloads F.lines)).length < 2 ^ 64 := by omega
  obtain ⟨hstep, hmem⟩ := step_stream hF .steady tail hsize
  replace hret := Loop.Returns.of_next hret hstep
  generalize F.stream (zPayloads F.lines) ++ tail = mem at hret hmem
  have hlt : (Framing.body F.last F.lines (zPayloads F.lines)).length < 2 ^ 64 := by omega
  -- the first chunk
  have hk := firstAt_crlf (hexValue?_ne_cr hn)
    (zs n ++ crlf ++ Framing.body F.last lines (zPayloads lines))
  have hv := scanHex_head (fun _ h => absurd h List.not_mem_nil : ∀ b ∈ [], _) hn
    (List.mem_append_right (zs n ++ crlf ++ Framing.body F.last lines (zPayloads lines)) h0)
  rw [List.nil_append, ← List.append_assoc, ← hbody] at hv
  rw [← hbody] at hk
  have hdrop : (Framing.body F.last F.lines (zPayloads F.lines)).drop (line.length + 2) =
      zs n ++ crlf ++ Framing.body F.last lines (zPayloads lines) := by
    rw [hbody]
    exact List.drop_left' (by rw [List.length_append, crlf_length])
  have hlen1 : (Framing.body F.last F.lines (zPayloads F.lines)).length = line.length + 2 +
      (n + 2 + (Framing.body F.last lines (zPayloads lines)).length) := by
    rw [hbody]
    simp only [List.length_append, crlf_length, zs_length]
  have hempty : inBody.buffOutlen = 0 := rfl
  rcases size_cases hmem rfl hlt (by omega) (by omega) (by omega) hv hk hret with
    hcase | hcase | ⟨hcpos, hcle⟩
  · dsimp only at hcase
    omega
  · dsimp only at hcase
    omega
  · obtain ⟨g, b, hg, hgr, hgf, -, hol, -, hret', hmem'⟩ := returns_chunk hmem rfl hlt
      (fun _ => rfl) inBody_idle rfl rfl hv hk hcpos (by rw [List.length_drop]; omega)
      (by rw [hempty]; omega) hret (by simp)
    rw [hempty] at hol
    have hleft : ((Framing.body F.last F.lines (zPayloads F.lines)).drop (line.length + 2)).drop
        (chunkLenOf (hexInt false n) + 2) = zs (n - (chunkLenOf (hexInt false n) + 2)) ++ crlf ++
          Framing.body F.last lines (zPayloads lines) := by
      rw [hdrop, List.append_assoc, List.drop_append_of_le_length (by rw [zs_length]; omega)]
      simp [zs]
    have hwrong := rest_wrong hg hgr hgf (fun l hl' => hF.lines l (by rw [hl]; exact .tail _ hl'))
      hF.last hleft hmem' h0 (by rw [List.length_drop, List.length_drop]; omega) hret'
    rcases hwrong with hw | hw | ⟨b', off, hb', -, -, hi, hcell⟩
    · omega
    · omega
    · -- a byte of the size line in the place of a byte of the payload
      have hi' : g.buffOutlen < (zPayloads F.lines).flatten.length := by omega
      have := hbytes _ hi'
      rw [zPayloads_getElem hi'] at this
      simp only [dechunkGetbuff, hb'] at this
      exact hcell this

theorem nul_notMem_body {last : List UInt8} (hlast : hexValue? last = some 0) :
    ∀ {lines : List (List UInt8)}, (∀ line ∈ lines, ∃ n, hexValue? line = some n ∧ 0 < n) →
      0 ∉ Framing.body last lines (zPayloads lines)
  | [], _ => by
    have h0 : 0 ∉ last := fun h => absurd (hexValue?_ge hlast h) (by decide)
    have h1 : 0 ∉ crlf := by decide
    simp [Framing.body, h0, h1]
  | line :: lines, hlines => by
    obtain ⟨n, hn, -⟩ := hlines line (.head _)
    have ih := nul_notMem_body hlast fun l hl => hlines l (.tail _ hl)
    have h0 : 0 ∉ line := fun h => absurd (hexValue?_ge hn h) (by decide)
    have h1 : 0 ∉ crlf := by decide
    have h2 : 0 ∉ zs n := fun h => absurd (List.eq_of_mem_replicate h) (by decide)
    rw [body_cons hn]
    simp [h0, h1, h2, ih]

/-- Without a NUL behind the response `sscanf` runs off the memory. -/
theorem not_decodes_nul {F : Framing} (hF : F.Ok) {tail : List UInt8} (h0 : 0 ∉ tail)
    (hfit : (F.stream (zPayloads F.lines)).length < 2 ^ 64) :
    ¬ Decodes (F.stream (zPayloads F.lines)) tail (zPayloads F.lines).flatten := by
  intro h
  obtain ⟨s, hret, -⟩ := h .steady Allocator.steady_ne_fail
  obtain ⟨hstep, hmem⟩ := step_stream hF .steady tail hfit
  replace hret := Loop.Returns.of_next hret hstep
  have hnone : (scanHex ((F.stream (zPayloads F.lines) ++ tail).drop
      (0 + (F.header.length + 4)))).value = none := by
    rw [hmem, ← Option.not_isSome_iff_eq_none, scanHex_isSome_iff, List.mem_append, not_or]
    exact ⟨nul_notMem_body hF.last hF.lines, h0⟩
  have := hret.of_done (q := (inBody, .crash)) (by
    simp only [step, exec]
    rw [execSize_crash hnone])
  cases this

/-- Without chunks every byte behind the header is passed over. -/
theorem decodes_empty {F : Framing} (hF : F.Ok) (hl : F.lines = []) {tail : List UInt8}
    (h0 : 0 ∈ tail) (hfit : (F.stream []).length < 2 ^ 64) : Decodes (F.stream []) tail [] := by
  intro alloc _
  obtain ⟨hheader, hmem⟩ := step_stream hF alloc tail hfit
  have hbody : Framing.body F.last F.lines [] = F.last ++ crlf ++ crlf := by
    rw [hl]
    rfl
  rw [hbody] at hheader hmem
  have hlen : (F.last ++ crlf ++ crlf).length < 2 ^ 64 := by
    unfold Framing.stream at hfit
    rw [hbody, List.length_append] at hfit
    omega
  have hv : (scanHex (F.last ++ crlf ++ crlf ++ tail)).value = some (hexInt false 0) := by
    have := scanHex_head (fun _ h => absurd h List.not_mem_nil : ∀ b ∈ [], _) hF.last
      (List.mem_append_right crlf h0)
    rwa [List.nil_append, ← List.append_assoc] at this
  have hk := firstAt_crlf (hexValue?_ne_cr hF.last) crlf
  obtain ⟨-, hsize⟩ : _ ∧ step alloc (F.stream [] ++ tail)
    (.size inBody (0 + (F.header.length + 4)) _) = _ := step_size hmem rfl hlen hv hk
  refine ⟨(inBody.beginChunk 0).chunkInit,
    .next hheader (.next hsize (.done ?_)), rfl, fun i hi => absurd hi (Nat.not_lt_zero _)⟩
  simp only [step, exec]
  rw [execPayload_done (by decide)]
  rfl

/-- **A response is decoded to the payloads of its chunks if and only if it has none** and a NUL is
mapped behind it: a framing with a chunk has payloads that are decoded wrongly, one without is
decoded. -/
theorem decodes_iff {F : Framing} (hF : F.Ok) (tail : List UInt8)
    (hfit : ∀ payloads, F.Carries payloads → (F.stream payloads).length < 2 ^ 63) :
    (∀ payloads, F.Carries payloads → Decodes (F.stream payloads) tail payloads.flatten) ↔
      F.lines = [] ∧ 0 ∈ tail := by
  have hz := carries_zPayloads hF
  have hfitz := hfit _ hz
  constructor
  · intro h
    have h0 : 0 ∈ tail := by
      by_contra h0
      exact not_decodes_nul hF h0 (by omega) (h _ hz)
    refine ⟨?_, h0⟩
    by_contra hne
    exact not_decodes hF hne h0 hfitz (h _ hz)
  · rintro ⟨hl, h0⟩ payloads hc
    have hfit := hfit payloads hc
    unfold Framing.Carries at hc
    rw [hl, List.forall₂_nil_left_iff] at hc
    subst hc
    exact decodes_empty hF hl h0 (by omega)

/-- A framing without chunks, before a NUL. -/
theorem decodes_iff_empty :
    Decodes "HTTP/1.1 200 OK\r\n\r\n0\r\n\r\n".asciiBytes [0] [] := by
  have hok : Framing.Ok ⟨"HTTP/1.1 200 OK".asciiBytes, [], "0".asciiBytes⟩ := by
    refine ⟨?_, fun line h => absurd h List.not_mem_nil, by decide +kernel⟩
    unfold IsAt
    decide +kernel
  have hfit : ∀ payloads,
      Framing.Carries ⟨"HTTP/1.1 200 OK".asciiBytes, [], "0".asciiBytes⟩ payloads →
      (Framing.stream ⟨"HTTP/1.1 200 OK".asciiBytes, [], "0".asciiBytes⟩ payloads).length <
        2 ^ 63 := by
    intro payloads h
    cases h
    decide +kernel
  exact (decodes_iff hok [0] hfit).2 ⟨rfl, .head _⟩ [] .nil

/-- A response of one chunk is decoded to its first three bytes. -/
theorem decode_hello :
    Framing.Ok ⟨"HTTP/1.1 200 OK".asciiBytes, ["5".asciiBytes], "0".asciiBytes⟩ ∧
    Framing.Carries ⟨"HTTP/1.1 200 OK".asciiBytes, ["5".asciiBytes], "0".asciiBytes⟩
      ["hello".asciiBytes] ∧
    Framing.stream ⟨"HTTP/1.1 200 OK".asciiBytes, ["5".asciiBytes], "0".asciiBytes⟩
      ["hello".asciiBytes] = "HTTP/1.1 200 OK\r\n\r\n5\r\nhello\r\n0\r\n\r\n".asciiBytes ∧
    ¬ Decodes "HTTP/1.1 200 OK\r\n\r\n5\r\nhello\r\n0\r\n\r\n".asciiBytes [0]
      "hello".asciiBytes := by
  refine ⟨⟨?_, ?_, by decide +kernel⟩, .cons (by decide +kernel) .nil, by decide +kernel,
    fun h => ?_⟩
  · unfold IsAt
    decide +kernel
  · intro line hl
    obtain rfl := List.mem_singleton.1 hl
    exact ⟨5, by decide +kernel, by decide⟩
  · obtain ⟨s, hret, hsize, -⟩ := h .steady Allocator.steady_ne_fail
    obtain ⟨r, hret', hok, hr⟩ : ∃ r, DechunkReturns .steady (dechunkInit .start).1
        "HTTP/1.1 200 OK\r\n\r\n5\r\nhello\r\n0\r\n\r\n".asciiBytes [0] r ∧
        r.2 = .ret .ok ∧ (dechunkGetbuff r.1).2 = 3 :=
      Loop.returns_of_run_any 9 (by decide +kernel)
    rw [hret'.det hret, hsize] at hr
    exact absurd hr (by decide)

end Dechunk
