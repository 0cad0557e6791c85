import CodeLibrary.Hotp.Proof.Transform
import CodeLibrary.Lib.Bytes

/-!
# The stream of SHA-1

After any updates `SHA1_INFO` stands for the message they make up (`Absorbed`): the digest is the
chaining value after its full blocks, `data` starts with what is left, and the two counters are its
length in bits modulo 2⁶⁴. `sha1_final` ends such a state with the padding of the message.
-/

set_option autoImplicit false

namespace Hotp

open BlockHash Fips

/-- The chaining value after a message, and what is left of it. -/
abbrev absorbed (m : List UInt8) : Vars × List UInt8 := absorb compress 64 H0 m

/-- `info` stands for the message `m`. -/
structure Absorbed (m : List UInt8) (info : Sha1Info) : Prop where
  digest : info.digest.vars = (absorbed m).1
  loc : info.loc = (absorbed m).2.length
  data : Stores.Begins info.data (absorbed m).2
  count : info.countHi.toNat * 2 ^ 32 + info.countLo.toNat = 8 * m.length % 2 ^ 64

/-- The transform of a full block at the start of `data`. -/
theorem sha1Transform_vars (b : Build) (info : Sha1Info) {block : List UInt8}
    (hlen : block.length = 64) (h : Stores.Begins info.data block) :
    (sha1Transform b info).digest.vars = compress info.digest.vars block :=
  transform_vars b info.digest fun _ ha => h.getD 0 (by omega)

/-! ## Updates -/

/-- What the `while` loop leaves, on a buffer that starts at a block. -/
theorem updateBlocks_spec (b : Build) (info : Sha1Info) (buffer : List UInt8) :
    let rest := absorb compress 64 info.digest.vars buffer
    let info' := updateBlocks b info buffer
    info'.digest.vars = rest.1 ∧ info'.loc = rest.2.length ∧ Stores.Begins info'.data rest.2 ∧
      info'.countLo = info.countLo ∧ info'.countHi = info.countHi ∧
      ∀ a, 64 ≤ a → info'.data a = info.data a := by
  induction hn : buffer.length using Nat.strongRecOn generalizing info buffer with
  | ind n ih =>
    subst hn
    rw [updateBlocks]
    split
    · rename_i hge
      have hge : 64 ≤ buffer.length := hge
      have hlen : (buffer.take blocksize).length = 64 := by
        rw [List.length_take]
        exact Nat.min_eq_left hge
      have hbegins : Stores.Begins (Stores.write info.data 0 (buffer.take blocksize))
          (buffer.take blocksize) := Stores.Begins.nil.write _
      have hvars := sha1Transform_vars b
        { info with data := Stores.write info.data 0 (buffer.take blocksize) } hlen hbegins
      have ih := ih _ (by rw [List.length_drop]; simp only [blocksize]; omega)
        (sha1Transform b { info with data := Stores.write info.data 0 (buffer.take blocksize) })
        (buffer.drop blocksize) rfl
      rw [hvars] at ih
      obtain ⟨hd, hl, hb, hlo, hhi, hframe⟩ := ih
      rw [absorb_block _ (by decide) hge]
      refine ⟨hd, hl, hb, hlo, hhi, fun a ha => ?_⟩
      rw [hframe a ha]
      exact Stores.write_of_ge info.data 0 _ (by omega)
    · rename_i hlt
      have hlt : buffer.length < 64 := Nat.lt_of_not_le hlt
      rw [absorb_of_lt _ hlt]
      exact ⟨rfl, rfl, Stores.Begins.nil.write buffer, rfl, rfl,
        fun a ha => Stores.write_of_ge info.data 0 buffer (by omega)⟩

/-- Two words of a number that is cut to 64 bits. -/
theorem two_words {x lo : Nat} (hlo : lo < 2 ^ 32) :
    x % 2 ^ 32 * 2 ^ 32 + lo = (x * 2 ^ 32 + lo) % 2 ^ 64 := by omega

/-- Where the sum of the low words wraps around, it is less than either. -/
theorem carry {lo hi n clo : Nat} (hlo : lo < 2 ^ 32)
    (h : clo = (lo + n * 8 % 2 ^ 32) % 2 ^ 32) :
    (hi + (if clo < lo then 1 else 0) + n / 2 ^ 29) * 2 ^ 32 + clo =
      hi * 2 ^ 32 + lo + 8 * n := by
  split <;> omega

section
variable (info : Sha1Info) (count : UInt32)

@[simp] theorem countBits_digest : (countBits info count).digest = info.digest := by
  unfold countBits
  dsimp only
  split <;> rfl

@[simp] theorem countBits_data : (countBits info count).data = info.data := by
  unfold countBits
  dsimp only
  split <;> rfl

@[simp] theorem countBits_loc : (countBits info count).loc = info.loc := by
  unfold countBits
  dsimp only
  split <;> rfl

theorem countBits_lo : (countBits info count).countLo = info.countLo + (count <<< 3) := rfl

theorem countBits_hi : (countBits info count).countHi.toNat =
    (info.countHi.toNat + (if (countBits info count).countLo.toNat < info.countLo.toNat then 1
      else 0) + count.toNat / 2 ^ 29) % 2 ^ 32 := by
  have hsr : (count >>> 29).toNat = count.toNat / 2 ^ 29 := by
    rw [UInt32.toNat_shiftRight, Nat.shiftRight_eq_div_pow]
    rfl
  by_cases hlt : info.countLo + (count <<< 3) < info.countLo
  · rw [countBits_lo, if_pos (UInt32.lt_iff_toNat_lt.1 hlt), countBits, if_pos hlt,
      UInt32.toNat_add, UInt32.toNat_add, hsr, UInt32.toNat_one, Nat.mod_add_mod]
  · rw [countBits_lo, if_neg fun h => hlt (UInt32.lt_iff_toNat_lt.2 h), countBits, if_neg hlt,
      UInt32.toNat_add, hsr, Nat.add_zero]

end

/-- The counters hold the bits of `n` more bytes. -/
theorem countBits_count {info : Sha1Info} {n m : Nat} (hn : n < 2 ^ 31)
    (h : info.countHi.toNat * 2 ^ 32 + info.countLo.toNat = 8 * m % 2 ^ 64) :
    (countBits info (.ofNat n)).countHi.toNat * 2 ^ 32 +
      (countBits info (.ofNat n)).countLo.toNat = 8 * (m + n) % 2 ^ 64 := by
  have hcount : (UInt32.ofNat n).toNat = n := by
    rw [UInt32.toNat_ofNat']
    omega
  have hlo : (countBits info (.ofNat n)).countLo.toNat =
      (info.countLo.toNat + n * 8 % 2 ^ 32) % 2 ^ 32 := by
    rw [countBits_lo, UInt32.toNat_add, UInt32.toNat_shiftLeft, hcount, Nat.shiftLeft_eq]
    rfl
  rw [countBits_hi, hcount, two_words (UInt32.toNat_lt _), carry info.countLo.toNat_lt hlo, h,
    Nat.mul_add, Nat.mod_add_mod]

theorem absorbed_init (data : Nat → UInt8) : Absorbed [] (sha1Init data) where
  digest := by
    rw [absorbed, absorb_nil]
    rfl
  loc := by
    rw [absorbed, absorb_nil]
    rfl
  data := by
    rw [absorbed, absorb_nil]
    exact .nil
  count := by simp [sha1Init]

/-- The state after the blocks of `buffer`, where `data` starts a block with it. -/
theorem updateBlocks_absorbed (b : Build) {m buffer : List UInt8} {info : Sha1Info}
    (habs : absorbed m = absorb compress 64 info.digest.vars buffer)
    (hcount : info.countHi.toNat * 2 ^ 32 + info.countLo.toNat = 8 * m.length % 2 ^ 64) :
    Absorbed m (updateBlocks b info buffer) ∧
      ∀ a, 64 ≤ a → (updateBlocks b info buffer).data a = info.data a := by
  obtain ⟨hd, hl, hb, hlo, hhi, hframe⟩ := updateBlocks_spec b info buffer
  rw [← habs] at hd hl hb
  exact ⟨⟨hd, hl, hb, by rw [hlo, hhi, hcount]⟩, hframe⟩

/-- **An update** appends its bytes to the message, and stores nothing behind `data`. -/
theorem sha1Update_spec (b : Build) {m : List UInt8} {info : Sha1Info} (h : Absorbed m info)
    {buffer : List UInt8} (hlen : buffer.length < 2 ^ 31) :
    Absorbed (m ++ buffer) (sha1Update b info buffer) ∧
      ∀ a, 64 ≤ a → (sha1Update b info buffer).data a = info.data a := by
  have happ : absorbed (m ++ buffer) =
      absorb compress 64 (absorbed m).1 ((absorbed m).2 ++ buffer) :=
    absorb_append (by decide) buffer m H0
  have hcount := countBits_count hlen h.count
  have hlt : (absorbed m).2.length < 64 := length_absorb_lt (by decide) H0 m
  have hloc := h.loc
  rw [← List.length_append] at hcount
  rw [← h.digest] at happ
  unfold sha1Update
  simp only [countBits_loc, countBits_data, ne_eq, ite_not]
  split
  · rename_i h0
    have hrest : (absorbed m).2 = [] := List.eq_nil_of_length_eq_zero (hloc.symm.trans h0)
    rw [hrest, List.nil_append] at happ
    refine (updateBlocks_absorbed b ?_ hcount).imp_right fun hf a ha => (hf a ha).trans ?_
    · rw [countBits_digest]
      exact happ
    · rw [countBits_data]
  · have hi : (buffer.take (min (blocksize - info.loc) buffer.length)).length =
        min (blocksize - info.loc) buffer.length := by
      rw [List.length_take]
      omega
    have hdata := h.data.write (buffer.take (min (blocksize - info.loc) buffer.length))
    rw [← hloc] at hdata
    have hframe : ∀ a, 64 ≤ a → Stores.write info.data info.loc
        (buffer.take (min (blocksize - info.loc) buffer.length)) a = info.data a :=
      fun a ha => Stores.write_of_ge info.data _ _ (by rw [hi]; simp only [blocksize]; omega)
    split
    · -- the block is full
      rename_i hfull
      have hblock : ((absorbed m).2 ++
          buffer.take (min (blocksize - info.loc) buffer.length)).length = 64 := by
        rw [List.length_append, ← hloc, hi]
        exact hfull
      refine (updateBlocks_absorbed b ?_ ?_).imp_right fun hf a ha =>
        (hf a ha).trans (hframe a ha)
      swap
      · exact hcount
      rw [sha1Transform_vars b _ hblock hdata, ← absorb_block_append _ _ (by decide) hblock,
        List.append_assoc, List.take_append_drop, countBits_digest]
      exact happ
    · -- the buffer ends before the block does
      rename_i hpart
      have htake : buffer.take (min (blocksize - info.loc) buffer.length) = buffer := by
        simp only [blocksize] at hpart ⊢
        exact List.take_of_length_le (by omega)
      rw [htake] at hdata hframe hi
      have hshort : ((absorbed m).2 ++ buffer).length < 64 := by
        rw [List.length_append, ← hloc]
        simp only [blocksize] at hpart hi
        omega
      have hrest : absorbed (m ++ buffer) = (info.digest.vars, (absorbed m).2 ++ buffer) :=
        happ.trans (absorb_of_lt _ hshort)
      rw [htake]
      refine ⟨⟨?_, ?_, ?_, hcount⟩, hframe⟩
      · rw [hrest, countBits_digest]
      · rw [hrest, List.length_append, ← hloc, ← hi]
      · rw [hrest]
        exact hdata

/-- **Any updates** stand for the message they make up. -/
theorem sha1Updates_spec (b : Build) : ∀ (pieces : List (List UInt8)) {m : List UInt8}
    {info : Sha1Info}, Absorbed m info → (∀ piece ∈ pieces, piece.length < 2 ^ 31) →
    Absorbed (m ++ pieces.flatten) (pieces.foldl (sha1Update b) info) ∧
      ∀ a, 64 ≤ a → (pieces.foldl (sha1Update b) info).data a = info.data a
  | [], m, info, h, _ => by
    rw [List.flatten_nil, List.append_nil]
    exact ⟨h, fun _ _ => rfl⟩
  | piece :: pieces, m, info, h, hp => by
    obtain ⟨h1, hf1⟩ := sha1Update_spec b h (hp piece List.mem_cons_self)
    obtain ⟨h2, hf2⟩ := sha1Updates_spec b pieces h1 fun q hq => hp q (List.mem_cons_of_mem _ hq)
    rw [List.flatten_cons, ← List.append_assoc]
    exact ⟨h2, fun a ha => (hf2 a ha).trans (hf1 a ha)⟩

/-! ## The end of a message -/

theorem bigEndian_eight (n : Nat) : bigEndian 8 n =
    [.ofNat (n >>> 56), .ofNat (n >>> 48), .ofNat (n >>> 40), .ofNat (n >>> 32), .ofNat (n >>> 24),
      .ofNat (n >>> 16), .ofNat (n >>> 8), .ofNat (n >>> 0)] := rfl

/-- A byte of a word, as the source shifts it out. -/
theorem shiftRight_toUInt8 (w s : UInt32) (hs : s.toNat < 32) :
    (w >>> s).toUInt8 = .ofNat (w.toNat >>> s.toNat) := by
  apply UInt8.toNat_inj.1
  rw [UInt32.toNat_toUInt8, UInt32.toNat_shiftRight, Nat.mod_eq_of_lt hs, UInt8.toNat_ofNat']

theorem ofNat_congr {x y : Nat} (h : ∀ i < 8, x.testBit i = y.testBit i) :
    UInt8.ofNat x = .ofNat y := by
  apply UInt8.toNat_inj.1
  rw [UInt8.toNat_ofNat', UInt8.toNat_ofNat']
  apply Nat.eq_of_testBit_eq
  intro i
  rw [Nat.testBit_mod_two_pow, Nat.testBit_mod_two_pow]
  by_cases hi : i < 8
  · rw [h i hi]
  · simp [hi]

/-- The bytes of the two counters are those of the length in bits. -/
theorem counts_eq {hi lo : UInt32} {n : Nat} (h : hi.toNat * 2 ^ 32 + lo.toNat = n % 2 ^ 64) :
    countBytes hi lo = bigEndian 8 n := by
  have hbit : ∀ j < 64, n.testBit j =
      if j < 32 then lo.toNat.testBit j else hi.toNat.testBit (j - 32) := by
    intro j hj
    have hj' := congrArg (Nat.testBit · j) h
    simp only [Nat.testBit_mod_two_pow, hj, decide_true, Bool.true_and] at hj'
    rw [← hj', Nat.mul_comm, Nat.testBit_two_pow_mul_add _ lo.toNat_lt]
  have hhi : ∀ s : UInt32, s.toNat ≤ 24 → (hi >>> s).toUInt8 = .ofNat (n >>> (32 + s.toNat)) := by
    intro s hs
    rw [shiftRight_toUInt8 hi s (by omega)]
    refine ofNat_congr fun i hi8 => ?_
    rw [Nat.testBit_shiftRight, Nat.testBit_shiftRight, hbit _ (by omega), if_neg (by omega)]
    congr 1
    omega
  have hlo : ∀ s : UInt32, s.toNat ≤ 24 → (lo >>> s).toUInt8 = .ofNat (n >>> s.toNat) := by
    intro s hs
    rw [shiftRight_toUInt8 lo s (by omega)]
    refine ofNat_congr fun i hi8 => ?_
    rw [Nat.testBit_shiftRight, Nat.testBit_shiftRight, hbit _ (by omega), if_pos (by omega)]
  rw [countBytes, hhi 24 (by decide), hhi 16 (by decide), hhi 8 (by decide), hhi 0 (by decide),
    hlo 24 (by decide), hlo 16 (by decide), hlo 8 (by decide), hlo 0 (by decide)]
  exact (bigEndian_eight n).symm

/-- The bytes of one word of the digest. -/
theorem word_bytes (w : UInt32) :
    [(w >>> 24).toUInt8, (w >>> 16).toUInt8, (w >>> 8).toUInt8, w.toUInt8] =
      bigEndian 4 w.toNat := by
  have hw : w.toUInt8 = .ofNat (w.toNat >>> 0) := by
    apply UInt8.toNat_inj.1
    rw [UInt32.toNat_toUInt8, Nat.shiftRight_zero, UInt8.toNat_ofNat']
  rw [shiftRight_toUInt8 w 24 (by decide), shiftRight_toUInt8 w 16 (by decide),
    shiftRight_toUInt8 w 8 (by decide), hw]
  rfl

theorem copyDigest_eq (digest : Digest) :
    copyDigest digest = digest.vars.toList.flatMap fun h => bigEndian 4 h.toNat := by
  simp only [copyDigest, word_bytes]
  rfl

/-- The place of the mark, computed from the low counter. -/
theorem count_mod {hi lo : UInt32} {n : Nat} (h : hi.toNat * 2 ^ 32 + lo.toNat = 8 * n % 2 ^ 64) :
    ((lo >>> 3) &&& 0x3f).toNat = n % 64 := by
  have hlo : lo.toNat = 8 * n % 2 ^ 32 := by
    rw [← Nat.mod_mod_of_dvd (8 * n) (Nat.pow_dvd_pow 2 (show 32 ≤ 64 by decide)), ← h,
      Nat.mul_add_mod_self_right, Nat.mod_eq_of_lt lo.toNat_lt]
  have hand : ∀ x : Nat, x &&& 63 = x % 64 := fun x => Nat.and_two_pow_sub_one_eq_mod x 6
  rw [UInt32.toNat_and, UInt32.toNat_shiftRight, Nat.shiftRight_eq_div_pow, hlo]
  show (8 * n % 2 ^ 32 / 2 ^ 3) &&& 63 = _
  rw [hand]
  omega

theorem length_bigEndian (k n : Nat) : (bigEndian k n).length = k := by
  rw [bigEndian, List.length_map, List.length_reverse, List.length_range]

/-- The hash of a message, from where its padding starts. -/
theorem sha1_eq (m : List UInt8) : sha1 m =
    (absorb compress 64 (absorbed m).1
      (BlockHash.pad 64 0x80 0 (bigEndian 8 (8 * m.length)) (absorbed m).2)).1.toList.flatMap
        fun h => bigEndian 4 h.toNat := by
  rw [sha1, Fips.pad, absorb_pad (by decide)]

/-- `data` holds all of the last block but the counters. -/
structure Padded (m : List UInt8) (info : Sha1Info) (pre : List UInt8) : Prop where
  length : pre.length = 56
  data : Stores.Begins info.data pre
  last : (absorb compress 64 (absorbed m).1
    (BlockHash.pad 64 0x80 0 (bigEndian 8 (8 * m.length)) (absorbed m).2)).1 =
      compress info.digest.vars (pre ++ bigEndian 8 (8 * m.length))

/-- The mark and the tail fit behind what is left, or a block ends between them. -/
theorem padBlock_padded (b : Build) {m : List UInt8} {info : Sha1Info} (h : Absorbed m info) :
    (∃ pre, Padded m (padBlock b info) pre) ∧
      ∀ a, 64 ≤ a → (padBlock b info).data a = info.data a := by
  have hlt : (absorbed m).2.length < 64 := length_absorb_lt (by decide) H0 m
  have hcount : ((info.countLo >>> 3) &&& 0x3f).toNat = (absorbed m).2.length := by
    rw [count_mod h.count, length_absorb (by decide)]
  have htail := length_bigEndian 8 (8 * m.length)
  have hmark := h.data.update 0x80
  have hframe : ∀ a, 64 ≤ a →
      Function.update info.data (absorbed m).2.length 0x80 a = info.data a :=
    fun a ha => Function.update_of_ne (by omega) _ _
  unfold padBlock
  simp only [hcount, blocksize]
  split
  · have hfill := hmark.write (List.replicate (64 - ((absorbed m).2.length + 1)) 0)
    rw [List.length_append, List.length_singleton, List.append_assoc] at hfill
    have hzeros : Stores.Begins (Stores.write (Stores.write
        (Function.update info.data (absorbed m).2.length 0x80) ((absorbed m).2.length + 1)
        (List.replicate (64 - ((absorbed m).2.length + 1)) 0)) 0 (List.replicate 56 0))
        ([] ++ List.replicate 56 0) := Stores.Begins.nil.write _
    refine ⟨⟨_, List.length_replicate, hzeros, ?_⟩, fun a ha => ?_⟩
    · rw [absorb_pad_two _ hlt (by omega) (by omega), htail, sha1Transform_vars b _ _ hfill, ← h.digest]
      · rfl
      · simp only [List.length_append, List.length_cons, List.length_nil, List.length_replicate]
        omega
    · rw [← hframe a ha]
      refine (Stores.write_of_ge _ 0 _ ?_).trans (Stores.write_of_ge _ _ _ ?_)
      · rw [List.length_replicate]
        omega
      · rw [List.length_replicate]
        omega
  · have hfill := hmark.write (List.replicate (56 - ((absorbed m).2.length + 1)) 0)
    rw [List.length_append, List.length_singleton, List.append_assoc] at hfill
    refine ⟨⟨_, ?_, hfill, ?_⟩, fun a ha => ?_⟩
    · simp only [List.length_append, List.length_cons, List.length_nil, List.length_replicate]
      omega
    · have hzeros : 64 - ((absorbed m).2.length + 1 + 8) = 56 - ((absorbed m).2.length + 1) := by
        omega
      rw [absorb_pad_one _ (by omega), htail, ← h.digest, hzeros]
      simp only [List.append_assoc, List.cons_append, List.nil_append]
    · rw [← hframe a ha]
      exact Stores.write_of_ge _ _ _ (by rw [List.length_replicate]; omega)

/-- **The end** of a message gives its hash, and stores nothing behind `data`. -/
theorem sha1Final_spec (b : Build) {m : List UInt8} {info : Sha1Info} (h : Absorbed m info) :
    (sha1Final b info).1 = sha1 m ∧ ∀ a, 64 ≤ a → (sha1Final b info).2 a = info.data a := by
  obtain ⟨⟨pre, hpre⟩, hframe⟩ := padBlock_padded b h
  have hw := hpre.data.write (bigEndian 8 (8 * m.length))
  have hlen : (pre ++ bigEndian 8 (8 * m.length)).length = 64 := by
    rw [List.length_append, hpre.length, length_bigEndian]
  rw [hpre.length] at hw
  unfold sha1Final
  simp only [counts_eq h.count]
  refine ⟨?_, fun a ha => ?_⟩
  · rw [copyDigest_eq, sha1_eq, hpre.last, sha1Transform_vars b _ hlen hw]
  · exact (Stores.write_of_ge _ 56 _ (by rw [length_bigEndian]; omega)).trans (hframe a ha)

/-- **Hashing a stream**: `sha1_init`, any updates and `sha1_final` give the hash of the message
that the updates make up, however it is cut and however the transform is built; no store leaves
`data`. -/
theorem sha1_stream (b : Build) (data : Nat → UInt8) (pieces : List (List UInt8))
    (hp : ∀ piece ∈ pieces, piece.length < 2 ^ 31) :
    let final := sha1Final b (pieces.foldl (sha1Update b) (sha1Init data))
    final.1 = sha1 pieces.flatten ∧ ∀ a, 64 ≤ a → final.2 a = data a := by
  obtain ⟨habs, hframe⟩ := sha1Updates_spec b pieces (absorbed_init data) hp
  obtain ⟨hsha, hfinal⟩ := sha1Final_spec b habs
  exact ⟨hsha, fun a ha => (hfinal a ha).trans (hframe a ha)⟩

/-- The hash of a message in two pieces. -/
theorem sha1_stream_abc :
    let b : Build := ⟨true, true⟩
    let final := sha1Final b ([[97], [98, 99]].foldl (sha1Update b) (sha1Init fun _ => 0))
    final.1 = sha1 [97, 98, 99] ∧ ∀ a, 64 ≤ a → final.2 a = 0 :=
  sha1_stream ⟨true, true⟩ (fun _ => 0) [[97], [98, 99]] (by decide)

/-- The digest of `abc`. -/
example : (sha1Final ⟨true, false⟩ (sha1Update ⟨true, false⟩ (sha1Init fun _ => 0)
    "abc".asciiBytes)).1 =
    [0xa9, 0x99, 0x3e, 0x36, 0x47, 0x06, 0x81, 0x6a, 0xba, 0x3e, 0x25, 0x71, 0x78, 0x50, 0xc2,
      0x6c, 0x9c, 0xd0, 0xd8, 0x9d] := by decide +kernel

end Hotp
