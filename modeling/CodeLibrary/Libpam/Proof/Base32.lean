import CodeLibrary.Lib.BitGroups
import CodeLibrary.Lib.Stores
import CodeLibrary.Libpam.Base32

/-!
# Base32 text

A text stands for the bytes that the bits of its digits make up, eight by eight (`decodeText`); bytes
are written with the digits that their bits make up, five by five, with zeros behind the last one
(`encodeData`). What the loops keep: the bits read are the bits written, and those in `buffer`.

* `base32Decodes_run`: decoding, to where the text is or to where it ends before.
* `base32Encodes_run`: encoding.
* A buffer that is too small gets as much as fits into it.
-/

set_option autoImplicit false

namespace Libpam

open BitGroups

/-! ## Texts and bytes -/

/-- The digits of a text up to the first character that is none, and whether there is no such
character. -/
def readDigits : List UInt8 → List Nat × Bool
  | [] => ([], true)
  | ch :: text =>
    if isSkipped ch then readDigits text
    else
      match lookupDigit ch with
      | none => ([], false)
      | some digit => (digit.toNat :: (readDigits text).1, (readDigits text).2)

/-- The bytes of the digits of a text. -/
def decodeText (text : List UInt8) : List UInt8 := (pack 8 (unpack 5 (readDigits text).1)).map .ofNat

/-- The number of zero bits behind `n` bytes. -/
def fillBits (n : Nat) : Nat := (5 - 8 * n % 5) % 5

/-- The digits of some bytes. -/
def encodeDigits (data : List UInt8) : List Nat :=
  pack 5 (unpack 8 (data.map UInt8.toNat) ++ List.replicate (fillBits data.length) false)

/-- The text of some bytes. -/
def encodeData (data : List UInt8) : List UInt8 := (encodeDigits data).map fun i => alphabet.getD i 0

theorem lookupDigit_lt {ch digit : UInt8} (h : lookupDigit ch = some digit) : digit.toNat < 2 ^ 5 := by
  have hall : ∀ n < 256, ∀ digit ∈ lookupDigit (.ofNat n), digit.toNat < 2 ^ 5 := by
    decide +kernel
  refine hall ch.toNat ch.toNat_lt digit ?_
  rw [UInt8.ofNat_toNat]
  exact h

theorem lookupDigit_alphabet : ∀ i < 32, isSkipped (alphabet.getD i 0) = false ∧
    alphabet.getD i 0 ≠ 0 ∧ lookupDigit (alphabet.getD i 0) = some (.ofNat i) := by decide

theorem readDigits_lt : ∀ {text : List UInt8}, ∀ x ∈ (readDigits text).1, x < 2 ^ 5
  | [], x, hx => absurd hx List.not_mem_nil
  | ch :: text, x, hx => by
    rw [readDigits] at hx
    split at hx
    · exact readDigits_lt x hx
    · split at hx
      · exact absurd hx List.not_mem_nil
      · rename_i digit hd
        obtain rfl | hx := List.mem_cons.1 hx
        · exact lookupDigit_lt hd
        · exact readDigits_lt x hx

/-- Reading the text of some digits. -/
theorem readDigits_alphabet : ∀ {digits : List Nat}, (∀ x ∈ digits, x < 2 ^ 5) →
    readDigits (digits.map fun i => alphabet.getD i 0) = (digits, true)
  | [], _ => rfl
  | i :: digits, h => by
    have hi : i < 32 := h i List.mem_cons_self
    obtain ⟨hskip, -, hlook⟩ := lookupDigit_alphabet i hi
    rw [List.map_cons, readDigits, hskip, hlook,
      readDigits_alphabet fun x hx => h x (List.mem_cons_of_mem _ hx)]
    simp only [Bool.false_eq_true, if_false, UInt8.toNat_ofNat']
    rw [Nat.mod_eq_of_lt (by omega)]

theorem encodeDigits_lt (data : List UInt8) : ∀ x ∈ encodeDigits data, x < 2 ^ 5 :=
  fun _ hx => lt_of_mem_pack hx

theorem map_toNat_lt (data : List UInt8) : ∀ x ∈ data.map UInt8.toNat, x < 2 ^ 8 := by
  intro x hx
  obtain ⟨b, -, rfl⟩ := List.mem_map.1 hx
  exact b.toNat_lt

theorem dvd_fillBits (data : List UInt8) : 5 ∣ (unpack 8 (data.map UInt8.toNat) ++
    List.replicate (fillBits data.length) false).length := by
  rw [List.length_append, length_unpack, List.length_map, List.length_replicate, fillBits]
  omega

/-- The text of some bytes stands for them. -/
theorem decodeText_encodeData (data : List UInt8) :
    readDigits (encodeData data) = (encodeDigits data, true) ∧
      decodeText (encodeData data) = data := by
  have hread : readDigits (encodeData data) = (encodeDigits data, true) :=
    readDigits_alphabet (encodeDigits_lt data)
  refine ⟨hread, ?_⟩
  have hfill : (List.replicate (fillBits data.length) false).length < 8 := by
    rw [List.length_replicate, fillBits]
    omega
  rw [decodeText, hread, encodeDigits,
    regroup_regroup hfill (map_toNat_lt data) (dvd_fillBits data), List.map_map]
  exact List.map_id'' (fun b => UInt8.ofNat_toNat) data

/-! ## Bits of the buffer -/

/-- Bits are put behind those in the buffer. -/
theorem toBits_push (buffer : UInt32) {s : UInt32} {k m d : Nat} (hs : s.toNat = m) (hm : m ≤ 8)
    (hk : k ≤ 8) {x : UInt32} (hx : x.toNat = d) (hd : d < 2 ^ m) :
    toBits (k + m) ((buffer <<< s) ||| x).toNat = toBits k buffer.toNat ++ toBits m d := by
  have hbit : ∀ i < 32, ((buffer <<< s) ||| x).toNat.testBit i =
      (decide (m ≤ i) && buffer.toNat.testBit (i - m) || d.testBit i) := by
    intro i hi
    rw [UInt32.toNat_or, UInt32.toNat_shiftLeft, hs, hx, Nat.testBit_or, Nat.testBit_mod_two_pow,
      Nat.mod_eq_of_lt (show m < 32 by omega), Nat.testBit_shiftLeft]
    simp [hi]
  rw [toBits_add]
  congr 1
  · refine toBits_congr fun i hi => ?_
    rw [Nat.testBit_shiftRight, hbit _ (by omega), Nat.add_sub_cancel_left,
      Nat.testBit_lt_two_pow (Nat.lt_of_lt_of_le hd
        (Nat.pow_le_pow_right (by decide) (Nat.le_add_right m i)))]
    simp
  · refine toBits_congr fun i hi => ?_
    rw [hbit _ (by omega)]
    simp [Nat.not_le_of_lt hi]

/-- The high bits are taken from the buffer. -/
theorem toBits_pop (buffer : UInt32) {m k : Nat} (hm : m < 32) :
    toBits (k + m) buffer.toNat =
      toBits k (buffer >>> UInt32.ofNat m).toNat ++ toBits m buffer.toNat := by
  have hshift : (buffer >>> UInt32.ofNat m).toNat = buffer.toNat >>> m := by
    rw [UInt32.toNat_shiftRight, UInt32.toNat_ofNat', Nat.mod_eq_of_lt (show m < 2 ^ 32 by omega),
      Nat.mod_eq_of_lt hm]
  rw [toBits_add, hshift]

theorem toBits_toUInt8 (x : UInt32) : toBits 8 x.toUInt8.toNat = toBits 8 x.toNat :=
  toBits_congr fun i hi => by
    rw [UInt32.toNat_toUInt8, Nat.testBit_mod_two_pow]
    simp [hi]

/-! ## Decoding -/

/-- The memory from `p` on holds a text and its NUL. -/
def HoldsText (mem : Nat → UInt8) : Nat → List UInt8 → Prop
  | p, [] => mem p = 0
  | p, ch :: text => mem p = ch ∧ ch ≠ 0 ∧ HoldsText mem (p + 1) text

/-- What is stored outside a text leaves it alone. -/
theorem HoldsText.update {mem : Nat → UInt8} {a : Nat} (x : UInt8) :
    ∀ {p : Nat} {text : List UInt8}, HoldsText mem p text → a < p ∨ p + text.length < a →
      HoldsText (Function.update mem a x) p text
  | p, [], h, ha => by
    rw [HoldsText, Function.update_of_ne (by simp only [List.length_nil] at ha; omega)]
    exact h
  | p, ch :: text, ⟨hch, hne, h⟩, ha => by
    rw [List.length_cons] at ha
    refine ⟨?_, hne, h.update x (by omega)⟩
    rw [Function.update_of_ne (by omega)]
    exact hch

/-- What decoding `text` returns, and what it writes to `result`. -/
def decodeResult (mem : Nat → UInt8) (text : List UInt8) (result : Nat) (bufSize : Int) :
    Int × (Nat → UInt8) :=
  if bufSize ≤ (decodeText text).length then
    (bufSize.toNat, Stores.write mem result ((decodeText text).take bufSize.toNat))
  else if (readDigits text).2 then
    ((decodeText text).length, Stores.write mem result (decodeText text ++ [0]))
  else (-1, Stores.write mem result (decodeText text))

/-- The text is not where bytes may be written before it is read. -/
def Apart (encoded : Nat) (text : List UInt8) (result : Nat) : Prop :=
  result ≤ encoded ∨ encoded + text.length < result

section
variable {mem : Nat → UInt8} {encoded result : Nat} {text : List UInt8} {bufSize : Int}

/-- The loop has read `n` characters and has `post` ahead of it; it has found the digits `ds` and
written the bytes `bs`. -/
structure Decoded (mem : Nat → UInt8) (encoded result : Nat) (text : List UInt8) (bufSize : Int)
    (s : Decoding) (n : Nat) (post : List UInt8) (ds : List Nat) (bs : List UInt8) : Prop where
  ptr : s.ptr = encoded + n
  ahead : n + post.length = text.length
  holds : HoldsText s.mem s.ptr post
  digits : readDigits text = (ds ++ (readDigits post).1, (readDigits post).2)
  read : ds.length ≤ n
  mem : s.mem = Stores.write mem result bs
  count : s.count = bs.length
  room : (bs.length : Int) ≤ bufSize.toNat
  bitsLeft : s.bitsLeft < 8
  bits : unpack 5 ds = unpack 8 (bs.map UInt8.toNat) ++ toBits s.bitsLeft s.buffer.toNat

/-- The bytes of the text start with those written. -/
theorem Decoded.decodeText {s : Decoding} {n : Nat} {post : List UInt8} {ds : List Nat}
    {bs : List UInt8} (h : Decoded mem encoded result text bufSize s n post ds bs) :
    ∃ more, Libpam.decodeText text = bs ++ more ∧ ((readDigits post).1 = [] → more = []) := by
  have hpack := pack_unpack_append (n := 8) (by decide)
    (toBits s.bitsLeft s.buffer.toNat ++ unpack 5 (readDigits post).1) (map_toNat_lt bs)
  refine ⟨(pack 8 (toBits s.bitsLeft s.buffer.toNat ++ unpack 5 (readDigits post).1)).map .ofNat,
    ?_, fun hnil => ?_⟩
  · rw [Libpam.decodeText, h.digits, unpack_append, h.bits, List.append_assoc, hpack,
      List.map_append, List.map_map]
    congr 1
    exact List.map_id'' (fun b => UInt8.ofNat_toNat) bs
  · rw [hnil, unpack, List.flatMap_nil, List.append_nil, pack_of_lt, List.map_nil]
    rw [length_toBits]
    exact h.bitsLeft

/-- The loop's exit, where nothing more is to be read. -/
theorem Decoded.finish {s : Decoding} {n : Nat} {post : List UInt8} {ds : List Nat}
    {bs : List UInt8} (h : Decoded mem encoded result text bufSize s n post ds bs)
    (hend : ¬ ((s.count : Int) < bufSize ∧ s.mem s.ptr ≠ 0)) :
    finish s.mem result s.count bufSize = decodeResult mem text result bufSize := by
  obtain ⟨more, hmore, hnil⟩ := h.decodeText
  have hcount := h.count
  have hroom := h.room
  unfold Libpam.finish decodeResult
  by_cases hlt : (s.count : Int) < bufSize
  · -- the text has ended
    have hpost : post = [] := by
      cases post with
      | nil => rfl
      | cons ch post =>
        obtain ⟨hch, hne, -⟩ := h.holds
        exact absurd (hch.symm ▸ hne) fun hz => hend ⟨hlt, hz⟩
    have hfull : Libpam.decodeText text = bs := by
      rw [hmore, hnil (by rw [hpost]; rfl), List.append_nil]
    have hok : (readDigits text).2 = true := by rw [h.digits, hpost]; rfl
    rw [if_pos hlt, hfull, if_neg (by omega), hok, if_pos rfl, h.mem, hcount, Stores.write_snoc]
  · have hlen : bs.length = bufSize.toNat := by omega
    rw [if_neg hlt, hmore, if_pos (by rw [List.length_append]; omega), h.mem, hcount, ← hlen,
      List.take_left]

/-- A digit is put behind the bits in the buffer. -/
theorem Decoded.push {s : Decoding} {n : Nat} {post : List UInt8} {ds : List Nat}
    {bs : List UInt8} (h : Decoded mem encoded result text bufSize s n post ds bs) {digit : UInt8}
    (hd : digit.toNat < 2 ^ 5) :
    unpack 5 (ds ++ [digit.toNat]) = unpack 8 (bs.map UInt8.toNat) ++
      toBits (s.bitsLeft + 5) ((s.buffer <<< 5) ||| digit.toUInt32).toNat := by
  have hk := h.bitsLeft
  rw [unpack_append, unpack_singleton, h.bits, List.append_assoc,
    toBits_push _ (s := 5) (m := 5) rfl (by decide) (by omega) (UInt8.toNat_toUInt32 digit) hd]

/-- No more bytes are written than characters are read. -/
theorem Decoded.count_le {s : Decoding} {n : Nat} {post : List UInt8} {ds : List Nat}
    {bs : List UInt8} (h : Decoded mem encoded result text bufSize s n post ds bs) :
    s.count ≤ n := by
  have hlen := congrArg List.length h.bits
  have hread := h.read
  have hcount := h.count
  rw [List.length_append, length_unpack, length_unpack, length_toBits, List.length_map] at hlen
  omega

/-- **One iteration** of the decoder. -/
theorem Decoded.step {s : Decoding} {n : Nat} {post : List UInt8} {ds : List Nat}
    {bs : List UInt8} (h : Decoded mem encoded result text bufSize s n post ds bs)
    (hapart : Apart encoded text result) :
    match decodeStep result bufSize s with
    | .inl s' => ∃ post' ds' bs', post.length = post'.length + 1 ∧
        Decoded mem encoded result text bufSize s' (n + 1) post' ds' bs'
    | .inr r => r = decodeResult mem text result bufSize := by
  unfold decodeStep
  by_cases hgo : (s.count : Int) < bufSize ∧ s.mem s.ptr ≠ 0
  · obtain ⟨hlt, hne⟩ := hgo
    cases post with
    | nil => exact absurd h.holds hne
    | cons ch post =>
      obtain ⟨hch, -, hpost⟩ := h.holds
      have hahead := h.ahead
      have hdigits := h.digits
      rw [List.length_cons] at hahead
      rw [readDigits] at hdigits
      simp only [hch, if_pos (show (s.count : Int) < bufSize ∧ ch ≠ 0 from ⟨hlt, hch ▸ hne⟩)]
      by_cases hskip : isSkipped ch = true
      · rw [if_pos hskip] at hdigits ⊢
        exact ⟨post, ds, bs, rfl, ⟨by simp only [h.ptr]; omega, by omega, hpost, hdigits,
          Nat.le_succ_of_le h.read, h.mem, h.count, h.room, h.bitsLeft, h.bits⟩⟩
      · rw [if_neg hskip] at hdigits ⊢
        cases hlook : lookupDigit ch with
        | none =>
          rw [hlook] at hdigits
          obtain ⟨more, hmore, hnil⟩ := h.decodeText
          have hcount := h.count
          have hempty : (readDigits (ch :: post)).1 = [] := by
            rw [readDigits, if_neg hskip, hlook]
          rw [hnil hempty, List.append_nil] at hmore
          dsimp only at hdigits ⊢
          rw [decodeResult, hmore, if_neg (by omega), hdigits, if_neg Bool.false_ne_true, h.mem]
        | some digit =>
          rw [hlook] at hdigits
          dsimp only at hdigits ⊢
          have hbits := h.push (lookupDigit_lt hlook)
          have hread := h.read
          have hcount := h.count
          have hle := h.count_le
          rw [List.append_cons] at hdigits
          by_cases h8 : 8 ≤ s.bitsLeft + 5
          · -- eight bits make a byte
            rw [if_pos h8]
            refine ⟨post, _, bs ++ [((s.buffer <<< 5 ||| digit.toUInt32) >>>
              UInt32.ofNat (s.bitsLeft + 5 - 8)).toUInt8], rfl, ⟨?_, ?_, ?_, hdigits, ?_, ?_, ?_,
              ?_, ?_, ?_⟩⟩
            · simp only [h.ptr]
              omega
            · omega
            · have hptr := h.ptr
              refine hpost.update _ ?_
              rcases hapart with hle | hgt
              · omega
              · omega
            · simp only [List.length_append, List.length_singleton]
              omega
            · simp only [h.mem, hcount, Stores.write_snoc]
            · simp only [List.length_append, List.length_singleton, hcount]
            · simp only [List.length_append, List.length_singleton]
              omega
            · have hk := h.bitsLeft
              show s.bitsLeft + 5 - 8 < 8
              omega
            · have hk := h.bitsLeft
              have hpop := toBits_pop (s.buffer <<< 5 ||| digit.toUInt32) (m := s.bitsLeft + 5 - 8)
                (k := 8) (by omega)
              rw [Nat.add_sub_cancel' h8] at hpop
              rw [hbits, hpop, List.map_append, unpack_append, List.map_singleton,
                unpack_singleton, toBits_toUInt8, List.append_assoc]
          · rw [if_neg h8]
            refine ⟨post, _, bs, rfl, ⟨?_, ?_, hpost, hdigits, ?_, h.mem, hcount, h.room, ?_,
              hbits⟩⟩
            · simp only [h.ptr]
              omega
            · omega
            · simp only [List.length_append, List.length_singleton]
              omega
            · show s.bitsLeft + 5 < 8
              omega
  · simp only [if_neg hgo]
    exact h.finish hgo

theorem Decoded.returns (hapart : Apart encoded text result) :
    ∀ {post : List UInt8} {s : Decoding} {n : Nat} {ds : List Nat} {bs : List UInt8},
      Decoded mem encoded result text bufSize s n post ds bs →
      Loop.Returns (decodeStep result bufSize) s (decodeResult mem text result bufSize) := by
  intro post
  induction hk : post.length using Nat.strongRecOn generalizing post with
  | ind k ih =>
    intro s n ds bs h
    have hstep := h.step hapart
    cases hs : decodeStep result bufSize s with
    | inl s' =>
      rw [hs] at hstep
      obtain ⟨post', ds', bs', hlen, h'⟩ := hstep
      exact .next hs (ih post'.length (by omega) rfl h')
    | inr r =>
      rw [hs] at hstep
      subst hstep
      exact .done hs

end

/-- **Decoding** a text, into memory behind it or where it starts: it returns, and what it returns
and writes is what the text stands for. -/
theorem base32Decodes_iff {mem : Nat → UInt8} {encoded result : Nat} {text : List UInt8}
    {bufSize : Int} (htext : HoldsText mem encoded text) (hapart : Apart encoded text result)
    {r : Int × (Nat → UInt8)} :
    Base32Decodes mem encoded result bufSize r ↔ r = decodeResult mem text result bufSize := by
  have h0 : Decoded mem encoded result text bufSize ⟨mem, encoded, 0, 0, 0⟩ 0 text [] [] :=
    ⟨rfl, Nat.zero_add _, htext, rfl, Nat.le_refl 0, (Stores.write_nil mem result).symm, rfl,
      Int.natCast_nonneg _, Nat.zero_lt_succ 7, rfl⟩
  have hret := h0.returns hapart
  refine ⟨fun h => Loop.Returns.det h hret, ?_⟩
  rintro rfl
  exact hret

/-! ## Encoding -/

/-- What encoding `xs` returns, and what it writes to `result`. -/
def encodeResult (mem : Nat → UInt8) (xs : List UInt8) (result : Nat) (bufSize : Int) :
    Int × (Nat → UInt8) :=
  if bufSize ≤ (encodeData xs).length then
    (bufSize.toNat, Stores.write mem result ((encodeData xs).take bufSize.toNat))
  else ((encodeData xs).length, Stores.write mem result (encodeData xs ++ [0]))

section
variable {mem : Nat → UInt8} {data result : Nat} {xs : List UInt8} {bufSize : Int}

/-- The loop has written the digits `os`; the bits it has read, with `p` zeros behind the last
byte, are theirs and those in the buffer. -/
structure Encoded (mem : Nat → UInt8) (data result : Nat) (xs : List UInt8) (bufSize : Int)
    (s : Encoding) (os : List Nat) (p : Nat) : Prop where
  reads : ∀ i, ∀ h : i < xs.length, s.mem (data + i) = xs[i]
  next : s.next ≤ xs.length
  mem : s.mem = Stores.write mem result (os.map fun i => alphabet.getD i 0)
  count : s.count = os.length
  digits : ∀ x ∈ os, x < 2 ^ 5
  fill : p < 5
  bits : unpack 8 ((xs.take s.next).map UInt8.toNat) ++ List.replicate p false =
    unpack 5 os ++ toBits s.bitsLeft s.buffer.toNat

/-- What holds at the loop's head besides. -/
structure AtHead (xs : List UInt8) (bufSize : Int) (s : Encoding) (os : List Nat) (p : Nat) :
    Prop where
  room : (os.length : Int) ≤ bufSize.toNat
  bitsLeft : s.bitsLeft ≤ 8
  last : p ≠ 0 → s.next = xs.length ∧ s.bitsLeft = 0

/-- The digits of all bytes start with those written. -/
theorem Encoded.encodeDigits {s : Encoding} {os : List Nat} {p : Nat}
    (h : Encoded mem data result xs bufSize s os p) (hh : AtHead xs bufSize s os p) :
    ∃ more, Libpam.encodeDigits xs = os ++ more ∧
      (s.next = xs.length ∧ s.bitsLeft = 0 → more = []) := by
  by_cases hend : s.next = xs.length ∧ s.bitsLeft = 0
  · -- nothing is left, so the zeros are those behind the last byte
    refine ⟨[], ?_, fun _ => rfl⟩
    have hbits := h.bits
    rw [hend.1, hend.2, List.take_length, toBits_zero, List.append_nil] at hbits
    have hlen := congrArg List.length hbits
    rw [List.length_append, length_unpack, length_unpack, List.length_map,
      List.length_replicate] at hlen
    have hp : p = fillBits xs.length := by
      have hfill := h.fill
      rw [fillBits]
      omega
    rw [Libpam.encodeDigits, ← hp, hbits, ← List.append_nil (unpack 5 os),
      pack_unpack (by decide) h.digits, List.append_nil]
  · have hp : p = 0 := Classical.byContradiction fun hp => hend (hh.last hp)
    have hbits := h.bits
    rw [hp, List.replicate_zero, List.append_nil] at hbits
    have hsplit : unpack 8 (xs.map UInt8.toNat) = unpack 5 os ++
        (toBits s.bitsLeft s.buffer.toNat ++ unpack 8 ((xs.drop s.next).map UInt8.toNat)) := by
      rw [← List.append_assoc, ← hbits, ← unpack_append, ← List.map_append, List.take_append_drop]
    rw [Libpam.encodeDigits, hsplit, List.append_assoc,
      pack_unpack_append (by decide) _ h.digits]
    exact ⟨_, rfl, fun he => absurd he hend⟩

/-- More bits for a digit. -/
theorem Encoded.refill {s : Encoding} {os : List Nat} {p : Nat}
    (h : Encoded mem data result xs bufSize s os p) (hh : AtHead xs bufSize s os p)
    (hgo : 0 < s.bitsLeft ∨ (s.next : Int) < xs.length) :
    ∃ p', Encoded mem data result xs bufSize (refill data xs.length s) os p' ∧
      5 ≤ (refill data xs.length s).bitsLeft ∧ (refill data xs.length s).bitsLeft ≤ 12 ∧
      (refill data xs.length s).count = s.count ∧
      (p' ≠ 0 → (refill data xs.length s).next = xs.length ∧
        (refill data xs.length s).bitsLeft = 5) := by
  have hp : p = 0 := by
    refine Classical.byContradiction fun hp => ?_
    obtain ⟨hn, hb⟩ := hh.last hp
    omega
  subst hp
  have hb8 := hh.bitsLeft
  have hbits := h.bits
  rw [List.replicate_zero, List.append_nil] at hbits
  unfold Libpam.refill
  by_cases h5 : s.bitsLeft < 5
  · rw [if_pos h5]
    by_cases hn : (s.next : Int) < xs.length
    · -- the next byte
      have hn' : s.next < xs.length := by omega
      have hbyte : ((s.mem (data + s.next)).toUInt32 &&& 0xFF).toNat = xs[s.next].toNat := by
        rw [h.reads _ hn', UInt32.toNat_and, UInt8.toNat_toUInt32]
        exact (Nat.and_two_pow_sub_one_eq_mod _ 8).trans (Nat.mod_eq_of_lt (UInt8.toNat_lt _))
      rw [if_pos hn]
      refine ⟨0, ⟨h.reads, hn', h.mem, h.count, h.digits, by decide, ?_⟩, ?_, ?_, rfl, nofun⟩
      · simp only [List.replicate_zero, List.append_nil]
        rw [toBits_push _ (s := 8) (m := 8) rfl (by decide) (by omega) hbyte (UInt8.toNat_lt _),
          ← List.append_assoc, ← hbits, List.take_succ_eq_append_getElem hn', List.map_append,
          unpack_append, List.map_singleton, unpack_singleton]
      · show 5 ≤ s.bitsLeft + 8
        omega
      · show s.bitsLeft + 8 ≤ 12
        omega
    · -- zeros behind the last byte
      have hnext := h.next
      have hn' : s.next = xs.length := by omega
      rw [if_neg hn]
      have hpush := toBits_push s.buffer (s := UInt32.ofNat (5 - s.bitsLeft))
        (k := s.bitsLeft) (m := 5 - s.bitsLeft) (d := 0) (x := 0)
        (by rw [UInt32.toNat_ofNat']; omega) (by omega) (by omega) rfl (Nat.two_pow_pos _)
      rw [UInt32.or_zero, toBits_zero_right] at hpush
      refine ⟨5 - s.bitsLeft, ⟨h.reads, h.next, h.mem, h.count, h.digits, by omega, ?_⟩, ?_, ?_,
        rfl, fun _ => ⟨hn', ?_⟩⟩
      · simp only [hpush]
        rw [hbits, List.append_assoc]
      · show 5 ≤ s.bitsLeft + (5 - s.bitsLeft)
        omega
      · show s.bitsLeft + (5 - s.bitsLeft) ≤ 12
        omega
      · show s.bitsLeft + (5 - s.bitsLeft) = 5
        omega
  · rw [if_neg h5]
    exact ⟨0, h, by omega, by omega, rfl, nofun⟩

/-- The result buffer is not where the bytes are. -/
def Disjoint (data : Nat) (xs : List UInt8) (result : Nat) (bufSize : Int) : Prop :=
  result + bufSize.toNat ≤ data ∨ data + xs.length ≤ result

/-- The digit that is taken from the buffer. -/
theorem index_eq (buffer : UInt32) {m : Nat} (hm : m < 32) :
    (0x1F &&& (buffer >>> UInt32.ofNat m)).toNat < 2 ^ 5 ∧
      toBits (5 + m) buffer.toNat =
        toBits 5 (0x1F &&& (buffer >>> UInt32.ofNat m)).toNat ++ toBits m buffer.toNat := by
  have hand : (0x1F &&& (buffer >>> UInt32.ofNat m)).toNat =
      (buffer >>> UInt32.ofNat m).toNat % 2 ^ 5 := by
    rw [UInt32.toNat_and, Nat.and_comm]
    exact Nat.and_two_pow_sub_one_eq_mod _ 5
  rw [hand]
  refine ⟨Nat.mod_lt _ (by decide), ?_⟩
  rw [toBits_pop buffer hm]
  congr 1
  refine toBits_congr fun i hi => ?_
  rw [Nat.testBit_mod_two_pow]
  simp [hi]

/-- **One iteration** of the encoder. -/
theorem Encoded.step {s : Encoding} {os : List Nat} {p : Nat}
    (h : Encoded mem data result xs bufSize s os p) (hh : AtHead xs bufSize s os p)
    (hdisj : Disjoint data xs result bufSize) :
    match encodeStep data result xs.length bufSize s with
    | .inl s' => s'.count = s.count + 1 ∧ (s.count : Int) < bufSize ∧
        ∃ os' p', Encoded mem data result xs bufSize s' os' p' ∧ AtHead xs bufSize s' os' p'
    | .inr r => r = encodeResult mem xs result bufSize := by
  unfold encodeStep
  by_cases hgo : (s.count : Int) < bufSize ∧ (0 < s.bitsLeft ∨ (s.next : Int) < xs.length)
  · obtain ⟨p', h', h5, h12, hcount, hlast⟩ := h.refill hh hgo.2
    have hc := h.count
    have hroom := hgo.1
    rw [if_pos hgo]
    generalize Libpam.refill data xs.length s = s' at h' h5 h12 hcount hlast ⊢
    obtain ⟨hlt, hbits⟩ := index_eq s'.buffer (m := s'.bitsLeft - 5) (by omega)
    rw [Nat.add_sub_cancel' h5] at hbits
    refine ⟨by simp only [hcount], hgo.1,
      os ++ [(0x1F &&& (s'.buffer >>> UInt32.ofNat (s'.bitsLeft - 5))).toNat], p',
      ⟨?_, h'.next, ?_, ?_, ?_, h'.fill, ?_⟩, ⟨?_, ?_, ?_⟩⟩
    · intro i hi
      simp only [hcount, hc]
      rw [Function.update_of_ne, h'.reads i hi]
      rcases hdisj with hd | hd
      · omega
      · omega
    · simp only [h'.mem, hcount, hc, List.map_append, List.map_singleton]
      rw [← Stores.write_snoc, List.length_map]
    · simp only [hcount, hc, List.length_append, List.length_singleton]
    · intro x hx
      obtain hx | hx := List.mem_append.1 hx
      · exact h.digits x hx
      · rw [List.mem_singleton.1 hx]
        exact hlt
    · simp only [h'.bits, hbits, unpack_append, unpack_singleton, List.append_assoc]
    · simp only [List.length_append, List.length_singleton]
      omega
    · show s'.bitsLeft - 5 ≤ 8
      omega
    · intro hp
      obtain ⟨hn, hb⟩ := hlast hp
      refine ⟨hn, ?_⟩
      show s'.bitsLeft - 5 = 0
      omega
  · rw [if_neg hgo]
    obtain ⟨more, hmore, hnil⟩ := h.encodeDigits hh
    have hroom := hh.room
    have hcount := h.count
    have hnext := h.next
    show finish s.mem result s.count bufSize = encodeResult mem xs result bufSize
    unfold finish encodeResult encodeData
    by_cases hlt : (s.count : Int) < bufSize
    · have hfull : Libpam.encodeDigits xs = os := by
        rw [hmore, hnil (by omega), List.append_nil]
      rw [if_pos hlt, hfull, if_neg (by rw [List.length_map]; omega), h.mem, hcount,
        ← Stores.write_snoc, List.length_map]
    · rw [if_neg hlt, hmore, List.map_append, if_pos (by
        rw [List.length_append, List.length_map]; omega), h.mem, hcount,
        List.take_left' (by rw [List.length_map]; omega)]
      congr 1
      omega

theorem Encoded.returns (hdisj : Disjoint data xs result bufSize) :
    ∀ {s : Encoding} {os : List Nat} {p : Nat}, Encoded mem data result xs bufSize s os p →
      AtHead xs bufSize s os p →
      Loop.Returns (encodeStep data result xs.length bufSize) s
        (encodeResult mem xs result bufSize) := by
  intro s
  induction hk : bufSize.toNat - s.count using Nat.strongRecOn generalizing s with
  | ind k ih =>
    intro os p h hh
    have hstep := h.step hh hdisj
    cases hs : encodeStep data result xs.length bufSize s with
    | inl s' =>
      rw [hs] at hstep
      obtain ⟨hc, hlt, os', p', h', hh'⟩ := hstep
      exact .next hs (ih (bufSize.toNat - s'.count) (by omega) rfl h' hh')
    | inr r =>
      rw [hs] at hstep
      subst hstep
      exact .done hs

end

/-- **Encoding** some bytes into a buffer that does not overlap them: it returns, and what it
returns and writes is their text. -/
theorem base32Encodes_iff {mem : Nat → UInt8} {data result : Nat} {xs : List UInt8} {bufSize : Int}
    (hxs : ∀ i, ∀ h : i < xs.length, mem (data + i) = xs[i]) (hlen : xs.length ≤ 2 ^ 28)
    (hdisj : Disjoint data xs result bufSize) {r : Int × (Nat → UInt8)} :
    Base32Encodes mem data xs.length result bufSize r ↔ r = encodeResult mem xs result bufSize := by
  unfold Base32Encodes
  rw [if_neg (by omega)]
  cases xs with
  | nil =>
    have hempty : encodeResult mem [] result bufSize = finish mem result 0 bufSize := by
      have hdata : encodeData [] = [] := rfl
      unfold encodeResult finish
      rw [hdata]
      by_cases hpos : (0 : Int) < bufSize
      · rw [if_neg (by simpa using hpos), if_pos (by simpa using hpos), List.nil_append,
          ← List.nil_append [(0 : UInt8)], ← Stores.write_snoc, Stores.write_nil]
        rfl
      · rw [if_pos (by simpa using hpos), if_neg (by simpa using hpos), List.take_nil,
          Stores.write_nil, Int.toNat_eq_zero.2 (by omega)]
    rw [if_neg (by simp), hempty]
  | cons x xs =>
    rw [if_pos (by simp only [List.length_cons]; omega)]
    have hx : mem data = x := hxs 0 (Nat.zero_lt_succ _)
    have h0 : Encoded mem data result (x :: xs) bufSize ⟨mem, (mem data).toUInt32, 1, 8, 0⟩ [] 0 := by
      refine ⟨hxs, Nat.succ_le_succ (Nat.zero_le _), (Stores.write_nil mem result).symm, rfl, nofun,
        by decide, ?_⟩
      rw [UInt8.toNat_toUInt32, hx]
      simp [unpack]
    have hret := h0.returns hdisj ⟨Int.natCast_nonneg _, Nat.le_refl 8, fun hp => absurd rfl hp⟩
    refine ⟨fun h => Loop.Returns.det h hret, ?_⟩
    rintro rfl
    exact hret

/-! ## The calls -/

theorem length_encodeData (xs : List UInt8) :
    (encodeData xs).length = (8 * xs.length + 4) / 5 := by
  have hdvd := dvd_fillBits xs
  rw [encodeData, List.length_map, encodeDigits, length_pack]
  rw [List.length_append, length_unpack, List.length_map, List.length_replicate, fillBits] at *
  omega

theorem encodeData_ne_zero (xs : List UInt8) : ∀ ch ∈ encodeData xs, ch ≠ 0 := by
  intro ch hch
  obtain ⟨i, hi, rfl⟩ := List.mem_map.1 hch
  exact (lookupDigit_alphabet i (encodeDigits_lt xs i hi)).2.1

theorem holdsText_write : ∀ {text : List UInt8} (mem : Nat → UInt8) (p : Nat),
    (∀ ch ∈ text, ch ≠ 0) → HoldsText (Stores.write mem p (text ++ [0])) p text
  | [], mem, p, _ => by
    show Stores.write mem p [0] p = 0
    exact Stores.write_apply mem p [0] (i := 0) (by decide) 0
  | ch :: text, mem, p, h => by
    refine ⟨Stores.write_apply mem p (ch :: text ++ [0]) (i := 0) (by simp) 0,
      h ch List.mem_cons_self, ?_⟩
    rw [List.cons_append, ← Stores.write_cons]
    exact holdsText_write _ _ fun x hx => h x (List.mem_cons_of_mem _ hx)

/-- What decoding returns where the text has no foreign character and the buffer is large enough. -/
theorem decodeResult_of_le (mem : Nat → UInt8) {text : List UInt8} (result : Nat) {bufSize : Int}
    (hok : (readDigits text).2 = true) (hle : (decodeText text).length ≤ bufSize) :
    ∃ more, more.length ≤ 1 ∧ decodeResult mem text result bufSize =
      (((decodeText text).length : Int), Stores.write mem result (decodeText text ++ more)) := by
  unfold decodeResult
  by_cases hlt : bufSize ≤ (decodeText text).length
  · rw [if_pos hlt, List.take_of_length_le (by omega)]
    refine ⟨[], by decide, ?_⟩
    rw [List.append_nil]
    congr 1
    omega
  · rw [if_neg hlt, hok, if_pos rfl]
    exact ⟨[0], Nat.le_refl 1, rfl⟩

/-- **Round trip.** Bytes that are encoded into a buffer with room for their text come back when the
text is decoded in place, and nothing outside the text and its NUL changes. -/
theorem base32_round_trip {mem : Nat → UInt8} {data result : Nat} {xs : List UInt8}
    {bufSize size : Int} (hxs : ∀ i, ∀ h : i < xs.length, mem (data + i) = xs[i])
    (hlen : xs.length ≤ 2 ^ 28) (hdisj : Disjoint data xs result bufSize)
    (hroom : ((8 * xs.length + 4) / 5 : Nat) < bufSize) (hsize : xs.length ≤ size) :
    ∃ mem1 mem2,
      Base32Encodes mem data xs.length result bufSize (((8 * xs.length + 4) / 5 : Nat), mem1) ∧
      Base32Decodes mem1 result result size (xs.length, mem2) ∧
      (∀ i, ∀ h : i < xs.length, mem2 (result + i) = xs[i]) ∧
      ∀ a, a < result ∨ result + (8 * xs.length + 4) / 5 < a → mem2 a = mem a := by
  have hlength := length_encodeData xs
  obtain ⟨hread, hdecode⟩ := decodeText_encodeData xs
  have hencode : encodeResult mem xs result bufSize =
      ((((8 * xs.length + 4) / 5 : Nat) : Int), Stores.write mem result (encodeData xs ++ [0])) := by
    rw [encodeResult, if_neg (by omega), hlength]
  have htext := holdsText_write mem result (encodeData_ne_zero xs)
  have hle : ((decodeText (encodeData xs)).length : Int) ≤ size := by
    rw [hdecode]
    exact hsize
  obtain ⟨more, hmore, hres⟩ := decodeResult_of_le
    (Stores.write mem result (encodeData xs ++ [0])) result (by rw [hread]) hle
  rw [hdecode] at hres
  refine ⟨_, _, (base32Encodes_iff hxs hlen hdisj).2 hencode.symm,
    (base32Decodes_iff htext (.inl (Nat.le_refl _))).2 hres.symm, fun i hi => ?_, fun a ha => ?_⟩
  · rw [Stores.write_apply _ _ _ (by rw [List.length_append]; omega) 0,
      List.getD_append _ _ _ _ hi, List.getD_eq_getElem _ _ hi]
  · have htextLength : (encodeData xs ++ [0]).length = (8 * xs.length + 4) / 5 + 1 := by
      rw [List.length_append, hlength, List.length_singleton]
    have hdataLength : (xs ++ more).length ≤ xs.length + 1 := by
      rw [List.length_append]
      omega
    rcases ha with hlt | hgt
    · rw [Stores.write_of_lt _ _ _ hlt, Stores.write_of_lt _ _ _ hlt]
    · rw [Stores.write_of_ge _ _ _ (by omega), Stores.write_of_ge _ _ _ (by omega)]

/-- Seven bytes, two of which are left for the last group. -/
theorem base32_round_trip_seven :
    let xs : List UInt8 := [72, 0, 255, 108, 111, 33, 128]
    let mem : Nat → UInt8 := fun a => xs.getD a 7
    ∃ mem1 mem2, Base32Encodes mem 0 7 10 16 (12, mem1) ∧ Base32Decodes mem1 10 10 7 (7, mem2) ∧
      (∀ i, ∀ h : i < xs.length, mem2 (10 + i) = xs[i]) ∧
      ∀ a, a < 10 ∨ 22 < a → mem2 a = mem a := by
  intro xs mem
  have hlen : xs.length = 7 := rfl
  have hxs : ∀ i, ∀ h : i < xs.length, mem (0 + i) = xs[i] := by decide
  have hdisj : Disjoint 0 xs 10 16 := .inr (by decide)
  have hroom : (((8 * xs.length + 4) / 5 : Nat) : Int) < 16 := by decide
  have hsize : ((xs.length : Nat) : Int) ≤ 7 := by decide
  obtain ⟨mem1, mem2, henc, hdec, hget, hkeep⟩ :=
    base32_round_trip hxs (by decide) hdisj hroom hsize
  rw [hlen] at henc hdec hkeep
  exact ⟨mem1, mem2, henc, hdec, hget, hkeep⟩

/-- What decoding returns and the bytes it writes do not depend on where they are written. -/
theorem decodeResult_write (text : List UInt8) (bufSize : Int) :
    ∃ n bytes, bytes.length ≤ bufSize.toNat ∧ ∀ (mem : Nat → UInt8) (result : Nat),
      decodeResult mem text result bufSize = (n, Stores.write mem result bytes) := by
  unfold decodeResult
  by_cases hle : bufSize ≤ (decodeText text).length
  · exact ⟨_, _, List.length_take_le _ _, fun _ _ => if_pos hle⟩
  · simp only [if_neg hle]
    by_cases hok : (readDigits text).2 = true
    · simp only [if_pos hok]
      exact ⟨_, _, by rw [List.length_append, List.length_singleton]; omega, fun _ _ => rfl⟩
    · simp only [if_neg hok]
      exact ⟨_, _, by omega, fun _ _ => rfl⟩

/-- **Decoding in place** gives what decoding to any other place does: the same count and the same
bytes, no more of them than the buffer holds. -/
theorem base32_in_place {mem : Nat → UInt8} {p q : Nat} {text : List UInt8} {bufSize : Int}
    (htext : HoldsText mem p text) (hq : Apart p text q) :
    ∃ n bytes, bytes.length ≤ bufSize.toNat ∧
      (∀ r, Base32Decodes mem p p bufSize r ↔ r = (n, Stores.write mem p bytes)) ∧
      ∀ r, Base32Decodes mem p q bufSize r ↔ r = (n, Stores.write mem q bytes) := by
  obtain ⟨n, bytes, hlen, hres⟩ := decodeResult_write text bufSize
  refine ⟨n, bytes, hlen, fun r => ?_, fun r => ?_⟩
  · rw [← hres]
    exact base32Decodes_iff htext (.inl (Nat.le_refl p))
  · rw [← hres]
    exact base32Decodes_iff htext hq

theorem base32_in_place_A : ∃ n bytes, bytes.length ≤ (4 : Int).toNat ∧
    (∀ r, Base32Decodes (Stores.write (fun _ => 0) 5 ([73, 69] ++ [0])) 5 5 4 r ↔
      r = (n, Stores.write (Stores.write (fun _ => 0) 5 ([73, 69] ++ [0])) 5 bytes)) ∧
    ∀ r, Base32Decodes (Stores.write (fun _ => 0) 5 ([73, 69] ++ [0])) 5 2 4 r ↔
      r = (n, Stores.write (Stores.write (fun _ => 0) 5 ([73, 69] ++ [0])) 2 bytes) :=
  base32_in_place (holdsText_write _ 5 (by simp)) (.inl (by decide))

/-- The count that decoding returns. -/
theorem decodeResult_fst (mem : Nat → UInt8) (text : List UInt8) (result : Nat) (bufSize : Int) :
    (decodeResult mem text result bufSize).1 =
      if bufSize ≤ (decodeText text).length then max bufSize 0
      else if (readDigits text).2 then ((decodeText text).length : Int) else -1 := by
  unfold decodeResult
  split
  · exact Int.toNat_eq_max bufSize
  · split <;> rfl

/-- The bytes that fit into the buffer are written. -/
theorem decodeResult_apply (mem : Nat → UInt8) (text : List UInt8) (result : Nat) (bufSize : Int)
    {i : Nat} (hi : i < (decodeText text).length) (hfit : (i : Int) < bufSize) :
    (decodeResult mem text result bufSize).2 (result + i) = (decodeText text).getD i 0 := by
  unfold decodeResult
  split
  · have htake : i < ((decodeText text).take bufSize.toNat).length := by
      rw [List.length_take]
      omega
    refine (Stores.write_apply mem result _ htake 0).trans ?_
    rw [List.getD_eq_getElem?_getD, List.getElem?_take_of_lt (by omega),
      List.getD_eq_getElem?_getD]
  · split
    · have hsnoc : i < (decodeText text ++ [0]).length := by
        rw [List.length_append]
        omega
      exact (Stores.write_apply mem result _ hsnoc 0).trans (List.getD_append _ _ _ _ hi)
    · exact Stores.write_apply mem result _ hi 0

/-- **Truncation.** What a smaller buffer gets from a text is the start of what a larger one gets,
and -1 is returned only where the larger one returns it too. -/
theorem base32_truncates {mem : Nat → UInt8} {encoded result : Nat} {text : List UInt8}
    {small large : Int} (htext : HoldsText mem encoded text) (hapart : Apart encoded text result)
    (hle : small ≤ large) {n n' : Int} {mem1 mem2 : Nat → UInt8}
    (hs : Base32Decodes mem encoded result small (n, mem1))
    (hl : Base32Decodes mem encoded result large (n', mem2)) :
    (0 ≤ n' → n = min n' (max small 0)) ∧ (n' = -1 → n = -1 ∨ n = max small 0) ∧
      ∀ i : Nat, i < n → mem1 (result + i) = mem2 (result + i) := by
  rw [base32Decodes_iff htext hapart] at hs hl
  have hn : n = _ := (congrArg Prod.fst hs).trans (decodeResult_fst mem text result small)
  have hn' : n' = _ := (congrArg Prod.fst hl).trans (decodeResult_fst mem text result large)
  have hlen : n ≤ max small 0 ∧ n ≤ (decodeText text).length := by
    split at hn
    · omega
    · split at hn <;> omega
  refine ⟨?_, ?_, fun i hi => ?_⟩
  · by_cases hok : (readDigits text).2 = true
    · rw [if_pos hok] at hn hn'
      omega
    · rw [if_neg hok] at hn hn'
      omega
  · by_cases hok : (readDigits text).2 = true
    · rw [if_pos hok] at hn hn'
      omega
    · rw [if_neg hok] at hn hn'
      omega
  · have h1 := decodeResult_apply mem text result small (i := i) (by omega) (by omega)
    have h2 := decodeResult_apply mem text result large (i := i) (by omega) (by omega)
    rw [← hs] at h1
    rw [← hl] at h2
    exact h1.trans h2.symm

/-- The text `"JBSWY3DP"` of five bytes, into a buffer of three. -/
theorem base32_truncates_three :
    let text : List UInt8 := [74, 66, 83, 87, 89, 51, 68, 80]
    let mem := Stores.write (fun _ => 0) 5 (text ++ [0])
    let small := decodeResult mem text 5 3
    let large := decodeResult mem text 5 8
    (0 ≤ large.1 → small.1 = min large.1 (max 3 0)) ∧
      (large.1 = -1 → small.1 = -1 ∨ small.1 = max 3 0) ∧
      ∀ i : Nat, i < small.1 → small.2 (5 + i) = large.2 (5 + i) := by
  intro text
  have htext : HoldsText (Stores.write (fun _ => 0) 5 (text ++ [0])) 5 text :=
    holdsText_write _ 5 (by simp [text])
  have hle : (3 : Int) ≤ 8 := by decide
  exact base32_truncates htext (.inl (Nat.le_refl 5)) hle
    ((base32Decodes_iff htext (.inl (Nat.le_refl 5))).2 rfl)
    ((base32Decodes_iff htext (.inl (Nat.le_refl 5))).2 rfl)

end Libpam
