import CodeLibrary.Lib.Stores
import Mathlib.Algebra.Group.Nat.Defs
import Mathlib.Algebra.Group.Int.Defs

/-!
# SHA-1, `sha1.c`

`sha1_init`, `sha1_update` and `sha1_final` keep a `SHA1_INFO`: the digest so far, the bits counted
in two words, and the bytes of a block that is not complete. `sha1_transform` compresses a block.

* `data` is the memory from `sha1_info->data` on, so that a store behind its 64 bytes would be seen.
* `unsigned` words are `UInt32`: what the source computes in `long` it cuts to 32 bits.
* `Build` is what the file is compiled for: the byte order, and whether `UNRAVEL` is defined.
-/

set_option autoImplicit false

namespace Hotp

/-- The macros that choose between the variants of `sha1_transform`. -/
structure Build where
  /-- `BYTE_ORDER == 1234`; else `BYTE_ORDER == 4321` -/
  littleEndian : Bool
  /-- `UNRAVEL` is defined -/
  unravel : Bool

/-- The words `digest[0]` to `digest[4]`; the other three are not used. -/
structure Digest where
  d0 : UInt32
  d1 : UInt32
  d2 : UInt32
  d3 : UInt32
  d4 : UInt32

/-- `SHA1_INFO` -/
structure Sha1Info where
  digest : Digest
  countLo : UInt32
  countHi : UInt32
  data : Nat → UInt8
  /-- `local` -/
  loc : Nat

/-- `SHA1_BLOCKSIZE` -/
def blocksize : Nat := 64

/-! ## The macros -/

def f1 (x y z : UInt32) : UInt32 := (x &&& y) ||| (~~~x &&& z)
def f2 (x y z : UInt32) : UInt32 := x ^^^ y ^^^ z
def f3 (x y z : UInt32) : UInt32 := (x &&& y) ||| (x &&& z) ||| (y &&& z)
def f4 (x y z : UInt32) : UInt32 := x ^^^ y ^^^ z

def const1 : UInt32 := 0x5a827999
def const2 : UInt32 := 0x6ed9eba1
def const3 : UInt32 := 0x8f1bbcdc
def const4 : UInt32 := 0xca62c1d6

/-- What a round macro `F_(n)` pastes in: `f##n` and `CONST##n`. -/
structure Phase where
  f : UInt32 → UInt32 → UInt32 → UInt32
  const : UInt32

def phase1 : Phase := ⟨f1, const1⟩
def phase2 : Phase := ⟨f2, const2⟩
def phase3 : Phase := ⟨f3, const3⟩
def phase4 : Phase := ⟨f4, const4⟩

/-- `R32` -/
def R32 (x n : UInt32) : UInt32 := (x <<< n) ||| (x >>> (32 - n))

/-- The names of the registers. -/
inductive Reg
  | A | B | C | D | E | T
deriving DecidableEq

/-- The registers of the rounds. -/
structure Regs where
  A : UInt32
  B : UInt32
  C : UInt32
  D : UInt32
  E : UInt32
  T : UInt32
deriving DecidableEq

namespace Regs

def get (r : Regs) : Reg → UInt32
  | .A => r.A
  | .B => r.B
  | .C => r.C
  | .D => r.D
  | .E => r.E
  | .T => r.T

def set (r : Regs) (x : Reg) (v : UInt32) : Regs :=
  match x with
  | .A => { r with A := v }
  | .B => { r with B := v }
  | .C => { r with C := v }
  | .D => { r with D := v }
  | .E => { r with E := v }
  | .T => { r with T := v }

end Regs

/-- `FG`, for the rolled loop: the registers change places. -/
def FG (p : Phase) (w : UInt32) (r : Regs) : Regs :=
  let T := R32 r.A 5 + p.f r.B r.C r.D + r.E + w + p.const
  { E := r.D, D := r.C, C := R32 r.B 30, B := r.A, A := T, T }

/-- The unravelled macros: the registers stay, and each macro names them in its own order. -/
def unravelled (t a b c d e : Reg) (p : Phase) (w : UInt32) (r : Regs) : Regs :=
  let r := r.set t (R32 (r.get a) 5 + p.f (r.get b) (r.get c) (r.get d) + r.get e + w + p.const)
  r.set b (R32 (r.get b) 30)

def FA : Phase → UInt32 → Regs → Regs := unravelled .T .A .B .C .D .E
def FB : Phase → UInt32 → Regs → Regs := unravelled .E .T .A .B .C .D
def FC : Phase → UInt32 → Regs → Regs := unravelled .D .E .T .A .B .C
def FD : Phase → UInt32 → Regs → Regs := unravelled .C .D .E .T .A .B
def FE : Phase → UInt32 → Regs → Regs := unravelled .B .C .D .E .T .A
def FT : Phase → UInt32 → Regs → Regs := unravelled .A .B .C .D .E .T

/-! ## The transform -/

/-- `*((uint32_t *) dp)` -/
def loadWord (littleEndian : Bool) (data : Nat → UInt8) (dp : Nat) : UInt32 :=
  let b (k : Nat) : UInt32 := (data (dp + k)).toUInt32
  if littleEndian then b 0 ||| (b 1 <<< 8) ||| (b 2 <<< 16) ||| (b 3 <<< 24)
  else (b 0 <<< 24) ||| (b 1 <<< 16) ||| (b 2 <<< 8) ||| b 3

/-- The word the first loop stores in `W[i]`. -/
def inputWord (littleEndian : Bool) (data : Nat → UInt8) (dp : Nat) : UInt32 :=
  let T := loadWord littleEndian data dp
  if littleEndian then
    ((T <<< (24 : UInt32)) &&& 0xff000000) ||| ((T <<< (8 : UInt32)) &&& 0x00ff0000) |||
      ((T >>> (8 : UInt32)) &&& 0x0000ff00) ||| ((T >>> (24 : UInt32)) &&& 0x000000ff)
  else T

/-- The second loop: `n` more words of `W`. -/
def expand : Nat → List UInt32 → List UInt32
  | 0, W => W
  | n + 1, W =>
    let i := W.length
    let w := W.getD (i - 3) 0 ^^^ W.getD (i - 8) 0 ^^^ W.getD (i - 14) 0 ^^^ W.getD (i - 16) 0
    expand n (W ++ [R32 w 1])

/-- The loops `for (i = 0; i < 20; ++i) { FG(1); }` to `FG(4)`. -/
def rolledRounds : List (UInt32 → Regs → Regs) :=
  List.replicate 20 (FG phase1) ++ List.replicate 20 (FG phase2) ++
    List.replicate 20 (FG phase3) ++ List.replicate 20 (FG phase4)

/-- The lines under `#ifdef UNRAVEL`. -/
def unravelledRounds : List (UInt32 → Regs → Regs) :=
  [FA phase1, FB phase1, FC phase1, FD phase1, FE phase1, FT phase1, FA phase1, FB phase1,
    FC phase1, FD phase1,
    FE phase1, FT phase1, FA phase1, FB phase1, FC phase1, FD phase1, FE phase1, FT phase1,
    FA phase1, FB phase1,
    FC phase2, FD phase2, FE phase2, FT phase2, FA phase2, FB phase2, FC phase2, FD phase2,
    FE phase2, FT phase2,
    FA phase2, FB phase2, FC phase2, FD phase2, FE phase2, FT phase2, FA phase2, FB phase2,
    FC phase2, FD phase2,
    FE phase3, FT phase3, FA phase3, FB phase3, FC phase3, FD phase3, FE phase3, FT phase3,
    FA phase3, FB phase3,
    FC phase3, FD phase3, FE phase3, FT phase3, FA phase3, FB phase3, FC phase3, FD phase3,
    FE phase3, FT phase3,
    FA phase4, FB phase4, FC phase4, FD phase4, FE phase4, FT phase4, FA phase4, FB phase4,
    FC phase4, FD phase4,
    FE phase4, FT phase4, FA phase4, FB phase4, FC phase4, FD phase4, FE phase4, FT phase4,
    FA phase4, FB phase4]

/-- The rounds, each with the next word of `W`. -/
def runRounds (rounds : List (UInt32 → Regs → Regs)) (W : List UInt32) (r : Regs) : Regs :=
  (rounds.zip W).foldl (fun r q => q.1 q.2 r) r

/-- `sha1_transform` on the words `digest` and the block at `data`. -/
def transform (b : Build) (digest : Digest) (data : Nat → UInt8) : Digest :=
  let W := expand 64 ((List.range 16).map fun i => inputWord b.littleEndian data (4 * i))
  let r : Regs :=
    { A := digest.d0, B := digest.d1, C := digest.d2, D := digest.d3, E := digest.d4, T := 0 }
  if b.unravel then
    let r := runRounds unravelledRounds W r
    ⟨digest.d0 + r.E, digest.d1 + r.T, digest.d2 + r.A, digest.d3 + r.B, digest.d4 + r.C⟩
  else
    let r := runRounds rolledRounds W r
    ⟨digest.d0 + r.A, digest.d1 + r.B, digest.d2 + r.C, digest.d3 + r.D, digest.d4 + r.E⟩

def sha1Transform (b : Build) (info : Sha1Info) : Sha1Info :=
  { info with digest := transform b info.digest info.data }

/-! ## The stream -/

/-- `sha1_init` on memory that holds `data`. -/
def sha1Init (data : Nat → UInt8) : Sha1Info :=
  { digest := ⟨0x67452301, 0xefcdab89, 0x98badcfe, 0x10325476, 0xc3d2e1f0⟩
    countLo := 0, countHi := 0, data, loc := 0 }

/-- The `while` loop of `sha1_update` and what follows it. -/
def updateBlocks (b : Build) (info : Sha1Info) (buffer : List UInt8) : Sha1Info :=
  if blocksize ≤ buffer.length then
    let info := { info with data := Stores.write info.data 0 (buffer.take blocksize) }
    updateBlocks b (sha1Transform b info) (buffer.drop blocksize)
  else { info with data := Stores.write info.data 0 buffer, loc := buffer.length }
termination_by buffer.length
decreasing_by
  rw [List.length_drop]
  simp only [blocksize] at *
  omega

/-- The lines of `sha1_update` that count the bits of `count` bytes. -/
def countBits (info : Sha1Info) (count : UInt32) : Sha1Info :=
  let clo := info.countLo + (count <<< 3)
  let info := if clo < info.countLo then { info with countHi := info.countHi + 1 } else info
  { info with countLo := clo, countHi := info.countHi + (count >>> 29) }

/-- `sha1_update`: `buffer` is the list of the `count` bytes. -/
def sha1Update (b : Build) (info : Sha1Info) (buffer : List UInt8) : Sha1Info :=
  let info := countBits info (UInt32.ofNat buffer.length)
  if info.loc ≠ 0 then
    let i := min (blocksize - info.loc) buffer.length
    let info := { info with
      data := Stores.write info.data info.loc (buffer.take i), loc := info.loc + i }
    if info.loc = blocksize then updateBlocks b (sha1Transform b info) (buffer.drop i)
    else info
  else updateBlocks b info buffer

/-- The bytes of a digest as `sha1_transform_and_copy` stores them. -/
def copyDigest (digest : Digest) : List UInt8 :=
  [digest.d0, digest.d1, digest.d2, digest.d3, digest.d4].flatMap fun (w : UInt32) =>
    [(w >>> 24).toUInt8, (w >>> 16).toUInt8, (w >>> 8).toUInt8, w.toUInt8]

/-- The lines of `sha1_final` that store the mark and the zeros, up to `data[55]`. -/
def padBlock (b : Build) (info : Sha1Info) : Sha1Info :=
  let count := ((info.countLo >>> 3) &&& 0x3f).toNat
  let info := { info with data := Function.update info.data count 0x80 }
  let count := count + 1
  if count > blocksize - 8 then
    let info := { info with
      data := Stores.write info.data count (List.replicate (blocksize - count) 0) }
    let info := sha1Transform b info
    { info with data := Stores.write info.data 0 (List.replicate (blocksize - 8) 0) }
  else { info with
    data := Stores.write info.data count (List.replicate (blocksize - 8 - count) 0) }

/-- What `sha1_final` stores in `data[56]` to `data[63]`. -/
def countBytes (hi lo : UInt32) : List UInt8 :=
  [(hi >>> 24).toUInt8, (hi >>> 16).toUInt8, (hi >>> 8).toUInt8, (hi >>> 0).toUInt8,
    (lo >>> 24).toUInt8, (lo >>> 16).toUInt8, (lo >>> 8).toUInt8, (lo >>> 0).toUInt8]

/-- `sha1_final`: the digest, and `data` as it is left. -/
def sha1Final (b : Build) (info : Sha1Info) : List UInt8 × (Nat → UInt8) :=
  let lo := info.countLo
  let hi := info.countHi
  let info := padBlock b info
  let info := { info with data := Stores.write info.data 56 (countBytes hi lo) }
  let info := sha1Transform b info
  (copyDigest info.digest, info.data)

end Hotp
