import CodeLibrary.Lib.BlockHash

/-!
# The secure hash and the keyed hash

What `sha1.c` and `hmac.c` are to compute, in the terms of the standards: the hash function on
messages of bytes (the message is padded to blocks with its length in bits, and each block is
compressed in eighty steps), and the keyed hash over any hash function with 64-byte blocks.
-/

set_option autoImplicit false

namespace Fips

def rotl (n x : UInt32) : UInt32 := (x <<< n) ||| (x >>> (32 - n))

/-- The function of step `t`. -/
def f (t : Nat) (x y z : UInt32) : UInt32 :=
  if t < 20 then (x &&& y) ^^^ (~~~x &&& z)
  else if t < 40 then x ^^^ y ^^^ z
  else if t < 60 then (x &&& y) ^^^ (x &&& z) ^^^ (y &&& z)
  else x ^^^ y ^^^ z

/-- The constant of step `t`. -/
def K (t : Nat) : UInt32 :=
  if t < 20 then 0x5a827999
  else if t < 40 then 0x6ed9eba1
  else if t < 60 then 0x8f1bbcdc
  else 0xca62c1d6

/-- Word `t` of a block, the first byte first. -/
def word (block : List UInt8) (t : Nat) : UInt32 :=
  .ofBitVec ((block.getD (4 * t) 0).toBitVec ++ (block.getD (4 * t + 1) 0).toBitVec ++
    (block.getD (4 * t + 2) 0).toBitVec ++ (block.getD (4 * t + 3) 0).toBitVec)

/-- The message schedule. -/
def W (block : List UInt8) (t : Nat) : UInt32 :=
  if t < 16 then word block t
  else rotl 1 (W block (t - 3) ^^^ W block (t - 8) ^^^ W block (t - 14) ^^^ W block (t - 16))

/-- The five words of a chaining value, and of the working variables. -/
structure Vars where
  a : UInt32
  b : UInt32
  c : UInt32
  d : UInt32
  e : UInt32

def step (block : List UInt8) (t : Nat) (v : Vars) : Vars :=
  { a := rotl 5 v.a + f t v.b v.c v.d + v.e + K t + W block t
    b := v.a, c := rotl 30 v.b, d := v.c, e := v.d }

/-- The variables after `t` steps. -/
def steps (block : List UInt8) (v : Vars) : Nat → Vars
  | 0 => v
  | t + 1 => step block t (steps block v t)

def compress (H : Vars) (block : List UInt8) : Vars :=
  let v := steps block H 80
  ⟨H.a + v.a, H.b + v.b, H.c + v.c, H.d + v.d, H.e + v.e⟩

/-- The initial value. -/
def H0 : Vars := ⟨0x67452301, 0xefcdab89, 0x98badcfe, 0x10325476, 0xc3d2e1f0⟩

def Vars.toList (v : Vars) : List UInt32 := [v.a, v.b, v.c, v.d, v.e]

/-- The `k` low bytes of a number, the highest first. -/
def bigEndian (k n : Nat) : List UInt8 := (List.range k).reverse.map fun i => .ofNat (n >>> (8 * i))

/-- A message padded to full blocks. -/
def pad (m : List UInt8) : List UInt8 := BlockHash.pad 64 0x80 0 (bigEndian 8 (8 * m.length)) m

/-- The chaining value after the blocks of a padded message, as bytes. -/
def sha1 (m : List UInt8) : List UInt8 :=
  (BlockHash.absorb compress 64 H0 (pad m)).1.toList.flatMap fun h => bigEndian 4 h.toNat

/-! ## The keyed hash -/

/-- A key brought to the length of a block. -/
def blockKey (hash : List UInt8 → List UInt8) (key : List UInt8) : List UInt8 :=
  let key := if key.length > 64 then hash key else key
  key ++ List.replicate (64 - key.length) 0

def hmac (hash : List UInt8 → List UInt8) (key m : List UInt8) : List UInt8 :=
  let k := blockKey hash key
  hash (k.map (· ^^^ 0x5c) ++ hash (k.map (· ^^^ 0x36) ++ m))

end Fips
