import CodeLibrary.Hotp.Fips
import CodeLibrary.Hotp.Sha1
import Mathlib.Tactic.IntervalCases

/-!
# The transform compresses a block

`transform` is `Fips.compress` of the block at `data`, for either byte order and with or without
`UNRAVEL`.

* The words: the byte swap of the little-endian load gives big-endian words.
* The unravelled macros do not move the registers; after `t` of them a register of the rolled loop
  is found under another name (`name t`), and each macro is a rolled round under its names.
-/

set_option autoImplicit false

namespace Hotp

/-! ## The words -/

theorem inputWord_eq (littleEndian : Bool) (data : Nat → UInt8) (dp : Nat) :
    inputWord littleEndian data dp =
      .ofBitVec ((data dp).toBitVec ++ (data (dp + 1)).toBitVec ++ (data (dp + 2)).toBitVec ++
        (data (dp + 3)).toBitVec) := by
  apply UInt32.toBitVec_inj.1
  apply BitVec.eq_of_getLsbD_eq
  intro i hi
  cases littleEndian <;>
    simp only [inputWord, loadWord, if_true, Bool.false_eq_true, if_false, UInt32.toBitVec_or,
      UInt32.toBitVec_and, UInt32.toBitVec_shiftLeft, UInt32.toBitVec_shiftRight,
      UInt8.toBitVec_toUInt32, BitVec.getLsbD_or, BitVec.getLsbD_and, BitVec.getLsbD_append] <;>
    interval_cases i <;> simp

theorem inputWord_eq_word (littleEndian : Bool) {data : Nat → UInt8} {block : List UInt8}
    (h : ∀ a < 64, data a = block.getD a 0) {t : Nat} (ht : t < 16) :
    inputWord littleEndian data (4 * t) = Fips.word block t := by
  rw [inputWord_eq, h _ (by omega), h _ (by omega), h _ (by omega), h _ (by omega)]
  rfl

theorem W_of_lt {block : List UInt8} {t : Nat} (ht : t < 16) :
    Fips.W block t = Fips.word block t := by rw [Fips.W, if_pos ht]

/-- The second loop continues the schedule. -/
theorem expand_eq (block : List UInt8) :
    ∀ (n m : Nat), 16 ≤ m →
      expand n ((List.range m).map (Fips.W block)) = (List.range (m + n)).map (Fips.W block)
  | 0, _, _ => rfl
  | n + 1, m, hm => by
    have hget : ∀ k, k ≤ 16 → 0 < k →
        ((List.range m).map (Fips.W block)).getD (m - k) 0 = Fips.W block (m - k) := by
      intro k hk hk0
      rw [List.getD_eq_getElem _ _ (by simp; omega)]
      simp
    have hnext : R32 (Fips.W block (m - 3) ^^^ Fips.W block (m - 8) ^^^ Fips.W block (m - 14) ^^^
        Fips.W block (m - 16)) 1 = Fips.W block m := by
      rw [Fips.W.eq_def block m, if_neg (by omega)]
      rfl
    rw [expand]
    simp only [List.length_map, List.length_range]
    rw [hget 3 (by omega) (by omega), hget 8 (by omega) (by omega), hget 14 (by omega) (by omega),
      hget 16 (by omega) (by omega), hnext]
    have hsnoc : (List.range m).map (Fips.W block) ++ [Fips.W block m] =
        (List.range (m + 1)).map (Fips.W block) := by
      rw [List.range_succ, List.map_append, List.map_singleton]
    rw [hsnoc, expand_eq block n (m + 1) (by omega), Nat.add_right_comm, Nat.add_assoc]

/-- The words the rounds read. -/
theorem schedule_eq (littleEndian : Bool) {data : Nat → UInt8} {block : List UInt8}
    (h : ∀ a < 64, data a = block.getD a 0) :
    expand 64 ((List.range 16).map fun i => inputWord littleEndian data (4 * i)) =
      (List.range 80).map (Fips.W block) := by
  have hin : (List.range 16).map (fun i => inputWord littleEndian data (4 * i)) =
      (List.range 16).map (Fips.W block) := List.map_congr_left fun t ht => by
    have ht := List.mem_range.1 ht
    rw [inputWord_eq_word littleEndian h ht, W_of_lt ht]
  rw [hin, expand_eq block 64 16 (Nat.le_refl _)]

/-! ## The rolled rounds -/

/-- What the macros of round `t` paste in. -/
def phase (t : Nat) : Phase :=
  if t < 20 then phase1 else if t < 40 then phase2 else if t < 60 then phase3 else phase4

theorem f1_eq (x y z : UInt32) : f1 x y z = (x &&& y) ^^^ (~~~x &&& z) := by
  apply UInt32.toBitVec_inj.1
  apply BitVec.eq_of_getLsbD_eq
  intro i hi
  simp only [f1, UInt32.toBitVec_or, UInt32.toBitVec_and, UInt32.toBitVec_xor, UInt32.toBitVec_not,
    BitVec.getLsbD_or, BitVec.getLsbD_and, BitVec.getLsbD_xor, BitVec.getLsbD_not]
  cases x.toBitVec.getLsbD i <;> simp

theorem f3_eq (x y z : UInt32) : f3 x y z = (x &&& y) ^^^ (x &&& z) ^^^ (y &&& z) := by
  apply UInt32.toBitVec_inj.1
  apply BitVec.eq_of_getLsbD_eq
  intro i _
  simp only [f3, UInt32.toBitVec_or, UInt32.toBitVec_and, UInt32.toBitVec_xor,
    BitVec.getLsbD_or, BitVec.getLsbD_and, BitVec.getLsbD_xor]
  cases x.toBitVec.getLsbD i <;> cases y.toBitVec.getLsbD i <;> simp

theorem phase_f (t : Nat) (x y z : UInt32) : (phase t).f x y z = Fips.f t x y z := by
  unfold phase Fips.f
  split
  · exact f1_eq x y z
  split
  · rfl
  split
  · exact f3_eq x y z
  · rfl

theorem phase_const (t : Nat) : (phase t).const = Fips.K t := by
  unfold phase Fips.K
  split
  · rfl
  split
  · rfl
  split <;> rfl

theorem rolledRounds_eq : rolledRounds = (List.range 80).map fun t => FG (phase t) := rfl

/-- Rounds that are given by their number. -/
theorem runRounds_map (mac : Nat → UInt32 → Regs → Regs) (w : Nat → UInt32) (n : Nat) (r : Regs) :
    runRounds ((List.range n).map mac) ((List.range n).map w) r =
      (List.range n).foldl (fun r t => mac t (w t) r) r := by
  rw [runRounds, List.zip_map', List.foldl_map]

/-- The registers hold the working variables. -/
def Holds (v : Fips.Vars) (r : Regs) : Prop :=
  r.A = v.a ∧ r.B = v.b ∧ r.C = v.c ∧ r.D = v.d ∧ r.E = v.e

theorem FG_holds {v : Fips.Vars} {r : Regs} (h : Holds v r) (block : List UInt8) (t : Nat) :
    Holds (Fips.step block t v) (FG (phase t) (Fips.W block t) r) := by
  obtain ⟨ha, hb, hc, hd, he⟩ := h
  refine ⟨?_, ha, ?_, hc, hd⟩
  · rw [FG, phase_f, phase_const, ha, hb, hc, hd, he, Fips.step]
    show _ + _ + _ + _ + _ = _ + _ + _ + _ + _
    rw [UInt32.add_assoc _ (Fips.W block t), UInt32.add_comm (Fips.W block t),
      ← UInt32.add_assoc _ (Fips.K t)]
    rfl
  · show R32 r.B 30 = Fips.rotl 30 v.b
    rw [hb]
    rfl

/-- **The rolled loop** computes the steps. -/
theorem rolled_holds {v : Fips.Vars} {r : Regs} (h : Holds v r) (block : List UInt8) :
    ∀ n, Holds (Fips.steps block v n)
      ((List.range n).foldl (fun r t => FG (phase t) (Fips.W block t) r) r)
  | 0 => h
  | n + 1 => by
    rw [List.range_succ, List.foldl_append, List.foldl_cons, List.foldl_nil]
    exact FG_holds (rolled_holds h block n) block n

/-! ## The unravelled rounds -/

theorem Regs.get_set (r : Regs) (x y : Reg) (v : UInt32) :
    (r.set x v).get y = if y = x then v else r.get y := by
  cases x <;> cases y <;> rfl

/-- The name the next macro has for a register. -/
def Reg.next : Reg → Reg
  | .A => .T
  | .B => .A
  | .C => .B
  | .D => .C
  | .E => .D
  | .T => .E

theorem Reg.next_injective : Function.Injective Reg.next := by
  intro x y h
  cases x <;> cases y <;> first | rfl | cases h

/-- The name that macro `t` has for a register of the rolled loop. -/
def name (t : Nat) : Reg → Reg := Reg.next^[t]

theorem name_succ (t : Nat) (x : Reg) : name (t + 1) x = name t x.next := rfl

theorem name_inj {t : Nat} {x y : Reg} : name t x = name t y ↔ x = y :=
  (Reg.next_injective.iterate t).eq_iff

/-- The macro of round `t`. -/
def unravelledRound (t : Nat) : UInt32 → Regs → Regs :=
  unravelled (name t .T) (name t .A) (name t .B) (name t .C) (name t .D) (name t .E) (phase t)

theorem unravelledRounds_eq : unravelledRounds = (List.range 80).map unravelledRound := rfl

/-- `r` is the rolled loop's `r'` under the names of macro `t`; `T` is free. -/
def Named (t : Nat) (r r' : Regs) : Prop := ∀ x, x ≠ .T → r.get (name t x) = r'.get x

/-- **One macro** is a rolled round under its names. -/
theorem unravelledRound_named {t : Nat} {r r' : Regs} (h : Named t r r') (w : UInt32) :
    Named (t + 1) (unravelledRound t w r) (FG (phase t) w r') := by
  have hA : r.get (name t .A) = r'.A := h .A nofun
  have hB : r.get (name t .B) = r'.B := h .B nofun
  have hC : r.get (name t .C) = r'.C := h .C nofun
  have hD : r.get (name t .D) = r'.D := h .D nofun
  have hE : r.get (name t .E) = r'.E := h .E nofun
  intro x hx
  rw [name_succ]
  cases x with
  | T => exact absurd rfl hx
  | A | B | C | D | E =>
    simp only [unravelledRound, unravelled, Reg.next, Regs.get_set, name_inj, hA, hB, hC, hD, hE,
      reduceCtorEq, if_true, if_false]
    rfl

theorem unravelledRounds_named {r r' : Regs} (h : Named 0 r r') (w : Nat → UInt32) :
    ∀ n, Named n ((List.range n).foldl (fun r t => unravelledRound t (w t) r) r)
      ((List.range n).foldl (fun r t => FG (phase t) (w t) r) r')
  | 0 => h
  | n + 1 => by
    rw [List.range_succ, List.foldl_append, List.foldl_append]
    exact unravelledRound_named (unravelledRounds_named h w n) (w n)

/-! ## The transform -/

/-- The names of the registers when the unravelled rounds are over. -/
theorem name_eighty : name 80 .A = .E ∧ name 80 .B = .T ∧ name 80 .C = .A ∧ name 80 .D = .B ∧
    name 80 .E = .C := ⟨rfl, rfl, rfl, rfl, rfl⟩

/-- The rolled rounds on the words of a block. -/
theorem rolledRounds_holds {v : Fips.Vars} {r : Regs} (h : Holds v r) (block : List UInt8) :
    Holds (Fips.steps block v 80)
      (runRounds rolledRounds ((List.range 80).map (Fips.W block)) r) := by
  rw [rolledRounds_eq, runRounds_map]
  exact rolled_holds h block 80

/-- The registers under the names of macro 80. -/
def Regs.renamed (r : Regs) : Regs := ⟨r.E, r.T, r.A, r.B, r.C, r.D⟩

theorem Named.holds {v : Fips.Vars} {r r' : Regs} (hn : Named 80 r r') (h : Holds v r') :
    Holds v r.renamed := by
  obtain ⟨nA, nB, nC, nD, nE⟩ := name_eighty
  obtain ⟨ha, hb, hc, hd, he⟩ := h
  have hA := hn .A nofun
  have hB := hn .B nofun
  have hC := hn .C nofun
  have hD := hn .D nofun
  have hE := hn .E nofun
  rw [nA] at hA
  rw [nB] at hB
  rw [nC] at hC
  rw [nD] at hD
  rw [nE] at hE
  exact ⟨hA.trans ha, hB.trans hb, hC.trans hc, hD.trans hd, hE.trans he⟩

/-- The unravelled rounds leave the variables under the names of macro 80. -/
theorem unravelledRounds_holds {v : Fips.Vars} {r : Regs} (h : Holds v r) (block : List UInt8) :
    Holds (Fips.steps block v 80)
      (runRounds unravelledRounds ((List.range 80).map (Fips.W block)) r).renamed := by
  rw [unravelledRounds_eq, runRounds_map]
  exact (unravelledRounds_named (fun _ _ => rfl) _ 80).holds (rolled_holds h block 80)

/-- The chaining value that `digest` holds. -/
def Digest.vars (digest : Digest) : Fips.Vars :=
  ⟨digest.d0, digest.d1, digest.d2, digest.d3, digest.d4⟩

theorem Holds.add_vars {v : Fips.Vars} {r : Regs} (h : Holds v r) (digest : Digest) :
    Digest.vars ⟨digest.d0 + r.A, digest.d1 + r.B, digest.d2 + r.C, digest.d3 + r.D,
      digest.d4 + r.E⟩ = ⟨digest.vars.a + v.a, digest.vars.b + v.b, digest.vars.c + v.c,
      digest.vars.d + v.d, digest.vars.e + v.e⟩ := by
  obtain ⟨ha, hb, hc, hd, he⟩ := h
  simp only [Digest.vars, ha, hb, hc, hd, he]

/-- **The transform**, however it is built, compresses the block at `data`. -/
theorem transform_vars (b : Build) (digest : Digest) {data : Nat → UInt8} {block : List UInt8}
    (h : ∀ a < 64, data a = block.getD a 0) :
    (transform b digest data).vars = Fips.compress digest.vars block := by
  have hv : Holds digest.vars ⟨digest.d0, digest.d1, digest.d2, digest.d3, digest.d4, 0⟩ :=
    ⟨rfl, rfl, rfl, rfl, rfl⟩
  unfold transform
  simp only [schedule_eq _ h]
  split
  · have h := (unravelledRounds_holds hv block).add_vars digest
    simp only [Regs.renamed] at h
    exact h
  · exact (rolledRounds_holds hv block).add_vars digest

end Hotp
