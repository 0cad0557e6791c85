import CodeLibrary.Lib.Bytes
import Mathlib.Algebra.Group.Int.Defs
import Mathlib.Algebra.Group.Nat.Defs
import Mathlib.Data.List.Infix
import Mathlib.Data.Nat.Find

/-!
# The readers of `dechunk.c`

`memstr`, and `sscanf` with `"%x"` as `dechunk` calls it. Both run on the memory from a pointer
on: the bytes of the segment and what is mapped behind them. With the result they give the number
of bytes they read; a read past the mapped memory has no result. The index of the inner loop of
`memstr` is an `int`: `sub` is shorter than 2³¹ bytes.

* `memstr_found`: `memstr` finds the first occurrence in the segment and reads no further.
* `memstr_inside_iff`: when it reads no byte behind the segment. `memstr_finds_iff`: just then it
  finds what is in the segment, whatever follows it.
* `scanHex_append`, `scanHex_inside_iff`: the conversion of a string that ends inside the segment.
* `scanFrom_line`: the conversion of a line of hexadecimal digits.
-/

namespace Dechunk

/-- The result of a reader (`none`: it ran off the memory), and how many bytes it read. -/
structure Scan (α : Type) where
  value : Option α
  read : Nat
deriving DecidableEq, Repr

/-! ## `memstr` -/

/-- The case folding of `memstr`. -/
def foldByte (c : UInt8) : UInt8 := if 'A'.toUInt8 ≤ c && c ≤ 'Z'.toUInt8 then c ||| 0x20 else c

/-- The inner loop: whether `sub` is at the pointer. -/
def matchSub : List UInt8 → List UInt8 → Scan Bool
  | _, [] => ⟨some true, 0⟩
  | [], _ :: _ => ⟨none, 1⟩
  | cp :: mem, cq :: sub =>
    if foldByte cq ≠ foldByte cp then ⟨some false, 1⟩
    else
      let s := matchSub mem sub
      ⟨s.value, s.read + 1⟩

/-- The outer loop, for `indx` more places: the offset of the first one with `sub`. -/
def memstrLoop (sub : List UInt8) : List UInt8 → Nat → Scan (Option Nat)
  | _, 0 => ⟨some none, 0⟩
  | [], _ + 1 => ⟨(matchSub [] sub).value.map fun _ => some 0, (matchSub [] sub).read⟩
  | cp :: mem, indx + 1 =>
    match (matchSub (cp :: mem) sub).value with
    | none => ⟨none, (matchSub (cp :: mem) sub).read⟩
    | some true => ⟨some (some 0), (matchSub (cp :: mem) sub).read⟩
    | some false =>
      ⟨(memstrLoop sub mem indx).value.map fun k => k.map (· + 1),
        max (matchSub (cp :: mem) sub).read ((memstrLoop sub mem indx).read + 1)⟩

/-- `memstr` -/
def memstr (src : List UInt8) (srcLen : Nat) (sub : List UInt8) : Scan (Option Nat) :=
  if srcLen < sub.length then ⟨some none, 0⟩ else memstrLoop sub src srcLen

/-- `sub` is at offset `k` of the segment, up to the case. -/
def IsAt (sub seg : List UInt8) (k : Nat) : Prop :=
  sub.map foldByte <+: (seg.drop k).map foldByte

instance (sub seg : List UInt8) (k : Nat) : Decidable (IsAt sub seg k) :=
  inferInstanceAs (Decidable (_ <+: _))

/-- `sub` is first at offset `k`. -/
def FirstAt (sub seg : List UInt8) (k : Nat) : Prop :=
  IsAt sub seg k ∧ ∀ j < k, ¬ IsAt sub seg j

instance (sub seg : List UInt8) (k : Nat) : Decidable (FirstAt sub seg k) :=
  inferInstanceAs (Decidable (_ ∧ ∀ j < k, ¬ _))

/-- `sub` is in the segment. -/
def Occurs (sub seg : List UInt8) : Prop := ∃ k, IsAt sub seg k

theorem occurs_iff {sub seg : List UInt8} :
    Occurs sub seg ↔ ∃ k < seg.length + 1, IsAt sub seg k := by
  refine ⟨fun ⟨k, hk⟩ => ?_, fun ⟨k, _, hk⟩ => ⟨k, hk⟩⟩
  by_cases hle : k < seg.length + 1
  · exact ⟨k, hle, hk⟩
  · -- only the empty list is behind the end
    refine ⟨seg.length, Nat.lt_succ_self _, ?_⟩
    unfold IsAt at hk ⊢
    rwa [List.drop_eq_nil_of_le (by omega), ← List.drop_length] at hk

instance (sub seg : List UInt8) : Decidable (Occurs sub seg) := decidable_of_iff _ occurs_iff.symm

/-- A scan that finds `sub` in the segment as it should: the offset of the first occurrence that
lies in it, or nothing, and no byte behind the segment is read. -/
def Finds (sub seg : List UInt8) (s : Scan (Option Nat)) : Prop :=
  s.read ≤ seg.length ∧ ∃ r, s.value = some r ∧ ∀ k, r = some k ↔ FirstAt sub seg k

/-- The segment ends inside `sub`: in a prefix of it that is neither empty nor all of it. -/
def EndsInside (sub seg : List UInt8) : Prop :=
  ∃ k < seg.length, seg.length < k + sub.length ∧
    (seg.drop k).map foldByte <+: sub.map foldByte

instance (sub seg : List UInt8) : Decidable (EndsInside sub seg) :=
  inferInstanceAs (Decidable (∃ k < seg.length, _ ∧ _))

/-! ## `sscanf` -/

/-- `isspace` in the C locale -/
def isSpace (c : UInt8) : Bool := c == 32 || (9 ≤ c && c ≤ 13)

/-- The value of a hexadecimal digit. -/
def hexDigit? (c : UInt8) : Option Nat :=
  if '0'.toUInt8 ≤ c && c ≤ '9'.toUInt8 then some (c.toNat - 48)
  else if 'a'.toUInt8 ≤ c && c ≤ 'f'.toUInt8 then some (c.toNat - 87)
  else if 'A'.toUInt8 ≤ c && c ≤ 'F'.toUInt8 then some (c.toNat - 55)
  else none

/-- Where a `"%x"` conversion stands: before the sign, behind it, behind a leading zero, or behind
digits of value `acc`. -/
inductive HexState where
  | space
  | signed (neg : Bool)
  | zero (neg : Bool)
  | digits (neg : Bool) (acc : Nat)
deriving DecidableEq, Repr

/-- The digits as `strtoul` gives them, stored in an `int`. -/
def hexInt (neg : Bool) (acc : Nat) : Int :=
  let ul : Nat := if 2 ^ 64 ≤ acc then 2 ^ 64 - 1 else if neg then (2 ^ 64 - acc) % 2 ^ 64 else acc
  let u : Nat := ul % 2 ^ 32
  if 2 ^ 31 ≤ u then (u : Int) - 2 ^ 32 else u

/-- A further digit, or the end of the conversion. -/
def HexState.digit (neg : Bool) (acc : Nat) (c : UInt8) : HexState ⊕ Int :=
  match hexDigit? c with
  | some d => .inl (.digits neg (acc * 16 + d))
  | none => .inr (hexInt neg acc)

/-- The conversion at a byte behind the sign; without a digit `itmp` stays 0. -/
def HexState.first (neg : Bool) (c : UInt8) : HexState ⊕ Int :=
  if c = '0'.toUInt8 then .inl (.zero neg)
  else match hexDigit? c with
    | some d => .inl (.digits neg d)
    | none => .inr 0

/-- One byte of the conversion: it goes on, or stops at the byte with the value of `itmp`. -/
def HexState.next (st : HexState) (c : UInt8) : HexState ⊕ Int :=
  match st with
  | .space =>
    if isSpace c then .inl .space
    else if c = '-'.toUInt8 then .inl (.signed true)
    else if c = '+'.toUInt8 then .inl (.signed false)
    else HexState.first false c
  | .signed neg => HexState.first neg c
  | .zero neg =>
    if c = 'x'.toUInt8 ∨ c = 'X'.toUInt8 then .inl (.digits neg 0) else HexState.digit neg 0 c
  | .digits neg acc => HexState.digit neg acc c

/-- The conversion of the bytes from `st` on; nothing where they end before it does. -/
def scanFrom : HexState → List UInt8 → Option Int
  | _, [] => none
  | st, c :: rest =>
    match st.next c with
    | .inl st => scanFrom st rest
    | .inr v => some v

/-- `sscanf(stmp, "%x", &itmp)` with `itmp` 0 before: the value of `itmp` after it. The string is
read up to its NUL, wherever the conversion stops. -/
def scanHex (stmp : List UInt8) : Scan Int :=
  if 0 ∈ stmp then ⟨scanFrom .space stmp, stmp.idxOf 0 + 1⟩ else ⟨none, stmp.length + 1⟩

/-! ## What `memstr` finds and reads -/

theorem matchSub_true : ∀ {mem sub : List UInt8},
    (matchSub mem sub).value = some true ↔ sub.map foldByte <+: mem.map foldByte
  | _, [] => by simp [matchSub]
  | [], _ :: _ => by simp [matchSub]
  | cp :: mem, cq :: sub => by
    rw [matchSub, List.map_cons, List.map_cons, List.cons_prefix_cons]
    by_cases h : foldByte cq = foldByte cp
    · rw [if_neg (not_not.2 h)]
      simp [h, (matchSub_true : (matchSub mem sub).value = some true ↔ _)]
    · simp [h]

theorem matchSub_read_le : ∀ (mem sub : List UInt8), (matchSub mem sub).read ≤ sub.length
  | _, [] => by simp [matchSub]
  | [], _ :: _ => by simp [matchSub]
  | cp :: mem, cq :: sub => by
    rw [matchSub]
    split
    · simp
    · simpa using matchSub_read_le mem sub

theorem matchSub_read_true : ∀ {mem sub : List UInt8}, (matchSub mem sub).value = some true →
    (matchSub mem sub).read = sub.length
  | _, [], _ => by simp [matchSub]
  | [], _ :: _, h => by simp [matchSub] at h
  | cp :: mem, cq :: sub, h => by
    rw [matchSub] at h ⊢
    split
    · rename_i hne
      simp [hne] at h
    · rename_i he
      rw [if_neg he] at h
      simpa using (matchSub_read_true h : (matchSub mem sub).read = _)

theorem matchSub_none : ∀ {mem sub : List UInt8}, (matchSub mem sub).value = none →
    mem.length < (matchSub mem sub).read
  | _, [], h => by simp [matchSub] at h
  | [], _ :: _, _ => by simp [matchSub]
  | cp :: mem, cq :: sub, h => by
    rw [matchSub] at h ⊢
    split
    · rename_i hne
      simp [hne] at h
    · rename_i he
      rw [if_neg he] at h
      simpa using (matchSub_none h : _ < (matchSub mem sub).read)

/-- A comparison leaves the segment where the rest of it begins `sub`. -/
theorem matchSub_outside : ∀ seg tail sub : List UInt8,
    seg.length < (matchSub (seg ++ tail) sub).read ↔
      seg.length < sub.length ∧ seg.map foldByte <+: sub.map foldByte
  | seg, tail, [] => by
    simp only [matchSub, List.length_nil]
    omega
  | [], [], _ :: _ => by simp [matchSub]
  | [], c :: tail, cq :: sub => by
    simp only [List.nil_append, matchSub]
    split <;> simp
  | cp :: seg, tail, cq :: sub => by
    rw [List.cons_append, matchSub, List.map_cons, List.map_cons, List.cons_prefix_cons]
    by_cases h : foldByte cq = foldByte cp
    · rw [if_neg (not_not.2 h)]
      simp only [List.length_cons, h, true_and, Nat.add_lt_add_iff_right]
      exact matchSub_outside seg tail sub
    · rw [if_pos h]
      have : ¬ foldByte cp = foldByte cq := fun he => h he.symm
      simp [this]

theorem isAt_cons {sub : List UInt8} {c : UInt8} {seg : List UInt8} {k : Nat} :
    IsAt sub (c :: seg) (k + 1) ↔ IsAt sub seg k := by simp [IsAt]

theorem IsAt.length_le {sub seg : List UInt8} {k : Nat} (h : IsAt sub seg k) (hs : sub ≠ []) :
    k + sub.length ≤ seg.length := by
  have h1 := List.IsPrefix.length_le h
  have h2 := List.length_pos_iff.2 hs
  simp only [List.length_map, List.length_drop] at h1
  omega

theorem Occurs.firstAt {sub seg : List UInt8} (h : Occurs sub seg) : ∃ k, FirstAt sub seg k := by
  classical
  exact ⟨Nat.find h, Nat.find_spec h, fun j hj => Nat.find_min h hj⟩

theorem FirstAt.unique {sub seg : List UInt8} {j k : Nat} (hj : FirstAt sub seg j)
    (hk : FirstAt sub seg k) : j = k := by
  rcases Nat.lt_trichotomy j k with hlt | heq | hlt
  · exact absurd hj.1 (hk.2 j hlt)
  · exact heq
  · exact absurd hk.1 (hj.2 k hlt)

theorem FirstAt.cons {sub : List UInt8} {c : UInt8} {seg : List UInt8} {k : Nat}
    (h : FirstAt sub (c :: seg) (k + 1)) : FirstAt sub seg k :=
  ⟨isAt_cons.1 h.1, fun j hj hat => h.2 (j + 1) (by omega) (isAt_cons.2 hat)⟩

/-- At a place without `sub` the comparison fails inside the segment, unless the segment ends. -/
theorem matchSub_false {sub seg : List UInt8} (tail : List UInt8) (h0 : ¬ IsAt sub seg 0)
    (hin : ¬ (seg.length < sub.length ∧ seg.map foldByte <+: sub.map foldByte)) :
    (matchSub (seg ++ tail) sub).value = some false ∧
      (matchSub (seg ++ tail) sub).read ≤ seg.length := by
  have hread : (matchSub (seg ++ tail) sub).read ≤ seg.length := by
    by_contra hgt
    exact hin ((matchSub_outside _ _ _).1 (Nat.lt_of_not_le hgt))
  refine ⟨?_, hread⟩
  cases hv : (matchSub (seg ++ tail) sub).value with
  | none =>
    have := matchSub_none hv
    rw [List.length_append] at this
    omega
  | some b =>
    cases b with
    | false => rfl
    | true =>
      -- a match would lie in the segment
      exfalso
      have hlen := matchSub_read_true hv
      have hpre := matchSub_true.1 hv
      apply h0
      rw [IsAt, List.drop_zero]
      rw [List.map_append] at hpre
      exact List.prefix_of_prefix_length_le hpre (List.prefix_append _ _)
        (by simp only [List.length_map]; omega)

theorem memstrLoop_not_found : ∀ {sub seg : List UInt8} (tail : List UInt8), ¬ Occurs sub seg →
    ¬ EndsInside sub seg → (memstrLoop sub (seg ++ tail) seg.length).value = some none ∧
      (memstrLoop sub (seg ++ tail) seg.length).read ≤ seg.length
  | _, [], _, _, _ => by simp [memstrLoop]
  | sub, c :: seg, tail, ho, he => by
    obtain ⟨hv, hr⟩ := matchSub_false tail (fun h => ho ⟨0, h⟩) fun hlt =>
      he ⟨0, by simp, by simpa using hlt.1, by simpa using hlt.2⟩
    obtain ⟨ih1, ih2⟩ := memstrLoop_not_found tail
      (fun ⟨k, hk⟩ => ho ⟨k + 1, isAt_cons.2 hk⟩) fun ⟨k, hk, h1, h2⟩ =>
        he ⟨k + 1, by simpa using hk, by simp only [List.length_cons]; omega, h2⟩
    rw [List.cons_append] at hv hr
    rw [List.length_cons] at hr ⊢
    rw [List.cons_append, memstrLoop]
    simp only [hv, ih1]
    exact ⟨rfl, by omega⟩

theorem memstrLoop_outside : ∀ {sub seg : List UInt8} (tail : List UInt8), ¬ Occurs sub seg →
    EndsInside sub seg → seg.length < (memstrLoop sub (seg ++ tail) seg.length).read
  | _, [], _, _, ⟨k, hk, _⟩ => by simp at hk
  | sub, c :: seg, tail, ho, ⟨k, hk, h1, h2⟩ => by
    have hout : (matchSub (c :: (seg ++ tail)) sub).value ≠ some false →
        (c :: seg).length < (matchSub (c :: (seg ++ tail)) sub).read := by
      intro hv
      by_contra hle
      exact hv (matchSub_false tail (fun h => ho ⟨0, h⟩)
        fun hlt => hle ((matchSub_outside _ _ _).2 hlt)).1
    rw [List.length_cons] at h1 hk hout ⊢
    rw [List.cons_append, memstrLoop]
    cases hv : (matchSub (c :: (seg ++ tail)) sub).value with
    | none => exact hout (by rw [hv]; simp)
    | some b =>
      cases b with
      | true => exact hout (by rw [hv]; simp)
      | false =>
        dsimp only
        cases k with
        | zero =>
          have := (matchSub_outside (c :: seg) tail sub).2
            ⟨by rw [List.length_cons]; omega, by simpa using h2⟩
          rw [List.length_cons, List.cons_append] at this
          omega
        | succ k =>
          have := memstrLoop_outside tail
            (fun ⟨k, hk⟩ => ho ⟨k + 1, isAt_cons.2 hk⟩)
            ⟨k, by omega, by omega, by simpa using h2⟩
          omega

theorem memstr_not_found {sub seg : List UInt8} (tail : List UInt8) (ho : ¬ Occurs sub seg)
    (he : seg.length < sub.length ∨ ¬ EndsInside sub seg) :
    (memstr (seg ++ tail) seg.length sub).value = some none ∧
      (memstr (seg ++ tail) seg.length sub).read ≤ seg.length := by
  unfold memstr
  split
  · exact ⟨rfl, Nat.zero_le _⟩
  · exact memstrLoop_not_found tail ho (by tauto)

section
variable {sub : List UInt8} (hs : sub ≠ [])
include hs

theorem memstrLoop_found : ∀ {seg : List UInt8} (tail : List UInt8) {k : Nat}, FirstAt sub seg k →
    (memstrLoop sub (seg ++ tail) seg.length).value = some (some k) ∧
      (memstrLoop sub (seg ++ tail) seg.length).read ≤ k + sub.length
  | [], _, k, h => by
    have h1 := h.1.length_le hs
    have h2 := List.length_pos_iff.2 hs
    rw [List.length_nil] at h1
    omega
  | c :: seg, tail, 0, h => by
    have hv : (matchSub (c :: seg ++ tail) sub).value = some true := by
      rw [matchSub_true, List.map_append]
      exact (by simpa [IsAt] using h.1 : sub.map foldByte <+: (c :: seg).map foldByte).trans
        (List.prefix_append _ _)
    rw [List.cons_append] at hv
    rw [List.length_cons, List.cons_append, memstrLoop]
    simp only [hv]
    exact ⟨trivial, by simpa using matchSub_read_le _ _⟩
  | c :: seg, tail, k + 1, h => by
    have hlen := h.1.length_le hs
    obtain ⟨hv, -⟩ := matchSub_false tail (h.2 0 (by omega))
      fun hlt => by simp only [List.length_cons] at *; omega
    have hr := matchSub_read_le (c :: seg ++ tail) sub
    obtain ⟨ih1, ih2⟩ := memstrLoop_found tail h.cons
    rw [List.cons_append] at hv hr
    rw [List.length_cons, List.cons_append, memstrLoop]
    simp only [hv, ih1]
    exact ⟨rfl, by omega⟩

/-- **`memstr` finds the first occurrence** and reads no byte behind it. -/
theorem memstr_found {seg : List UInt8} (tail : List UInt8) {k : Nat} (h : FirstAt sub seg k) :
    (memstr (seg ++ tail) seg.length sub).value = some (some k) ∧
      (memstr (seg ++ tail) seg.length sub).read ≤ k + sub.length := by
  have := h.1.length_le hs
  unfold memstr
  rw [if_neg (by omega)]
  exact memstrLoop_found hs tail h

/-- **When `memstr` reads no byte behind the segment.** -/
theorem memstr_inside_iff (seg tail : List UInt8) :
    (memstr (seg ++ tail) seg.length sub).read ≤ seg.length ↔
      seg.length < sub.length ∨ Occurs sub seg ∨ ¬ EndsInside sub seg := by
  constructor
  · intro hr
    by_contra hno
    rw [not_or, not_or, not_not] at hno
    obtain ⟨h1, h2, h3⟩ := hno
    unfold memstr at hr
    rw [if_neg h1] at hr
    have := memstrLoop_outside tail h2 h3
    omega
  · intro hx
    rcases hx with h | h | h
    · unfold memstr
      rw [if_pos h]
      exact Nat.zero_le _
    · obtain ⟨k, hk⟩ := h.firstAt
      have := (memstr_found hs tail hk).2
      have := hk.1.length_le hs
      omega
    · by_cases ho : Occurs sub seg
      · obtain ⟨k, hk⟩ := ho.firstAt
        have := (memstr_found hs tail hk).2
        have := hk.1.length_le hs
        omega
      · exact (memstr_not_found tail ho (.inr h)).2

/-- **When `memstr` finds `sub` as it should**, whatever is mapped behind the segment. The bound is
the one of the index in the inner loop, an `int`. -/
theorem memstr_finds_iff (_hint : sub.length < 2 ^ 31) (seg tail : List UInt8) :
    Finds sub seg (memstr (seg ++ tail) seg.length sub) ↔
      seg.length < sub.length ∨ Occurs sub seg ∨ ¬ EndsInside sub seg := by
  constructor
  · intro h
    exact (memstr_inside_iff hs seg tail).1 h.1
  · intro h
    refine ⟨(memstr_inside_iff hs seg tail).2 h, ?_⟩
    by_cases ho : Occurs sub seg
    · obtain ⟨k, hk⟩ := ho.firstAt
      refine ⟨some k, (memstr_found hs tail hk).1, fun j => ?_⟩
      rw [Option.some_inj]
      constructor
      · rintro rfl
        exact hk
      · intro hj
        exact hk.unique hj
    · refine ⟨none, (memstr_not_found tail ho (by tauto)).1, fun k => ?_⟩
      simp only [reduceCtorEq, false_iff]
      exact fun hk => ho ⟨k, hk.1⟩

end

/-- The segment `xABa` has an occurrence of `ab`; it ends before a `b`. -/
theorem memstr_finds_iff_xaba :
    Finds [97, 98] [120, 65, 66, 97] (memstr ([120, 65, 66, 97] ++ [98]) 4 [97, 98]) :=
  (memstr_finds_iff (by decide) (by decide) [120, 65, 66, 97] [98]).2 (.inr (.inl ⟨1, by decide⟩))

/-- The segment `a\r\n0\r` before a `\n`: an occurrence of `\r\n0\r\n` that is not in it is
found. Before another byte none is. -/
theorem memstr_finds_outside :
    (memstr ([97, 13, 10, 48, 13] ++ [10]) 5 [13, 10, 48, 13, 10]).value = some (some 1) ∧
      (memstr ([97, 13, 10, 48, 13] ++ [0]) 5 [13, 10, 48, 13, 10]).value = some none ∧
      ¬ Finds [13, 10, 48, 13, 10] [97, 13, 10, 48, 13]
        (memstr ([97, 13, 10, 48, 13] ++ [10]) 5 [13, 10, 48, 13, 10]) :=
  ⟨by decide, by decide, fun h => absurd h.1 (by decide)⟩

/-! ## What `sscanf` reads -/

/-- At a NUL the conversion stops. -/
theorem HexState.next_nul (st : HexState) : ∃ v, st.next 0 = .inr v := by
  cases st with
  | space => exact ⟨_, rfl⟩
  | signed neg => exact ⟨_, rfl⟩
  | zero neg => exact ⟨_, rfl⟩
  | digits neg acc => exact ⟨_, rfl⟩

theorem scanFrom_of_nul : ∀ (st : HexState) {mem : List UInt8}, 0 ∈ mem →
    ∃ v, scanFrom st mem = some v
  | _, [], h => absurd h List.not_mem_nil
  | st, c :: mem, h => by
    rw [scanFrom]
    cases hn : st.next c with
    | inr v => exact ⟨v, rfl⟩
    | inl st' =>
      refine scanFrom_of_nul st' ((List.mem_cons.1 h).resolve_left ?_)
      rintro rfl
      obtain ⟨v, hv⟩ := st.next_nul
      rw [hn] at hv
      cases hv

/-- The conversion of a string that ends in the memory. -/
theorem scanHex_eq_some {mem : List UInt8} {v : Int} :
    (scanHex mem).value = some v ↔ 0 ∈ mem ∧ scanFrom .space mem = some v := by
  unfold scanHex
  split
  · rename_i h
    exact (and_iff_right h).symm
  · rename_i h
    exact iff_of_false (by simp) fun hx => h hx.1

theorem scanHex_isSome_iff {mem : List UInt8} :
    (scanHex mem).value.isSome = true ↔ 0 ∈ mem := by
  rw [Option.isSome_iff_exists]
  refine ⟨fun ⟨v, hv⟩ => (scanHex_eq_some.1 hv).1, fun h => ?_⟩
  obtain ⟨v, hv⟩ := scanFrom_of_nul .space h
  exact ⟨v, scanHex_eq_some.2 ⟨h, hv⟩⟩

/-- The number a line of hexadecimal digits spells, after digits of value `acc`. -/
def hexValueFrom : Nat → List UInt8 → Option Nat
  | acc, [] => some acc
  | acc, c :: line => (hexDigit? c).bind fun d => hexValueFrom (acc * 16 + d) line

/-- The number a line of hexadecimal digits spells; none for an empty line. -/
def hexValue? (line : List UInt8) : Option Nat :=
  if line = [] then none else hexValueFrom 0 line

theorem scanFrom_digits {c : UInt8} (hc : hexDigit? c = none) (rest : List UInt8) :
    ∀ {line : List UInt8} {acc n : Nat}, hexValueFrom acc line = some n →
      scanFrom (.digits false acc) (line ++ c :: rest) = some (hexInt false n)
  | [], acc, n, h => by
    cases h
    simp [scanFrom, HexState.next, HexState.digit, hc]
  | b :: line, acc, n, h => by
    obtain ⟨d, hd, h⟩ := Option.bind_eq_some_iff.1 h
    rw [List.cons_append, scanFrom]
    simp only [HexState.next, HexState.digit, hd]
    exact scanFrom_digits hc rest h

theorem hexDigit?_ge {b : UInt8} {d : Nat} (h : hexDigit? b = some d) : 48 ≤ b.toNat := by
  by_contra hlt
  unfold hexDigit? at h
  simp only [Bool.and_eq_true, decide_eq_true_eq, UInt8.le_iff_toNat_le,
    show '0'.toUInt8.toNat = 48 from rfl, show 'a'.toUInt8.toNat = 97 from rfl,
    show 'A'.toUInt8.toNat = 65 from rfl] at h
  rw [if_neg (by omega), if_neg (by omega), if_neg (by omega)] at h
  cases h

theorem hexDigit?_facts {b : UInt8} {d : Nat} (h : hexDigit? b = some d) : isSpace b = false ∧
    b ≠ '-'.toUInt8 ∧ b ≠ '+'.toUInt8 ∧ b ≠ 'x'.toUInt8 ∧ b ≠ 'X'.toUInt8 ∧
      (b = '0'.toUInt8 → d = 0) := by
  have hge := hexDigit?_ge h
  refine ⟨?_, ?_, ?_, ?_, ?_, ?_⟩
  · simp only [isSpace, Bool.or_eq_false_iff, Bool.and_eq_false_iff, beq_eq_false_iff_ne,
      decide_eq_false_iff_not, UInt8.le_iff_toNat_le]
    refine ⟨?_, .inr (by simpa using by omega)⟩
    rintro rfl
    simp at hge
  · rintro rfl
    cases h
  · rintro rfl
    cases h
  · rintro rfl
    cases h
  · rintro rfl
    cases h
  · rintro rfl
    cases h
    rfl

/-- **The conversion of a size line**: white space, hexadecimal digits, a byte that is none. -/
theorem scanFrom_line {ws line : List UInt8} (hws : ∀ b ∈ ws, isSpace b = true) {c : UInt8}
    (hc : hexDigit? c = none) (hx : c ≠ 'x'.toUInt8 ∧ c ≠ 'X'.toUInt8) (rest : List UInt8) {n : Nat}
    (h : hexValue? line = some n) :
    scanFrom .space (ws ++ line ++ c :: rest) = some (hexInt false n) := by
  induction ws with
  | cons b ws ih =>
    simp only [List.cons_append, scanFrom, HexState.next, hws b (.head _), ↓reduceIte]
    simpa using ih fun b hb => hws b (.tail _ hb)
  | nil =>
    unfold hexValue? at h
    cases line with
    | nil => simp at h
    | cons b line =>
      rw [if_neg (by simp), hexValueFrom] at h
      obtain ⟨d, hd, h⟩ := Option.bind_eq_some_iff.1 h
      obtain ⟨h1, h2, h3, -, -, h0⟩ := hexDigit?_facts hd
      simp only [List.nil_append, List.cons_append, scanFrom, HexState.next, h1, h2, h3, ↓reduceIte,
        Bool.false_eq_true, HexState.first]
      by_cases hz : b = '0'.toUInt8
      · -- a leading zero
        rw [if_pos hz]
        rw [h0 hz] at h
        cases line with
        | nil =>
          cases h
          simp [scanFrom, HexState.next, HexState.digit, hc, hx]
        | cons b' line =>
          obtain ⟨d', hd', h⟩ := Option.bind_eq_some_iff.1 h
          obtain ⟨-, -, -, h4, h5, -⟩ := hexDigit?_facts hd'
          simp only [List.cons_append, scanFrom, HexState.next, h4, h5, or_self, ↓reduceIte,
            HexState.digit, hd']
          exact scanFrom_digits hc rest h
      · rw [if_neg hz, hd]
        dsimp only
        rw [Nat.zero_mul, Nat.zero_add] at h
        exact scanFrom_digits hc rest h

end Dechunk
