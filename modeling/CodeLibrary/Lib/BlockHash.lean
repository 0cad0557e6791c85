import Mathlib.Data.Nat.Notation
import Mathlib.Algebra.Group.Nat.Defs
import Mathlib.Algebra.Group.Int.Defs

/-!
# Hashing a stream block by block

A hash function of the Merkle–Damgård kind compresses its input one block of `B` elements at a time
into a chaining value, and pads the last block.

* `absorb compress B h xs`: the chaining value after the full blocks of `xs`, and what is left.
  Absorbing a stream in pieces, each after what the piece before it left, is absorbing it at once
  (`absorb_append`, for any number of pieces `absorb_flatten`).
* `pad B mark fill tail xs`: `xs`, a mark, as few fill elements as possible and `tail`, up to a
  full block. The padded stream ends with one block or two (`absorb_pad_one`, `absorb_pad_two`).
-/

set_option autoImplicit false

namespace BlockHash

variable {σ α : Type*} (compress : σ → List α → σ) (B : Nat)

/-- Compresses the first `n` blocks of `xs`. -/
def absorbBlocks : Nat → σ → List α → σ × List α
  | 0, h, xs => (h, xs)
  | n + 1, h, xs => absorbBlocks n (compress h (xs.take B)) (xs.drop B)

/-- The chaining value after the full blocks of `xs`, and what is left of `xs`. -/
def absorb (h : σ) (xs : List α) : σ × List α := absorbBlocks compress B (xs.length / B) h xs

variable {compress B}

theorem absorb_of_lt {xs : List α} (h : σ) (hx : xs.length < B) :
    absorb compress B h xs = (h, xs) := by
  rw [absorb, Nat.div_eq_of_lt hx, absorbBlocks]

@[simp] theorem absorb_nil (h : σ) : absorb compress B h [] = (h, []) := by
  simp [absorb, absorbBlocks]

/-- A full block is compressed. -/
theorem absorb_block {xs : List α} (h : σ) (hB : 0 < B) (hx : B ≤ xs.length) :
    absorb compress B h xs = absorb compress B (compress h (xs.take B)) (xs.drop B) := by
  rw [absorb, absorb, Nat.div_eq_sub_div hB hx, absorbBlocks, List.length_drop]

theorem absorb_block_append {b : List α} (xs : List α) (h : σ) (hB : 0 < B) (hb : b.length = B) :
    absorb compress B h (b ++ xs) = absorb compress B (compress h b) xs := by
  rw [absorb_block h hB (by rw [List.length_append]; omega), ← hb, List.take_left, List.drop_left]

/-- What is left is shorter than a block. -/
theorem length_absorb (hB : 0 < B) (xs : List α) :
    ∀ h : σ, (absorb compress B h xs).2.length = xs.length % B := by
  induction hn : xs.length using Nat.strongRecOn generalizing xs with
  | ind n ih =>
    intro h
    subst hn
    rcases Nat.lt_or_ge xs.length B with hlt | hge
    · rw [absorb_of_lt h hlt, Nat.mod_eq_of_lt hlt]
    · have hd : (xs.drop B).length = xs.length - B := List.length_drop
      rw [absorb_block h hB hge, ih (xs.length - B) (by omega) (xs.drop B) hd,
        Nat.mod_eq_sub_mod hge]

theorem length_absorb_lt (hB : 0 < B) (h : σ) (xs : List α) :
    (absorb compress B h xs).2.length < B := by
  rw [length_absorb hB]
  exact Nat.mod_lt _ hB

/-- **Streaming.** What comes later is absorbed after what was left. -/
theorem absorb_append (hB : 0 < B) (ys xs : List α) :
    ∀ h : σ, absorb compress B h (xs ++ ys) =
      absorb compress B (absorb compress B h xs).1 ((absorb compress B h xs).2 ++ ys) := by
  induction hn : xs.length using Nat.strongRecOn generalizing xs with
  | ind n ih =>
    intro h
    subst hn
    rcases Nat.lt_or_ge xs.length B with hlt | hge
    · rw [absorb_of_lt h hlt]
    · have hd : (xs.drop B).length = xs.length - B := List.length_drop
      have hxs : xs ++ ys = xs.take B ++ (xs.drop B ++ ys) := by
        rw [← List.append_assoc, List.take_append_drop]
      rw [hxs, absorb_block_append _ _ hB (by rw [List.length_take]; omega),
        absorb_block h hB hge, ih (xs.length - B) (by omega) (xs.drop B) hd]

/-- A stream absorbed piece by piece is absorbed as a whole. -/
theorem absorb_flatten (hB : 0 < B) : ∀ (pieces : List (List α)) (s : σ × List α),
    s.2.length < B →
    pieces.foldl (fun s piece => absorb compress B s.1 (s.2 ++ piece)) s =
      absorb compress B s.1 (s.2 ++ pieces.flatten)
  | [], s, hs => by
    rw [List.foldl_nil, List.flatten_nil, List.append_nil, absorb_of_lt _ hs]
  | piece :: pieces, s, hs => by
    rw [List.foldl_cons, absorb_flatten hB pieces _ (length_absorb_lt hB _ _), List.flatten_cons,
      ← List.append_assoc, absorb_append hB pieces.flatten (s.2 ++ piece)]

/-! ## Padding -/

/-- The number of fill elements between the mark and a tail of length `t`. -/
def fillLength (B t n : Nat) : Nat := (B - (n + 1 + t) % B) % B

/-- `xs`, a mark, as few fill elements as possible and `tail`, up to a full block. -/
def pad (B : Nat) (mark fill : α) (tail xs : List α) : List α :=
  xs ++ mark :: (List.replicate (fillLength B tail.length xs.length) fill ++ tail)

variable {mark fill : α} {tail : List α}

theorem length_pad (hB : 0 < B) (xs : List α) : (pad B mark fill tail xs).length % B = 0 := by
  have hlen : (pad B mark fill tail xs).length =
      (xs.length + 1 + tail.length) + fillLength B tail.length xs.length := by
    simp only [pad, List.length_append, List.length_cons, List.length_replicate]
    omega
  have hlt := Nat.mod_lt (xs.length + 1 + tail.length) hB
  rw [hlen, fillLength, Nat.add_mod, Nat.mod_mod]
  rcases Nat.eq_zero_or_pos ((xs.length + 1 + tail.length) % B) with h0 | hpos
  · simp [h0]
  · rw [Nat.mod_eq_of_lt (show B - (xs.length + 1 + tail.length) % B < B by omega),
      Nat.add_sub_cancel' (Nat.le_of_lt hlt), Nat.mod_self]

theorem fillLength_mod (t n : Nat) : fillLength B t (n % B) = fillLength B t n := by
  simp only [fillLength, Nat.add_assoc, Nat.mod_add_mod]

/-- The padding of a stream ends what is left of it. -/
theorem absorb_pad (hB : 0 < B) (h : σ) (xs : List α) :
    absorb compress B h (pad B mark fill tail xs) =
      absorb compress B (absorb compress B h xs).1
        (pad B mark fill tail (absorb compress B h xs).2) := by
  rw [pad, absorb_append hB, pad, length_absorb hB, fillLength_mod]

/-- Where the mark and the tail fit behind what is left, they end its block. -/
theorem absorb_pad_one (h : σ) {rest : List α} (hr : rest.length + 1 + tail.length ≤ B) :
    absorb compress B h (pad B mark fill tail rest) =
      (compress h (rest ++ mark ::
        (List.replicate (B - (rest.length + 1 + tail.length)) fill ++ tail)), []) := by
  have hB : 0 < B := by omega
  have hfill : fillLength B tail.length rest.length = B - (rest.length + 1 + tail.length) := by
    unfold fillLength
    rcases Nat.lt_or_eq_of_le hr with hlt | heq
    · rw [Nat.mod_eq_of_lt hlt, Nat.mod_eq_of_lt (by omega)]
    · rw [heq, Nat.mod_self, Nat.sub_zero, Nat.mod_self, Nat.sub_self]
  have hb : (rest ++ mark :: (List.replicate (B - (rest.length + 1 + tail.length)) fill ++
      tail)).length = B := by
    simp only [List.length_append, List.length_cons, List.length_replicate]
    omega
  rw [pad, hfill, absorb_block h hB (Nat.le_of_eq hb.symm), List.take_of_length_le (Nat.le_of_eq hb),
    List.drop_of_length_le (Nat.le_of_eq hb), absorb_nil]

/-- Where they do not, a block of fill ends what is left and the tail gets one of its own. -/
theorem absorb_pad_two (h : σ) {rest : List α} (hlt : rest.length < B) (ht : tail.length ≤ B)
    (hr : B < rest.length + 1 + tail.length) :
    absorb compress B h (pad B mark fill tail rest) =
      (compress (compress h (rest ++ mark :: List.replicate (B - (rest.length + 1)) fill))
        (List.replicate (B - tail.length) fill ++ tail), []) := by
  have hB : 0 < B := by omega
  have hfill : fillLength B tail.length rest.length =
      (B - (rest.length + 1)) + (B - tail.length) := by
    unfold fillLength
    rw [Nat.mod_eq_sub_mod (Nat.le_of_lt hr)]
    rcases Nat.lt_or_ge (rest.length + 1 + tail.length - B) B with h2 | h2
    · rw [Nat.mod_eq_of_lt h2, Nat.mod_eq_of_lt (by omega)]
      omega
    · have heq : rest.length + 1 + tail.length - B = B := by omega
      rw [heq, Nat.mod_self, Nat.sub_zero, Nat.mod_self]
      omega
  have hsplit : pad B mark fill tail rest =
      (rest ++ mark :: List.replicate (B - (rest.length + 1)) fill) ++
        ((List.replicate (B - tail.length) fill ++ tail) ++ []) := by
    rw [pad, hfill, ← List.replicate_append_replicate]
    simp only [List.append_assoc, List.cons_append, List.append_nil]
  rw [hsplit, absorb_block_append _ _ hB, absorb_block_append _ _ hB, absorb_nil]
  · simp only [List.length_append, List.length_replicate]
    omega
  · simp only [List.length_append, List.length_cons, List.length_replicate]
    omega

end BlockHash
