import Mathlib.Data.List.TakeWhile
import Mathlib.Algebra.Order.Ring.Int

/-!
# Decimal numbers of `sscanf` and `sprintf`

A string is the list of its bytes before the terminating NUL. `sscanf` runs a format of `%d`s and
ordinary characters over a string and gives the numbers it has stored in `int`s; what it stores for
a number that no `int` represents is a parameter, `wide`. `decimal` is what `"%d"` prints for a
number that is not negative.

* `scanInt_eq_some`: a `%d` converts the numbers `IsInt` describes and takes all their digits.
* `Matches`: the strings that give a number for each `%d` of a format. `sscanf_of_matches` says
  which, `matches_of_length` that there are no others where the format ends in a `%d`.
* `isInt_decimal`: what is printed converts to the number again.
-/

namespace Scanf

/-- `isspace` in the C locale -/
def isSpace (c : UInt8) : Bool := c == 32 || (9 ≤ c && c ≤ 13)

/-- `isdigit` -/
def isDigit (c : UInt8) : Bool := 48 ≤ c && c ≤ 57

/-- The number a string of digits spells, after digits of value `n`. -/
def valueFrom (n : Nat) (digits : List UInt8) : Nat :=
  digits.foldl (fun n c => n * 10 + (c.toNat - 48)) n

/-- Whether a sign comes first and is negative, and what follows it. -/
def takeSign : List UInt8 → Bool × List UInt8
  | [] => (false, [])
  | c :: s => if c = 45 then (true, s) else if c = 43 then (false, s) else (false, c :: s)

/-- A number with its sign. -/
def signed (neg : Bool) (n : Nat) : Int := if neg then -n else n

/-- A `%d`: the number converted and what follows it. -/
def scanInt (s : List UInt8) : Option (Int × List UInt8) :=
  let (neg, s) := takeSign (s.dropWhile isSpace)
  let digits := s.takeWhile isDigit
  if digits = [] then none else some (signed neg (valueFrom 0 digits), s.dropWhile isDigit)

/-- The parts of a format. -/
inductive Directive where
  | int
  | char (c : UInt8)
deriving DecidableEq, Repr

/-- What is stored in an `int`. -/
def store (wide : Int → Int) (n : Int) : Int := if -2 ^ 31 ≤ n ∧ n < 2 ^ 31 then n else wide n

/-- The numbers `sscanf` stores; how many they are is what it returns, or it returns `EOF` where
there is none. -/
def sscanf (wide : Int → Int) : List Directive → List UInt8 → List Int
  | [], _ => []
  | .int :: format, s =>
    match scanInt s with
    | none => []
    | some (n, s) => store wide n :: sscanf wide format s
  | .char _ :: _, [] => []
  | .char c :: format, b :: s => if b = c then sscanf wide format s else []

/-- What `"%d"` prints for `n`. -/
def decimal (n : Nat) : List UInt8 :=
  if n < 10 then [UInt8.ofNat (48 + n)] else decimal (n / 10) ++ [UInt8.ofNat (48 + n % 10)]

/-! ## One number -/

/-- `t` is white space, a sign if any, and digits, and spells `n`. -/
def IsInt (t : List UInt8) (n : Int) : Prop :=
  ∃ space sign digits, t = space ++ sign ++ digits ∧ (∀ c ∈ space, isSpace c = true) ∧
    digits ≠ [] ∧ (∀ c ∈ digits, isDigit c = true) ∧
    (sign = [45] ∧ n = -valueFrom 0 digits ∨ (sign = [] ∨ sign = [43]) ∧ n = valueFrom 0 digits)

/-- The string does not begin with a digit. -/
def NoDigit (s : List UInt8) : Prop := ∀ c ∈ s.head?, isDigit c = false

theorem isDigit_iff {c : UInt8} : isDigit c = true ↔ 48 ≤ c.toNat ∧ c.toNat ≤ 57 := by
  simp only [isDigit, UInt8.le_iff_toNat_le, Bool.and_eq_true, decide_eq_true_eq]
  rfl

theorem isSpace_iff {c : UInt8} : isSpace c = true ↔ c.toNat = 32 ∨ 9 ≤ c.toNat ∧ c.toNat ≤ 13 := by
  simp only [isSpace, UInt8.le_iff_toNat_le, Bool.or_eq_true, Bool.and_eq_true, decide_eq_true_eq,
    beq_iff_eq, ← UInt8.toNat_inj]
  rfl

theorem not_isSpace_of_isDigit {c : UInt8} (h : isDigit c = true) : isSpace c = false := by
  have := isDigit_iff.1 h
  rw [Bool.eq_false_iff, ne_eq, isSpace_iff]
  omega

theorem ne_sign_of_isDigit {c : UInt8} (h : isDigit c = true) : c ≠ 45 ∧ c ≠ 43 := by
  constructor <;> rintro rfl <;> cases h

/-- Where a run of bytes with `p` ends. -/
theorem span_append {p : UInt8 → Bool} {l s : List UInt8} (hl : ∀ c ∈ l, p c = true)
    (hs : ∀ c ∈ s.head?, p c = false) : (l ++ s).dropWhile p = s ∧ (l ++ s).takeWhile p = l := by
  induction l with
  | nil =>
    cases s with
    | nil => exact ⟨rfl, rfl⟩
    | cons c s => simp [hs c rfl]
  | cons c l ih =>
    obtain ⟨h1, h2⟩ := ih fun c hc => hl c (List.mem_cons_of_mem _ hc)
    simp [hl c List.mem_cons_self, h1, h2]

theorem noDigit_dropWhile (s : List UInt8) : NoDigit (s.dropWhile isDigit) := by
  intro c hc
  have := List.head?_dropWhile_not isDigit s
  rw [Option.mem_def.1 hc] at this
  simpa using this

theorem takeSign_spec (s : List UInt8) : ∃ sign, s = sign ++ (takeSign s).2 ∧
    (sign = [45] ∧ (takeSign s).1 = true ∨ (sign = [] ∨ sign = [43]) ∧ (takeSign s).1 = false) := by
  cases s with
  | nil => exact ⟨[], rfl, .inr ⟨.inl rfl, rfl⟩⟩
  | cons c s =>
    rw [takeSign]
    by_cases h1 : c = 45
    · rw [if_pos h1]
      exact ⟨[45], by rw [h1]; rfl, .inl ⟨rfl, rfl⟩⟩
    · rw [if_neg h1]
      by_cases h2 : c = 43
      · rw [if_pos h2]
        exact ⟨[43], by rw [h2]; rfl, .inr ⟨.inr rfl, rfl⟩⟩
      · rw [if_neg h2]
        exact ⟨[], rfl, .inr ⟨.inl rfl, rfl⟩⟩

/-- **A `%d`** converts a number with all its digits. -/
theorem scanInt_eq_some {s rest : List UInt8} {n : Int} :
    scanInt s = some (n, rest) ↔ ∃ t, s = t ++ rest ∧ IsInt t n ∧ NoDigit rest := by
  constructor
  · intro h
    obtain ⟨sign, hsign, hneg⟩ := takeSign_spec (s.dropWhile isSpace)
    rw [scanInt] at h
    dsimp only at h
    generalize takeSign (s.dropWhile isSpace) = r at hsign hneg h
    obtain ⟨neg, u⟩ := r
    dsimp only at hsign hneg h
    split at h
    · cases h
    · rename_i hne
      simp only [Option.some.injEq, Prod.mk.injEq] at h
      obtain ⟨rfl, rfl⟩ := h
      refine ⟨s.takeWhile isSpace ++ sign ++ u.takeWhile isDigit, ?_, ⟨_, sign, _, rfl,
        fun c hc => List.mem_takeWhile_imp hc, hne, fun c hc => List.mem_takeWhile_imp hc, ?_⟩,
        noDigit_dropWhile u⟩
      · rw [List.append_assoc, List.takeWhile_append_dropWhile, List.append_assoc, ← hsign,
          List.takeWhile_append_dropWhile]
      · rcases hneg with ⟨hs, rfl⟩ | ⟨hs, rfl⟩
        · exact .inl ⟨hs, rfl⟩
        · exact .inr ⟨hs, rfl⟩
  · intro hx
    obtain ⟨t, rfl, ⟨space, sign, digits, rfl, hspace, hne, hdigits, hsign⟩, hrest⟩ := hx
    obtain ⟨c, digits', rfl⟩ := List.exists_cons_of_ne_nil hne
    have hc := hdigits c List.mem_cons_self
    obtain ⟨hdrop, htake⟩ := span_append hdigits hrest
    -- the sign, or the first digit, ends the white space
    have hskip : (space ++ sign ++ (c :: digits') ++ rest).dropWhile isSpace =
        sign ++ (c :: digits' ++ rest) := by
      rw [List.append_assoc, List.append_assoc]
      refine (span_append hspace fun b hb => ?_).1
      rcases hsign with ⟨rfl, -⟩ | ⟨rfl | rfl, -⟩ <;> cases hb
      · rfl
      · exact not_isSpace_of_isDigit hc
      · rfl
    have htakeSign : ∃ neg, takeSign (sign ++ (c :: digits' ++ rest)) =
        (neg, c :: digits' ++ rest) ∧ n = signed neg (valueFrom 0 (c :: digits')) := by
      obtain ⟨h1, h2⟩ := ne_sign_of_isDigit hc
      rcases hsign with ⟨rfl, hn⟩ | ⟨rfl | rfl, hn⟩
      · exact ⟨true, rfl, hn⟩
      · exact ⟨false, by simp [takeSign, h1, h2], hn⟩
      · exact ⟨false, rfl, hn⟩
    obtain ⟨neg, hneg, hn⟩ := htakeSign
    rw [scanInt, hskip, hneg]
    dsimp only
    rw [htake, hdrop, if_neg hne, ← hn]

/-! ## A format -/

/-- The string gives `ns` to the `%d`s of the format, and goes on with anything. -/
inductive Matches : List Directive → List UInt8 → List Int → Prop
  | done (rest : List UInt8) : Matches [] rest []
  | int {format : List Directive} {t rest : List UInt8} {n : Int} {ns : List Int} : IsInt t n →
      NoDigit rest → Matches format rest ns → Matches (.int :: format) (t ++ rest) (n :: ns)
  | char {format : List Directive} {rest : List UInt8} {ns : List Int} (c : UInt8) :
      Matches format rest ns → Matches (.char c :: format) (c :: rest) ns

/-- The number of `%d`s in a format. -/
def ints (format : List Directive) : Nat := format.count .int

variable {wide : Int → Int}

theorem sscanf_of_matches {format : List Directive} {s : List UInt8} {ns : List Int}
    (h : Matches format s ns) :
    sscanf wide format s = ns.map (store wide) ∧ ns.length = ints format := by
  induction h with
  | done rest => simp [sscanf, ints]
  | int hn hrest _ ih =>
    have hscan := scanInt_eq_some.2 ⟨_, rfl, hn, hrest⟩
    simp [sscanf, hscan, ih.1, ih.2, ints]
  | char c _ ih =>
    simp [sscanf, ih.1, ih.2, ints]

theorem length_sscanf_le : ∀ (format : List Directive) (s : List UInt8),
    (sscanf wide format s).length ≤ ints format
  | [], _ => by simp [sscanf]
  | .int :: format, s => by
    rw [sscanf]
    split
    · simp
    · have := length_sscanf_le format ‹_›
      simpa [ints] using this
  | .char c :: format, [] => by simp [sscanf]
  | .char c :: format, b :: s => by
    rw [sscanf]
    split
    · simpa [ints] using length_sscanf_le format s
    · simp

/-- **A format whose last part is a `%d`** is run through where every `%d` gives a number. -/
theorem matches_of_length : ∀ {format : List Directive} {s : List UInt8},
    format.getLast? = some .int → (sscanf wide format s).length = ints format →
    ∃ ns, Matches format s ns
  | [], _, h, _ => by simp at h
  | .int :: format, s, hlast, hlen => by
    rw [sscanf] at hlen
    split at hlen
    · simp [ints] at hlen
    · rename_i n rest hscan
      obtain ⟨t, rfl, hn, hrest⟩ := scanInt_eq_some.1 hscan
      have hlen' : (sscanf wide format rest).length = ints format := by
        simpa [ints] using hlen
      cases format with
      | nil => exact ⟨[n], .int hn hrest (.done rest)⟩
      | cons d format =>
        rw [List.getLast?_cons_cons] at hlast
        obtain ⟨ns, hns⟩ := matches_of_length hlast hlen'
        exact ⟨n :: ns, .int hn hrest hns⟩
  | .char c :: [], _, hlast, _ => by simp at hlast
  | .char c :: d :: format, s, hlast, hlen => by
    rw [List.getLast?_cons_cons] at hlast
    have hpos : 0 < ints (d :: format) :=
      List.count_pos_iff.2 (List.mem_of_getLast? hlast)
    have hints : ints (.char c :: d :: format) = ints (d :: format) := by simp [ints]
    rw [hints] at hlen
    cases s with
    | nil => simp [sscanf] at hlen; omega
    | cons b s =>
      rw [sscanf] at hlen
      split at hlen
      · rename_i hb
        subst hb
        obtain ⟨ns, hns⟩ := matches_of_length hlast hlen
        exact ⟨ns, .char b hns⟩
      · simp at hlen
        omega

/-! ## Printed numbers -/

theorem decimal_digits (n : Nat) : decimal n ≠ [] ∧ (∀ c ∈ decimal n, isDigit c = true) ∧
    valueFrom 0 (decimal n) = n := by
  induction n using decimal.induct with
  | case1 n hlt =>
    have hval : (UInt8.ofNat (48 + n)).toNat = 48 + n := by
      rw [UInt8.toNat_ofNat']
      omega
    rw [decimal, if_pos hlt]
    refine ⟨by simp, fun c hc => ?_, ?_⟩
    · rw [List.mem_singleton.1 hc, isDigit_iff, hval]
      omega
    · simp only [valueFrom, List.foldl_cons, List.foldl_nil, hval]
      omega
  | case2 n hge ih =>
    obtain ⟨hne, hdigits, hvalue⟩ := ih
    have hval : (UInt8.ofNat (48 + n % 10)).toNat = 48 + n % 10 := by
      rw [UInt8.toNat_ofNat']
      omega
    rw [decimal, if_neg hge]
    refine ⟨by simp, fun c hc => ?_, ?_⟩
    · rcases List.mem_append.1 hc with hc | hc
      · exact hdigits c hc
      · rw [List.mem_singleton.1 hc, isDigit_iff, hval]
        omega
    · unfold valueFrom at hvalue ⊢
      rw [List.foldl_append, hvalue]
      simp only [List.foldl_cons, List.foldl_nil, hval]
      omega

/-- **A printed number** is one to a `%d`. -/
theorem isInt_decimal (n : Nat) : IsInt (decimal n) n := by
  obtain ⟨hne, hdigits, hvalue⟩ := decimal_digits n
  refine ⟨[], [], decimal n, rfl, fun c hc => absurd hc List.not_mem_nil, hne, hdigits,
    .inr ⟨.inl rfl, ?_⟩⟩
  rw [hvalue]

end Scanf
