import CodeLibrary.Libpam.Checks
import CodeLibrary.Libpam.Proof.StateFile

/-!
# The numbers of the state file

* `strtoul_printInt`, `strtoul_decimal`, `strtol_printInt`: a number that is printed is read back.
* `strtoul_append`: in a line that is not all white space, the number at its start is the number
  that is read with the following lines behind it.
-/

set_option autoImplicit false

namespace Libpam

open CInt Scanf

/-! ## Reading what was printed -/

/-- A number that is printed is a `-`, if any, and digits. -/
theorem printInt_spec (n : Int) : ∃ sign digits, printInt n = sign ++ digits ∧ digits ≠ [] ∧
    (∀ c ∈ digits, isDigit c = true) ∧ (sign = [45] ∨ sign = []) ∧ IsInt (printInt n) n := by
  obtain ⟨hne, hdigits, hvalue⟩ := decimal_digits n.natAbs
  rw [printInt]
  split
  · refine ⟨[45], decimal n.natAbs, rfl, hne, hdigits, .inl rfl, [], [45], decimal n.natAbs, rfl,
      nofun, hne, hdigits, .inl ⟨rfl, ?_⟩⟩
    rw [hvalue]
    omega
  · refine ⟨[], decimal n.natAbs, rfl, hne, hdigits, .inr rfl, [], [], decimal n.natAbs, rfl,
      nofun, hne, hdigits, .inr ⟨.inl rfl, ?_⟩⟩
    rw [hvalue]
    omega

theorem isSpace_of_mem_printInt {n : Int} {c : UInt8} (h : c ∈ printInt n) : isSpace c = false := by
  obtain ⟨sign, digits, heq, -, hdigits, hsign, -⟩ := printInt_spec n
  rw [heq] at h
  rcases List.mem_append.1 h with h | h
  · rcases hsign with rfl | rfl
    · cases List.mem_singleton.1 h
      rfl
    · cases h
  · exact not_isSpace_of_isDigit (hdigits c h)

theorem printInt_ne_nil (n : Int) : printInt n ≠ [] := by
  obtain ⟨sign, digits, heq, hne, -⟩ := printInt_spec n
  rw [heq]
  exact List.append_ne_nil_of_right_ne_nil _ hne

theorem isSpace_of_isEol {c : UInt8} (h : isEol c = true) : isSpace c = true := by
  simp only [isEol, Bool.or_eq_true, beq_iff_eq] at h
  rcases h with rfl | rfl <;> rfl

theorem isSpace_of_isBlank {c : UInt8} (h : isBlank c = true) : isSpace c = true := by
  simp only [isBlank, Bool.or_eq_true, beq_iff_eq] at h
  rcases h with rfl | rfl <;> rfl

theorem isEol_eq_false {c : UInt8} (h : isSpace c = false) : isEol c = false :=
  Bool.eq_false_iff.2 fun he => by rw [isSpace_of_isEol he] at h; cases h

theorem isBlank_eq_false {c : UInt8} (h : isSpace c = false) : isBlank c = false :=
  Bool.eq_false_iff.2 fun he => by rw [isSpace_of_isBlank he] at h; cases h

theorem oneLine_printInt (n : Int) : OneLine (printInt n) := fun _ hc =>
  isEol_eq_false (isSpace_of_mem_printInt hc)

theorem scanInt_printInt (n : Int) {rest : List UInt8} (h : NoDigit rest) :
    scanInt (printInt n ++ rest) = some (n, rest) := by
  obtain ⟨-, -, -, -, -, -, hint⟩ := printInt_spec n
  exact scanInt_eq_some.2 ⟨printInt n, rfl, hint, h⟩

theorem noDigit_of_space {rest : List UInt8} (h : ∀ c ∈ rest.head?, isSpace c = true) :
    NoDigit rest := fun c hc =>
  Bool.eq_false_iff.2 fun hd => by
    have := not_isSpace_of_isDigit hd
    rw [h c hc] at this
    cases this

/-- An `int` that is printed is read back. -/
theorem strtoul_printInt {n : Int} (h : -2 ^ 31 ≤ n) (h' : n < 2 ^ 31) {rest : List UInt8}
    (hrest : NoDigit rest) : strtoul (printInt n ++ rest) = ⟨n, false, rest⟩ := by
  rw [strtoul, scanInt_printInt n hrest]
  dsimp only
  rw [if_pos (by omega), toInt_of_int h h']

theorem strtol_printInt {n : Int} (h : -2 ^ 63 ≤ n) (h' : n < 2 ^ 63) :
    strtol (printInt n) = n := by
  have hscan : scanInt (printInt n ++ []) = some (n, []) := scanInt_printInt n nofun
  rw [List.append_nil] at hscan
  rw [strtol, hscan]
  dsimp only
  omega

theorem printInt_dropWhile_isBlank (n : Int) (rest : List UInt8) :
    (printInt n ++ rest).dropWhile isBlank = printInt n ++ rest := by
  obtain ⟨c, s, hs⟩ := List.exists_cons_of_ne_nil (printInt_ne_nil n)
  have hc : isBlank c = false :=
    isBlank_eq_false (isSpace_of_mem_printInt (n := n) (by rw [hs]; exact List.mem_cons_self))
  rw [hs, List.cons_append, List.dropWhile_cons_of_neg (by simp [hc])]

/-! ## A number and the lines behind it -/

theorem takeSign_append {s : List UInt8} (hs : s ≠ []) (e : List UInt8) :
    takeSign (s ++ e) = ((takeSign s).1, (takeSign s).2 ++ e) := by
  obtain ⟨c, s, rfl⟩ := List.exists_cons_of_ne_nil hs
  rw [List.cons_append, takeSign, takeSign]
  split
  · rfl
  · split <;> rfl

theorem dropWhile_append_of_stop {p : UInt8 → Bool} {s e : List UInt8}
    (h : s.dropWhile p ≠ []) : (s ++ e).dropWhile p = s.dropWhile p ++ e := by
  rw [List.dropWhile_append, if_neg (by simpa using h)]

/-- What the digits at the start of a text are does not depend on what follows. -/
theorem digits_append {s e : List UInt8} (he : NoDigit e) :
    (s ++ e).takeWhile isDigit = s.takeWhile isDigit ∧
      (s ++ e).dropWhile isDigit = s.dropWhile isDigit ++ e := by
  have hs : s.takeWhile isDigit ++ (s.dropWhile isDigit ++ e) = s ++ e := by
    rw [← List.append_assoc, List.takeWhile_append_dropWhile]
  have hstop : ∀ c ∈ (s.dropWhile isDigit ++ e).head?, isDigit c = false := fun c hc => by
    cases hd : s.dropWhile isDigit with
    | nil => rw [hd] at hc; exact he c hc
    | cons d t =>
      refine noDigit_dropWhile s c ?_
      rw [hd] at hc ⊢
      exact hc
  have h := span_append (l := s.takeWhile isDigit) (fun c hc => List.mem_takeWhile_imp hc) hstop
  rw [hs] at h
  exact ⟨h.2, h.1⟩

theorem scanInt_append {l e : List UInt8} (hl : ∃ c ∈ l, isSpace c = false) (he : NoDigit e) :
    scanInt (l ++ e) = (scanInt l).map fun (n, rest) => (n, rest ++ e) := by
  have hne : l.dropWhile isSpace ≠ [] := by
    rw [Ne, List.dropWhile_eq_nil_iff]
    intro h
    obtain ⟨c, hc, hsp⟩ := hl
    rw [h c hc] at hsp
    cases hsp
  rw [scanInt, scanInt, dropWhile_append_of_stop hne, takeSign_append hne]
  generalize takeSign (l.dropWhile isSpace) = t
  obtain ⟨neg, s⟩ := t
  dsimp only
  rw [(digits_append he).1, (digits_append he).2]
  split <;> rfl

/-- **A line's number** is read in the same way with the following lines behind it. -/
theorem strtoul_append {l e : List UInt8} (hl : ∃ c ∈ l, isSpace c = false) (he : NoDigit e) :
    strtoul (l ++ e) =
      ⟨(strtoul l).value, (strtoul l).erange, (strtoul l).endptr ++ e⟩ := by
  rw [strtoul, strtoul, scanInt_append hl he]
  cases scanInt l with
  | none => rfl
  | some p =>
    obtain ⟨n, rest⟩ := p
    dsimp only [Option.map_some]
    split <;> rfl

/-- `endptr` points into the text. -/
theorem strtoul_suffix (ptr : List UInt8) : (strtoul ptr).endptr <:+ ptr := by
  rw [strtoul]
  split
  · exact List.suffix_rfl
  · rename_i n endptr hs
    obtain ⟨t, ht, -⟩ := scanInt_eq_some.1 hs
    split <;> exact ⟨t, ht.symm⟩

end Libpam
