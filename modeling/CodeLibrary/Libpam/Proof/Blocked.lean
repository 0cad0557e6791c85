import CodeLibrary.Libpam.Proof.Numbers

/-!
# The list of `DISALLOW_REUSE`

`readBlocked` reads the time steps of the list. `pruneBlocked_spec`: the loop of
`invalidate_timebased_code` finds the time step in the list or deletes the ones out of the window
and no others; `readBlocked_append`: what is printed behind the list is its last entry.
-/

set_option autoImplicit false

namespace Libpam

open CInt Scanf

/-- The time steps of the list, or `none` where it is invalid. -/
def readBlocked (ptr : List UInt8) : Option (List Int) :=
  match _h : ptr.dropWhile isWhite with
  | [] => some []
  | c :: s =>
    let blocked := strtoul (c :: s)
    if _hb : blocked.erange ∨ blocked.endptr = c :: s ∨ !endsNumber blocked.endptr then none
    else (readBlocked blocked.endptr).map (blocked.value :: ·)
termination_by ptr.length
decreasing_by
  have hle : (c :: s).length ≤ ptr.length := _h ▸ (List.dropWhile_suffix _).length_le
  exact Nat.lt_of_lt_of_le (length_strtoul_lt fun he => _hb (.inr (.inl he))) hle

/-- Nothing, or white space first. -/
def Separated (text : List UInt8) : Prop := ∀ c ∈ text.head?, isWhite c = true

theorem isSpace_of_isWhite {c : UInt8} (h : isWhite c = true) : isSpace c = true := by
  rw [isWhite, Bool.or_eq_true] at h
  exact h.elim isSpace_of_isBlank isSpace_of_isEol

theorem Separated.noDigit {text : List UInt8} (h : Separated text) : NoDigit text :=
  noDigit_of_space fun c hc => isSpace_of_isWhite (h c hc)

theorem endsNumber_iff {text : List UInt8} : endsNumber text = true ↔ Separated text := by
  cases text with
  | nil => exact ⟨fun _ => nofun, fun _ => rfl⟩
  | cons c s => exact ⟨fun h d hd => by cases hd; exact h, fun h => h c rfl⟩

theorem dropWhile_isWhite_append {white : List UInt8} (h : ∀ c ∈ white, isWhite c = true)
    (text : List UInt8) : (white ++ text).dropWhile isWhite = text.dropWhile isWhite :=
  List.dropWhile_append_of_pos h

theorem readBlocked_eq (ptr : List UInt8) : readBlocked ptr =
    match ptr.dropWhile isWhite with
    | [] => some []
    | c :: s =>
      if (strtoul (c :: s)).erange ∨ (strtoul (c :: s)).endptr = c :: s ∨
        !endsNumber (strtoul (c :: s)).endptr then none
      else (readBlocked (strtoul (c :: s)).endptr).map ((strtoul (c :: s)).value :: ·) := by
  rw [readBlocked]
  split
  · rename_i h
    rw [h]
  · rename_i c s h
    rw [h]
    rfl

/-- White space before the list does not matter. -/
theorem readBlocked_white {white : List UInt8} (h : ∀ c ∈ white, isWhite c = true)
    (text : List UInt8) : readBlocked (white ++ text) = readBlocked text := by
  rw [readBlocked_eq, readBlocked_eq text, dropWhile_isWhite_append h]

theorem readBlocked_dropWhile {p : UInt8 → Bool} (hp : ∀ c, p c = true → isWhite c = true)
    (text : List UInt8) : readBlocked (text.dropWhile p) = readBlocked text := by
  have h : readBlocked (text.takeWhile p ++ text.dropWhile p) = readBlocked (text.dropWhile p) :=
    readBlocked_white (fun c hc => hp c (List.mem_takeWhile_imp hc)) _
  rw [List.takeWhile_append_dropWhile] at h
  exact h.symm

/-- A number that is converted takes a part of the text. -/
theorem strtoul_converts {text : List UInt8} (hrange : (strtoul text).erange = false)
    (hne : (strtoul text).endptr ≠ text) : ∃ num n, text = num ++ (strtoul text).endptr ∧
      IsInt num n ∧ n.natAbs < 2 ^ 64 ∧ (strtoul text).value = toInt n := by
  rw [strtoul] at hrange hne ⊢
  cases hs : scanInt text with
  | none =>
    rw [hs] at hne
    exact absurd rfl hne
  | some p =>
    obtain ⟨n, endptr⟩ := p
    rw [hs] at hrange
    dsimp only at hrange ⊢
    by_cases hn : n.natAbs < 2 ^ 64
    · obtain ⟨t, ht, hint, -⟩ := scanInt_eq_some.1 hs
      rw [if_pos hn]
      exact ⟨t, n, ht, hint, hn, rfl⟩
    · rw [if_neg hn] at hrange
      cases hrange

theorem strtoul_of_isInt {num rest : List UInt8} {n : Int} (h : IsInt num n)
    (hn : n.natAbs < 2 ^ 64) (hrest : NoDigit rest) :
    strtoul (num ++ rest) = ⟨toInt n, false, rest⟩ := by
  rw [strtoul, scanInt_eq_some.2 ⟨num, rfl, h, hrest⟩]
  dsimp only
  rw [if_pos hn]

theorem isInt_ne_nil {num : List UInt8} {n : Int} (h : IsInt num n) : num ≠ [] := by
  obtain ⟨space, sign, digits, rfl, -, hne, -⟩ := h
  exact List.append_ne_nil_of_right_ne_nil _ hne

/-- The list behind a number: another text may stand there. -/
theorem readBlocked_number {c : UInt8} {s rest : List UInt8} {white : List UInt8}
    (hwhite : ∀ d ∈ white, isWhite d = true) (hc : isWhite c = false)
    (hnum : ¬ ((strtoul (c :: s)).erange ∨ (strtoul (c :: s)).endptr = c :: s ∨
      !endsNumber (strtoul (c :: s)).endptr)) (hrest : Separated rest) :
    ∃ num, c :: s = num ++ (strtoul (c :: s)).endptr ∧
      readBlocked (white ++ num ++ rest) =
        (readBlocked rest).map ((strtoul (c :: s)).value :: ·) := by
  rw [not_or, not_or] at hnum
  obtain ⟨num, n, htext, hint, hn, hvalue⟩ := strtoul_converts (by simpa using hnum.1) hnum.2.1
  obtain ⟨d, num', rfl⟩ := List.exists_cons_of_ne_nil (isInt_ne_nil hint)
  have hd : isWhite d = false := by
    rw [List.cons_append] at htext
    rw [← (List.cons.inj htext).1]
    exact hc
  refine ⟨d :: num', htext, ?_⟩
  have hdrop : (d :: num' ++ rest).dropWhile isWhite = d :: (num' ++ rest) := by
    rw [List.cons_append, List.dropWhile_cons_of_neg (by simp [hd])]
  rw [List.append_assoc, readBlocked_white hwhite, readBlocked_eq, hdrop]
  dsimp only
  rw [← List.cons_append, strtoul_of_isInt hint hn hrest.noDigit, hvalue, if_neg]
  have hlen : rest ≠ d :: num' ++ rest := fun he => by
    have := congrArg List.length he
    simp only [List.cons_append, List.length_cons, List.length_append] at this
    omega
  simp only [endsNumber_iff.2 hrest, hlen, or_self, Bool.not_true, Bool.false_eq_true,
    not_false_eq_true]

theorem isWhite_of_dropWhile {ptr : List UInt8} {c : UInt8} {s : List UInt8}
    (h : ptr.dropWhile isWhite = c :: s) : isWhite c = false := by
  have := List.head?_dropWhile_not isWhite ptr
  rw [h] at this
  simpa using this

/-- A text with white space first keeps some. -/
theorem separated_append {white ptr rest : List UInt8} (h : white = ptr.takeWhile isWhite)
    (hptr : Separated ptr) (hne : ptr ≠ []) : Separated (white ++ rest) := by
  obtain ⟨c, s, rfl⟩ := List.exists_cons_of_ne_nil hne
  have hc := hptr c rfl
  rw [h, List.takeWhile_cons_of_pos hc]
  intro d hd
  cases hd
  exact hc

/-- **The loop of `invalidate_timebased_code`:** `tm` is not in the list, and what stays are the
time steps within the window around it. -/
theorem pruneBlocked_spec {tm window : Int} {ptr rest : List UInt8}
    (h : pruneBlocked tm window ptr = some rest) : (Separated ptr → Separated rest) ∧
    ∃ bs, readBlocked ptr = some bs ∧ tm ∉ bs ∧ readBlocked rest =
      some (bs.filter fun b => !decide (b - tm ≥ window ∨ tm - b ≥ window)) := by
  induction hn : ptr.length using Nat.strongRecOn generalizing ptr rest with
  | ind n ih =>
    have hwhite : ∀ c ∈ ptr.takeWhile isWhite, isWhite c = true := fun c hc =>
      List.mem_takeWhile_imp hc
    rw [pruneBlocked] at h
    dsimp only at h
    split at h
    · rename_i hnil
      cases h
      have hall := List.dropWhile_eq_nil_iff.1 hnil
      have htake : ptr.takeWhile isWhite = ptr := by
        have := List.takeWhile_append_dropWhile (p := isWhite) (l := ptr)
        rwa [hnil, List.append_nil] at this
      rw [htake]
      have hread : readBlocked ptr = some [] := by rw [readBlocked_eq, hnil]
      exact ⟨id, [], hread, List.not_mem_nil, hread⟩
    · rename_i c s hcs
      have hc := isWhite_of_dropWhile hcs
      have hlen : (c :: s).length ≤ ptr.length := by
        rw [← hcs]
        exact (List.dropWhile_suffix _).length_le
      have hne : ptr ≠ [] := fun h0 => by rw [h0] at hcs; cases hcs
      split at h
      · cases h
      · rename_i hb
        have hlt := length_strtoul_lt fun he => hb (.inr (.inl he))
        have hread : ∀ bs, readBlocked (strtoul (c :: s)).endptr = some bs →
            readBlocked ptr = some ((strtoul (c :: s)).value :: bs) := fun bs hbs => by
          rw [readBlocked_eq, hcs]
          dsimp only
          rw [if_neg hb, hbs]
          rfl
        have hends : Separated (strtoul (c :: s)).endptr := by
          rw [not_or, not_or] at hb
          exact endsNumber_iff.1 (by simpa using hb.2.2)
        split at h
        · cases h
        · rename_i htm
          split at h
          · -- out of the window
            rename_i hout
            obtain ⟨r, hr, rfl⟩ := Option.map_eq_some_iff.1 h
            have hdlen := (List.dropWhile_suffix (l := (strtoul (c :: s)).endptr) isBlank).length_le
            obtain ⟨-, bs, hbs, hmem, hrest⟩ := ih _ (by omega) hr rfl
            rw [readBlocked_dropWhile fun d hd => by rw [isWhite, hd, Bool.true_or]] at hbs
            refine ⟨fun hsep => separated_append rfl hsep hne, _, hread bs hbs, ?_, ?_⟩
            · rw [List.mem_cons, not_or]
              exact ⟨htm, hmem⟩
            · have hdrop : ¬ (!decide ((strtoul (c :: s)).value - tm ≥ window ∨
                  tm - (strtoul (c :: s)).value ≥ window)) = true := by
                rw [decide_eq_true hout]
                decide
              rw [readBlocked_white hwhite, hrest, List.filter_cons, if_neg hdrop]
          · rename_i hin
            obtain ⟨r, hr, rfl⟩ := Option.map_eq_some_iff.1 h
            obtain ⟨hsep, bs, hbs, hmem, hrest⟩ := ih _ (by omega) hr rfl
            obtain ⟨num, htext, hnum⟩ := readBlocked_number hwhite hc hb (hsep hends)
            have htake : (c :: s).take ((c :: s).length - (strtoul (c :: s)).endptr.length) =
                num := by
              have hl := congrArg List.length htext
              rw [List.length_append] at hl
              calc (c :: s).take ((c :: s).length - (strtoul (c :: s)).endptr.length)
                  = (num ++ (strtoul (c :: s)).endptr).take num.length := by
                    rw [← htext, hl, Nat.add_sub_cancel]
                _ = num := List.take_left
            rw [htake]
            refine ⟨fun h0 => ?_, _, hread bs hbs, ?_, ?_⟩
            · rw [List.append_assoc]
              exact separated_append rfl h0 hne
            · rw [List.mem_cons, not_or]
              exact ⟨htm, hmem⟩
            · rw [hnum, hrest, List.filter_cons_of_pos (by simpa using hin)]
              rfl

/-- What is printed behind a list is read behind its entries. -/
theorem readBlocked_append {text rest : List UInt8} (hrest : Separated rest) {bs : List Int}
    (h : readBlocked text = some bs) :
    readBlocked (text ++ rest) = (readBlocked rest).map (bs ++ ·) := by
  induction hn : text.length using Nat.strongRecOn generalizing text bs with
  | ind n ih =>
    have hwhite : ∀ c ∈ text.takeWhile isWhite, isWhite c = true := fun c hc =>
      List.mem_takeWhile_imp hc
    have hsplit := List.takeWhile_append_dropWhile (p := isWhite) (l := text)
    rw [readBlocked_eq] at h
    split at h
    · rename_i hnil
      cases h
      rw [hnil, List.append_nil] at hsplit
      rw [← hsplit, readBlocked_white hwhite]
      simp
    · rename_i c s hcs
      have hc := isWhite_of_dropWhile hcs
      have hlen : (c :: s).length ≤ text.length := by
        rw [← hcs]
        exact (List.dropWhile_suffix _).length_le
      split at h
      · cases h
      · rename_i hb
        have hlt := length_strtoul_lt fun he => hb (.inr (.inl he))
        obtain ⟨bs', hbs', rfl⟩ := Option.map_eq_some_iff.1 h
        have hends : Separated (strtoul (c :: s)).endptr := by
          rw [not_or, not_or] at hb
          exact endsNumber_iff.1 (by simpa using hb.2.2)
        have hsep : Separated ((strtoul (c :: s)).endptr ++ rest) := by
          cases he : (strtoul (c :: s)).endptr with
          | nil => exact hrest
          | cons d t => exact fun x hx => hends x (by rw [he]; exact hx)
        obtain ⟨num, htext, hnum⟩ := readBlocked_number hwhite hc hb hsep
        rw [hcs, htext] at hsplit
        rw [← hsplit, ← List.append_assoc, List.append_assoc, hnum, ih _ (by omega) hbs' rfl]
        cases readBlocked rest <;> rfl

/-- The entry that is printed. -/
theorem readBlocked_printInt {tm : Int} (h : -2 ^ 31 ≤ tm) (h' : tm < 2 ^ 31) :
    readBlocked (printInt tm) = some [tm] := by
  obtain ⟨c, s, hs⟩ := List.exists_cons_of_ne_nil (printInt_ne_nil tm)
  have hc : isWhite c = false := Bool.eq_false_iff.2 fun hw => by
    have := isSpace_of_mem_printInt (n := tm) (by rw [hs]; exact List.mem_cons_self)
    rw [isSpace_of_isWhite hw] at this
    cases this
  have hnum : strtoul (c :: s) = ⟨tm, false, []⟩ := by
    have hnil := strtoul_printInt h h' (show NoDigit [] from nofun)
    rwa [List.append_nil, hs] at hnil
  rw [hs, readBlocked_eq, List.dropWhile_cons_of_neg (by simp [hc])]
  dsimp only
  rw [hnum, readBlocked_eq]
  rfl

end Libpam
