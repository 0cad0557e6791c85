import CodeLibrary.Libpam.Proof.Numbers

/-!
# The account in the state file

A state file whose lines end in `'\n'`, are not all white space and begin with the secret
(`Plain`) is an account: its options, and the list of its scratch codes.

* `Plain.set`: setting an option keeps the other options and the scratch codes.
* `checkScratchCodes_spec`: a code is accepted as a scratch code if and only if it is one, and is
  then removed once; all options stay.
-/

set_option autoImplicit false

namespace Libpam

open Scanf

/-- A line end that is `'\n'` everywhere, a first line that is no option, and no line of white
space. -/
structure Plain (buf : List UInt8) : Prop where
  noReturn : ∀ c ∈ buf, c ≠ 13
  ended : lineEnd buf ≠ []
  first : ∀ l ∈ (lines buf).head?, l.head? ≠ some 34
  solid : ∀ l ∈ lines buf, ∃ c ∈ l, isSpace c = false

instance (buf : List UInt8) : Decidable (Plain buf) :=
  decidable_of_iff ((buf.all (· != 13) && !(lineEnd buf).isEmpty &&
      !(lines buf).head?.any fun l => l.head? == some 34) &&
      (lines buf).all fun l => l.any fun c => !isSpace c) (by
    simp only [Bool.and_eq_true, List.all_eq_true, bne_iff_ne, ne_eq, Bool.not_eq_true',
      List.isEmpty_eq_false_iff, Option.any_eq_false, beq_eq_false_iff_ne, List.any_eq_true]
    exact ⟨fun ⟨⟨⟨h1, h2⟩, h3⟩, h4⟩ => ⟨h1, h2, h3, h4⟩, fun h => ⟨⟨⟨h.1, h.2⟩, h.3⟩, h.4⟩⟩)

/-! ## The scratch codes of the lines -/

/-- The scratch codes of the lines behind the first one: the loop ends at a line that is neither an
option nor a scratch code. -/
def codesOf : List (List UInt8) → List Int
  | [] => []
  | l :: ls =>
    if l.head? = some 34 then codesOf ls
    else if isScratchCode l (strtoul l) then (strtoul l).value :: codesOf ls
    else []

/-- The lines without the first one with the scratch code. -/
def eraseCode (code : Int) : List (List UInt8) → List (List UInt8)
  | [] => []
  | l :: ls =>
    if l.head? = some 34 then l :: eraseCode code ls
    else if (strtoul l).value = code then ls
    else l :: eraseCode code ls

/-- The scratch codes of the state file. -/
def scratchCodes (buf : List UInt8) : List Int := codesOf (lines buf).tail

theorem codesOf_eraseCode {code : Int} : ∀ {ls : List (List UInt8)}, code ∈ codesOf ls →
    codesOf (eraseCode code ls) = (codesOf ls).erase code
  | [], h => by cases h
  | l :: ls, h => by
    rw [codesOf] at h ⊢
    rw [eraseCode]
    split at h
    · rename_i hl
      rw [if_pos hl, if_pos hl, codesOf, if_pos hl, codesOf_eraseCode h]
    · rename_i hl
      split at h
      · rename_i hv
        rw [if_neg hl, if_neg hl, if_pos hv, List.erase_cons]
        by_cases he : (strtoul l).value = code
        · rw [if_pos he, if_pos (by simp [he])]
        · have hmem : code ∈ codesOf ls := (List.mem_cons.1 h).resolve_left fun h => he h.symm
          rw [if_neg he, if_neg (by simpa using he), codesOf, if_neg hl, if_pos hv,
            codesOf_eraseCode hmem]
      · cases h

/-- The options do not matter for the scratch codes. -/
theorem codesOf_filter : ∀ ls : List (List UInt8),
    codesOf (ls.filter fun l => l.head? ≠ some 34) = codesOf ls
  | [] => rfl
  | l :: ls => by
    rw [List.filter_cons, codesOf]
    split
    · rename_i hl
      rw [if_neg (by simpa using hl), codesOf, if_neg (by simpa using hl), codesOf_filter ls]
    · rename_i hl
      rw [if_pos (by simpa using hl), codesOf_filter ls]

theorem eraseCode_sublist (code : Int) : ∀ ls : List (List UInt8), (eraseCode code ls).Sublist ls
  | [] => .slnil
  | l :: ls => by
    rw [eraseCode]
    split
    · exact (eraseCode_sublist code ls).cons_cons l
    · split
      · exact .cons l (.refl ls)
      · exact (eraseCode_sublist code ls).cons_cons l

theorem optionOf_eq_none_of_head {key l : List UInt8} (h : l.head? ≠ some 34) :
    optionOf key l = none :=
  optionOf_eq_none.2 (Bool.eq_false_iff.2 fun hk => by
    obtain ⟨t, rfl, -⟩ := isKeyLine_iff.1 hk
    exact h rfl)

theorem findSome?_eraseCode (key : List UInt8) (code : Int) : ∀ ls : List (List UInt8),
    (eraseCode code ls).findSome? (optionOf key) = ls.findSome? (optionOf key)
  | [] => rfl
  | l :: ls => by
    rw [eraseCode]
    split
    · rw [List.findSome?_cons, List.findSome?_cons, findSome?_eraseCode key code ls]
    · rename_i hl
      rw [List.findSome?_cons, optionOf_eq_none_of_head hl]
      split
      · rfl
      · rw [List.findSome?_cons, optionOf_eq_none_of_head hl, findSome?_eraseCode key code ls]

/-! ## The loop of `check_scratch_codes` -/

/-- Without `'\r'` a line ends at the next `'\n'`. -/
theorem dropWhile_ne_newline {s : List UInt8} (h : ∀ c ∈ s, c ≠ 13) :
    s.dropWhile (fun c => decide (c ≠ 10)) = lineEnd s ∧
      s.takeWhile (fun c => decide (c ≠ 10)) = lineOf s := by
  have heq : ∀ c ∈ s, decide (c ≠ 10) = !isEol c := fun c hc => by
    have h13 : (c == 13) = false := by simpa using h c hc
    rw [isEol, h13, Bool.false_or]
    by_cases h10 : c = 10 <;> simp [h10]
  rw [lineEnd, lineOf]
  clear h
  induction s with
  | nil => exact ⟨rfl, rfl⟩
  | cons c s ih =>
    obtain ⟨h1, h2⟩ := ih fun d hd => heq d (List.mem_cons_of_mem _ hd)
    rw [List.dropWhile_cons, List.dropWhile_cons, List.takeWhile_cons, List.takeWhile_cons,
      heq c List.mem_cons_self, h1, h2]
    exact ⟨rfl, rfl⟩

theorem noDigit_lineEnd (line : List UInt8) : NoDigit (lineEnd line) :=
  noDigit_of_space fun c hc => by
    have := List.head?_dropWhile_not (fun c => !isEol c) line
    rw [← lineEnd, Option.mem_def.1 hc] at this
    exact isSpace_of_isEol (by simpa using this)

theorem endsLine_lineEnd (line : List UInt8) : endsLine (lineEnd line) = true := by
  have := List.head?_dropWhile_not (fun c => !isEol c) line
  rw [← lineEnd] at this
  cases h : lineEnd line with
  | nil => rfl
  | cons c s =>
    rw [h] at this
    simpa [endsLine] using this

/-- A scratch code takes its whole line. -/
theorem endptr_of_isScratchCode {l : List UInt8} (hl : OneLine l)
    (h : isScratchCode l (strtoul l) = true) : (strtoul l).endptr = [] := by
  simp only [isScratchCode, Bool.and_eq_true] at h
  have hend := h.1.1.2
  cases he : (strtoul l).endptr with
  | nil => rfl
  | cons c s =>
    have hc := hl c ((strtoul_suffix l).subset (he ▸ List.mem_cons_self))
    rw [he, endsLine, hc] at hend
    cases hend

theorem isScratchCode_append {l e : List UInt8} (hsolid : ∃ c ∈ l, isSpace c = false)
    (he : NoDigit e) (hend : endsLine e = true) :
    isScratchCode (l ++ e) (strtoul (l ++ e)) = isScratchCode l (strtoul l) := by
  have hends : endsLine ((strtoul l).endptr ++ e) = endsLine (strtoul l).endptr := by
    cases h : (strtoul l).endptr with
    | nil => exact hend
    | cons c s => rfl
  rw [strtoul_append hsolid he, isScratchCode, isScratchCode]
  dsimp only
  rw [hends]
  simp

/-- The loop at the text `t` behind line ends. -/
theorem useScratchCode_nil {code : Int} {ptr : List UInt8} (h : ptr.dropWhile isEol = []) :
    useScratchCode code ptr = none := by
  rw [useScratchCode]
  split
  · rfl
  · rename_i c s he
    rw [h] at he
    cases he

theorem useScratchCode_cons {code : Int} {ptr : List UInt8} {c : UInt8} {s : List UInt8}
    (h : ptr.dropWhile isEol = c :: s) : useScratchCode code ptr =
      if c = 34 then
        (useScratchCode code (s.dropWhile (· ≠ 10))).map
          (ptr.takeWhile isEol ++ c :: s.takeWhile (· ≠ 10) ++ ·)
      else if isScratchCode (c :: s) (strtoul (c :: s)) then
        if (strtoul (c :: s)).value = code then
          some (ptr.takeWhile isEol ++ (strtoul (c :: s)).endptr.dropWhile isEol)
        else
          (useScratchCode code (strtoul (c :: s)).endptr).map
            (ptr.takeWhile isEol ++
              (c :: s).take ((c :: s).length - (strtoul (c :: s)).endptr.length) ++ ·)
      else none := by
  rw [useScratchCode]
  split
  · rename_i he
    rw [h] at he
    cases he
  · rename_i d t he
    rw [h] at he
    cases he
    dsimp only
    split
    · rfl
    · split <;> rfl

/-- What the loop of `check_scratch_codes` makes of the lines behind `ptr`. -/
def Uses (code : Int) (ptr : List UInt8) : Option (List UInt8) → Prop
  | none => code ∉ codesOf (lines (ptr.dropWhile isEol))
  | some rest => code ∈ codesOf (lines (ptr.dropWhile isEol)) ∧
    ∃ kept, rest = ptr.takeWhile isEol ++ kept ∧ Begun kept ∧ (∀ c ∈ kept, c ∈ ptr) ∧
      lines kept = eraseCode code (lines (ptr.dropWhile isEol))

/-- A line that stays, and the loop behind it. -/
theorem Uses.line {code : Int} {ptr line : List UInt8} (hline : ptr.dropWhile isEol = line)
    (hne : line ≠ []) {r : Option (List UInt8)} (h : Uses code (lineEnd line) r)
    (hcodes : code ∈ codesOf (lines line) ↔ code ∈ codesOf (lines (nextLine line)))
    (herase : eraseCode code (lines line) = lineOf line :: eraseCode code (lines (nextLine line))) :
    Uses code ptr (r.map (ptr.takeWhile isEol ++ lineOf line ++ ·)) := by
  cases r with
  | none =>
    rw [Option.map_none, Uses, hline, hcodes]
    exact h
  | some rest =>
    obtain ⟨hmem, kept, rfl, hbegun, hsub, hlines⟩ := h
    have hend : lineEnd line ≠ [] := fun h0 => by
      rw [h0, List.dropWhile_nil, lines] at hmem
      cases hmem
    have hbegun' : Begun line := by
      intro c hc
      have := List.head?_dropWhile_not isEol ptr
      rw [hline, Option.mem_def.1 hc] at this
      simpa using this
    refine ⟨by rw [hline]; exact hcodes.2 hmem, skipLine line ++ kept, ?_,
      begun_skipLine_append hne hbegun' kept, fun c hc => ?_, ?_⟩
    · dsimp only
      rw [skipLine_eq, List.append_assoc, List.append_assoc]
    · have hptr : ∀ c ∈ line, c ∈ ptr := fun c hc => by
        rw [← hline] at hc
        exact (List.dropWhile_suffix _).subset hc
      rcases List.mem_append.1 hc with hc | hc
      · exact hptr c (List.mem_of_mem_take hc)
      · exact hptr c ((List.dropWhile_suffix _).subset (hsub c hc))
    · rw [lines_skipLine_append hne hend hbegun, hlines, hline, herase]
      rfl

theorem useScratchCode_spec (code : Int) {ptr : List UInt8} (hcr : ∀ c ∈ ptr, c ≠ 13)
    (hsolid : ∀ l ∈ lines (ptr.dropWhile isEol), ∃ c ∈ l, isSpace c = false) :
    Uses code ptr (useScratchCode code ptr) := by
  generalize ht : ptr.dropWhile isEol = t at hsolid
  induction t using lines.induct generalizing ptr with
  | case1 =>
    rw [useScratchCode_nil ht, Uses, ht, lines]
    exact List.not_mem_nil
  | case2 c s ih =>
    have hmem : ∀ d ∈ c :: s, d ∈ ptr := fun d hd => by
      rw [← ht] at hd
      exact (List.dropWhile_suffix _).subset hd
    have hend : ∀ d ∈ lineEnd (c :: s), d ≠ 13 := fun d hd =>
      hcr d (hmem d ((List.dropWhile_suffix _).subset hd))
    rw [lines] at hsolid
    have hrec : Uses code (lineEnd (c :: s)) (useScratchCode code (lineEnd (c :: s))) :=
      ih hend rfl fun l hl => hsolid l (List.mem_cons_of_mem _ hl)
    have hl := hsolid _ List.mem_cons_self
    have hhead : isEol c = false := by
      have := List.head?_dropWhile_not isEol ptr
      rw [ht] at this
      simpa using this
    have hlhead : (lineOf (c :: s)).head? = some c := by
      rw [lineOf, List.takeWhile_cons_of_pos (by simp [hhead])]
      rfl
    rw [useScratchCode_cons ht]
    split
    · -- an option
      rename_i hc
      obtain ⟨h1, h2⟩ := dropWhile_ne_newline (s := s) fun d hd =>
        hcr d (hmem d (List.mem_cons_of_mem _ hd))
      have h1' : lineEnd s = lineEnd (c :: s) := by
        rw [lineEnd, lineEnd, List.dropWhile_cons_of_pos (by simp [hhead])]
      have h2' : c :: lineOf s = lineOf (c :: s) := by
        rw [lineOf, lineOf, List.takeWhile_cons_of_pos (by simp [hhead])]
      have hoption : (lineOf (c :: s)).head? = some 34 := by rw [hlhead, hc]
      rw [h1, h2, h1', h2']
      refine hrec.line ht (List.cons_ne_nil c s) ?_ ?_
      · rw [lines, codesOf, if_pos hoption]
      · rw [lines, eraseCode, if_pos hoption]
    · rename_i hc
      have hoption : ¬ (lineOf (c :: s)).head? = some 34 := by
        rw [hlhead]
        simpa using hc
      have hnum := strtoul_append hl (noDigit_lineEnd (c :: s))
      have hval := isScratchCode_append hl (noDigit_lineEnd (c :: s)) (endsLine_lineEnd (c :: s))
      rw [lineOf_append_lineEnd] at hnum hval
      rw [hval]
      split
      · rename_i hv
        have hptr := endptr_of_isScratchCode (oneLine_lineOf (c :: s)) hv
        rw [hnum, hptr]
        dsimp only
        rw [List.nil_append]
        split
        · rename_i he
          refine ⟨?_, nextLine (c :: s), rfl, begun_nextLine _, fun d hd =>
            hmem d ((nextLine_suffix _).subset hd), ?_⟩
          · rw [ht, lines, codesOf, if_neg hoption, if_pos hv, he]
            exact List.mem_cons_self
          · rw [ht, lines, eraseCode, if_neg hoption, if_pos he]
        · rename_i he
          have htake : (c :: s).take ((c :: s).length - (lineEnd (c :: s)).length) =
              lineOf (c :: s) := by
            have h := lineOf_append_lineEnd (c :: s)
            have hlen := congrArg List.length h
            rw [List.length_append] at hlen
            calc (c :: s).take ((c :: s).length - (lineEnd (c :: s)).length)
                = (lineOf (c :: s) ++ lineEnd (c :: s)).take (lineOf (c :: s)).length := by
                  rw [h, ← hlen, Nat.add_sub_cancel]
              _ = lineOf (c :: s) := List.take_left
          rw [htake]
          refine hrec.line ht (List.cons_ne_nil c s) ?_ ?_
          · rw [lines, codesOf, if_neg hoption, if_pos hv, List.mem_cons]
            exact ⟨fun h => h.resolve_left fun h => he h.symm, .inr⟩
          · rw [lines, eraseCode, if_neg hoption, if_neg he]
      · rename_i hv
        rw [Uses, ht, lines, codesOf, if_neg hoption, if_neg hv]
        exact List.not_mem_nil

/-! ## What the operations keep -/

/-- The options are the same. -/
def SameOptions (buf buf' : List UInt8) : Prop :=
  ∀ key, IsWord key → getCfgValue key buf' = getCfgValue key buf

theorem Plain.ne_nil {buf : List UInt8} (h : Plain buf) : buf ≠ [] := fun h0 => by
  have := h.ended
  rw [h0] at this
  exact this rfl

theorem Plain.lines_eq {buf : List UInt8} (h : Plain buf) :
    lines buf = lineOf buf :: lines (nextLine buf) := lines_of_ne_nil h.ne_nil

theorem Plain.writable {buf : List UInt8} (h : Plain buf) (key : List UInt8) : Writable key buf :=
  .inr (.inl h.ended)

/-- **`check_scratch_codes`:** a code is accepted if it is a scratch code, and is then taken out of
the file once. -/
theorem checkScratchCodes_spec {s : State} (h : Plain s.buf) (code : Int) :
    (code ∉ scratchCodes s.buf ∧ checkScratchCodes s code = (.next, s)) ∨
    (code ∈ scratchCodes s.buf ∧ ∃ buf,
      checkScratchCodes s code = (.accepted (.scratch code), ⟨buf, true⟩) ∧ Plain buf ∧
      SameOptions s.buf buf ∧ scratchCodes buf = (scratchCodes s.buf).erase code) := by
  obtain ⟨h1, h2⟩ := dropWhile_ne_newline h.noReturn
  have hsuffix : lineEnd s.buf <:+ s.buf := List.dropWhile_suffix _
  have huse : Uses code (lineEnd s.buf) (useScratchCode code (lineEnd s.buf)) :=
    useScratchCode_spec code (fun c hc => h.noReturn c (hsuffix.subset hc))
      (fun l hl => h.solid l (by rw [h.lines_eq]; exact List.mem_cons_of_mem _ hl))
  have hcodes : scratchCodes s.buf = codesOf (lines (nextLine s.buf)) := by
    rw [scratchCodes, h.lines_eq, List.tail_cons]
  rw [checkScratchCodes, h1, h2]
  cases hr : useScratchCode code (lineEnd s.buf) with
  | none =>
    rw [hr] at huse
    exact .inl ⟨hcodes ▸ huse, rfl⟩
  | some rest =>
    rw [hr] at huse
    obtain ⟨hmem, kept, rfl, hbegun, hsub, hlines⟩ := huse
    have hlines' : lines (lineOf s.buf ++ ((lineEnd s.buf).takeWhile isEol ++ kept)) =
        lineOf s.buf :: eraseCode code (lines (nextLine s.buf)) := by
      rw [← List.append_assoc, ← skipLine_eq, lines_skipLine_append h.ne_nil h.ended hbegun, hlines]
      rfl
    have hsub' : ∀ c ∈ lineOf s.buf ++ ((lineEnd s.buf).takeWhile isEol ++ kept), c ∈ s.buf := by
      intro c hc
      rw [← List.append_assoc, ← skipLine_eq] at hc
      rcases List.mem_append.1 hc with hc | hc
      · exact List.mem_of_mem_take hc
      · exact hsuffix.subset (hsub c hc)
    refine .inr ⟨hcodes ▸ hmem, _, rfl, ⟨fun c hc => h.noReturn c (hsub' c hc), ?_, ?_, ?_⟩,
      fun key hk => ?_, ?_⟩
    · obtain ⟨c, e, he⟩ := List.exists_cons_of_ne_nil h.ended
      have hc : isEol c = true := by
        have := List.head?_dropWhile_not (fun c => !isEol c) s.buf
        rw [← lineEnd, he] at this
        simpa using this
      refine lineEnd_ne_nil_iff.2 ⟨c, ?_, hc⟩
      rw [he, List.takeWhile_cons_of_pos hc]
      simp
    · rw [hlines']
      exact fun l hl => h.first l (by rw [h.lines_eq]; exact hl)
    · rw [hlines']
      intro l hl
      refine h.solid l ?_
      rw [h.lines_eq]
      exact ((eraseCode_sublist code _).cons_cons _).subset hl
    · rw [getCfgValue_eq hk.oneLine, getCfgValue_eq hk.oneLine, hlines', h.lines_eq,
        List.findSome?_cons, List.findSome?_cons, findSome?_eraseCode]
    · rw [hcodes, scratchCodes, hlines', List.tail_cons]
      exact codesOf_eraseCode hmem

theorem deleteKeyLines_subset (key : List UInt8) (text : List UInt8) :
    ∀ c ∈ deleteKeyLines key text, c ∈ text := by
  induction text using deleteKeyLines.induct key with
  | case1 => rw [deleteKeyLines]; exact fun _ hc => hc
  | case2 c s hk ih =>
    rw [deleteKeyLines, if_pos hk]
    exact fun d hd => (nextLine_suffix _).subset (ih d hd)
  | case3 c s hk ih =>
    rw [deleteKeyLines, if_neg hk]
    intro d hd
    rcases List.mem_append.1 hd with hd | hd
    · exact List.mem_of_mem_take hd
    · exact (nextLine_suffix _).subset (ih d hd)

theorem setCfgValue_subset {key val buf : List UInt8} (hk : OneLine key) :
    ∀ c ∈ setCfgValue key val buf, c ∈ buf ∨ c ∈ optionLine key val := by
  intro c hc
  rw [setCfgValue] at hc
  split at hc
  · rename_i before line hf
    have htext := (findKeyLine_some hk hf).1
    rcases List.mem_append.1 hc with hc | hc
    · rcases List.mem_append.1 hc with hc | hc
      · exact .inl (by rw [htext]; exact List.mem_append_left _ hc)
      · exact .inr hc
    · refine .inl ?_
      rw [htext]
      exact List.mem_append_right _ ((nextLine_suffix _).subset (deleteKeyLines_subset _ _ c hc))
  · rcases List.mem_append.1 hc with hc | hc
    · rcases List.mem_append.1 hc with hc | hc
      · exact .inl (List.mem_of_mem_take hc)
      · exact .inr hc
    · exact .inl ((nextLine_suffix _).subset (deleteKeyLines_subset _ _ c hc))

theorem mem_setOption {key val l : List UInt8} {ls : List (List UInt8)}
    (h : l ∈ setOption key val ls) : l ∈ ls ∨ l = optionText key val := by
  rw [setOption] at h
  split at h
  · rcases List.mem_append.1 h with h | h
    · exact .inl ((List.takeWhile_sublist _).subset h)
    · rcases List.mem_cons.1 h with h | h
      · exact .inr h
      · exact .inl ((List.dropWhile_sublist _).subset (List.mem_of_mem_filter h))
  · rcases List.mem_append.1 h with h | h
    · exact .inl (List.mem_of_mem_take h)
    · rcases List.mem_cons.1 h with h | h
      · exact .inr h
      · exact .inl (List.mem_of_mem_drop h)

/-- The lines that are no options stay. -/
theorem filter_setOption {key val : List UInt8} {ls : List (List UInt8)} :
    ((setOption key val ls).filter fun l => l.head? ≠ some 34) =
      ls.filter fun l => l.head? ≠ some 34 := by
  have hkeep : ∀ ls : List (List UInt8), ((ls.filter fun l => !isKeyLine key l).filter
      fun l => l.head? ≠ some 34) = ls.filter fun l => l.head? ≠ some 34 := fun ls => by
    rw [List.filter_filter]
    refine List.filter_congr fun l _ => ?_
    cases hl : isKeyLine key l with
    | false => simp
    | true =>
      obtain ⟨t, rfl, -⟩ := isKeyLine_iff.1 hl
      rfl
  rw [setOption]
  split
  · rw [List.filter_append, List.filter_cons_of_neg (by simp [optionText]), hkeep,
      ← List.filter_append, List.takeWhile_append_dropWhile]
  · rw [List.filter_append, List.filter_cons_of_neg (by simp [optionText]), ← List.filter_append,
      List.take_append_drop]

/-- **`set_cfg_value`** on an account: the option is set, the others and the scratch codes stay. -/
theorem Plain.set {key val buf : List UInt8} (h : Plain buf) (hk : IsWord key)
    (hv : OneLine val) : Plain (setCfgValue key val buf) ∧
      scratchCodes (setCfgValue key val buf) = scratchCodes buf ∧
      ∀ key', IsWord key' → getCfgValue key' (setCfgValue key val buf) =
        if key' = key then some (val.dropWhile isBlank) else getCfgValue key' buf := by
  have hlines := lines_setCfgValue hk.oneLine hv (h.writable key)
  have hfirst : (lineOf buf).head? ≠ some 34 := h.first _ (by rw [h.lines_eq]; rfl)
  have hkey : isKeyLine key (lineOf buf) = false := Bool.eq_false_iff.2 fun hl => by
    obtain ⟨t, ht, -⟩ := isKeyLine_iff.1 hl
    rw [ht] at hfirst
    exact hfirst rfl
  have hhead : (lines (setCfgValue key val buf)).head? = some (lineOf buf) := by
    rw [hlines, h.lines_eq]
    exact head?_setOption val _ hkey
  refine ⟨⟨fun c hc => ?_, lineEnd_ne_nil_iff.2 ⟨10, mem_setCfgValue key val buf, rfl⟩, ?_, ?_⟩, ?_,
    fun key' hk' => getCfgValue_setCfgValue hk hk' hv (h.writable key)⟩
  · rcases setCfgValue_subset hk.oneLine c hc with hc | hc
    · exact h.noReturn c hc
    · rintro rfl
      have hopt := ((oneLine_head hk.oneLine).append (t := [32]) (by decide)).append hv
      rcases List.mem_append.1 hc with hc | hc
      · have := hopt 13 hc
        cases this
      · simp at hc
  · rw [hhead]
    rintro l ⟨⟩
    exact hfirst
  · rw [hlines]
    intro l hl
    rcases mem_setOption hl with hl | rfl
    · exact h.solid l hl
    · exact ⟨34, by simp [optionText], rfl⟩
  · have htail : ∀ ls : List (List UInt8), ls.head? = some (lineOf buf) →
        codesOf (ls.tail) = codesOf ((ls.filter fun l => l.head? ≠ some 34).tail) := by
      intro ls hls
      obtain ⟨ls, rfl⟩ : ∃ ls', ls = lineOf buf :: ls' := by
        cases ls with
        | nil => cases hls
        | cons l ls => cases hls; exact ⟨ls, rfl⟩
      rw [List.filter_cons_of_pos (by simpa using hfirst), List.tail_cons, List.tail_cons,
        codesOf_filter]
    rw [scratchCodes, scratchCodes, htail _ hhead, htail (lines buf) (by rw [h.lines_eq]; rfl),
      hlines, filter_setOption]

end Libpam
