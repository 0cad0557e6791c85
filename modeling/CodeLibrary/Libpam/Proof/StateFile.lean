import CodeLibrary.Lib.Scanf
import CodeLibrary.Libpam.StateFile
import Mathlib.Data.List.TakeWhile
import Mathlib.Logic.Function.Basic

/-!
# The state file line by line

* `lines`: the lines the loops over the buffer stop at. The operations on the buffer are operations
  on this list: `getCfgValue_eq` and `lines_setCfgValue`.
* `getCfgValue_setCfgValue`: an option that is written is read back, and the other options and the
  first line stay. A buffer whose only line has no line end must have the option already, else it
  comes right behind that line's last byte (`Writable`).
-/

set_option autoImplicit false

namespace Libpam

/-- The lines of the buffer, without their line ends. -/
def lines : List UInt8 → List (List UInt8)
  | [] => []
  | c :: s => lineOf (c :: s) :: lines (nextLine (c :: s))
termination_by line => line.length
decreasing_by exact length_nextLine_lt c s

theorem lines_of_ne_nil {line : List UInt8} (h : line ≠ []) :
    lines line = lineOf line :: lines (nextLine line) := by
  obtain ⟨c, s, rfl⟩ := List.exists_cons_of_ne_nil h
  rw [lines]

/-- No line end in the text. -/
def OneLine (text : List UInt8) : Prop := ∀ c ∈ text, isEol c = false

/-- The name of an option: one word. -/
def IsWord (key : List UInt8) : Prop := ∀ c ∈ key, isEol c = false ∧ isBlank c = false

instance (text : List UInt8) : Decidable (OneLine text) :=
  decidable_of_iff (text.all fun c => !isEol c) (by simp [OneLine])

instance (key : List UInt8) : Decidable (IsWord key) :=
  decidable_of_iff (key.all fun c => !isEol c && !isBlank c) (by simp [IsWord])

/-- Nothing, or a last byte that ends a line. -/
def Ended (text : List UInt8) : Prop := ∀ c ∈ text.getLast?, isEol c = true

/-- Nothing, or a first byte that ends no line. -/
def Begun (text : List UInt8) : Prop := ∀ c ∈ text.head?, isEol c = false

theorem IsWord.oneLine {key : List UInt8} (h : IsWord key) : OneLine key := fun c hc => (h c hc).1

theorem OneLine.append {s t : List UInt8} (hs : OneLine s) (ht : OneLine t) : OneLine (s ++ t) :=
  fun c hc => (List.mem_append.1 hc).elim (hs c) (ht c)

theorem oneLine_lineOf (text : List UInt8) : OneLine (lineOf text) := fun c hc => by
  have := List.mem_takeWhile_imp hc
  simpa using this

theorem lineOf_append_of_oneLine {s : List UInt8} (hs : OneLine s) (t : List UInt8) :
    lineOf (s ++ t) = s ++ lineOf t :=
  List.takeWhile_append_of_pos fun c hc => by simp [hs c hc]

/-! ## A line and the next one -/

theorem lineOf_append_lineEnd (line : List UInt8) : lineOf line ++ lineEnd line = line :=
  List.takeWhile_append_dropWhile

theorem nextLine_suffix (line : List UInt8) : nextLine line <:+ line :=
  (List.dropWhile_suffix _).trans (List.dropWhile_suffix _)

theorem skipLine_append_nextLine (line : List UInt8) : skipLine line ++ nextLine line = line := by
  have hs := List.suffix_iff_eq_drop.1 (nextLine_suffix line)
  calc skipLine line ++ nextLine line
      = skipLine line ++ line.drop (line.length - (nextLine line).length) := by rw [← hs]
    _ = line := List.take_append_drop _ line

theorem begun_nextLine (line : List UInt8) : Begun (nextLine line) := fun c hc => by
  have := List.head?_dropWhile_not isEol (lineEnd line)
  rw [nextLine] at hc
  rw [Option.mem_def.1 hc] at this
  simpa using this

/-- The line ends behind a line. -/
theorem skipLine_eq (line : List UInt8) :
    skipLine line = lineOf line ++ (lineEnd line).takeWhile isEol := by
  have h : lineOf line ++ (lineEnd line).takeWhile isEol ++ nextLine line = line := by
    rw [List.append_assoc, nextLine, List.takeWhile_append_dropWhile, lineOf_append_lineEnd]
  exact List.append_cancel_right ((skipLine_append_nextLine line).trans h.symm)

/-- Where the line has a line end, the next line starts behind one. -/
theorem ended_skipLine {line : List UInt8} (h : lineEnd line ≠ []) : Ended (skipLine line) := by
  intro c hc
  obtain ⟨e, t, he⟩ := List.exists_cons_of_ne_nil h
  have heol : isEol e = true := by
    have := List.head?_dropWhile_not (fun c => !isEol c) line
    rw [← lineEnd, he] at this
    simpa using this
  rw [skipLine_eq, he, List.takeWhile_cons_of_pos heol, List.getLast?_append,
    List.getLast?_cons, Option.some_or, ← List.getLast?_cons] at hc
  have hmem := List.mem_of_getLast? hc
  rw [← List.takeWhile_cons_of_pos heol] at hmem
  exact List.mem_takeWhile_imp hmem

theorem lineEnd_append {a : List UInt8} (h : lineEnd a ≠ []) (b : List UInt8) :
    lineEnd (a ++ b) = lineEnd a ++ b := by
  rw [lineEnd, List.dropWhile_append, if_neg (by simpa [lineEnd] using h), lineEnd]

theorem lineOf_append {a : List UInt8} (h : lineEnd a ≠ []) (b : List UInt8) :
    lineOf (a ++ b) = lineOf a := by
  have h2 := lineOf_append_lineEnd (a ++ b)
  rw [lineEnd_append h, ← List.append_assoc] at h2
  have h3 := List.append_cancel_right h2
  exact List.append_cancel_right (h3.trans (lineOf_append_lineEnd a).symm)

theorem Ended.lineEnd_ne_nil {a : List UInt8} (h : Ended a) (ha : a ≠ []) : lineEnd a ≠ [] := by
  intro h0
  rw [lineEnd, List.dropWhile_eq_nil_iff] at h0
  have := h0 _ (List.getLast_mem ha)
  rw [h _ (List.getLast?_eq_some_getLast ha)] at this
  cases this

theorem nextLine_append {a b : List UInt8} (h : lineEnd a ≠ []) (hb : Begun b) :
    nextLine (a ++ b) = nextLine a ++ b := by
  rw [nextLine, lineEnd_append h, List.dropWhile_append]
  split
  · rename_i h0
    rw [nextLine, List.isEmpty_iff.1 h0]
    cases b with
    | nil => rfl
    | cons c b => rw [List.dropWhile_cons_of_neg (by simp [hb c rfl]), List.nil_append]
  · rfl

theorem Ended.of_suffix {a b : List UInt8} (h : Ended a) (hs : b <:+ a) : Ended b := by
  intro c hc
  obtain ⟨t, rfl⟩ := hs
  refine h c ?_
  rw [List.getLast?_append, Option.mem_def.1 hc]
  rfl

/-- The lines of two texts, one behind the other, are those of both if a line ends between them. -/
theorem lines_append {a b : List UInt8} (ha : Ended a) (hb : Begun b) :
    lines (a ++ b) = lines a ++ lines b := by
  induction a using lines.induct with
  | case1 => simp [lines]
  | case2 c s ih =>
    have hne := ha.lineEnd_ne_nil (List.cons_ne_nil c s)
    rw [List.cons_append, lines, lines, ← List.cons_append, lineOf_append hne,
      nextLine_append hne hb, ih (ha.of_suffix (nextLine_suffix _)), List.cons_append]

theorem lines_skipLine_append {line b : List UInt8} (hline : line ≠ []) (h : lineEnd line ≠ [])
    (hb : Begun b) : lines (skipLine line ++ b) = lineOf line :: lines b := by
  rw [lines_append (ended_skipLine h) hb]
  have hl := lines_append (ended_skipLine h) (begun_nextLine line)
  rw [skipLine_append_nextLine] at hl
  cases line with
  | nil => exact absurd rfl hline
  | cons c s =>
    rw [lines] at hl
    have : lines (skipLine (c :: s)) = [lineOf (c :: s)] :=
      List.append_cancel_right (hl.symm.trans (List.singleton_append ..).symm)
    rw [this, List.singleton_append]

/-! ## The lines with an option -/

/-- What may stand behind the name of an option. -/
def EndsKey (text : List UInt8) : Prop := ∀ c ∈ text.head?, isBlank c = true ∨ isEol c = true

theorem behindKey_append (key t : List UInt8) : behindKey key ([34, 32] ++ key ++ t) = t := by
  rw [behindKey, List.drop_append_of_le_length (by simp; omega),
    List.drop_of_length_le (by simp; omega), List.nil_append]

theorem isKeyLine_iff {key line : List UInt8} :
    isKeyLine key line = true ↔ ∃ t, line = [34, 32] ++ key ++ t ∧ EndsKey t := by
  constructor
  · intro h
    rw [isKeyLine, Bool.and_eq_true, List.isPrefixOf_iff_prefix] at h
    obtain ⟨⟨t, rfl⟩, ht⟩ := h
    rw [behindKey_append] at ht
    refine ⟨t, rfl, fun c hc => ?_⟩
    cases t with
    | nil => cases hc
    | cons d t =>
      cases hc
      simpa using ht
  · rintro ⟨t, rfl, ht⟩
    rw [isKeyLine, Bool.and_eq_true, List.isPrefixOf_iff_prefix,
      behindKey_append]
    refine ⟨⟨t, rfl⟩, ?_⟩
    cases t with
    | nil => rfl
    | cons c t => simpa using ht c rfl

theorem oneLine_head {key : List UInt8} (hk : OneLine key) : OneLine ([34, 32] ++ key) :=
  .append (by decide) hk

/-- The test for an option looks at one line. -/
theorem isKeyLine_lineOf {key : List UInt8} (hk : OneLine key) (line : List UInt8) :
    isKeyLine key (lineOf line) = isKeyLine key line := by
  rw [Bool.eq_iff_iff, isKeyLine_iff, isKeyLine_iff]
  constructor
  · rintro ⟨t, ht, hend⟩
    refine ⟨t ++ lineEnd line, by rw [← List.append_assoc, ← ht, lineOf_append_lineEnd], ?_⟩
    intro c hc
    cases t with
    | cons d t => exact hend c hc
    | nil =>
      have := List.head?_dropWhile_not (fun c => !isEol c) line
      rw [← lineEnd, ← List.nil_append (lineEnd line), Option.mem_def.1 hc] at this
      exact .inr (by simpa using this)
  · rintro ⟨t, rfl, hend⟩
    refine ⟨lineOf t, lineOf_append_of_oneLine (oneLine_head hk) t, fun c hc => ?_⟩
    cases t with
    | nil => cases hc
    | cons d t =>
      rw [lineOf, List.takeWhile_cons] at hc
      cases he : isEol d with
      | true => simp [he] at hc
      | false =>
        simp only [he, Bool.not_false, if_true, List.head?_cons, Option.mem_def,
          Option.some.injEq] at hc
        exact hc ▸ hend d rfl

/-- The value of the option `key` in a line with it. -/
def optionOf (key line : List UInt8) : Option (List UInt8) :=
  if isKeyLine key line then some ((behindKey key line).dropWhile isBlank) else none

theorem isBlank_of_isEol {c : UInt8} (h : isEol c = true) : isBlank c = false := by
  simp only [isEol, Bool.or_eq_true, beq_iff_eq] at h
  rcases h with rfl | rfl <;> rfl

/-- Blanks end at the end of the line. -/
theorem lineOf_dropWhile_isBlank : ∀ t : List UInt8,
    lineOf (t.dropWhile isBlank) = (lineOf t).dropWhile isBlank
  | [] => rfl
  | c :: t => by
    rw [lineOf, lineOf, List.takeWhile_cons, List.dropWhile_cons]
    cases he : isEol c with
    | true => simp [isBlank_of_isEol he, he]
    | false =>
      cases hb : isBlank c with
      | true =>
        have := lineOf_dropWhile_isBlank t
        rw [lineOf, lineOf] at this
        simpa [hb] using this
      | false => simp [hb, he]

/-- **`get_cfg_value`** gives the value of the first line with the option. -/
theorem getCfgValue_eq {key : List UInt8} (hk : OneLine key) (buf : List UInt8) :
    getCfgValue key buf = (lines buf).findSome? (optionOf key) := by
  induction buf using getCfgValue.induct key with
  | case1 => rw [getCfgValue, lines, List.findSome?_nil]
  | case2 c s h =>
    rw [getCfgValue, lines, if_pos h, List.findSome?_cons, optionOf, isKeyLine_lineOf hk, if_pos h]
    obtain ⟨t, ht, -⟩ := isKeyLine_iff.1 h
    rw [ht, lineOf_append_of_oneLine (oneLine_head hk), behindKey_append, behindKey_append,
      lineOf_dropWhile_isBlank]
  | case3 c s h ih =>
    rw [getCfgValue, lines, if_neg h, List.findSome?_cons, optionOf, isKeyLine_lineOf hk,
      if_neg h, ih]

/-! ## An option is set -/

theorem nextLine_eq_nil {line : List UInt8} (h : lineEnd line = []) : nextLine line = [] := by
  rw [nextLine, h, List.dropWhile_nil]

/-- Where a line starts with no line end, so do the bytes to the next line. -/
theorem begun_skipLine_append {line : List UInt8} (hne : line ≠ []) (h : Begun line)
    (b : List UInt8) : Begun (skipLine line ++ b) := by
  obtain ⟨c, t, rfl⟩ := List.exists_cons_of_ne_nil hne
  have hlt := length_nextLine_lt c t
  obtain ⟨n, hn⟩ : ∃ n, (c :: t).length - (nextLine (c :: t)).length = n + 1 :=
    ⟨(c :: t).length - (nextLine (c :: t)).length - 1, by omega⟩
  rw [skipLine, hn]
  exact h

theorem begun_deleteKeyLines (key : List UInt8) : ∀ {text : List UInt8}, Begun text →
    Begun (deleteKeyLines key text) := by
  intro text h
  induction text using deleteKeyLines.induct key with
  | case1 => rw [deleteKeyLines]; exact h
  | case2 c s hk ih => rw [deleteKeyLines, if_pos hk]; exact ih (begun_nextLine _)
  | case3 c s hk ih =>
    rw [deleteKeyLines, if_neg hk]
    exact begun_skipLine_append (List.cons_ne_nil c s) h _

/-- The lines that stay. -/
theorem lines_deleteKeyLines {key : List UInt8} (hk : OneLine key) (text : List UInt8) :
    lines (deleteKeyLines key text) = (lines text).filter fun l => !isKeyLine key l := by
  induction text using deleteKeyLines.induct key with
  | case1 => rw [deleteKeyLines, lines, List.filter_nil]
  | case2 c s h ih =>
    rw [deleteKeyLines, if_pos h, ih, lines, List.filter_cons, isKeyLine_lineOf hk, h]
    rfl
  | case3 c s h ih =>
    rw [deleteKeyLines, if_neg h, lines, List.filter_cons, isKeyLine_lineOf hk,
      if_pos (by simpa using h), ← ih]
    by_cases hend : lineEnd (c :: s) = []
    · have hs := skipLine_append_nextLine (c :: s)
      rw [nextLine_eq_nil hend, List.append_nil] at hs
      rw [nextLine_eq_nil hend, deleteKeyLines, List.append_nil, hs,
        lines_of_ne_nil (List.cons_ne_nil c s), nextLine_eq_nil hend]
    · exact lines_skipLine_append (List.cons_ne_nil c s) hend
        (begun_deleteKeyLines key (begun_nextLine _))

/-- The first line with an option, and what comes before it. -/
theorem findKeyLine_some {key : List UInt8} (hk : OneLine key) {text before line : List UInt8}
    (h : findKeyLine key text = some (before, line)) :
    text = before ++ line ∧ isKeyLine key line = true ∧ Ended before ∧
      (before = [] ∨ lineEnd text ≠ []) ∧
      ∀ b, Begun b → lines (before ++ b) =
        ((lines text).takeWhile fun l => !isKeyLine key l) ++ lines b := by
  induction text using findKeyLine.induct key generalizing before line with
  | case1 => rw [findKeyLine] at h; cases h
  | case2 c s hkey =>
    rw [findKeyLine, if_pos hkey] at h
    cases h
    refine ⟨rfl, hkey, nofun, .inl rfl, fun b _ => ?_⟩
    rw [lines, List.takeWhile_cons, isKeyLine_lineOf hk, hkey]
    rfl
  | case3 c s hkey ih =>
    rw [findKeyLine, if_neg hkey] at h
    cases hf : findKeyLine key (nextLine (c :: s)) with
    | none => rw [hf] at h; cases h
    | some p =>
      obtain ⟨before', line'⟩ := p
      rw [hf] at h
      cases h
      obtain ⟨htext, hline, hended, hfirst, hlines⟩ := ih hf
      have hend : lineEnd (c :: s) ≠ [] := fun h0 => by
        rw [nextLine_eq_nil h0, findKeyLine] at hf
        cases hf
      have hbegun : ∀ b, Begun b → Begun (before' ++ b) := fun b hb => by
        cases before' with
        | nil => exact hb
        | cons d t =>
          have := begun_nextLine (c :: s)
          rw [htext] at this
          exact this
      refine ⟨?_, hline, ?_, .inr hend, fun b hb => ?_⟩
      · rw [List.append_assoc, ← htext, skipLine_append_nextLine]
      · intro e he
        rw [List.getLast?_append] at he
        cases hl : before'.getLast? with
        | none => rw [hl, Option.none_or] at he; exact ended_skipLine hend e he
        | some d => rw [hl, Option.some_or] at he; exact hended e (hl.trans he)
      · rw [List.append_assoc, lines_skipLine_append (List.cons_ne_nil c s) hend (hbegun b hb),
          hlines b hb, lines, List.takeWhile_cons, isKeyLine_lineOf hk,
          if_pos (by simpa using hkey), List.cons_append]

theorem findKeyLine_none {key : List UInt8} (hk : OneLine key) {text : List UInt8}
    (h : findKeyLine key text = none) : ∀ l ∈ lines text, isKeyLine key l = false := by
  induction text using findKeyLine.induct key with
  | case1 => simp [lines]
  | case2 c s hkey => rw [findKeyLine, if_pos hkey] at h; cases h
  | case3 c s hkey ih =>
    rw [findKeyLine, if_neg hkey, Option.map_eq_none_iff] at h
    rw [lines]
    intro l hl
    rcases List.mem_cons.1 hl with rfl | hl
    · rw [isKeyLine_lineOf hk]
      simpa using hkey
    · exact ih h l hl

/-- The line that is written, without its line end. -/
def optionText (key val : List UInt8) : List UInt8 := [34, 32] ++ key ++ [32] ++ val

/-- `set_cfg_value` on the lines: the first line with the option is replaced and the others with it
are deleted, or the option comes behind the first line. -/
def setOption (key val : List UInt8) (ls : List (List UInt8)) : List (List UInt8) :=
  if ls.any (isKeyLine key) then
    (ls.takeWhile fun l => !isKeyLine key l) ++ optionText key val ::
      (ls.dropWhile fun l => !isKeyLine key l).filter fun l => !isKeyLine key l
  else ls.take 1 ++ optionText key val :: ls.drop 1

/-- The buffer takes an option: it is empty, has a line end or has the option already. -/
def Writable (key buf : List UInt8) : Prop :=
  buf = [] ∨ lineEnd buf ≠ [] ∨ ∃ l ∈ lines buf, isKeyLine key l = true

theorem oneLine_optionText {key val : List UInt8} (hk : OneLine key) (hv : OneLine val) :
    OneLine (optionText key val) :=
  ((oneLine_head hk).append (by decide)).append hv

theorem lines_optionLine_append {key val b : List UInt8} (hk : OneLine key) (hv : OneLine val)
    (hb : Begun b) : lines (optionLine key val ++ b) = optionText key val :: lines b := by
  have hline := oneLine_optionText hk hv
  have hof : lineOf (optionLine key val ++ b) = optionText key val := by
    rw [show optionLine key val ++ b = optionText key val ++ 10 :: b by
        simp [optionLine, optionText],
      lineOf_append_of_oneLine hline, lineOf, List.takeWhile_cons_of_neg (by decide),
      List.append_nil]
  have hend : lineEnd (optionLine key val ++ b) = 10 :: b := by
    have h := lineOf_append_lineEnd (optionLine key val ++ b)
    rw [hof] at h
    exact List.append_cancel_left (h.trans (by simp [optionLine, optionText]))
  have hnext : nextLine (optionLine key val ++ b) = b := by
    rw [nextLine, hend, List.dropWhile_cons_of_pos (by decide)]
    cases b with
    | nil => rfl
    | cons c b => rw [List.dropWhile_cons_of_neg (by simp [hb c rfl])]
  calc lines (optionLine key val ++ b)
      = lineOf (optionLine key val ++ b) :: lines (nextLine (optionLine key val ++ b)) :=
        lines_of_ne_nil (by simp [optionLine])
    _ = optionText key val :: lines b := by rw [hof, hnext]

/-- **`set_cfg_value`** on the lines of the buffer. -/
theorem lines_setCfgValue {key val buf : List UInt8} (hk : OneLine key) (hv : OneLine val)
    (hbuf : Writable key buf) :
    lines (setCfgValue key val buf) = setOption key val (lines buf) := by
  have hbegun : ∀ line, Begun (deleteKeyLines key (nextLine line)) := fun line =>
    begun_deleteKeyLines key (begun_nextLine line)
  have hbegun' : ∀ b, Begun (optionLine key val ++ b) := fun b c hc => by
    cases hc
    rfl
  rw [setCfgValue, setOption]
  cases hf : findKeyLine key buf with
  | some p =>
    obtain ⟨before, line⟩ := p
    obtain ⟨htext, hline, -, -, hlines⟩ := findKeyLine_some hk hf
    dsimp only
    have hbuf' : lines buf = ((lines buf).takeWhile fun l => !isKeyLine key l) ++ lines line := by
      have hb : Begun line := fun c hc => by
        obtain ⟨t, rfl, -⟩ := isKeyLine_iff.1 hline
        cases hc
        rfl
      have := hlines line hb
      rwa [← htext] at this
    have hdrop : ((lines buf).dropWhile fun l => !isKeyLine key l) = lines line := by
      have h := List.takeWhile_append_dropWhile (l := lines buf) (p := fun l => !isKeyLine key l)
      exact List.append_cancel_left (h.trans hbuf')
    obtain ⟨c, s, rfl⟩ : ∃ c s, line = c :: s := by
      obtain ⟨t, rfl, -⟩ := isKeyLine_iff.1 hline
      exact ⟨34, _, rfl⟩
    have hany : (lines buf).any (isKeyLine key) = true := by
      rw [hbuf', lines, List.any_append, List.any_cons, isKeyLine_lineOf hk, hline, Bool.true_or,
        Bool.or_true]
    rw [if_pos hany, List.append_assoc, hlines _ (hbegun' _),
      lines_optionLine_append hk hv (hbegun _), lines_deleteKeyLines hk, hdrop, lines,
      List.filter_cons, isKeyLine_lineOf hk, hline]
    rfl
  | none =>
    have hnone := findKeyLine_none hk hf
    have hany : (lines buf).any (isKeyLine key) = false := by
      rw [List.any_eq_false]
      intro l hl
      rw [hnone l hl]
      decide
    have hkeep : ∀ line, (∀ l ∈ lines line, l ∈ lines buf) →
        lines (deleteKeyLines key line) = lines line := fun line hl => by
      rw [lines_deleteKeyLines hk, List.filter_eq_self]
      intro l h
      rw [hnone l (hl l h)]
      rfl
    dsimp only
    rw [if_neg (by simp [hany]), List.append_assoc]
    cases buf with
    | nil =>
      have h0 : skipLine [] = [] := rfl
      rw [h0, List.nil_append, lines_optionLine_append hk hv (hbegun _),
        hkeep _ (by simp [nextLine, lineEnd])]
      simp [nextLine, lineEnd, lines]
    | cons c s =>
      have hend : lineEnd (c :: s) ≠ [] := by
        rcases hbuf with h | h | ⟨l, hl, hkey⟩
        · cases h
        · exact h
        · rw [hnone l hl] at hkey; cases hkey
      rw [lines_skipLine_append (List.cons_ne_nil c s) hend (hbegun' _),
        lines_optionLine_append hk hv (hbegun _), hkeep _ fun l hl => by
          rw [lines]; exact List.mem_cons_of_mem _ hl]
      rw [lines_of_ne_nil (List.cons_ne_nil c s)]
      rfl

/-! ## What is read back -/

/-- A line has one option. -/
theorem isKeyLine_unique {key key' l : List UInt8} (hk : IsWord key) (hk' : IsWord key')
    (h : isKeyLine key l = true) (h' : isKeyLine key' l = true) : key = key' := by
  obtain ⟨t, rfl, ht⟩ := isKeyLine_iff.1 h
  obtain ⟨t', htext, ht'⟩ := isKeyLine_iff.1 h'
  rw [List.append_assoc, List.append_assoc] at htext
  have htext := List.append_cancel_left htext
  have hword : ∀ {key t : List UInt8}, IsWord key → EndsKey t →
      (key ++ t).takeWhile (fun c => !isBlank c && !isEol c) = key := fun hkey hend =>
    (Scanf.span_append (fun c hc => by simp [hkey c hc]) fun c hc => by
      rcases hend c hc with h | h <;> simp [h]).2
  rw [← hword hk ht, htext, hword hk' ht']

theorem isKeyLine_optionText (key val : List UInt8) : isKeyLine key (optionText key val) = true :=
  isKeyLine_iff.2 ⟨[32] ++ val, by simp [optionText], fun c hc => by cases hc; exact .inl rfl⟩

theorem optionOf_optionText (key val : List UInt8) :
    optionOf key (optionText key val) = some (val.dropWhile isBlank) := by
  rw [optionOf, if_pos (isKeyLine_optionText key val), optionText, List.append_assoc,
    behindKey_append]
  rfl

theorem optionOf_eq_none {key l : List UInt8} :
    optionOf key l = none ↔ isKeyLine key l = false := by
  rw [optionOf]
  cases isKeyLine key l <;> simp

theorem findSome?_optionOf_filter {key key' : List UInt8} (hk : IsWord key) (hk' : IsWord key')
    (hne : key' ≠ key) : ∀ ls : List (List UInt8),
    (ls.filter fun l => !isKeyLine key l).findSome? (optionOf key') = ls.findSome? (optionOf key')
  | [] => rfl
  | l :: ls => by
    rw [List.filter_cons, List.findSome?_cons]
    cases hl : isKeyLine key l with
    | false =>
      rw [if_pos (by decide), List.findSome?_cons, findSome?_optionOf_filter hk hk' hne ls]
    | true =>
      have : optionOf key' l = none := optionOf_eq_none.2 (Bool.eq_false_iff.2 fun h =>
        hne (isKeyLine_unique hk' hk h hl))
      rw [if_neg (by decide), findSome?_optionOf_filter hk hk' hne ls, this]

/-- The options of the lines after one is set. -/
theorem findSome?_setOption {key key' val : List UInt8} (hk : IsWord key) (hk' : IsWord key')
    (ls : List (List UInt8)) : (setOption key val ls).findSome? (optionOf key') =
      if key' = key then some (val.dropWhile isBlank) else ls.findSome? (optionOf key') := by
  have hnone : ∀ l, isKeyLine key l = false → key' = key → optionOf key' l = none :=
    fun l hl h => optionOf_eq_none.2 (h ▸ hl)
  have hother : key' ≠ key → optionOf key' (optionText key val) = none := fun hne =>
    optionOf_eq_none.2 (Bool.eq_false_iff.2 fun h =>
      hne (isKeyLine_unique hk' hk h (isKeyLine_optionText key val)))
  rw [setOption]
  split
  · rw [List.findSome?_append, List.findSome?_cons]
    by_cases he : key' = key
    · have htake : (ls.takeWhile fun l => !isKeyLine key l).findSome? (optionOf key') = none :=
        List.findSome?_eq_none_iff.2 fun l hl =>
          hnone l (by simpa using List.mem_takeWhile_imp hl) he
      rw [htake, if_pos he, Option.none_or, he, optionOf_optionText]
    · rw [hother he, findSome?_optionOf_filter hk hk' he, if_neg he, ← List.findSome?_append,
        List.takeWhile_append_dropWhile]
  · rename_i hany
    rw [List.findSome?_append, List.findSome?_cons]
    by_cases he : key' = key
    · have htake : (ls.take 1).findSome? (optionOf key') = none :=
        List.findSome?_eq_none_iff.2 fun l hl => hnone l (by
          simp only [List.any_eq_true, not_exists, not_and, Bool.not_eq_true] at hany
          exact hany l (List.mem_of_mem_take hl)) he
      rw [htake, if_pos he, Option.none_or, he, optionOf_optionText]
    · rw [hother he, if_neg he, ← List.findSome?_append, List.take_append_drop]

/-- **Options are a store:** an option that is set has its value, less the blanks it begins with,
and every other option keeps its own. -/
theorem getCfgValue_setCfgValue {key key' val buf : List UInt8} (hk : IsWord key)
    (hk' : IsWord key') (hv : OneLine val) (hbuf : Writable key buf) :
    getCfgValue key' (setCfgValue key val buf) =
      if key' = key then some (val.dropWhile isBlank) else getCfgValue key' buf := by
  rw [getCfgValue_eq hk'.oneLine, lines_setCfgValue hk.oneLine hv hbuf, findSome?_setOption hk hk',
    getCfgValue_eq hk'.oneLine]

/-- The first line stays, and any option may be set again. -/
theorem head?_setOption {key : List UInt8} (val : List UInt8) {l : List UInt8}
    (ls : List (List UInt8)) (hl : isKeyLine key l = false) :
    (setOption key val (l :: ls)).head? = some l := by
  rw [setOption]
  split
  · rw [List.takeWhile_cons_of_pos (by simp [hl])]
    rfl
  · rfl

theorem lineEnd_ne_nil_iff {text : List UInt8} :
    lineEnd text ≠ [] ↔ ∃ c ∈ text, isEol c = true := by
  simp [lineEnd]

theorem mem_setCfgValue (key val buf : List UInt8) : 10 ∈ setCfgValue key val buf := by
  have h : (10 : UInt8) ∈ optionLine key val := by simp [optionLine]
  rw [setCfgValue]
  split
  · exact List.mem_append_left _ (List.mem_append_right _ h)
  · exact List.mem_append_left _ (List.mem_append_right _ h)

theorem writable_setCfgValue (key val buf key' : List UInt8) :
    Writable key' (setCfgValue key val buf) :=
  .inr (.inl (lineEnd_ne_nil_iff.2 ⟨10, mem_setCfgValue key val buf, rfl⟩))

/-- The options of a state file and their values. -/
abbrev Options : Type := List UInt8 → Option (List UInt8)

/-- An option is given a value, less the blanks it begins with. -/
def Options.set (options : Options) (set : List UInt8 × List UInt8) : Options :=
  Function.update options set.1 (some (set.2.dropWhile isBlank))

theorem Options.foldl_set_congr {key : List UInt8} : ∀ (sets : List (List UInt8 × List UInt8))
    {o o' : Options}, o key = o' key → sets.foldl Options.set o key = sets.foldl Options.set o' key
  | [], _, _, h => h
  | set :: sets, o, o', h => foldl_set_congr sets (by
      rw [Options.set, Options.set, Function.update_apply, Function.update_apply, h])

/-- `set_cfg_value` for each option of a list, in order. -/
def setAll (sets : List (List UInt8 × List UInt8)) (buf : List UInt8) : List UInt8 :=
  sets.foldl (fun buf set => setCfgValue set.1 set.2 buf) buf

theorem lineOf_setCfgValue {key val buf : List UInt8} (hk : OneLine key) (hv : OneLine val)
    (hbuf : Writable key buf) (hne : buf ≠ []) (hkey : isKeyLine key (lineOf buf) = false) :
    lineOf (setCfgValue key val buf) = lineOf buf := by
  have hset := lines_setCfgValue hk hv hbuf
  rw [lines_of_ne_nil hne] at hset
  have hhead := head?_setOption val (lines (nextLine buf)) hkey
  rw [← hset] at hhead
  have hne' : setCfgValue key val buf ≠ [] := fun h => by rw [h, lines] at hhead; cases hhead
  rw [lines_of_ne_nil hne'] at hhead
  exact Option.some.inj hhead

/-- **The state file is a map of options.** After any sequence of `set_cfg_value`s the options are
what the same sequence of updates makes of them, and the first line, with the secret, is as it
was. -/
theorem setAll_refines {sets : List (List UInt8 × List UInt8)} {buf : List UInt8}
    (hsets : ∀ set ∈ sets, IsWord set.1 ∧ OneLine set.2)
    (hbuf : ∀ set ∈ sets.head?, Writable set.1 buf) (hne : buf ≠ [])
    (hfirst : ∀ set ∈ sets, isKeyLine set.1 (lineOf buf) = false) :
    (∀ key, IsWord key → getCfgValue key (setAll sets buf) =
      sets.foldl Options.set (fun key => getCfgValue key buf) key) ∧
    lineOf (setAll sets buf) = lineOf buf := by
  induction sets generalizing buf with
  | nil => exact ⟨fun _ _ => rfl, rfl⟩
  | cons set sets ih =>
    obtain ⟨hkey, hval⟩ := hsets set List.mem_cons_self
    have hw := hbuf set rfl
    have hline := lineOf_setCfgValue hkey.oneLine hval hw hne (hfirst set List.mem_cons_self)
    have hne' := List.ne_nil_of_mem (mem_setCfgValue set.1 set.2 buf)
    obtain ⟨hmap, hfst⟩ := ih (fun s hs => hsets s (List.mem_cons_of_mem _ hs))
      (fun s _ => writable_setCfgValue set.1 set.2 buf s.1) hne'
      (fun s hs => hline ▸ hfirst s (List.mem_cons_of_mem _ hs))
    refine ⟨fun key hk => ?_, hfst.trans hline⟩
    rw [setAll, List.foldl_cons, ← setAll, hmap key hk, List.foldl_cons]
    refine Options.foldl_set_congr sets ?_
    rw [Options.set, Function.update_apply]
    exact getCfgValue_setCfgValue hkey hk hval hw

theorem setAll_refines_counter :
    let buf := setAll [("HOTP_COUNTER".asciiBytes, "1".asciiBytes),
      ("WINDOW_SIZE".asciiBytes, " 3".asciiBytes), ("HOTP_COUNTER".asciiBytes, "2".asciiBytes)]
      "AAAAAAAA\n".asciiBytes
    getCfgValue "HOTP_COUNTER".asciiBytes buf = some "2".asciiBytes ∧
      getCfgValue "WINDOW_SIZE".asciiBytes buf = some "3".asciiBytes ∧
      lineOf buf = "AAAAAAAA".asciiBytes := by
  obtain ⟨hmap, hfirst⟩ := @setAll_refines [("HOTP_COUNTER".asciiBytes, "1".asciiBytes),
      ("WINDOW_SIZE".asciiBytes, " 3".asciiBytes), ("HOTP_COUNTER".asciiBytes, "2".asciiBytes)]
    "AAAAAAAA\n".asciiBytes (by decide) (fun _ _ => .inr (.inl (by decide))) (by decide) (by decide)
  exact ⟨hmap _ (by decide), hmap _ (by decide), hfirst⟩

end Libpam
