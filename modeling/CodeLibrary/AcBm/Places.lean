import CodeLibrary.AcBm.Proof.TreeInv

/-!
# Where patterns of any flags stand

A word has a place in the tree: the word itself, but for upper-case letters that are lowered. Of
a byte of the tree it matters only who came there first: the flag of the first pattern whose place
goes through it (`firstFlag`). Below `w` an upper-case letter is found under the lower-case one if
a pattern where the case does not count came to that one first (`foundAs`). A pattern stands at the
place its word has when the pattern is added (`places`).
-/

namespace AcBm

/-- The flag of the first of the patterns `entered`, spelled as they stand, that begins with `w`;
0 at the root. -/
def firstFlag (entered : List PatternData) (w : List UInt8) : Option Bool :=
  ((⟨[], false⟩ :: entered).find? fun p => w.isPrefixOf p.data).map PatternData.caseSen

/-- The byte under which `c` is found below `w`. -/
def foundAs (flag : List UInt8 → Option Bool) (w : List UInt8) (c : UInt8) : UInt8 :=
  if flag (w ++ [tolower c]) = some false then tolower c else c

/-- The place of a word below `w`. -/
def placeFrom (flag : List UInt8 → Option Bool) : List UInt8 → List UInt8 → List UInt8
  | w, [] => w
  | w, c :: rest => placeFrom flag (w ++ [foundAs flag w c]) rest

/-- A pattern added after those that are `entered`. -/
def enter (entered : List PatternData) (pat : PatternData) : List PatternData :=
  entered ++
    [⟨placeFrom (firstFlag entered) [] (foldAll pat.caseSen pat.data), pat.caseSen⟩]

/-- The patterns as they stand. -/
def places (pats : List PatternData) : List PatternData := pats.foldl enter []

/-- The place of a word once all patterns are added. -/
def placeIn (pats : List PatternData) (s : List UInt8) : List UInt8 :=
  placeFrom (firstFlag (places pats)) [] s

/-- The flags after a pattern that stands at `r` is added. -/
def enterFlag (flag : List UInt8 → Option Bool) (cs : Bool) (r : List UInt8) :
    List UInt8 → Option Bool :=
  fun w => (flag w).or (if w <+: r then some cs else none)

/-! ## Lemmas -/

theorem places_snoc (pats : List PatternData) (pat : PatternData) :
    places (pats ++ [pat]) = enter (places pats) pat := by
  simp [places]

@[simp] theorem places_length (pats : List PatternData) : (places pats).length = pats.length := by
  induction pats using List.reverseRecOn with
  | nil => rfl
  | append_singleton pats pat ih => simp [places_snoc, enter, ih]

theorem firstFlag_snoc (entered : List PatternData) (p : PatternData) :
    firstFlag (entered ++ [p]) = enterFlag (firstFlag entered) p.caseSen p.data := by
  funext w
  unfold firstFlag enterFlag
  rw [← List.cons_append, List.find?_append, Option.map_or]
  congr 1
  by_cases h : w <+: p.data
  · simp [h]
  · simp [h]

/-- A flag below the root is that of a pattern. -/
theorem firstFlag_eq_some {entered : List PatternData} {w : List UInt8} {b : UInt8} {f : Bool}
    (h : firstFlag entered (w ++ [b]) = some f) :
    ∃ p ∈ entered, w ++ [b] <+: p.data ∧ p.caseSen = f := by
  rw [firstFlag, List.find?_cons_of_neg (by simp), Option.map_eq_some_iff] at h
  obtain ⟨p, hp, hf⟩ := h
  exact ⟨p, List.mem_of_find?_eq_some hp, by simpa using List.find?_some hp, hf⟩

theorem firstFlag_ne_none_iff {entered : List PatternData} {w : List UInt8} {b : UInt8} :
    firstFlag entered (w ++ [b]) ≠ none ↔ ∃ p ∈ entered, w ++ [b] <+: p.data := by
  rw [firstFlag, List.find?_cons_of_neg (by simp), ne_eq, Option.map_eq_none_iff,
    List.find?_eq_none]
  simp

theorem placeFrom_eq_foldl (flag : List UInt8 → Option Bool) : ∀ (s w : List UInt8),
    placeFrom flag w s = s.foldl (fun w c => w ++ [foundAs flag w c]) w
  | [], _ => rfl
  | _ :: s, _ => placeFrom_eq_foldl flag s _

theorem placeFrom_append (flag : List UInt8 → Option Bool) (t : List UInt8) :
    ∀ (s w : List UInt8), placeFrom flag w (s ++ t) = placeFrom flag (placeFrom flag w s) t
  | [], _ => rfl
  | _ :: s, _ => placeFrom_append flag t s _

theorem foundAs_of_not_isUpper (flag : List UInt8 → Option Bool) (w : List UInt8) {c : UInt8}
    (h : isUpper c = false) : foundAs flag w c = c := by
  rw [foundAs, tolower_of_not_isUpper h]
  split <;> rfl

/-- Bytes that are found under themselves are their own place. -/
theorem placeFrom_eq_self {flag : List UInt8 → Option Bool} : ∀ {s w : List UInt8},
    (∀ w, ∀ c ∈ s, foundAs flag w c = c) → placeFrom flag w s = w ++ s
  | [], w, _ => by rw [placeFrom, List.append_nil]
  | c :: s, w, h => by
    rw [placeFrom, h w c (.head _), placeFrom_eq_self fun w c hc => h w c (.tail _ hc),
      List.append_assoc, List.singleton_append]

end AcBm
