import Mathlib.Logic.Relation

/-!
# Loops as step functions

A loop of the source is a step function `step : σ → σ ⊕ ρ`: from the state at the loop head, one
iteration either goes round again (`.inl`) or leaves the loop with a result (`.inr`).

* `Visits step s s'`: a run from `s` stands at the loop head in state `s'`.
* `Returns step s r`: the run from `s` leaves the loop with `r`; it does so at most once
  (`Returns.det`). `run` executes a loop for a number of iterations (`returns_iff_run`), and
  `checkRun` checks the states a run visits (`forall_visits_of_checkRun`).
* The rules: an invariant kept by the iterations holds of every visited state
  (`Visits.invariant`) and gives the result's postcondition (`Returns.post`, both in
  `invariant_rule`); a variant makes the loop return (`returns_of_variant`, with the
  postcondition `total_rule`, and with the number of iterations `run_rule`); a set of states every
  iteration stays in never returns (`not_returns_of_trap`); two loops in lock step return related
  results (`Returns.simulate`); a loop whose iterations are told in smaller steps returns what the
  smaller steps return (`returns_iff_of_rounds`).
-/

namespace Loop

variable {σ τ ρ π : Type*}

/-- The run from `s` stands at the loop head in state `s'`. -/
def Visits (step : σ → σ ⊕ ρ) : σ → σ → Prop :=
  Relation.ReflTransGen fun s s' => step s = .inl s'

/-- The run from `s` leaves the loop with `r`. -/
inductive Returns (step : σ → σ ⊕ ρ) : σ → ρ → Prop
  | done {s : σ} {r : ρ} : step s = .inr r → Returns step s r
  | next {s s' : σ} {r : ρ} : step s = .inl s' → Returns step s' r → Returns step s r

/-- At most `fuel` iterations from `s`. -/
def run (step : σ → σ ⊕ ρ) : Nat → σ → Option ρ
  | 0, _ => none
  | fuel + 1, s =>
    match step s with
    | .inl s' => run step fuel s'
    | .inr r => some r

/-- The state after `n` iterations from `s`. -/
def iter (step : σ → σ ⊕ ρ) : Nat → σ → Option σ
  | 0, s => some s
  | n + 1, s =>
    match step s with
    | .inl s' => iter step n s'
    | .inr _ => none

variable {step : σ → σ ⊕ ρ}

theorem visits_of_iter_eq : ∀ {n : Nat} {s s' : σ}, iter step n s = some s' → Visits step s s'
  | 0, _, _, h => by
    cases h
    exact .refl
  | n + 1, s, s', h => by
    rw [iter] at h
    split at h
    · rename_i s1 hs
      exact .head hs (visits_of_iter_eq h)
    · cases h

/-- A state with a decidable property is visited. -/
theorem visits_of_iter {P : σ → Prop} [DecidablePred P] (n : Nat) {s : σ}
    (h : (iter step n s).any (fun s' => decide (P s')) = true) : ∃ s', Visits step s s' ∧ P s' := by
  cases hs : iter step n s with
  | none => rw [hs] at h; cases h
  | some s' =>
    rw [hs] at h
    exact ⟨s', visits_of_iter_eq hs, by simpa using h⟩

/-- The property holds of every state at the loop head, in a run of at most `fuel` iterations. -/
def checkRun (step : σ → σ ⊕ ρ) (P : σ → Prop) [DecidablePred P] : Nat → σ → Bool
  | 0, _ => false
  | fuel + 1, s => decide (P s) && match step s with
    | .inl s' => checkRun step P fuel s'
    | .inr _ => true

theorem forall_visits_of_checkRun {P : σ → Prop} [DecidablePred P] : ∀ (fuel : Nat) {s s' : σ},
    checkRun step P fuel s = true → Visits step s s' → P s'
  | 0, _, _, h, _ => by cases h
  | fuel + 1, s, s', h, hv => by
    rw [checkRun, Bool.and_eq_true, decide_eq_true_eq] at h
    obtain ⟨hs, hrest⟩ := h
    cases hv using Relation.ReflTransGen.head_induction_on with
    | refl => exact hs
    | head hstep hv =>
      rw [hstep] at hrest
      exact forall_visits_of_checkRun fuel hrest hv

theorem returns_of_run : ∀ (fuel : Nat) {s : σ} {r : ρ}, run step fuel s = some r →
    Returns step s r
  | 0, _, _, h => by simp [run] at h
  | fuel + 1, s, r, h => by
    rw [run] at h
    split at h
    · rename_i s' hs
      exact .next hs (returns_of_run fuel h)
    · rename_i r' hs
      cases h
      exact .done hs

/-- A result with a decidable property is returned. -/
theorem returns_of_run_any {P : ρ → Prop} [DecidablePred P] (fuel : Nat) {s : σ}
    (h : (run step fuel s).any (fun r => decide (P r)) = true) : ∃ r, Returns step s r ∧ P r := by
  cases hs : run step fuel s with
  | none => rw [hs] at h; cases h
  | some r =>
    rw [hs] at h
    exact ⟨r, returns_of_run fuel hs, by simpa using h⟩

/-- A loop returns what enough iterations of it give. -/
theorem returns_iff_run {s : σ} {r : ρ} :
    Returns step s r ↔ ∃ fuel, run step fuel s = some r := by
  refine ⟨fun h => ?_, fun ⟨fuel, h⟩ => returns_of_run fuel h⟩
  induction h with
  | done hs => exact ⟨1, by simp [run, hs]⟩
  | next hs _ ih =>
    obtain ⟨fuel, hf⟩ := ih
    exact ⟨fuel + 1, by simp [run, hs, hf]⟩

theorem Returns.det {s : σ} {r r' : ρ} (h : Returns step s r) (h' : Returns step s r') :
    r = r' := by
  induction h with
  | done hs =>
    cases h' with
    | done hs' => rw [hs] at hs'; exact Sum.inr.inj hs'
    | next hs' _ => rw [hs] at hs'; cases hs'
  | next hs _ ih =>
    cases h' with
    | done hs' => rw [hs] at hs'; cases hs'
    | next hs' h' => rw [hs] at hs'; cases hs'; exact ih h'

/-- A loop that returns does so from the last state it visits. -/
theorem returns_iff_visits {s : σ} {r : ρ} :
    Returns step s r ↔ ∃ s', Visits step s s' ∧ step s' = .inr r := by
  constructor
  · intro h
    induction h with
    | done hs => exact ⟨_, .refl, hs⟩
    | next hs _ ih =>
      obtain ⟨s', hv, hr⟩ := ih
      exact ⟨s', .head hs hv, hr⟩
  · intro hx
    obtain ⟨s', hv, hr⟩ := hx
    induction hv using Relation.ReflTransGen.head_induction_on with
    | refl => exact .done hr
    | head hs _ ih => exact .next hs ih

/-- The run from a visited state returns what the whole run returns. -/
theorem Returns.of_visits {s s' : σ} {r : ρ} (hv : Visits step s s') (h : Returns step s' r) :
    Returns step s r := by
  induction hv using Relation.ReflTransGen.head_induction_on with
  | refl => exact h
  | head hs _ ih => exact .next hs ih

/-- What a run returns, it returns from the next state. -/
theorem Returns.of_next {s s' : σ} {r : ρ} (h : Returns step s r) (hs : step s = .inl s') :
    Returns step s' r := by
  cases h with
  | done h => rw [hs] at h; cases h
  | next h hr => rw [hs] at h; cases h; exact hr

theorem Returns.of_done {s : σ} {r q : ρ} (h : Returns step s r) (hs : step s = .inr q) :
    r = q := h.det (.done hs)

/-- The invariant rule: what the iterations keep holds of every visited state. -/
theorem Visits.invariant {I : σ → Prop} {s s' : σ} (hv : Visits step s s') (h0 : I s)
    (hstep : ∀ a b, I a → step a = .inl b → I b) : I s' := by
  induction hv with
  | refl => exact h0
  | tail _ hs ih => exact hstep _ _ ih hs

/-- The invariant rule for the result. -/
theorem Returns.post {I : σ → Prop} {Q : ρ → Prop} {s : σ} {r : ρ} (h : Returns step s r)
    (h0 : I s) (hstep : ∀ a b, I a → step a = .inl b → I b)
    (hdone : ∀ a q, I a → step a = .inr q → Q q) : Q r := by
  obtain ⟨s', hv, hr⟩ := returns_iff_visits.1 h
  exact hdone s' r (hv.invariant h0 hstep) hr

/-- The rule for both: where each iteration from a state in `G` keeps `I` or leaves with a
result in `Q`, and the run visits only states in `G`. -/
theorem invariant_rule {I G : σ → Prop} {Q : ρ → Prop} {s : σ} (h0 : I s)
    (hstep : ∀ a, I a → G a → Sum.elim I Q (step a))
    (hgood : ∀ a, Visits step s a → G a) :
    (∀ a, Visits step s a → I a) ∧ ∀ r, Returns step s r → Q r := by
  have hinv : ∀ a, Visits step s a → I a := fun a hv =>
    (hv.invariant (I := fun a => Visits step s a ∧ I a) ⟨.refl, h0⟩ fun a b ha hab => by
      have := hstep a ha.2 (hgood a ha.1)
      rw [hab] at this
      exact ⟨ha.1.tail hab, this⟩).2
  refine ⟨hinv, fun r hr => ?_⟩
  obtain ⟨a, hv, hlast⟩ := returns_iff_visits.1 hr
  have := hstep a (hinv a hv) (hgood a hv)
  rw [hlast] at this
  exact this

/-- The variant rule: a loop whose iterations keep `I` and decrease `μ` returns. -/
theorem returns_of_variant {I : σ → Prop} (μ : σ → Nat)
    (hstep : ∀ a b, I a → step a = .inl b → I b ∧ μ b < μ a) {s : σ} (h0 : I s) :
    ∃ r, Returns step s r := by
  induction hn : μ s using Nat.strongRecOn generalizing s with
  | ind n ih =>
    cases hs : step s with
    | inr r => exact ⟨r, .done hs⟩
    | inl s' =>
      obtain ⟨hi, hlt⟩ := hstep s s' h0 hs
      obtain ⟨r, hr⟩ := ih (μ s') (hn ▸ hlt) hi rfl
      exact ⟨r, .next hs hr⟩

/-- Total correctness: each iteration keeps `I` and decreases `μ`, or leaves with a result in
`Q`. -/
theorem total_rule {I : σ → Prop} {Q : ρ → Prop} (μ : σ → Nat) {s : σ} (h0 : I s)
    (hstep : ∀ a, I a → Sum.elim (fun b => I b ∧ μ b < μ a) Q (step a)) :
    ∃ r, Returns step s r ∧ Q r := by
  have hnext : ∀ a b, I a → step a = .inl b → I b ∧ μ b < μ a := fun a b ha hab => by
    have := hstep a ha
    rw [hab] at this
    exact this
  obtain ⟨r, hr⟩ := returns_of_variant μ hnext h0
  refine ⟨r, hr, hr.post h0 (fun a b ha hab => (hnext a b ha hab).1) fun a q ha hq => ?_⟩
  have := hstep a ha
  rw [hq] at this
  exact this

/-- Total correctness with the number of iterations: more fuel than the variant is enough. -/
theorem run_rule {I : σ → Prop} {Q : ρ → Prop} (μ : σ → Nat)
    (hstep : ∀ a, I a → Sum.elim (fun b => I b ∧ μ b < μ a) Q (step a)) :
    ∀ {fuel : Nat} {s : σ}, I s → μ s < fuel → ∃ r, run step fuel s = some r ∧ Q r
  | 0, _, _, hf => absurd hf (Nat.not_lt_zero _)
  | fuel + 1, s, h0, hf => by
    have hs := hstep s h0
    cases he : step s with
    | inl s' =>
      rw [he] at hs
      obtain ⟨r, hr, hq⟩ := run_rule μ hstep hs.1 (show μ s' < fuel from by have := hs.2; omega)
      exact ⟨r, by rw [run, he]; exact hr, hq⟩
    | inr r =>
      rw [he] at hs
      exact ⟨r, by rw [run, he], hs⟩

/-- A loop that stays in a set of states none of which leaves it never returns. -/
theorem not_returns_of_trap {T : σ → Prop} (hT : ∀ a, T a → ∃ b, step a = .inl b ∧ T b) {s : σ}
    {r : ρ} (h0 : T s) : ¬ Returns step s r := by
  intro h
  induction h with
  | done hs =>
    obtain ⟨b, hb, -⟩ := hT _ h0
    rw [hs] at hb
    cases hb
  | next hs _ ih =>
    obtain ⟨b, hb, hTb⟩ := hT _ h0
    rw [hs] at hb
    cases hb
    exact ih hTb

/-! ## Iterations in smaller steps -/

/-- The steps from a visited state leave fewer to go. -/
theorem run_of_visits {s s' : σ} {r : ρ} (hv : Visits step s s') : ∀ {fuel : Nat},
    run step fuel s = some r → ∃ fuel' ≤ fuel, run step fuel' s' = some r := by
  induction hv using Relation.ReflTransGen.head_induction_on with
  | refl =>
    intro fuel h
    exact ⟨fuel, Nat.le_refl _, h⟩
  | head hs _ ih =>
    intro fuel h
    cases fuel with
    | zero => cases h
    | succ fuel =>
      rw [run, hs] at h
      obtain ⟨fuel', hle, h'⟩ := ih h
      exact ⟨fuel', Nat.le_succ_of_le hle, h'⟩

/-- One or more steps from the state of `a` do what an iteration did that led to `x`. -/
def Round (step : σ → σ ⊕ ρ) (I : τ → Prop) (emb : τ → σ) (out : π → ρ) (a : τ) : τ ⊕ π → Prop
  | .inl b => I b ∧ ∃ s, step (emb a) = .inl s ∧ Visits step s (emb b)
  | .inr q => Returns step (emb a) (out q)

/-- A loop `f` each of whose iterations from a state in `I` is made of one or more iterations of
`step` returns what `step` returns. -/
theorem returns_iff_of_rounds {f : τ → τ ⊕ π} {I : τ → Prop} {emb : τ → σ} {out : π → ρ}
    (hf : ∀ a, I a → Round step I emb out a (f a)) {a : τ} {x : ρ} (ha : I a) :
    Returns step (emb a) x ↔ ∃ q, out q = x ∧ Returns f a q := by
  constructor
  · intro h
    obtain ⟨fuel, hrun⟩ := returns_iff_run.1 h
    clear h
    induction fuel using Nat.strongRecOn generalizing a with
    | ind fuel ih =>
      have hfa := hf a ha
      cases hs : f a with
      | inl b =>
        rw [hs] at hfa
        obtain ⟨hb, s, hstep, hv⟩ := hfa
        cases fuel with
        | zero => cases hrun
        | succ fuel =>
          rw [run, hstep] at hrun
          obtain ⟨fuel', hle, hrun'⟩ := run_of_visits hv hrun
          obtain ⟨q, hq, hr⟩ := ih fuel' (Nat.lt_succ_of_le hle) hb hrun'
          exact ⟨q, hq, .next hs hr⟩
      | inr q =>
        rw [hs] at hfa
        exact ⟨q, hfa.det (returns_of_run fuel hrun), .done hs⟩
  · intro hx
    obtain ⟨q, rfl, hr⟩ := hx
    induction hr with
    | @done a q hs =>
      have hfa := hf a ha
      rw [hs] at hfa
      exact hfa
    | @next a b q hs _ ih =>
      have hfa := hf a ha
      rw [hs] at hfa
      obtain ⟨hb, s, hstep, hv⟩ := hfa
      exact .next hstep (.of_visits hv (ih hb))

/-- Two loops in lock step: iterations from related states go round to related states, or leave
with related results. -/
theorem Returns.simulate {f : τ → τ ⊕ π} {R : σ → τ → Prop} {Q : ρ → π → Prop}
    (hR : ∀ a b, R a b → match step a, f b with
      | .inl a', .inl b' => R a' b'
      | .inr r, .inr q => Q r q
      | _, _ => False) {s : σ} {t : τ} {r : ρ} (h : Returns step s r) (h0 : R s t) :
    ∃ q, Returns f t q ∧ Q r q := by
  induction h generalizing t with
  | done hs =>
    have := hR _ _ h0
    rw [hs] at this
    cases ht : f t with
    | inl _ => rw [ht] at this; exact this.elim
    | inr q => rw [ht] at this; exact ⟨q, .done ht, this⟩
  | next hs _ ih =>
    have := hR _ _ h0
    rw [hs] at this
    cases ht : f t with
    | inl t' =>
      rw [ht] at this
      obtain ⟨q, hq, hQ⟩ := ih this
      exact ⟨q, .next ht hq, hQ⟩
    | inr _ => rw [ht] at this; exact this.elim

end Loop
