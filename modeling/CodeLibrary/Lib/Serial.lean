import Mathlib.Data.List.Basic

/-!
# Serial histories

Operations on one shared value: each reads the value and may then replace it. `Run init log a`
says that the operations of `log`, the last one first, take effect in turn: each one that
writes has read the value it replaces, and each other one a value of some time before.

* `det`: the value is determined by the operations.
* `invariant`: what each write keeps holds of the value and of every value that is read.
* `of_append`: operations that write nothing leave the value.
-/

set_option autoImplicit false

namespace Serial

variable {α ρ : Type*} (read : ρ → α) (write : ρ → Option α)

/-- The operations of `log`, the last one first, lead from `init` to a value. -/
inductive Run (init : α) : List ρ → α → Prop
  | nil : Run init [] init
  | write {log : List ρ} {a b : α} {r : ρ} : Run init log a → read r = a → write r = some b →
      Run init (r :: log) b
  | read {log log' : List ρ} {a : α} {r : ρ} : Run init log a → log' <:+ log →
      Run init log' (read r) → write r = none → Run init (r :: log) a

variable {read : ρ → α} {write : ρ → Option α} {init : α}

theorem det {log : List ρ} {a b : α} (ha : Run read write init log a)
    (hb : Run read write init log b) : a = b := by
  induction ha generalizing b with
  | nil => cases hb; rfl
  | write _ _ hw ih =>
    cases hb with
    | write _ _ hw' => exact Option.some.inj (hw.symm.trans hw')
    | read _ _ _ hw' => rw [hw] at hw'; cases hw'
  | read _ _ _ hw ih =>
    cases hb with
    | write _ _ hw' => rw [hw] at hw'; cases hw'
    | read hb _ _ _ => exact ih hb

/-- The rule: what each write keeps holds of the value, and of each value read. -/
theorem invariant {I : α → Prop} {log : List ρ} {a : α} (h : Run read write init log a)
    (h0 : I init) (hstep : ∀ r ∈ log, I (read r) → ∀ b, write r = some b → I b) :
    I a ∧ ∀ r ∈ log, I (read r) := by
  induction h with
  | nil => exact ⟨h0, nofun⟩
  | @write log a b r _ hr hw ih =>
    obtain ⟨ha, hreads⟩ := ih fun r h => hstep r (List.mem_cons_of_mem _ h)
    refine ⟨hstep r List.mem_cons_self (hr ▸ ha) b hw, fun q hq => ?_⟩
    rcases List.mem_cons.1 hq with rfl | hq
    · exact hr ▸ ha
    · exact hreads q hq
  | @read log log' a r _ hsuffix _ _ ih ih' =>
    obtain ⟨ha, hreads⟩ := ih fun r h => hstep r (List.mem_cons_of_mem _ h)
    have hread := ih' fun r h => hstep r (List.mem_cons_of_mem _ (hsuffix.subset h))
    refine ⟨ha, fun q hq => ?_⟩
    rcases List.mem_cons.1 hq with rfl | hq
    · exact hread.1
    · exact hreads q hq

/-- Operations that write nothing leave the value. -/
theorem of_append {extra log : List ρ} {a : α} (h : Run read write init (extra ++ log) a)
    (hextra : ∀ r ∈ extra, write r = none) : Run read write init log a := by
  induction extra with
  | nil => exact h
  | cons r extra ih =>
    have hr := hextra r List.mem_cons_self
    cases h with
    | write _ _ hw => rw [hr] at hw; cases hw
    | read h _ _ _ => exact ih h fun q hq => hextra q (List.mem_cons_of_mem _ hq)

end Serial
