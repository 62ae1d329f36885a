import Mathlib.Data.List.Basic

/-!
# Runs of a transition system

A system is a set of initial states and a step function that refuses (`none`) the
actions that are not enabled. `Reach S ok` is every state reached by a run all of
whose steps meet `ok`, a condition on the state before the step and the action.

* `Reach.inv`: the invariant rule.
* `Reach.mono`, `Reach.of_all`: runs under another condition.
* `Reach.of_exec`, `Reach.of_trace`: an explicit trace is a run.
-/

namespace Sys

variable {σ α : Type*}

/-- A transition system. -/
structure System (σ α : Type*) where
  init : σ → Prop
  step : σ → α → Option σ

/-- The states reached by runs whose every step meets `ok`. -/
inductive Reach (S : System σ α) (ok : σ → α → Prop) : σ → Prop
  | init {s : σ} : S.init s → Reach S ok s
  | step {s s' : σ} {a : α} : Reach S ok s → ok s a → S.step s a = some s' → Reach S ok s'

/-- No condition on the steps: every interleaving. -/
abbrev Always (_ : σ) (_ : α) : Prop := True

variable {S : System σ α} {ok ok' : σ → α → Prop}

/-- **The invariant rule.** What holds initially and is kept by every step that
meets `ok` holds in every state reached. -/
theorem Reach.inv {I : σ → Prop} (h0 : ∀ s, S.init s → I s)
    (hstep : ∀ s a s', I s → ok s a → S.step s a = some s' → I s') {s : σ} (h : Reach S ok s) :
    I s := by
  induction h with
  | init hi => exact h0 _ hi
  | step _ hok hs ih => exact hstep _ _ _ ih hok hs

theorem Reach.mono (hle : ∀ s a, ok s a → ok' s a) {s : σ} (h : Reach S ok s) : Reach S ok' s := by
  induction h with
  | init hi => exact .init hi
  | step _ hok hs ih => exact .step ih (hle _ _ hok) hs

/-- What every step of every run meets is no condition. -/
theorem Reach.of_all (hall : ∀ s a s', Reach S ok s → S.step s a = some s' → ok' s a) {s : σ} (h : Reach S ok s) :
    Reach S ok' s := by
  induction h with
  | init hi => exact .init hi
  | step hr _ hs ih => exact .step ih (hall _ _ _ hr hs) hs

/-- Run a list of actions, as long as each meets `ok`. -/
def exec (S : System σ α) (ok : σ → α → Prop) [∀ s a, Decidable (ok s a)] : σ → List α → Option σ
  | s, [] => some s
  | s, a :: as => if ok s a then (S.step s a).bind (exec S ok · as) else none

variable [∀ s a, Decidable (ok s a)]

/-- The first step of a trace. -/
theorem exec_cons {s s' : σ} {a : α} {as : List α} (hok : ok s a) (hs : S.step s a = some s') :
    exec S ok s (a :: as) = exec S ok s' as := by
  rw [exec, if_pos hok, hs, Option.bind_some]

/-- **An explicit trace is a run.** -/
theorem Reach.of_exec {s s' : σ} {as : List α} (h : Reach S ok s) (he : exec S ok s as = some s') :
    Reach S ok s' := by
  induction as generalizing s with
  | nil => simp only [exec, Option.some.injEq] at he; subst he; exact h
  | cons a as ih =>
    simp only [exec] at he
    split at he
    · rename_i hok
      cases hs : S.step s a with
      | none => rw [hs] at he; cases he
      | some s₁ =>
        rw [hs, Option.bind_some] at he
        exact ih (h.step hok hs) he
    · cases he

/-- A trace that ends in a state with `p`, as a run. -/
theorem Reach.of_trace {s : σ} {as : List α} {p : σ → Bool} (h : Reach S ok s)
    (he : (exec S ok s as).map p = some true) : ∃ s', Reach S ok s' ∧ p s' = true := by
  obtain ⟨s', hs', hp⟩ := Option.map_eq_some_iff.1 he
  exact ⟨s', h.of_exec hs', hp⟩

end Sys
