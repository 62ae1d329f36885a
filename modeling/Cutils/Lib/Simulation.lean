import Cutils.Lib.Reach

/-!
# Simulations, and records of runs

* `Reach.simulates`: the simulation rule. A relation that holds between initial states and is
  followed by every step holds between every state reached and one that the other system
  reaches; a step may correspond to no step there.
* `System.recorded`: a system with a record kept beside its state. The record watches the steps
  and does not take part in them (`Reach.recorded`, `Reach.of_recorded`).
-/

namespace Sys

variable {σ τ ρ α β : Type*} {S : System σ α} {T : System τ β}
  {ok : σ → α → Prop} {okT : τ → β → Prop}

/-- **The simulation rule.** -/
theorem Reach.simulates {R : σ → τ → Prop} (h0 : ∀ s, S.init s → ∃ t, T.init t ∧ R s t)
    (hstep : ∀ s t a s', Reach T okT t → R s t → ok s a → S.step s a = some s' →
      R s' t ∨ ∃ b t', okT t b ∧ T.step t b = some t' ∧ R s' t') {s : σ} (h : Reach S ok s) :
    ∃ t, Reach T okT t ∧ R s t := by
  induction h with
  | init hi =>
    obtain ⟨t, ht, hR⟩ := h0 _ hi
    exact ⟨t, .init ht, hR⟩
  | step _ hok hs ih =>
    obtain ⟨t, ht, hR⟩ := ih
    rcases hstep _ _ _ _ ht hR hok hs with hR' | ⟨b, t', hokT, hst, hR'⟩
    · exact ⟨t, ht, hR'⟩
    · exact ⟨t', ht.step hokT hst, hR'⟩

/-- `S` with a record beside the state; `note s a s' r` is the record after the step. -/
def System.recorded (S : System σ α) (r₀ : ρ) (note : σ → α → σ → ρ → ρ) : System (σ × ρ) α :=
  ⟨fun p => S.init p.1 ∧ p.2 = r₀, fun p a => (S.step p.1 a).map fun s' => (s', note p.1 a s' p.2)⟩

/-- A condition on the state and the action, whatever the record. -/
def onState (ok : σ → α → Prop) (p : σ × ρ) (a : α) : Prop := ok p.1 a

variable {r₀ : ρ} {note : σ → α → σ → ρ → ρ}

theorem recorded_step {p : σ × ρ} {a : α} {s' : σ} (hs : S.step p.1 a = some s') :
    (S.recorded r₀ note).step p a = some (s', note p.1 a s' p.2) :=
  congrArg (Option.map _) hs

/-- What a step with a record is. -/
theorem of_recorded_step {p p' : σ × ρ} {a : α} (hs : (S.recorded r₀ note).step p a = some p') :
    S.step p.1 a = some p'.1 ∧ p'.2 = note p.1 a p'.1 p.2 := by
  obtain ⟨s', hs', hp⟩ := Option.map_eq_some_iff.1 hs
  rw [← hp]
  exact ⟨hs', rfl⟩

/-- Every run has a record. -/
theorem Reach.recorded (r₀ : ρ) (note : σ → α → σ → ρ → ρ) {s : σ} (h : Reach S ok s) :
    ∃ r, Reach (S.recorded r₀ note) (onState ok) (s, r) := by
  induction h with
  | init hi => exact ⟨r₀, .init ⟨hi, rfl⟩⟩
  | step _ hok hs ih =>
    obtain ⟨r, hr⟩ := ih
    exact ⟨_, hr.step hok (recorded_step hs)⟩

/-- A run with a record is a run. -/
theorem Reach.of_recorded {p : σ × ρ} (h : Reach (S.recorded r₀ note) (onState ok) p) :
    Reach S ok p.1 := by
  induction h with
  | init hi => exact .init hi.1
  | step _ hok hs ih => exact ih.step hok (of_recorded_step hs).1

/-- **The invariant rule with a record.** -/
theorem Reach.recorded_inv {I : σ → ρ → Prop} (h0 : ∀ s, S.init s → I s r₀)
    (hstep : ∀ s r a s', Reach S ok s → I s r → ok s a → S.step s a = some s' → I s' (note s a s' r))
    {p : σ × ρ} (h : Reach (S.recorded r₀ note) (onState ok) p) : I p.1 p.2 := by
  induction h with
  | init hi => rw [hi.2]; exact h0 _ hi.1
  | step hr hok hs ih =>
    obtain ⟨hs', hnote⟩ := of_recorded_step hs
    rw [hnote]
    exact hstep _ _ _ _ hr.of_recorded ih hok hs'

end Sys
