import Mathlib.Data.List.Basic

/-!
# Histories of concurrent calls

A history lists what happens at a shared object, in order: a call is made, takes effect, and
returns. `Leads step t₀ h t`: the effects in `h`, one after the other, lead a sequential object
from `t₀` to `t`. A concurrent object is as good as the sequential one if every call that has
returned took effect once, between its invocation and its return (`ofCall`), and the effects
lead somewhere; a call that changes nothing may instead point to a moment in between (`During`).
-/

namespace History

variable {ι ε ο τ : Type*}

inductive Event (ι ε ο : Type*)
  | invoked (i : ℕ) (request : ι)
  | effect (i : ℕ) (e : ε)
  | returned (i : ℕ) (answer : ο)
  deriving DecidableEq, Repr

/-- The call that an event belongs to. -/
def Event.call : Event ι ε ο → ℕ
  | .invoked i _ | .effect i _ | .returned i _ => i

/-- The events of call `i`, in order. -/
def ofCall (i : ℕ) (h : List (Event ι ε ο)) : List (Event ι ε ο) := h.filter fun e => e.call == i

section OfCall

variable {i : ℕ} {h h' : List (Event ι ε ο)} {e : Event ι ε ο}

@[simp] theorem ofCall_append : ofCall i (h ++ h') = ofCall i h ++ ofCall i h' := List.filter_append ..

theorem ofCall_self (he : e.call = i) : ofCall i [e] = [e] := by
  simp [ofCall, he]

@[simp] theorem ofCall_invoked (request : ι) :
    ofCall i [(.invoked i request : Event ι ε ο)] = [.invoked i request] := ofCall_self rfl

@[simp] theorem ofCall_effect (e : ε) : ofCall i [(.effect i e : Event ι ε ο)] = [.effect i e] := ofCall_self rfl

@[simp] theorem ofCall_returned (answer : ο) :
    ofCall i [(.returned i answer : Event ι ε ο)] = [.returned i answer] := ofCall_self rfl

theorem ofCall_other (he : e.call ≠ i) : ofCall i [e] = [] := by
  simp [ofCall, he]

end OfCall

/-- The effects in a history lead from `t₀` to `t`. -/
inductive Leads (step : τ → ε → τ → Prop) (t₀ : τ) : List (Event ι ε ο) → τ → Prop
  | nil : Leads step t₀ [] t₀
  | invoked {h : List (Event ι ε ο)} {t : τ} (i : ℕ) (request : ι) :
      Leads step t₀ h t → Leads step t₀ (h ++ [.invoked i request]) t
  | effect {h : List (Event ι ε ο)} {t t' : τ} (i : ℕ) (e : ε) :
      Leads step t₀ h t → step t e t' → Leads step t₀ (h ++ [.effect i e]) t'
  | returned {h : List (Event ι ε ο)} {t : τ} (i : ℕ) (answer : ο) :
      Leads step t₀ h t → Leads step t₀ (h ++ [.returned i answer]) t

variable {step : τ → ε → τ → Prop} {t₀ t : τ} {h : List (Event ι ε ο)}

/-- At a moment between the invocation of call `i` and its return, the effects had led to a
state with `P`. -/
def During (step : τ → ε → τ → Prop) (t₀ : τ) (h : List (Event ι ε ο)) (i : ℕ) (request : ι) (P : τ → Prop) : Prop :=
  ∃ a b t, h = a ++ b ∧ ofCall i a = [.invoked i request] ∧ Leads step t₀ a t ∧ P t

theorem During.append {i : ℕ} {request : ι} {P : τ → Prop} (hd : During step t₀ h i request P)
    (h' : List (Event ι ε ο)) : During step t₀ (h ++ h') i request P := by
  obtain ⟨a, b, t, rfl, hof, hl, hP⟩ := hd
  exact ⟨a, b ++ h', t, List.append_assoc .., hof, hl, hP⟩

end History
