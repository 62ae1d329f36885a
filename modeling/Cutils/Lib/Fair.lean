import Cutils.Lib.Reach
import Mathlib.Order.WellFounded

/-!
# Fair infinite runs

An infinite run of a system, and the rule that gives what must happen in it: while the run waits for a
goal some process helps, and every step that is not a helper's own keeps what it can do; a helper's
step decreases a variant. If no process is ready for ever without a step, the goal is reached. A system that may rest
(`System.resting`) has the finite runs of a system among its infinite ones.

* `Run.eventually`, `Run.leads`: the rule, and for a system that may rest.
* `Run.settles`, `Run.comes_to_rest`: a run whose steps lower a variant comes to an end, where nobody is ready if it is fair.
* `Reach.rest`: a run that comes to an end, as an infinite one.
-/

namespace Sys

variable {σ α : Type*}

/-- An infinite run whose every step meets `ok`. -/
structure Run (S : System σ α) (ok : σ → α → Prop) where
  state : ℕ → σ
  act : ℕ → α
  init : S.init (state 0)
  ok : ∀ t, ok (state t) (act t)
  step : ∀ t, S.step (state t) (act t) = some (state (t + 1))

variable {S : System σ α} {ok : σ → α → Prop}

theorem Run.reach (r : Run S ok) (t : ℕ) : Reach S ok (r.state t) := by
  induction t with
  | zero => exact .init r.init
  | succ t ih => exact ih.step (r.ok t) (r.step t)

/-- No process is ready for ever without taking a step. -/
def Run.Fair {P : Type*} (r : Run S ok) (ready : P → σ → Prop) (takes : P → α → Prop) : Prop :=
  ∀ p t, ∃ t' ≥ t, takes p (r.act t') ∨ ¬ ready p (r.state t')

section Eventually

variable {P μ : Type*} [Preorder μ] (r : Run S ok) {ready : P → σ → Prop} {takes : P → α → Prop}
  {W goal : σ → Prop} {m : σ → μ} {helps : P → σ → Prop}

/-- Up to `d` steps later the goal is reached, the variant has decreased, or a helper still helps and
has not taken a step. -/
theorem Run.walk
    (hstep : ∀ t, W (r.state t) → goal (r.state (t + 1)) ∨ W (r.state (t + 1)) ∧
      (m (r.state (t + 1)) < m (r.state t) ∨ m (r.state (t + 1)) ≤ m (r.state t) ∧
        ∀ p, helps p (r.state t) → ¬ takes p (r.act t) ∧ helps p (r.state (t + 1))))
    {t : ℕ} {p : P} (ht : W (r.state t)) (hp : helps p (r.state t)) (d : ℕ) :
    (∃ t' ≥ t, goal (r.state t')) ∨ (∃ t' ≥ t, W (r.state t') ∧ m (r.state t') < m (r.state t)) ∨
      W (r.state (t + d)) ∧ m (r.state (t + d)) ≤ m (r.state t) ∧ helps p (r.state (t + d)) ∧
        ∀ e < d, ¬ takes p (r.act (t + e)) := by
  induction d with
  | zero => exact .inr (.inr ⟨ht, le_refl _, hp, fun e he => absurd he (Nat.not_lt_zero e)⟩)
  | succ d ih =>
    rcases ih with hg | hlt | ⟨hw, hm, hh, hno⟩
    · exact .inl hg
    · exact .inr (.inl hlt)
    rcases hstep (t + d) hw with hg | ⟨hw', hlt | ⟨hle, hkeep⟩⟩
    · exact .inl ⟨t + d + 1, by omega, hg⟩
    · exact .inr (.inl ⟨t + d + 1, by omega, hw', lt_of_lt_of_le hlt hm⟩)
    · obtain ⟨hnot, hh'⟩ := hkeep p hh
      refine .inr (.inr ⟨hw', hle.trans hm, hh', ?_⟩)
      intro e he
      rcases Nat.lt_succ_iff_lt_or_eq.1 he with he | rfl
      · exact hno e he
      · exact hnot

/-- **The rule of the fair variant.** -/
theorem Run.eventually [WellFoundedLT μ] (W goal : σ → Prop) (m : σ → μ) (helps : P → σ → Prop)
    (hfair : r.Fair ready takes)
    (hhelp : ∀ t, W (r.state t) → ∃ p, helps p (r.state t))
    (hready : ∀ t p, W (r.state t) → helps p (r.state t) → ready p (r.state t))
    (hstep : ∀ t, W (r.state t) → goal (r.state (t + 1)) ∨ W (r.state (t + 1)) ∧
      (m (r.state (t + 1)) < m (r.state t) ∨ m (r.state (t + 1)) ≤ m (r.state t) ∧
        ∀ p, helps p (r.state t) → ¬ takes p (r.act t) ∧ helps p (r.state (t + 1))))
    {t : ℕ} (ht : W (r.state t)) : ∃ t' ≥ t, goal (r.state t') := by
  -- induction on the variant
  induction hm : m (r.state t) using WellFoundedLT.induction generalizing t with
  | ind k ih =>
    subst hm
    obtain ⟨p, hp⟩ := hhelp t ht
    obtain ⟨t', hle, hor⟩ := hfair p t
    obtain ⟨d, rfl⟩ := Nat.exists_eq_add_of_le hle
    rcases r.walk hstep ht hp (d + 1) with hg | ⟨u, hu, hw, hlt⟩ | ⟨-, -, -, hno⟩
    · exact hg
    · obtain ⟨u', hu', hg⟩ := ih _ hlt hw rfl
      exact ⟨u', hu.trans hu', hg⟩
    · rcases hor with htakes | hnot
      · exact absurd htakes (hno d (Nat.lt_succ_self d))
      rcases r.walk hstep ht hp d with hg | ⟨u, hu, hw, hlt⟩ | ⟨hw, -, hh, -⟩
      · exact hg
      · obtain ⟨u', hu', hg⟩ := ih _ hlt hw rfl
        exact ⟨u', hu.trans hu', hg⟩
      · exact absurd (hready _ p hw hh) hnot

end Eventually

section Resting

/-- The system that may also rest. -/
def System.resting (S : System σ α) : System σ (Option α) :=
  ⟨S.init, fun s a => match a with
    | some a => S.step s a
    | none => some s⟩

/-- A condition on the steps that are not rests. -/
def awake (ok : σ → α → Prop) (s : σ) : Option α → Prop
  | some a => ok s a
  | none => True

theorem Reach.of_resting {s : σ} (h : Reach S.resting (awake ok) s) : Reach S ok s := by
  induction h with
  | init hi => exact .init hi
  | @step s s' a _ hok hs ih =>
    cases a with
    | none =>
      have hs : some s = some s' := hs
      exact Option.some.inj hs ▸ ih
    | some a => exact ih.step hok hs

/-- What the steps of a run meet, in place of what it is a run under. -/
theorem Run.reach_of_acts {ok' : σ → α → Prop} (r : Run S.resting (awake ok))
    (h : ∀ t a, r.act t = some a → ok' (r.state t) a) (t : ℕ) : Reach S ok' (r.state t) := by
  have hok : ∀ t, awake ok' (r.state t) (r.act t) := by
    intro t
    cases ha : r.act t with
    | none => trivial
    | some a => exact h t a ha
  exact ((⟨r.state, r.act, r.init, hok, r.step⟩ : Run S.resting (awake ok')).reach t).of_resting

/-- **The rule of the fair variant**, for processes that each have an action. -/
theorem Run.leads {P μ : Type*} [Preorder μ] [WellFoundedLT μ] (r : Run S.resting (awake ok)) {ready : P → σ → Prop}
    (act : P → α) (hfair : r.Fair ready fun p a => a = some (act p)) (W goal : σ → Prop) (m : σ → μ)
    (helps : P → σ → Prop) (hhelp : ∀ s, Reach S ok s → W s → ∃ p, helps p s)
    (hready : ∀ s p, Reach S ok s → W s → helps p s → ready p s)
    (hstep : ∀ s a s', Reach S ok s → W s → ok s a → S.step s a = some s' → goal s' ∨ W s' ∧
      (m s' < m s ∨ m s' ≤ m s ∧ ∀ p, helps p s → a ≠ act p ∧ helps p s'))
    {t : ℕ} (ht : W (r.state t)) : ∃ t' ≥ t, goal (r.state t') := by
  have hreach : ∀ t, Reach S ok (r.state t) := fun t => (r.reach t).of_resting
  refine r.eventually W goal m helps hfair (fun t => hhelp _ (hreach t)) (fun t p => hready _ p (hreach t)) ?_ ht
  intro t hW
  have hs := r.step t
  have hok := r.ok t
  cases ha : r.act t with
  | none =>
    -- nothing changes
    rw [ha] at hs
    have hs : some (r.state t) = some (r.state (t + 1)) := hs
    rw [← Option.some.inj hs]
    exact .inr ⟨hW, .inr ⟨le_refl _, fun p hp => ⟨nofun, hp⟩⟩⟩
  | some a =>
    rw [ha] at hs hok
    rcases hstep _ a _ (hreach t) hW hok hs with hg | ⟨hW', hlt | ⟨hle, hkeep⟩⟩
    · exact .inl hg
    · exact .inr ⟨hW', .inl hlt⟩
    · refine .inr ⟨hW', .inr ⟨hle, fun p hp => ⟨?_, (hkeep p hp).2⟩⟩⟩
      intro htakes
      exact (hkeep p hp).1 (Option.some.inj htakes)

theorem Run.rests (r : Run S.resting (awake ok)) {t : ℕ} (hrest : r.act t = none) : r.state (t + 1) = r.state t := by
  have hs := r.step t
  rw [hrest] at hs
  exact (Option.some.inj hs).symm

/-- A run that only rests stays where it is. -/
theorem Run.stays (r : Run S.resting (awake ok)) {t t' : ℕ} (hrest : ∀ u ≥ t, r.act u = none) (hle : t ≤ t') :
    r.state t' = r.state t := by
  induction t', hle using Nat.le_induction with
  | base => rfl
  | succ u hu ih => rw [r.rests (hrest u hu), ih]

/-- **A run whose steps lower a variant comes to an end.** -/
theorem Run.settles {μ : Type*} [Preorder μ] [WellFoundedLT μ] (r : Run S.resting (awake ok)) (m : σ → μ) {t : ℕ}
    (hstep : ∀ t' ≥ t, ∀ a, r.act t' = some a → m (r.state (t' + 1)) < m (r.state t')) :
    ∃ t₀ ≥ t, ∀ t' ≥ t₀, r.act t' = none := by
  -- induction on the variant
  induction hm : m (r.state t) using WellFoundedLT.induction generalizing t with
  | ind k ih =>
    subst hm
    by_cases hend : ∀ t' ≥ t, r.act t' = none
    · exact ⟨t, Nat.le_refl t, hend⟩
    push Not at hend
    obtain ⟨u, hu, hne⟩ := hend
    obtain ⟨a, ha⟩ := Option.ne_none_iff_exists'.1 hne
    have hdown : m (r.state u) ≤ m (r.state t) := by
      clear hne ha
      induction u, hu using Nat.le_induction with
      | base => exact le_refl _
      | succ u hu ih =>
        cases hact : r.act u with
        | none => rwa [r.rests hact]
        | some b => exact (hstep u hu b hact).le.trans ih
    obtain ⟨t₀, hle₀, hrest⟩ :=
      ih _ (lt_of_lt_of_le (hstep u hu a ha) hdown) (fun t' ht' => hstep t' (by omega)) rfl
    exact ⟨t₀, by omega, hrest⟩

/-- **A fair run whose steps lower a variant** comes to rest where no process is ready. -/
theorem Run.comes_to_rest {P μ : Type*} [Preorder μ] [WellFoundedLT μ] (r : Run S.resting (awake ok)) {ready : P → σ → Prop}
    {takes : P → Option α → Prop} (hfair : r.Fair ready takes) (hrests : ∀ p, ¬ takes p none) (m : σ → μ) {t : ℕ}
    (hstep : ∀ t' ≥ t, ∀ a, r.act t' = some a → m (r.state (t' + 1)) < m (r.state t')) :
    ∃ t₀ ≥ t, (∀ t' ≥ t₀, r.state t' = r.state t₀) ∧ ∀ p, ¬ ready p (r.state t₀) := by
  obtain ⟨t₀, hle, hrest⟩ := r.settles m hstep
  refine ⟨t₀, hle, fun t' ht' => r.stays hrest ht', fun p hready => ?_⟩
  obtain ⟨t', ht', hor⟩ := hfair p t₀
  rcases hor with htakes | hnot
  · rw [hrest t' ht'] at htakes
    exact hrests p htakes
  · rw [r.stays hrest ht'] at hnot
    exact hnot hready

/-- **A run that comes to an end**, as one that rests from there on. -/
theorem Reach.rest {s : σ} (h : Reach S ok s) :
    ∃ (r : Run S.resting (awake ok)) (t : ℕ), ∀ t' ≥ t, r.state t' = s ∧ r.act t' = none := by
  induction h with
  | @init s hi => exact ⟨⟨fun _ => s, fun _ => none, hi, fun _ => trivial, fun _ => rfl⟩, 0, fun _ _ => ⟨rfl, rfl⟩⟩
  | @step s s' a _ hok hs ih =>
    obtain ⟨r, t, hr⟩ := ih
    -- the step is made at `t`
    refine ⟨⟨fun u => if u ≤ t then r.state u else s', fun u => if u = t then some a else r.act u, ?_, ?_, ?_⟩,
      t + 1, ?_⟩
    · rw [if_pos (Nat.zero_le t)]
      exact r.init
    · intro u
      by_cases hu : u = t
      · subst hu
        rw [if_pos rfl, if_pos (Nat.le_refl u), (hr u (Nat.le_refl u)).1]
        show ok s a
        exact hok
      · rw [if_neg hu]
        by_cases hle : u ≤ t
        · rw [if_pos hle]
          exact r.ok u
        · rw [(hr u (by omega)).2]
          trivial
    · intro u
      by_cases hu : u = t
      · subst hu
        rw [if_pos rfl, if_pos (Nat.le_refl u), (hr u (Nat.le_refl u)).1, if_neg (Nat.not_succ_le_self u)]
        exact hs
      · rw [if_neg hu]
        by_cases hle : u ≤ t
        · rw [if_pos hle, if_pos (by omega)]
          exact r.step u
        · rw [(hr u (by omega)).2, if_neg hle, if_neg (by omega)]
          rfl
    · intro u hu
      have hu : t < u := hu
      exact ⟨if_neg (Nat.not_le.2 hu), (if_neg (Nat.ne_of_gt hu)).trans (hr u (Nat.le_of_lt hu)).2⟩

/-- A run that rests where no process is ready is fair. -/
theorem Run.fair_of_rest {P : Type*} (r : Run S ok) {ready : P → σ → Prop} {takes : P → α → Prop} {t : ℕ} {s : σ}
    (hrest : ∀ t' ≥ t, r.state t' = s) (hno : ∀ p, ¬ ready p s) : r.Fair ready takes := by
  intro p u
  refine ⟨max t u, Nat.le_max_right t u, .inr ?_⟩
  rw [hrest _ (Nat.le_max_left t u)]
  exact hno p

end Resting

end Sys
