import Mathlib.Data.Multiset.OrderedMonoid

/-!
# Objects that are created and destroyed

A program (`Live.Prog`) creates and destroys objects of some type. Calls that can fail ask an oracle, the list of
outcomes; an assertion that fails ends the program (`none`). `Live.Sys.live` has every object as often as it
was created and not destroyed since, so that creating one over again is seen.

* `bind_iff`, `create_cases` and so on: what a run of each kind of statement did.
* `Frees` and `Adds`: what a program destroys, or leaves live, in every run, and how sequences of programs do.
* `Leaves.lifecycle`: when an object that is composed of others can be created and destroyed and leaves nothing.
-/

namespace Live

/-- The objects that are live, and how the calls to come will turn out. -/
structure Sys (ω : Type) where
  live : Multiset ω
  outcomes : ℕ → Bool

abbrev Prog (ω : Type) := StateT (Sys ω) Option

variable {ω α β : Type} [DecidableEq ω]

/-- A call that can fail. -/
def attempt : Prog ω Bool := fun s => some (s.outcomes 0, { s with outcomes := fun n => s.outcomes (n + 1) })

/-- Create an object, which can fail. -/
def create (x : ω) : Prog ω Bool := fun s =>
  some (s.outcomes 0, ⟨if s.outcomes 0 then x ::ₘ s.live else s.live, fun n => s.outcomes (n + 1)⟩)

/-- Destroy an object. -/
def destroy (x : ω) : Prog ω Unit := fun s => some ((), { s with live := s.live.erase x })

/-- An assertion. -/
def require (b : Bool) : Prog ω Unit := fun s => if b then some ((), s) else none

/-- Create something, and destroy it if that worked. -/
def lifecycle (new : Prog ω (Option α)) (free : α → Prog ω Unit) : Prog ω Unit := do
  match ← new with
  | some a => free a
  | none => pure ()

section Runs

variable {m : Prog ω α} {f : α → Prog ω β} {s s' : Sys ω} {a : α} {b : β}

omit [DecidableEq ω] in
theorem pure_iff : (pure b : Prog ω β) s = some (b', s') ↔ b' = b ∧ s' = s := by
  show some (b, s) = some (b', s') ↔ _
  rw [Option.some.injEq, Prod.mk.injEq, eq_comm (b := b'), eq_comm (b := s')]

omit [DecidableEq ω] in
/-- **A sequence ran** if both parts did. -/
theorem bind_iff : (m >>= f) s = some (b, s') ↔ ∃ a s₁, m s = some (a, s₁) ∧ f a s₁ = some (b, s') := by
  show (m s).bind (fun p => f p.1 p.2) = some (b, s') ↔ _
  rw [Option.bind_eq_some_iff]
  exact Prod.exists

omit [DecidableEq ω] in
/-- The second of two calls is only made if the first one succeeds. -/
theorem and_iff {m n : Prog ω Bool} {c : Bool} : (m <&&> n) s = some (c, s') ↔
    ∃ ok s₁, m s = some (ok, s₁) ∧ if ok then n s₁ = some (c, s') else c = false ∧ s' = s₁ := by
  have hand : (m <&&> n) = m >>= fun ok => if ok then n else pure false := by
    unfold andM
    congr 1
    funext ok
    cases ok <;> rfl
  rw [hand, bind_iff]
  refine exists_congr fun ok => exists_congr fun s₁ => and_congr_right fun _ => ?_
  cases ok with
  | true => rfl
  | false => exact pure_iff

omit [DecidableEq ω] in
theorem attempt_iff {ok : Bool} : (attempt : Prog ω Bool) s = some (ok, s') ↔
    ok = s.outcomes 0 ∧ s' = ⟨s.live, fun n => s.outcomes (n + 1)⟩ := by
  show some (_, _) = some (_, _) ↔ _
  rw [Option.some.injEq, Prod.mk.injEq, eq_comm (b := ok), eq_comm (b := s')]

omit [DecidableEq ω] in
/-- **A creation** succeeds if the next outcome says so, and adds its object then. -/
theorem create_cases {x : ω} {ok : Bool} (h : create x s = some (ok, s')) :
    (s'.outcomes = fun n => s.outcomes (n + 1)) ∧
    (ok = true ∧ s.outcomes 0 = true ∧ s'.live = s.live + {x} ∨
      ok = false ∧ s.outcomes 0 = false ∧ s'.live = s.live) := by
  cases h
  refine ⟨rfl, ?_⟩
  cases s.outcomes 0 with
  | true => exact .inl ⟨rfl, rfl, (Multiset.add_comm s.live {x}).symm⟩
  | false => exact .inr ⟨rfl, rfl, rfl⟩

omit [DecidableEq ω] in
theorem require_iff {c : Bool} {u : Unit} : (require c : Prog ω Unit) s = some (u, s') ↔ c = true ∧ s' = s := by
  cases c with
  | true =>
    show some ((), s) = some (u, s') ↔ _
    rw [Option.some.injEq, Prod.mk.injEq, eq_comm (b := s')]
    exact ⟨fun h => ⟨rfl, h.2⟩, fun h => ⟨rfl, h.2⟩⟩
  | false => exact iff_of_false nofun nofun

end Runs

/-- Every run of the program destroys these objects. -/
def Frees (m : Prog ω Unit) (d : Multiset ω) : Prop :=
  ∀ s u s', m s = some (u, s') → s'.live = s.live - d

theorem Frees.destroy (x : ω) : Frees (destroy x) {x} := by
  rintro s u s' h
  cases h
  exact (Multiset.sub_singleton x s.live).symm

theorem Frees.skip : Frees (pure () : Prog ω Unit) 0 := by
  rintro s u s' h
  rw [(pure_iff.1 h).2, Multiset.sub_zero]

theorem Frees.fail (d : Multiset ω) : Frees (failure : Prog ω Unit) d := nofun

/-- **After a call that can fail**, whatever its outcome. -/
theorem Frees.attempt {f : Bool → Prog ω Unit} {d : Multiset ω} (h : ∀ ok, Frees (f ok) d) :
    Frees (attempt >>= f) d := by
  intro s u s' hrun
  obtain ⟨ok, s₁, hok, hf⟩ := bind_iff.1 hrun
  obtain ⟨-, rfl⟩ := attempt_iff.1 hok
  rw [h ok _ _ _ hf]

/-- **After an assertion.** -/
theorem Frees.require {c : Bool} {m : Prog ω Unit} {d : Multiset ω} (h : Frees m d) :
    Frees (require c >>= fun _ => m) d := by
  intro s u s' hrun
  obtain ⟨_, s₁, hc, hm⟩ := bind_iff.1 hrun
  obtain ⟨-, rfl⟩ := require_iff.1 hc
  exact h _ _ _ hm

/-- **One after the other.** -/
theorem Frees.seq {m₁ m₂ : Prog ω Unit} {d₁ d₂ : Multiset ω} (h₁ : Frees m₁ d₁) (h₂ : Frees m₂ d₂) :
    Frees (m₁ >>= fun _ => m₂) (d₁ + d₂) := by
  intro s u s' h
  obtain ⟨u₁, s₁, hm₁, hm₂⟩ := bind_iff.1 h
  rw [h₂ _ _ _ hm₂, h₁ _ _ _ hm₁, Multiset.sub_add_eq_sub_sub]

/-- Every run of the program that returns `a` leaves these objects live, beside those that were. -/
def Adds (m : Prog ω α) (a : α) (added : Multiset ω) : Prop :=
  ∀ s s', m s = some (a, s') → s'.live = s.live + added

omit [DecidableEq ω] in
theorem Adds.other {a b : α} {added : Multiset ω} (h : a ≠ b) : Adds (pure b : Prog ω α) a added := by
  intro s s' hrun
  exact absurd (pure_iff.1 hrun).1 h

omit [DecidableEq ω] in
theorem Adds.attempt {f : Bool → Prog ω α} {a : α} {added : Multiset ω} (h : ∀ ok, Adds (f ok) a added) :
    Adds (attempt >>= f) a added := by
  intro s s' hrun
  obtain ⟨ok, s₁, hok, hf⟩ := bind_iff.1 hrun
  obtain ⟨-, rfl⟩ := attempt_iff.1 hok
  rw [h ok _ _ hf]

/-- **What is left of a composed object** that was created and destroyed: what its creation added beyond what its
destruction destroys. -/
theorem Frees.left {m : Prog ω Unit} {d left l : Multiset ω} {s s' : Sys ω} {u : Unit} (h : Frees m d)
    (hlive : s.live = l + (left + d)) (hrun : m s = some (u, s')) : s'.live = l + left := by
  rw [h _ _ _ hrun, hlive, ← add_assoc, Multiset.add_sub_cancel_right]

omit [DecidableEq ω] in
/-- **A lifecycle** is a creation that fails, or one that does not and a destruction. -/
theorem lifecycle_cases {new : Prog ω (Option α)} {free : α → Prog ω Unit} {s s' : Sys ω} {u : Unit}
    (h : lifecycle new free s = some (u, s')) :
    new s = some (none, s') ∨ ∃ a s₁, new s = some (some a, s₁) ∧ free a s₁ = some (u, s') := by
  obtain ⟨r, s₁, hnew, hrest⟩ := bind_iff.1 h
  cases r with
  | none =>
    rw [(pure_iff.1 hrest).2]
    exact .inl hnew
  | some a => exact .inr ⟨a, s₁, hnew, hrest⟩

/-- **A creation that leaks** exactly under some condition on the outcomes: beside what the destruction of what it
returns destroys, it adds something if and only if that holds. -/
def Leaves (new : Prog ω (Option α)) (destroyed : α → Multiset ω) (leaks : (ℕ → Bool) → Prop) : Prop :=
  ∀ s r s', new s = some (r, s') →
    ∃ left, (left = 0 ↔ ¬ leaks s.outcomes) ∧ s'.live = s.live + (left + r.elim 0 destroyed)

/-- **When a lifecycle leaves everything as it was.** -/
theorem Leaves.lifecycle {new : Prog ω (Option α)} {free : α → Prog ω Unit} {destroyed : α → Multiset ω}
    {leaks : (ℕ → Bool) → Prop} {s s' : Sys ω} {u : Unit} (h : Leaves new destroyed leaks)
    (hfree : ∀ a, Frees (free a) (destroyed a)) (hrun : lifecycle new free s = some (u, s')) :
    s'.live = s.live ↔ ¬ leaks s.outcomes := by
  have hleft : ∃ left, (left = 0 ↔ ¬ leaks s.outcomes) ∧ s'.live = s.live + left := by
    rcases lifecycle_cases hrun with hnone | ⟨a, s₁, hsome, hdone⟩
    · obtain ⟨left, hiff, hlive⟩ := h _ _ _ hnone
      exact ⟨left, hiff, by rw [hlive, Option.elim_none, add_zero]⟩
    · obtain ⟨left, hiff, hlive⟩ := h _ _ _ hsome
      exact ⟨left, hiff, (hfree a).left hlive hdone⟩
  obtain ⟨left, hiff, hlive⟩ := hleft
  rw [hlive, add_eq_left, hiff]

end Live
