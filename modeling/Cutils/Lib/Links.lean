import Mathlib.Data.List.Nodup
import Mathlib.Logic.Function.Basic

/-!
# Lists threaded through link fields

A list of elements of `α` is threaded through memory when the link of each element leads to the
one after it (`Fwd`), and back (`Bwd`). `walk` follows the links.

* `Fwd.walk`: the walk from the first element visits exactly the list.
* `Fwd.congr`, `Bwd.congr`: links of other elements do not matter.
* `Fwd.unlink`, `Bwd.unlink`: taking out one element.
* `Fwd.concat`, `Bwd.concat`: one more element at the end.
* `Path`: a list whose last link may lead anywhere.
-/

namespace Links

variable {α : Type*} {next next' prev prev' : α → Option α} {p : Option α} {l l₁ l₂ : List α} {a b : α}

/-- `next` leads from each element to the one after it, and from the last to none. -/
def Fwd (next : α → Option α) : List α → Prop
  | [] => True
  | a :: l => next a = l.head? ∧ Fwd next l

/-- `prev` leads from each element to the one before it, and from the first to `p`. -/
def Bwd (prev : α → Option α) : Option α → List α → Prop
  | _, [] => True
  | p, a :: l => prev a = p ∧ Bwd prev (some a) l

/-- Follow `next`; none if there are more than `n` elements on the way. -/
def walk (next : α → Option α) : ℕ → Option α → Option (List α)
  | _, none => some []
  | 0, some _ => none
  | n + 1, some a => (walk next n (next a)).map (a :: ·)

theorem Fwd.walk (h : Fwd next l) {n : ℕ} (hn : l.length ≤ n) : walk next n l.head? = some l := by
  induction l generalizing n with
  | nil => cases n <;> rfl
  | cons a l ih =>
    obtain ⟨n, rfl⟩ := Nat.exists_eq_succ_of_ne_zero (Nat.ne_of_gt (Nat.lt_of_lt_of_le (by simp) hn))
    have hl : l.length ≤ n := by simpa using hn
    show (Links.walk next n (next a)).map (a :: ·) = some (a :: l)
    rw [h.1, ih h.2 hl]
    rfl

theorem Fwd.congr (h : Fwd next l) (hl : ∀ a ∈ l, next' a = next a) : Fwd next' l := by
  induction l with
  | nil => trivial
  | cons a l ih =>
    refine ⟨?_, ih h.2 fun x hx => hl x (List.mem_cons_of_mem _ hx)⟩
    rw [hl a List.mem_cons_self]
    exact h.1

theorem Bwd.congr (h : Bwd prev p l) (hl : ∀ a ∈ l, prev' a = prev a) : Bwd prev' p l := by
  induction l generalizing p with
  | nil => trivial
  | cons a l ih =>
    refine ⟨?_, ih h.2 fun x hx => hl x (List.mem_cons_of_mem _ hx)⟩
    rw [hl a List.mem_cons_self]
    exact h.1

theorem Fwd.next_eq (h : Fwd next (l₁ ++ a :: l₂)) : next a = l₂.head? := by
  induction l₁ with
  | nil => exact h.1
  | cons x l₁ ih => exact ih h.2

theorem Bwd.prev_eq (h : Bwd prev p (l₁ ++ b :: a :: l₂)) : prev a = some b := by
  induction l₁ generalizing p with
  | nil => exact h.2.1
  | cons x l₁ ih => exact ih h.2

theorem Fwd.right (h : Fwd next (l₁ ++ l₂)) : Fwd next l₂ := by
  induction l₁ with
  | nil => exact h
  | cons x l₁ ih => exact ih h.2

/-- The first of the elements on the right is none of the others. -/
theorem head?_ne_of_nodup (hnd : (l₁ ++ l₂).Nodup) (ha : a ∈ l₁ ++ l₂.tail) : l₂.head? ≠ some a := by
  cases l₂ with
  | nil => simp
  | cons c l₂ =>
    rw [List.head?_cons, ne_eq, Option.some.injEq]
    rintro rfl
    obtain ⟨-, hc, hdisj⟩ := List.nodup_append.1 hnd
    rcases List.mem_append.1 ha with ha | ha
    · exact hdisj c ha c List.mem_cons_self rfl
    · exact (List.nodup_cons.1 hc).1 ha

/-- Take out `a`: the element before it leads to the one after it. -/
theorem Fwd.unlink (h : Fwd next (l₁ ++ b :: a :: l₂)) (hb : next' b = next a)
    (hother : ∀ x ∈ l₁ ++ l₂, next' x = next x) : Fwd next' (l₁ ++ b :: l₂) := by
  induction l₁ with
  | nil =>
    refine ⟨?_, h.2.2.congr hother⟩
    rw [hb]
    exact h.2.1
  | cons x l₁ ih =>
    refine ⟨?_, ih h.2 fun y hy => hother y (List.mem_cons_of_mem _ hy)⟩
    rw [hother x List.mem_cons_self, h.1]
    cases l₁ <;> rfl

/-- Take out `a`: the element after it leads back to the one before it. -/
theorem Bwd.unlink (h : Bwd prev p (l₁ ++ a :: l₂)) (ha : ∀ c, l₂.head? = some c → prev' c = prev a)
    (hother : ∀ x ∈ l₁ ++ l₂.tail, prev' x = prev x) : Bwd prev' p (l₁ ++ l₂) := by
  induction l₁ generalizing p with
  | nil =>
    cases l₂ with
    | nil => trivial
    | cons c l₂ =>
      refine ⟨?_, h.2.2.congr hother⟩
      rw [ha c rfl]
      exact h.1
  | cons x l₁ ih =>
    refine ⟨?_, ih h.2 fun y hy => hother y (List.mem_cons_of_mem _ hy)⟩
    rw [hother x List.mem_cons_self]
    exact h.1

/-- One more element at the end: the last one leads to it. -/
theorem Fwd.concat (h : Fwd next (l ++ [a])) (ha : next' a = some b) (hb : next' b = none)
    (hother : ∀ x ∈ l, next' x = next x) : Fwd next' (l ++ [a, b]) := by
  induction l with
  | nil => exact ⟨ha, hb, trivial⟩
  | cons x l ih =>
    refine ⟨?_, ih h.2 fun y hy => hother y (List.mem_cons_of_mem _ hy)⟩
    rw [hother x List.mem_cons_self, h.1]
    cases l <;> rfl

theorem Bwd.concat (h : Bwd prev p (l ++ [a])) (hb : prev' b = some a)
    (hother : ∀ x ∈ l ++ [a], prev' x = prev x) : Bwd prev' p (l ++ [a, b]) := by
  induction l generalizing p with
  | nil => exact ⟨(hother a (by simp)).trans h.1, hb, trivial⟩
  | cons x l ih =>
    refine ⟨?_, ih h.2 fun y hy => hother y (List.mem_cons_of_mem _ hy)⟩
    rw [hother x List.mem_cons_self]
    exact h.1

/-- From `p`, the links lead through the list; where the last one leads is left open. -/
def Path (next : α → Option α) : Option α → List α → Prop
  | _, [] => True
  | p, a :: l => p = some a ∧ Path next (next a) l

theorem Path.congr (h : Path next p l) (hl : ∀ a ∈ l, next' a = next a) : Path next' p l := by
  induction l generalizing p with
  | nil => trivial
  | cons a l ih =>
    refine ⟨h.1, ?_⟩
    rw [hl a List.mem_cons_self]
    exact ih h.2 fun x hx => hl x (List.mem_cons_of_mem _ hx)

end Links
