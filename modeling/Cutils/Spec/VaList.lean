import Mathlib.Data.Nat.Notation

/-!
# Variadic arguments (`stdarg.h`)

A `va_list` that is passed to a function is a cursor into the arguments that caller and callee share, as on x86-64:
`va_arg` moves it on for both. The arguments are a stream; those behind the ones that were passed are what happens to
be in memory.
-/

namespace Cutils.VaList

variable {V β : Type}

/-- The body of a callback that is given a `va_list`: it returns, or goes on with what `va_arg` gives it. -/
inductive Body (V β : Type)
  | ret (b : β)
  | vaArg (k : V → Body V β)

/-- Run a body with the cursor at `cursor`: what it returns, and where it leaves the cursor. -/
def Body.run (args : ℕ → V) : Body V β → ℕ → β × ℕ
  | .ret b, cursor => (b, cursor)
  | .vaArg k, cursor => run args (k (args cursor)) (cursor + 1)

/-- The body reads an argument. -/
def Body.reads : Body V β → Bool
  | .ret _ => false
  | .vaArg _ => true

/-- Calls of `fn` along a list that all get the one `va_list`: each with the cursor it is given, and the cursor at the
end. -/
def callAll {α : Type} (args : ℕ → V) (fn : α → Body V β) : List α → ℕ → List (α × ℕ) × ℕ
  | [], cursor => ([], cursor)
  | a :: l, cursor =>
    let r := callAll args fn l ((fn a).run args cursor).2
    ((a, cursor) :: r.1, r.2)

end Cutils.VaList
