import Cutils.Spec.Pool

/-!
# Whole calls on a pool (`pool.h`)

`Store` is a pool whose calls are not interrupted by one another, with what `Spec/Pool.lean` leaves
out: `pool_destroy`, and `pool_create` again over the same memory. A null queue is `none`; there a
dequeue and an enqueue fail. Header and trailer words are intact and there are no destructors, so
that of the assertions only the one on the retain count can fail.
-/

namespace Cutils.Blocks

/-- `pool_t`, with the retain counts of its elements. -/
structure Store where
  numOfElements : ℕ
  q : Option (List ℕ)
  retainCount : ℕ → ℕ

namespace Store

/-- Storage that no pool was created on. -/
def fresh (numOfElements : ℕ) : Store := ⟨numOfElements, none, fun _ => 0⟩

variable (p : Store)

/-- `pool_create`, over the pool's own memory. -/
def create : Store :=
  { p with
    q := some (List.range p.numOfElements)
    retainCount := fun b => if b < p.numOfElements then 0 else p.retainCount b }

/-- `pool_destroy`. -/
def destroy : Store := { p with q := none }

/-- The blocks in the free queue. -/
def free : List ℕ := p.q.getD []

/-- The dequeue of `pool_alloc`: none from a null or an empty queue. -/
def dequeue : Option (ℕ × Store) :=
  match p.q with
  | some (b :: rest) => some (b, { p with q := some rest })
  | _ => none

/-- `ts_queue_enqueue`: a null or a full queue refuses. -/
def enqueue (b : ℕ) : Store :=
  match p.q with
  | some q => if q.length < p.numOfElements then { p with q := some (q ++ [b]) } else p
  | none => p

/-- The increment of a retain count. -/
def fetchAdd (b : ℕ) : Store :=
  { p with retainCount := Function.update p.retainCount b (p.retainCount b + 1) }

/-- The decrement of a retain count. -/
def fetchSub (b : ℕ) : Store :=
  { p with retainCount := Function.update p.retainCount b (p.retainCount b - 1) }

/-- `pool_alloc`; null is `none`. -/
def alloc : Option ℕ × Store :=
  match p.dequeue with
  | some (b, p') => (some b, p'.fetchAdd b)
  | none => (none, p)

/-- `pool_free`; none if its assertion fails. -/
def release (b : ℕ) : Option Store :=
  if p.retainCount b = 0 then none
  else if p.retainCount b = 1 then some ((p.fetchSub b).enqueue b)
  else some (p.fetchSub b)

end Store

end Cutils.Blocks
