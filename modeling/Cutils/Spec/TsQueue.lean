import Mathlib.Data.Nat.Notation
import Mathlib.Logic.Function.Basic

/-!
# The thread-safe queue (`pthread/ts_queue.h`)

`size_t` and `unsigned long` have one width `w`, and all counter arithmetic is modulo `2 ^ w`.
`head` counts the enqueues, `tail` the dequeues; the slot of a counter value is its low bits
under the mask `size - 1`. Items are non-null pointers `α`; a null item is `none`.

The functions here are the critical sections. What a thread does when its wait condition
holds is a parameter of the call: a `NO_SLEEP` call's timed wait times out at once.
-/

namespace Cutils.TsQueue

/-- `ts_queue_t`, without its mutex and condition variables. -/
structure Queue (w : ℕ) (α : Type) where
  ppPtrArray : ℕ → α
  size : BitVec w
  count : BitVec w
  head : BitVec w
  tail : BitVec w

variable {w : ℕ} {α : Type}

/-- `ts_queue_init`: `mutexNew` and `condInit` say whether the mutex and the condition
variables could be created. -/
def init (ptrArray : ℕ → α) (size : BitVec w) (mutexNew condInit : Bool) : Option (Queue w α) :=
  -- a power of two, tested before anything is created
  if !(0 < size && size &&& (size - 1) == 0) then none
  else if !mutexNew then none
  else if !condInit then none
  else some ⟨ptrArray, size, 0, 0, 0⟩

namespace Queue

variable (q : Queue w α)

/-- The wait condition of `ts_queue_enqueue`. -/
def isFull : Bool := q.tail + q.size ≤ q.head

/-- The wait condition of `ts_queue_dequeue`. -/
def isEmpty : Bool := q.tail ≥ q.head

/-- The slot of a counter value. -/
def slot (p : BitVec w) : ℕ := (p &&& (q.size - 1)).toNat

/-- The body of an enqueue that found room. -/
def put (item : α) : Queue w α :=
  { q with
    ppPtrArray := Function.update q.ppPtrArray (q.slot q.head) item
    head := q.head + 1
    -- `head` wraps around, and `count` follows the number of items
    count := q.count + 1 }

/-- The body of a dequeue that found an item. -/
def take : Queue w α × α :=
  ({ q with tail := q.tail + 1, count := q.count - 1 }, q.ppPtrArray (q.slot q.tail))

/-- The results of a condition wait that matter here. -/
inductive Wait
  | zero
  | timedOut
  deriving DecidableEq, Repr

/-- The wait loop of a `NO_SLEEP` call: the first wait times out, which ends the loop. -/
def noSleep (waiting : Bool) : Wait := if waiting then .timedOut else .zero

/-- `ts_queue_enqueue(p_queue, p_item, NO_SLEEP)`. -/
def enqueue (item : Option α) : Queue w α × Bool :=
  match item with
  | none => (q, false)
  | some x => if noSleep q.isFull ≠ .timedOut then (q.put x, true) else (q, false)

/-- `ts_queue_dequeue(p_queue, pp_item, NO_SLEEP)`, with the item it stored. -/
def dequeue : Queue w α × Option α :=
  if noSleep q.isEmpty = .zero then (q.take.1, some q.take.2) else (q, none)

/-- `ts_queue_get_count`. -/
def getCount : ℕ := q.count.toNat

end Queue

/-- The calls a client makes. -/
inductive Op (α : Type)
  | enqueue (item : α)
  | dequeue
  | getCount
  deriving DecidableEq, Repr

/-- Their answers. -/
inductive Obs (α : Type)
  | enqueued (retval : Bool)
  | dequeued (item : Option α)
  | count (n : ℕ)
  deriving DecidableEq, Repr

/-- One call, its critical section taken as atomic. -/
def Queue.call (q : Queue w α) : Op α → Option (Queue w α × Obs α)
  | .enqueue x => some ((q.enqueue (some x)).1, .enqueued (q.enqueue (some x)).2)
  | .dequeue => some (q.dequeue.1, .dequeued q.dequeue.2)
  | .getCount => some (q, .count q.getCount)

end Cutils.TsQueue
