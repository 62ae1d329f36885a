import Cutils.Spec.KList
import Cutils.Spec.VaList

/-!
# The intrusive queue (`kqueue.h`)

Any number of queues over one set of elements. An operation is a function on the links of all elements
and on the queue it is given. The drop callback is client code that leaves the queue alone: it is a call with
the element. The loops are followed for `fuel` rounds, with none if they need more.
-/

namespace Cutils.KQueue

open KList VaList

variable {κ α V : Type} [DecidableEq κ] [DecidableEq α]

/-- A drop callback, by its address. -/
abbrev Callback := ℕ

/-- `kqueue_t`. -/
structure Queue (α : Type) where
  pHead : Option α
  pTail : Option α
  fDrop : Option Callback
  itemCount : UInt32

/-- `kqueue_init`. -/
def Queue.init (α : Type) : Queue α := ⟨none, none, none, 0⟩

/-- `kqueue_is_empty`. -/
def Queue.isEmpty (q : Queue α) : Bool := !(q.pHead.isSome && q.pTail.isSome)

section Calls

variable (m : Elems α) (q : Queue α)

/-- `kqueue_insert`. -/
def insert (elem : α) : Elems α × Queue α :=
  let r := m.tailAppend q.pTail elem
  -- the first element is also the head
  let pHead := if q.pHead = none then r.2 else q.pHead
  (r.1, { q with pTail := r.2, pHead := pHead, itemCount := q.itemCount + 1 })

/-- `kqueue_dequeue`, with the element. -/
def dequeue : Elems α × Queue α × Option α :=
  if q.isEmpty then (m, q, none)
  else
    -- the last element is also the tail
    let pTail := if q.pHead = q.pTail then none else q.pTail
    match q.pHead with
    | some item =>
      (m.removeElem item, { q with pTail := pTail, pHead := m.next item, itemCount := q.itemCount - 1 }, some item)
    | none => (m, q, none)

/-- `kqueue_drop_all`, with the calls of `f_drop`. -/
def dropAll : ℕ → Elems α → Queue α → Option (Elems α × Queue α × List (Callback × Option α))
  | 0, m, q => if q.isEmpty then some (m, q, []) else none
  | fuel + 1, m, q =>
    if q.isEmpty then some (m, q, [])
    else
      let r := dequeue m q
      -- a null `f_drop` is not called
      (dropAll fuel r.1 r.2.1).map fun x => (x.1, x.2.1, (q.fDrop.toList.map (·, r.2.2)) ++ x.2.2)

/-- `kqueue_drop_all_through_elem`, with the calls of `f_drop`; a call through a null `f_drop` is a fault, the inner
none. A null `p_elem` is `none`. -/
def dropAllThroughElem (elem : Option α) :
    ℕ → Elems α → Queue α → Option (Option (Elems α × Queue α × List (Callback × α)))
  | 0, _, _ => none
  | fuel + 1, m, q =>
    let r := dequeue m q
    match r.2.2 with
    -- the queue is empty, and the element was not in it
    | none => some (some (r.1, r.2.1, []))
    | some item =>
      match q.fDrop with
      -- here `f_drop` is not tested
      | none => some none
      | some cb =>
        if elem = some item then some (some (r.1, r.2.1, [(cb, item)]))
        else (dropAllThroughElem elem fuel r.1 r.2.1).map fun x =>
          x.map fun y => (y.1, y.2.1, (cb, item) :: y.2.2)

/-- The loop of `kqueue_find_first`; NULL is `none`. -/
def findFrom (fFind : α → Body V Bool) (args : ℕ → V) : ℕ → Option α → ℕ → Option (Option α)
  | _, none, _ => some none
  | 0, some _, _ => none
  | fuel + 1, some elem, cursor =>
    let r := (fFind elem).run args cursor
    if r.1 then some (some elem) else findFrom fFind args fuel (m.next elem) r.2

/-- `kqueue_find_first`. -/
def findFirst (fFind : α → Body V Bool) (args : ℕ → V) (fuel : ℕ) : Option (Option α) :=
  findFrom m fFind args fuel q.pHead 0

end Calls

/-- The queues `κ` over the elements `α`. -/
structure Queues (κ α : Type) where
  elems : Elems α
  queue : κ → Queue α

inductive Op (κ α : Type)
  | insert (k : κ) (elem : α)
  | dequeue (k : κ)
  | dropAll (k : κ)
  | registerDropAllCb (k : κ) (cb : Option Callback)
  | isEmpty (k : κ)
  | getItemCount (k : κ)
  deriving DecidableEq, Repr

inductive Obs (α : Type)
  | done
  | dequeued (item : Option α)
  | dropped (calls : List (Callback × Option α))
  | empty (retval : Bool)
  | count (retval : UInt32)
  deriving DecidableEq, Repr

namespace Queues

/-- `kqueue_init` of all queues, over elements with any links. -/
def init (elems : Elems α) : Queues κ α := ⟨elems, fun _ => .init α⟩

variable (s : Queues κ α)

/-- Write back an operation's result for queue `k`. -/
def put (k : κ) (elems : Elems α) (q : Queue α) : Queues κ α := ⟨elems, Function.update s.queue k q⟩

def call (fuel : ℕ) : Op κ α → Option (Queues κ α × Obs α)
  | .insert k elem =>
    let r := insert s.elems (s.queue k) elem
    some (s.put k r.1 r.2, .done)
  | .dequeue k =>
    let r := dequeue s.elems (s.queue k)
    some (s.put k r.1 r.2.1, .dequeued r.2.2)
  | .dropAll k => (dropAll fuel s.elems (s.queue k)).map fun r => (s.put k r.1 r.2.1, .dropped r.2.2)
  | .registerDropAllCb k cb => some (s.put k s.elems { s.queue k with fDrop := cb }, .done)
  | .isEmpty k => some (s, .empty (s.queue k).isEmpty)
  | .getItemCount k => some (s, .count (s.queue k).itemCount)

end Queues

end Cutils.KQueue
