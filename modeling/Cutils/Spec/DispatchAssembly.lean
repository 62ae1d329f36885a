import Cutils.Lib.Simulation
import Cutils.Spec.DispatchQueue
import Cutils.Spec.TsQueue
import Mathlib.Algebra.Group.Nat.Defs

/-!
# The dispatch queue with its thread-safe queues (`dispatch_queue.c`, `pool.h`)

`Dispatch.Queue` takes its action queue and its pool's free blocks as bounded FIFO queues. Here both are the
`ts_queue_t` they are, with `w`-bit counters and the power of two that `ts_queue_init` asks for. A dispatch queue
posts, frees blocks and sends its kill request without waiting, the worker waits for ever.

The reference counts of the blocks are not part of this: each block has one reference.
-/

namespace Cutils.Dispatch

/-- `dispatch_queue_t`, its pool, its threads, and what has happened so far. -/
structure Assembly (w : ℕ) where
  destroying : Bool
  pool : TsQueue.Queue w ℕ
  blocks : ℕ → ℕ × PostData
  queue : TsQueue.Queue w Item
  calls : List Call
  worker : WorkerPc
  destroyer : DestroyPc
  enqueued : List (ℕ × PostData)
  executed : List (ℕ × PostData)
  tripped : Option Site

namespace Assembly

variable {w : ℕ}

/-- `pool_create`: all blocks go into the free queue. -/
def poolCreate (ptrArray : ℕ → ℕ) (size : BitVec w) : Option (TsQueue.Queue w ℕ) :=
  (TsQueue.init ptrArray size true true).map fun q =>
    (List.range size.toNat).foldl (fun q b => (q.enqueue (some b)).1) q

/-- `dispatch_queue_create`, with a pool of `size` blocks and an action queue of the same size. Both assertions
trip for a size that `ts_queue_init` does not accept. -/
def create (ptrArray : ℕ → ℕ) (items : ℕ → Item) (blocks : ℕ → ℕ × PostData) (size : BitVec w) :
    Option (Assembly w) :=
  (TsQueue.init items size true true).bind fun queue =>
    (poolCreate ptrArray size).map fun pool =>
      ⟨false, pool, blocks, queue, [], .dequeue, .idle, [], [], none⟩

variable (s : Assembly w)

def torn : Bool := s.destroyer == .returned

def actionPosting : Bool := s.calls.any fun c => c.byAction && c.pc.inProgress

def setCall (i : ℕ) (c : Call) (pc : CallPc) : Assembly w :=
  { s with calls := s.calls.set i { c with pc := pc } }

/-- The next step of a `dispatch_async_f` call. -/
def callStep (i : ℕ) (c : Call) : Option (Assembly w) :=
  match c.pc with
  | .load => some (s.setCall i c (if s.destroying then .returned false else .alloc))
  | .alloc =>
    match s.torn, s.pool.dequeue with
    | false, (pool, some b) => some { s.setCall i c (.fill b) with pool := pool }
    | _, _ => some { s with tripped := some .postAlloc }
  | .fill b => some { s.setCall i c (.enqueue b) with blocks := Function.update s.blocks b (i, c.post) }
  | .enqueue b =>
    match s.torn, s.queue.enqueue (some (.data b)) with
    | false, (queue, true) =>
      some { s.setCall i c (.returned true) with queue := queue, enqueued := s.enqueued ++ [s.blocks b] }
    | _, _ => some { s with tripped := some .postEnqueue }
  | .returned _ => none

/-- The next step of `dispatch_queue_worker`. -/
def workerStep : Option (Assembly w) :=
  match s.worker with
  | .dequeue =>
    if s.queue.isEmpty then none
    else match s.queue.take with
      | (queue, .kill) => some { s with queue := queue, worker := .signal }
      | (queue, .data b) => some { s with queue := queue, worker := .call b }
  | .call b => some { s with worker := .running b, executed := s.executed ++ [s.blocks b] }
  | .running b => if s.actionPosting then none else some { s with worker := .free b }
  -- `pool_free` does not look at what its enqueue returns
  | .free b => some { s with worker := .dequeue, pool := (s.pool.enqueue (some b)).1 }
  | .signal => some { s with worker := .exited }
  | .exited => none

/-- The next step of `dispatch_queue_destroy`. -/
def destroyerStep : Option (Assembly w) :=
  match s.destroyer with
  | .idle | .returned => none
  | .kill =>
    match s.queue.enqueue (some .kill) with
    | (queue, true) => some { s with queue := queue, destroyer := .wait }
    | (_, false) => some { s with tripped := some .killEnqueue }
  | .wait => if s.worker == .exited then some { s with destroyer := .teardown } else none
  | .teardown => some { s with destroyer := .returned }

def step (a : Act) : Option (Assembly w) :=
  if s.tripped.isSome then none
  else match a with
  | .post data byAction =>
    if byAction && (s.actionPosting || !s.worker.inAction) then none
    else some { s with calls := s.calls ++ [⟨data, byAction, .load⟩] }
  | .call i => (s.calls[i]?).bind (s.callStep i)
  | .worker => s.workerStep
  | .destroy =>
    if s.destroyer == .idle then some { s with destroying := true, destroyer := .kill } else none
  | .destroyer => s.destroyerStep

/-- A dispatch queue that was just created. -/
def system (w : ℕ) (size : BitVec w) : Sys.System (Assembly w) Act :=
  ⟨fun s => ∃ ptrArray items blocks, create ptrArray items blocks size = some s, step⟩

/-- The abstract queue, its pool and its action queue given as lists. -/
def view (capacity : ℕ) (pool : List ℕ) (queue : List Item) : Queue :=
  ⟨capacity, s.destroying, pool, s.blocks, queue, s.calls, s.worker, s.destroyer, s.enqueued, s.executed, s.tripped⟩

/-- The full test of an enqueue does not wrap. -/
def Fits {α : Type} (q : TsQueue.Queue w α) : Prop := q.tail.toNat + q.size.toNat < 2 ^ w

/-- The step makes no enqueue whose full test wraps: on the action queue, or on the free queue. -/
def TestsFit : Act → Prop
  | .call i => ∀ c b, s.calls[i]? = some c → c.pc = .enqueue b → Fits s.queue
  | .worker => ∀ b, s.worker = .free b → Fits s.pool
  | .destroyer => s.destroyer = .kill → Fits s.queue
  | _ => True

end Assembly

end Cutils.Dispatch
