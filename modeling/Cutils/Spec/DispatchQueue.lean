import Cutils.Lib.Reach

/-!
# The dispatch queue (`dispatch_queue.h`, `dispatch_queue.c`)

Any number of `dispatch_async_f` calls, the worker and one `dispatch_queue_destroy`
call interleave. The post-data pool and the action queue are bounded FIFO queues of the
same capacity with atomic operations (`DISPATCH_QUEUE_STORE_DECL` gives both the one
`queue_size`); a block is its index in the pool.

Each call is an entry of `calls`, so that calls of any number of threads overlap in any
way. A call made by the action the worker is running (`byAction`) is also an entry: the
worker does not return from the action before that call has returned.

`CUTILS_ASSERT` writes through a null pointer. A run ends there, and `tripped` says where.
-/

namespace Cutils.Dispatch

/-- The contents of a post-data block, `dispatch_queue_post_data_t`. -/
structure PostData where
  fn : ℕ
  arg1 : ℕ
  arg2 : ℕ
  deriving DecidableEq, Repr

/-- Where a `dispatch_async_f` call is: before its load of `destroying`, before its pool
allocation, before it fills its block, before its enqueue, or back with a result. -/
inductive CallPc
  | load
  | alloc
  | fill (block : ℕ)
  | enqueue (block : ℕ)
  | returned (retval : Bool)
  deriving DecidableEq, Repr

structure Call where
  post : PostData
  byAction : Bool
  pc : CallPc
  deriving DecidableEq, Repr

/-- An item of the action queue: a block, or the queue's own address as kill request. -/
inductive Item
  | data (block : ℕ)
  | kill
  deriving DecidableEq, Repr

/-- Where `dispatch_queue_worker` is: before a dequeue, before it calls the action of the
block it got, inside the action, before `pool_free`, before `signal_send`, or gone. -/
inductive WorkerPc
  | dequeue
  | call (block : ℕ)
  | running (block : ℕ)
  | free (block : ℕ)
  | signal
  | exited
  deriving DecidableEq, Repr

/-- Where `dispatch_queue_destroy` is: not called, past its test-and-set, before its
`signal_wait` returns, before the teardown, or back. -/
inductive DestroyPc
  | idle
  | kill
  | wait
  | teardown
  | returned
  deriving DecidableEq, Repr

/-- The assertions that can trip. -/
inductive Site
  | postAlloc
  | postEnqueue
  | killEnqueue
  deriving DecidableEq, Repr

/-- The queue, its threads, and what has happened so far. A block's contents carry the
call that wrote them, and so do the histories of enqueued and of executed actions. -/
structure Queue where
  capacity : ℕ
  destroying : Bool
  pool : List ℕ
  blocks : ℕ → ℕ × PostData
  queue : List Item
  calls : List Call
  worker : WorkerPc
  destroyer : DestroyPc
  enqueued : List (ℕ × PostData)
  executed : List (ℕ × PostData)
  tripped : Option Site

inductive Act
  | post (data : PostData) (byAction : Bool)
  | call (i : ℕ)
  | worker
  | destroy
  | destroyer
  deriving DecidableEq, Repr

def CallPc.inProgress : CallPc → Bool
  | .returned _ => false
  | _ => true

def CallPc.block : CallPc → Option ℕ
  | .fill b | .enqueue b => some b
  | _ => none

def WorkerPc.block : WorkerPc → Option ℕ
  | .call b | .running b | .free b => some b
  | _ => none

def WorkerPc.inAction : WorkerPc → Bool
  | .running _ => true
  | _ => false

/-- The worker has an action it has not finished. -/
def WorkerPc.busy : WorkerPc → Bool
  | .call _ | .running _ => true
  | _ => false

def Item.block : Item → Option ℕ
  | .data b => some b
  | .kill => none

@[simp] theorem CallPc.block_load : CallPc.load.block = none := rfl
@[simp] theorem CallPc.block_alloc : CallPc.alloc.block = none := rfl
@[simp] theorem CallPc.block_fill (b : ℕ) : (CallPc.fill b).block = some b := rfl
@[simp] theorem CallPc.block_enqueue (b : ℕ) : (CallPc.enqueue b).block = some b := rfl
@[simp] theorem CallPc.block_returned (r : Bool) : (CallPc.returned r).block = none := rfl
@[simp] theorem WorkerPc.block_dequeue : WorkerPc.dequeue.block = none := rfl
@[simp] theorem WorkerPc.block_call (b : ℕ) : (WorkerPc.call b).block = some b := rfl
@[simp] theorem WorkerPc.block_running (b : ℕ) : (WorkerPc.running b).block = some b := rfl
@[simp] theorem WorkerPc.block_free (b : ℕ) : (WorkerPc.free b).block = some b := rfl
@[simp] theorem WorkerPc.block_signal : WorkerPc.signal.block = none := rfl
@[simp] theorem WorkerPc.block_exited : WorkerPc.exited.block = none := rfl
@[simp] theorem Item.block_data (b : ℕ) : (Item.data b).block = some b := rfl
@[simp] theorem Item.block_kill : Item.kill.block = none := rfl

namespace Queue

def create (capacity : ℕ) (blocks : ℕ → ℕ × PostData) : Queue :=
  ⟨capacity, false, List.range capacity, blocks, [], [], .dequeue, .idle, [], [], none⟩

/-- The queue was torn down: `p_pool` and `queue` are null. -/
def torn (q : Queue) : Bool := q.destroyer == .returned

/-- The kill request has been enqueued. -/
def killed (q : Queue) : Bool := !(q.destroyer == .idle || q.destroyer == .kill)

/-- The running action is inside a `dispatch_async_f` call. -/
def actionPosting (q : Queue) : Bool := q.calls.any fun c => c.byAction && c.pc.inProgress

def setCall (q : Queue) (i : ℕ) (c : Call) (pc : CallPc) : Queue :=
  { q with calls := q.calls.set i { c with pc := pc } }

/-- The next step of call `i`. -/
def callStep (q : Queue) (i : ℕ) (c : Call) : Option Queue :=
  match c.pc with
  | .load => some (q.setCall i c (if q.destroying then .returned false else .alloc))
  | .alloc =>
    -- `pool_alloc` of a null pool returns null, and so does one of an empty pool
    match q.torn, q.pool with
    | false, b :: rest => some { q.setCall i c (.fill b) with pool := rest }
    | _, _ => some { q with tripped := some .postAlloc }
  | .fill b => some { q.setCall i c (.enqueue b) with blocks := Function.update q.blocks b (i, c.post) }
  | .enqueue b =>
    -- `ts_queue_enqueue` of a null queue is refused
    if !q.torn && q.queue.length < q.capacity then
      some { q.setCall i c (.returned true) with
        queue := q.queue ++ [.data b]
        enqueued := q.enqueued ++ [q.blocks b] }
    else some { q with tripped := some .postEnqueue }
  | .returned _ => none

/-- The worker's next step. -/
def workerStep (q : Queue) : Option Queue :=
  match q.worker with
  | .dequeue => match q.queue with
    | [] => none
    | .kill :: rest => some { q with queue := rest, worker := .signal }
    | .data b :: rest => some { q with queue := rest, worker := .call b }
  | .call b => some { q with worker := .running b, executed := q.executed ++ [q.blocks b] }
  | .running b => if q.actionPosting then none else some { q with worker := .free b }
  | .free b =>
    some { q with
      worker := .dequeue
      pool := if q.pool.length < q.capacity then q.pool ++ [b] else q.pool }
  | .signal => some { q with worker := .exited }
  | .exited => none

/-- The next step of `dispatch_queue_destroy`. -/
def destroyerStep (q : Queue) : Option Queue :=
  match q.destroyer with
  | .idle | .returned => none
  | .kill =>
    if q.queue.length < q.capacity then
      some { q with queue := q.queue ++ [.kill], destroyer := .wait }
    else some { q with tripped := some .killEnqueue }
  | .wait => if q.worker == .exited then some { q with destroyer := .teardown } else none
  | .teardown => some { q with destroyer := .returned }

def step (q : Queue) (a : Act) : Option Queue :=
  if q.tripped.isSome then none
  else match a with
  | .post data byAction =>
    -- an action posts only while it runs, one call at a time
    if byAction && (q.actionPosting || !q.worker.inAction) then none
    else some { q with calls := q.calls ++ [⟨data, byAction, .load⟩] }
  | .call i => (q.calls[i]?).bind (q.callStep i)
  | .worker => q.workerStep
  | .destroy =>
    if q.destroyer == .idle then some { q with destroying := true, destroyer := .kill } else none
  | .destroyer => q.destroyerStep

def system (capacity : ℕ) : Sys.System Queue Act :=
  ⟨fun q => ∃ blocks, q = create capacity blocks, step⟩

/-- Calls that hold a block they have not enqueued. -/
def allocated (q : Queue) : ℕ := q.calls.countP fun c => c.pc.block.isSome

/-- Blocks waiting in the action queue. -/
def queued (q : Queue) : ℕ := q.queue.countP fun x => x.block.isSome

/-- The block the worker holds, between its dequeue and its `pool_free`. -/
def running (q : Queue) : ℕ := q.worker.block.toList.length

/-- Actions under way: being posted by a call that has passed its load of `destroying`,
waiting, or at the worker and not finished. -/
def outstanding (q : Queue) : ℕ :=
  q.calls.countP (fun c => c.pc == .alloc) + q.allocated + q.queued + q.worker.busy.toNat

/-- A call that takes its allocation before the teardown, or its enqueue before the kill request. -/
def postOk (q : Queue) : CallPc → Bool
  | .alloc => !q.torn
  | .enqueue _ => !q.killed
  | _ => true

/-- **No post straggles behind the shutdown**: no call takes its allocation after the
teardown, or its enqueue after the kill request. -/
def PostsBeforeKill (q : Queue) (a : Act) : Prop :=
  ∀ i c, a = .call i → q.calls[i]? = some c → q.postOk c.pc = true

instance (q : Queue) : (a : Act) → Decidable (q.PostsBeforeKill a)
  | .call i => decidable_of_iff (∀ c ∈ q.calls[i]?, q.postOk c.pc = true)
      ⟨fun h j c hj hc => h c (by cases hj; exact hc), fun h c hc => h i c rfl hc⟩
  | .post _ _ | .worker | .destroy | .destroyer => isTrue fun _ _ h => by cases h

end Queue

end Cutils.Dispatch
