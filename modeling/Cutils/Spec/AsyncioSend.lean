import Cutils.Spec.Asyncio
import Cutils.Spec.DispatchQueue

/-!
# Whole calls on the transmit side of a stream

`asyncio_send_buffer` and the calls around it, none of which is interrupted by another; the steps inside them are in
`Spec/Asyncio.lean`. The worker's dispatch queue is not endless here: it has as many post-data blocks as it has places,
and a post that finds none trips an assertion (none).

The rest of the program is given by what it does to the instance: the flags and states it sets, the actions it
posts to the worker. A new pool is created when no request is waiting at the worker. It is over the memory of the
old one, and takes no token away from a client.
-/

namespace Cutils.Asyncio.Send

open Blocks

/-- An action at the worker: `tx_f` on a request, or one of somebody else. -/
inductive Job
  | txF (request : ℕ)
  | other (id : ℕ)
  deriving DecidableEq, Repr

/-- The request an action sends. -/
def Job.request : Job → Option ℕ
  | .txF request => some request
  | .other _ => none

/-- `dispatch_queue_t`, with the block and the action it runs. -/
structure Worker where
  capacity : ℕ
  destroying : Bool
  pool : List ℕ
  queue : List (ℕ × Job)
  running : Option (ℕ × Job)
  room : pool.length + queue.length + running.toList.length ≤ capacity

namespace Worker

/-- `dispatch_queue_create`. -/
def create (capacity : ℕ) : Worker := ⟨capacity, false, List.range capacity, [], none, by simp⟩

variable (w : Worker)

/-- The end of `dispatch_async_f`: the block that `pool_alloc` gave is filled and queued. -/
def enqueue (block : ℕ) (rest : List ℕ) (h : w.pool = block :: rest) (j : Job) : Worker :=
  { w with
    pool := rest
    queue := w.queue ++ [(block, j)]
    room := by
      have := w.room
      rw [h, List.length_cons] at this
      rw [List.length_append, List.length_singleton]
      omega }

/-- `dispatch_async_f`; none if an assertion trips. -/
def dispatchAsyncF (j : Job) : Option (Worker × Bool) :=
  -- a queue that is being destroyed refuses
  if w.destroying then some (w, false)
  else match h : w.pool with
    | block :: rest => some (w.enqueue block rest h j, true)
    -- the assertion that a block was free
    | [] => none

/-- The worker takes the next action from the queue. -/
def take : Worker :=
  match hr : w.running, hq : w.queue with
  -- the worker takes an action only when it is in none
  | none, x :: rest => { w with
      queue := rest
      running := some x
      room := by
        have := w.room
        rw [hq, hr] at this
        simpa [Nat.add_assoc, Nat.add_comm 1] using this }
  | _, _ => w

/-- The worker gives back the block of the action that is over. -/
def finish : Worker :=
  match hr : w.running with
  | some x => { w with
      pool := w.pool ++ [x.1]
      running := none
      room := by
        have := w.room
        rw [hr] at this
        simp only [Option.toList_some, List.length_singleton, Option.toList_none, List.length_nil, List.length_append] at *
        omega }
  | none => w

/-- The test-and-set of `dispatch_queue_destroy`. -/
def destroy : Worker := { w with destroying := true }

/-- The requests that wait or are sent. -/
def pending : List ℕ := (w.running.toList ++ w.queue).filterMap fun x => x.2.request

end Worker

/-- `asyncio_interface_instance_t`, as far as sending looks at it, and the tokens that clients hold. -/
structure State where
  initState : InitState
  txInitState : InitState
  streamStopped : Bool
  isInError : Bool
  maxTxDataChunkSize : UInt32
  bufferPool : Store
  request : ℕ → Request
  worker : Option Worker
  held : List ℕ

/-- What the rest of the program sets. -/
inductive Setting
  | initState (x : InitState)
  | txInitState (x : InitState)
  | streamStopped (x : Bool)
  | isInError (x : Bool)
  | workerDestroying
  | poolCreate
  | poolDestroy
  deriving DecidableEq, Repr

namespace State

/-- `asyncio_create_instance` with a worker that was just created, or a null one. -/
def create (maxTxDataChunkSize : UInt32) (numOfElements : ℕ) (queueSize : Option ℕ) : State where
  initState := .uninitialized
  txInitState := .uninitialized
  streamStopped := true
  isInError := false
  maxTxDataChunkSize := maxTxDataChunkSize
  bufferPool := Store.fresh numOfElements
  request := fun _ => ⟨0, none, 0, []⟩
  worker := queueSize.map Worker.create
  held := []

variable (s : State)

/-- The requests that wait at the worker or are sent. -/
def pending : List ℕ := s.worker.elim [] Worker.pending

/-- `asyncio_tx_token_get_max_data_size`. -/
def getMaxDataSize : UInt32 := s.maxTxDataChunkSize

/-- `asyncio_allocate_tx_token`; null is `none`. -/
def allocateTxToken : State × Option ℕ :=
  if s.txInitState = .initialized then
    match s.bufferPool.alloc with
    | (some b, pool) =>
      ({ s with
        bufferPool := pool
        request := Function.update s.request b { s.request b with size := 0, fn := none, priv := 0 }
        held := b :: s.held }, some b)
    | (none, _) => (s, none)
  else (s, none)

/-- The post in `asyncio_send_buffer`. A null worker refuses. -/
def post (j : Job) : Option (State × Bool) :=
  match s.worker with
  | some w => (w.dispatchAsyncF j).map fun r => ({ s with worker := some r.1 }, r.2)
  | none => some (s, false)

/-- `asyncio_send_buffer`; `hAsyncio` is whether the handle is not null, and a null token is `none`. A token that was
accepted is no longer with the client. None if an assertion trips. -/
def sendBuffer (hAsyncio : Bool) (token : Option ℕ) (size : UInt32) (fn : Option ℕ) (priv : ℕ) : Option (State × Bool) :=
  match hAsyncio, token with
  | true, some b =>
    if !s.streamStopped ∧ s.txInitState = .initialized ∧ 0 < size ∧ size < s.maxTxDataChunkSize then
      -- the fields are set before the post, and stay if it is refused
      let s := { s with
        request := Function.update s.request b { s.request b with size := size, fn := fn, priv := priv } }
      (s.post (.txF b)).map fun r => (if r.2 then { r.1 with held := s.held.erase b } else r.1, r.2)
    else some (s, false)
  | _, _ => some (s, false)

/-- `asyncio_release_tx_token`. The client has given the token up, also where nothing is done. -/
def releaseTxToken (hAsyncio : Bool) (token : Option ℕ) : Option State :=
  match hAsyncio, token with
  | true, some b =>
    if s.txInitState = .initialized then
      (s.bufferPool.release b).map ({ s with bufferPool := ·, held := s.held.erase b })
    -- of a side that is not started no block goes back
    else some { s with held := s.held.erase b }
  | false, some b => some { s with held := s.held.erase b }
  | _, none => some s

/-- What `tx_f` does with the request in block `b` before it frees it: `n` is what `write_f` returns. -/
def txEvents (b n : ℕ) : List Event :=
  let r := s.request b
  if s.initState = .initialized then
    let notify : SendStatus → ℕ → List Event := fun status bytesWritten =>
      r.fn.toList.map fun fn => .notify b fn status (bytesWritten % 2 ^ 32) r.priv
    -- nothing is written, and the client is told that 0 bytes were
    if s.isInError then notify .interfaceInError 0
    else .write b r.size r.payload n ::
      notify (if n = r.size.toNat then SendStatus.sendSuccess else .sendMessageFail) n
  else []

/-- The action the worker is in, to its end. -/
def run (n : ℕ) : Option (State × List Event) :=
  match s.worker with
  | some w =>
    match w.running with
    | some (_, .txF b) =>
      (s.bufferPool.release b).map fun pool => ({ s with bufferPool := pool, worker := some w.finish }, s.txEvents b n)
    | some (_, .other _) => some ({ s with worker := some w.finish }, [])
    | none => some (s, [])
  | none => some (s, [])

def set : Setting → State
  | .initState x => { s with initState := x }
  | .txInitState x => { s with txInitState := x }
  | .streamStopped x => { s with streamStopped := x }
  | .isInError x => { s with isInError := x }
  | .workerDestroying => { s with worker := s.worker.map Worker.destroy }
  | .poolCreate => if s.pending = [] then { s with bufferPool := s.bufferPool.create } else s
  | .poolDestroy => { s with bufferPool := s.bufferPool.destroy }

end State

inductive Op
  | allocate
  | fill (b : ℕ) (payload : List UInt8)
  | send (hAsyncio : Bool) (token : Option ℕ) (size : UInt32) (fn : Option ℕ) (priv : ℕ)
  | release (hAsyncio : Bool) (token : Option ℕ)
  | getMaxDataSize
  | post (id : ℕ)
  | take
  | run (n : ℕ)
  | set (x : Setting)
  deriving DecidableEq, Repr

inductive Obs
  | token (retval : Option ℕ)
  | sent (retval : Bool)
  | size (retval : UInt32)
  | posted (retval : Bool)
  | ran (events : List Event)
  | done
  | refused
  deriving DecidableEq, Repr

/-- A client fills, sends and releases only tokens it holds. -/
def State.call (s : State) : Op → Option (State × Obs)
  | .allocate => some (s.allocateTxToken.1, .token s.allocateTxToken.2)
  | .fill b payload =>
    -- through `asyncio_tx_token_get_data_buffer`
    if b ∈ s.held then
      some ({ s with request := Function.update s.request b { s.request b with payload := payload } }, .done)
    else some (s, .refused)
  | .send hAsyncio token size fn priv =>
    if ∀ b ∈ token, b ∈ s.held then (s.sendBuffer hAsyncio token size fn priv).map fun r => (r.1, .sent r.2)
    else some (s, .refused)
  | .release hAsyncio token =>
    if ∀ b ∈ token, b ∈ s.held then (s.releaseTxToken hAsyncio token).map (·, .done) else some (s, .refused)
  | .getMaxDataSize => some (s, .size s.getMaxDataSize)
  | .post id => (s.post (.other id)).map fun r => (r.1, .posted r.2)
  | .take => some ({ s with worker := s.worker.map Worker.take }, .done)
  | .run n => (s.run n).map fun r => (r.1, .ran r.2)
  | .set x => some (s.set x, .done)

end Cutils.Asyncio.Send
