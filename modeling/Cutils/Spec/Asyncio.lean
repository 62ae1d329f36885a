import Cutils.Spec.PoolCalls

/-!
# Asynchronous streams (`asyncio.h`, `asyncio.c`)

One controller calls `asyncio_start` and `asyncio_stop` in turn, the workers run the actions posted to
them, and clients allocate, fill, send and release tokens and may release received buffers. Every
atomic load, store and compare-exchange, every operation on the event flag, every post and every
half of a pool operation is a step; steps interleave in any way.

A worker is a FIFO queue of actions that never overflows, run one at a time; the rx and the tx side
may have different workers, the same one, or one of them none. The controller's waits do not time
out. `pool_create` and `pool_destroy` are one step each. `read_f` and `write_f` are client code: a
step of the worker that calls them is given their result.

A use of a token, from its allocation on, is an entry of `tokens`, so that calls of any number of
clients overlap in any way. A client that was refused a send still has the token.
-/

namespace Cutils.Asyncio

open Blocks

/-- `asyncio_init_state_e`. -/
inductive InitState
  | uninitialized
  | uninitializing
  | initializing
  | initialized
  deriving DecidableEq, Repr

/-- `asyncio_tx_send_status_e`. -/
inductive SendStatus
  | sendSuccess
  | sendHeaderFail
  | sendMessageFail
  | interfaceInError
  deriving DecidableEq, Repr

/-- The two contexts, `rx_task` and `tx_task`. -/
inductive Side
  | rx
  | tx
  deriving DecidableEq, Repr

/-- What `asyncio_create_instance` is given. A null worker is `none`; one of them is not null. -/
structure Config where
  worker : Side → Option ℕ
  numOfElements : Side → ℕ
  maxTxDataChunkSize : UInt32
  has_worker : ∃ x, (worker x).isSome

/-- The actions posted to workers. `txF` has the request's block, and the use of the token it is. -/
inductive Action
  | starter (x : Side)
  | finisher (x : Side)
  | rxF
  | txF (block : ℕ) (use : ℕ)
  deriving DecidableEq, Repr

/-- Where the controller is: between a stop and the next start (`down`), inside `asyncio_start`, between
a start and the next stop (`up`), inside `asyncio_stop`. -/
inductive Control
  | down
  | startClear
  | startSet (x : Side)
  | startPost (x : Side)
  | startUnstop
  | startWait
  | up
  | stopCheck
  | stopClear
  | stopMark
  | stopCas (x : Side)
  | stopPost (x : Side)
  | stopWait
  deriving DecidableEq, Repr

/-- Where a worker is: between actions, or inside `starter_f` and `trigger_start_completion`,
`finisher_f` and `trigger_stop_completion`, `rx_f`, or `tx_f`, before the step it is named for. -/
inductive WorkerPc
  | idle
  | starterCreate (x : Side)
  | starterReady (x : Side)
  | starterPost
  | startLoad (x y : Side)
  | startStore (x : Side)
  | startSend (x : Side)
  | finisherCas (x : Side)
  | finisherDestroy (x : Side)
  | stopLoad (x y : Side)
  | stopStore (x : Side)
  | stopSend (x : Side)
  | rxLoad
  | rxAlloc
  | rxAdd (block : ℕ)
  | rxRead (block : ℕ)
  | rxCallback (block : ℕ) (bytesRead : ℕ)
  | rxPost (block : ℕ)
  | rxFree (block : ℕ)
  | rxEnqueue (block : ℕ)
  | rxRetry
  | txLoad (block use : ℕ)
  | txCheck (block use : ℕ)
  | txWrite (block use : ℕ)
  | txNotify (block use : ℕ) (status : SendStatus) (bytesWritten : ℕ)
  | txFree (block use : ℕ)
  | txEnqueue (block use : ℕ)
  deriving DecidableEq, Repr

/-- `asyncio_tx_request_t` with its buffer; a null `fn` is `none`. -/
structure Request where
  size : UInt32
  fn : Option ℕ
  priv : ℕ
  payload : List UInt8
  deriving DecidableEq, Repr

/-- Where a use of a token is: inside `asyncio_allocate_tx_token`, with the client, inside
`asyncio_send_buffer`, accepted and on its way through `tx_f`, inside `asyncio_release_tx_token`; over,
or never begun because there was no block. -/
inductive TokenPc
  | allocating
  | adding (block : ℕ)
  | held (block : ℕ)
  | sendCtx (block : ℕ)
  | sendFields (block : ℕ)
  | sendPost (block : ℕ)
  | queued (block : ℕ)
  | returning (block : ℕ)
  | releaseSub (block : ℕ)
  | releaseEnqueue (block : ℕ)
  | null
  | gone
  deriving DecidableEq, Repr

/-- A use of a token, and what the client has set for it. -/
structure Token where
  pc : TokenPc
  request : Request
  deriving DecidableEq, Repr

/-- What happened, in order: a call of `write_f`, a call of `fn`, the enqueue of a `pool_free` by `tx_f`; a
buffer allocated by `rx_f`, a `pool_free` of a buffer. -/
inductive Event
  | write (use : ℕ) (size : UInt32) (payload : List UInt8) (bytesWritten : ℕ)
  | notify (use : ℕ) (fn : ℕ) (status : SendStatus) (sendSize : ℕ) (priv : ℕ)
  | back (use : ℕ)
  | rxAlloc (block : ℕ)
  | rxBack (block : ℕ)
  deriving DecidableEq, Repr

/-- `asyncio_interface_instance_t`, its threads, and what has happened so far. `accepted`: the uses
whose `tx_f` was posted, in order. `delivered`: the buffers given to `rx_callback` that the client has
not released. -/
structure Stream where
  initState : InitState
  ctx : Side → InitState
  streamStopped : Bool
  isInError : Bool
  startedFlag : Bool
  stoppedFlag : Bool
  control : Control
  retval : Bool
  starts : ℕ
  queue : ℕ → List Action
  pc : ℕ → WorkerPc
  pool : Side → Store
  request : ℕ → Request
  tokens : List Token
  accepted : List ℕ
  delivered : List ℕ
  releasing : List ℕ
  log : List Event
  tripped : Bool

/-- `work w n`: a step of worker `w`, with `n` what `read_f` or `write_f` returns if it is called. -/
inductive Act
  | control
  | work (w n : ℕ)
  | allocate
  | token (use : ℕ)
  | fill (use : ℕ) (payload : List UInt8)
  | send (use : ℕ) (size : UInt32) (fn : Option ℕ) (priv : ℕ)
  | release (use : ℕ)
  | releaseRx (block : ℕ)
  | enqueueRx (block : ℕ)
  | setError (isInError : Bool)
  deriving DecidableEq, Repr

/-- The first step of an action. -/
def Action.entry : Action → WorkerPc
  | .starter x => .starterCreate x
  | .finisher x => .finisherCas x
  | .rxF => .rxLoad
  | .txF b k => .txLoad b k

namespace Stream

/-- `asyncio_create_instance`. -/
def create (c : Config) : Stream where
  initState := .uninitialized
  ctx := fun _ => .uninitialized
  streamStopped := true
  isInError := false
  startedFlag := false
  stoppedFlag := false
  control := .down
  retval := false
  starts := 0
  queue := fun _ => []
  pc := fun _ => .idle
  pool := fun x => Store.fresh (c.numOfElements x)
  request := fun _ => ⟨0, none, 0, []⟩
  tokens := []
  accepted := []
  delivered := []
  releasing := []
  log := []
  tripped := false

variable (c : Config) (s : Stream)

def setCtx (x : Side) (st : InitState) : Stream := { s with ctx := Function.update s.ctx x st }

def setPool (x : Side) (p : Store) : Stream := { s with pool := Function.update s.pool x p }

def setPc (w : ℕ) (pc : WorkerPc) : Stream := { s with pc := Function.update s.pc w pc }

def setToken (k : ℕ) (t : Token) : Stream := { s with tokens := s.tokens.set k t }

def record (e : Event) : Stream := { s with log := s.log ++ [e] }

/-- `dispatch_async_f` on the worker of a side. -/
def post (x : Side) (a : Action) : Stream :=
  match c.worker x with
  | some w => { s with queue := Function.update s.queue w (s.queue w ++ [a]) }
  | none => s

/-- Where `asyncio_start` goes on after a side. -/
def afterStart : Side → Control
  | .rx => .startSet .tx
  | .tx => .startUnstop

/-- Where `asyncio_stop` goes on after a side. -/
def afterStop : Side → Control
  | .rx => .stopCas .tx
  | .tx => .stopWait

/-- A step of the controller. -/
def controlStep : Option Stream :=
  match s.control with
  | .down =>
    if s.initState = .uninitialized then
      some { s with initState := .initializing, control := .startClear, starts := s.starts + 1 }
    -- a start of a stream that is not uninitialized returns false at once
    else some { s with control := .up, retval := false, starts := s.starts + 1 }
  | .startClear => some { s with startedFlag := false, control := .startSet .rx }
  | .startSet x =>
    if (c.worker x).isSome then some { s.setCtx x .initializing with control := .startPost x }
    -- a side without a worker is not started
    else some { s with control := afterStart x }
  | .startPost x => some { s.post c x (.starter x) with control := afterStart x }
  | .startUnstop => some { s with streamStopped := false, control := .startWait }
  -- `event_flag_wait`: nothing happens until the flag is set
  | .startWait => if s.startedFlag then some { s with control := .up, retval := true } else none
  | .up =>
    if s.initState = .initialized then
      some { s with initState := .uninitializing, control := .stopCheck }
    -- a stop of a stream that is not initialized does nothing
    else some { s with control := .down }
  -- nor does one of a stopped stream, which stays uninitializing
  | .stopCheck => some { s with control := if s.streamStopped then .down else .stopClear }
  | .stopClear => some { s with stoppedFlag := false, control := .stopMark }
  | .stopMark => some { s with streamStopped := true, control := .stopCas .rx }
  | .stopCas x =>
    match s.ctx x with
    | .initialized => some { s.setCtx x .uninitializing with control := .stopPost x }
    -- the assertion on the state that the compare-and-swap found
    | .initializing => some { s with tripped := true }
    | _ => some { s with control := afterStop x }
  | .stopPost x => some { s.post c x (.finisher x) with control := afterStop x }
  | .stopWait => if s.stoppedFlag then some { s with control := .down } else none

/-- The decrement of a `pool_free` on the pool of side `x`; `last` goes on if the block is to be
enqueued, and `more` if not. -/
def freeStep (x : Side) (b : ℕ) (last more : Stream → Stream) : Stream :=
  let s' := s.setPool x ((s.pool x).fetchSub b)
  -- `pool_free` asserts that there was a reference to drop
  if (s.pool x).retainCount b = 0 then { s' with tripped := true }
  else if (s.pool x).retainCount b = 1 then last s'
  else more s'

/-- A step of `starter_f` and `trigger_start_completion`, of `finisher_f` and
`trigger_stop_completion`. -/
def lifeStep (w : ℕ) : WorkerPc → Option Stream
  | .starterCreate x => some ((s.setPool x (s.pool x).create).setPc w (.starterReady x))
  | .starterReady .rx => some ((s.setCtx .rx .initialized).setPc w .starterPost)
  | .starterReady .tx => some ((s.setCtx .tx .initialized).setPc w (.startLoad .tx .rx))
  -- the first `rx_f`: later ones post themselves
  | .starterPost => some ((s.post c .rx .rxF).setPc w (.startLoad .rx .rx))
  | .startLoad x y =>
    -- a side without a worker counts as started
    if (c.worker y).isNone ∨ s.ctx y = .initialized then
      some (s.setPc w (match y with | .rx => .startLoad x .tx | .tx => .startStore x))
    else some (s.setPc w .idle)
  | .startStore x => some { s.setPc w (.startSend x) with initState := .initialized }
  | .startSend _ => some { s.setPc w .idle with startedFlag := true }
  -- whether or not it stops its side, a finisher makes the check
  | .finisherCas x =>
    if s.ctx x = .uninitializing then
      some ((s.setCtx x .uninitialized).setPc w (.finisherDestroy x))
    else some (s.setPc w (.stopLoad x .rx))
  | .finisherDestroy x => some ((s.setPool x (s.pool x).destroy).setPc w (.stopLoad x .rx))
  | .stopLoad x y =>
    -- here no worker is looked at: such a side was never anything else
    if s.ctx y = .uninitialized then
      some (s.setPc w (match y with | .rx => .stopLoad x .tx | .tx => .stopStore x))
    else some (s.setPc w .idle)
  | .stopStore x => some { s.setPc w (.stopSend x) with initState := .uninitialized }
  | .stopSend _ => some { s.setPc w .idle with stoppedFlag := true }
  | _ => none

/-- A step of `rx_f`. -/
def rxStep (w n : ℕ) : WorkerPc → Option Stream
  | .rxLoad => some (s.setPc w (if s.ctx .rx = .initialized then .rxAlloc else .idle))
  | .rxAlloc =>
    match (s.pool .rx).dequeue with
    | some (b, p) => some (((s.setPool .rx p).setPc w (.rxAdd b)).record (.rxAlloc b))
    | none => some (s.setPc w .rxRetry)
  | .rxAdd b => some ((s.setPool .rx ((s.pool .rx).fetchAdd b)).setPc w (.rxRead b))
  -- if nothing was read there is no callback; the buffer is released all the same
  | .rxRead b =>
    if n = 0 then some (s.setPc w (.rxPost b))
    else some { s.setPc w (.rxCallback b n) with delivered := b :: s.delivered }
  | .rxCallback b _ => some (s.setPc w (.rxPost b))
  -- `rx_f` posts itself before it releases its reference
  | .rxPost b => some ((s.post c .rx .rxF).setPc w (.rxFree b))
  | .rxFree b =>
    some ((s.record (.rxBack b)).freeStep .rx b (·.setPc w (.rxEnqueue b)) (·.setPc w .idle))
  | .rxEnqueue b => some ((s.setPool .rx ((s.pool .rx).enqueue b)).setPc w .idle)
  -- no buffer: `rx_f` reads nothing, and posts itself
  | .rxRetry => some ((s.post c .rx .rxF).setPc w .idle)
  | _ => none

/-- The `fn` call of `tx_f`, on the request in block `b`. -/
def notify (b k : ℕ) (status : SendStatus) (n : ℕ) : Stream :=
  match (s.request b).fn with
  | some fn => s.record (.notify k fn status (n % 2 ^ 32) (s.request b).priv)
  | none => s

/-- Give a use of a token a new place. -/
def moveToken (k : ℕ) (pc : TokenPc) : Stream :=
  { s with tokens := s.tokens.modify k fun t => { t with pc := pc } }

/-- A step of `tx_f`. -/
def txStep (w n : ℕ) : WorkerPc → Option Stream
  -- a stream that is not initialized drops the request, without a notification
  | .txLoad b k =>
    some (s.setPc w (if s.initState = .initialized then .txCheck b k else .txFree b k))
  | .txCheck b k =>
    some (s.setPc w (if s.isInError then .txNotify b k .interfaceInError 0 else .txWrite b k))
  | .txWrite b k =>
    let r := s.request b
    -- `bytes_written` is a `size_t`, the size of the request is not
    let status := if n = r.size.toNat then SendStatus.sendSuccess else .sendMessageFail
    some ((s.record (.write k r.size r.payload n)).setPc w (.txNotify b k status n))
  | .txNotify b k status m => some ((s.notify b k status m).setPc w (.txFree b k))
  | .txFree b k =>
    some (s.freeStep .tx b (fun s => (s.moveToken k (.returning b)).setPc w (.txEnqueue b k))
      (fun s => (s.moveToken k .gone).setPc w .idle))
  | .txEnqueue b k =>
    some ((((s.record (.back k)).setPool .tx ((s.pool .tx).enqueue b)).moveToken k .gone).setPc w .idle)
  | _ => none

/-- A step of a worker. -/
def workStep (w n : ℕ) : Option Stream :=
  match s.pc w with
  | .idle =>
    match s.queue w with
    | a :: rest => some { s.setPc w a.entry with queue := Function.update s.queue w rest }
    | [] => none
  | pc => ((s.lifeStep c w pc).orElse fun _ => s.rxStep c w n pc).orElse fun _ => s.txStep w n pc

/-- The next step of the call a use of a token is in. -/
def tokenStep (k : ℕ) (t : Token) : Option Stream :=
  match t.pc with
  | .allocating =>
    match (s.pool .tx).dequeue with
    | some (b, p) => some ((s.setPool .tx p).setToken k { t with pc := .adding b })
    -- a null token, if no block is free
    | none => some (s.setToken k { t with pc := .null })
  | .adding b =>
    -- the fields are set, and the buffer is not cleared
    let r : Request := { s.request b with size := 0, fn := none, priv := 0 }
    some { (s.setPool .tx ((s.pool .tx).fetchAdd b)).setToken k ⟨.held b, r⟩ with
      request := Function.update s.request b r }
  | .sendCtx b =>
    if s.ctx .tx = .initialized ∧ 0 < t.request.size ∧ t.request.size < c.maxTxDataChunkSize then
      some (s.setToken k { t with pc := .sendFields b })
    -- refused: the client keeps the token
    else some (s.setToken k { t with pc := .held b })
  | .sendFields b =>
    some { s.setToken k { t with pc := .sendPost b } with
      request := Function.update s.request b { t.request with payload := (s.request b).payload } }
  | .sendPost b =>
    some { (s.post c .tx (.txF b k)).setToken k { t with pc := .queued b } with
      accepted := s.accepted ++ [k] }
  | .releaseSub b =>
    some (s.freeStep .tx b (·.setToken k { t with pc := .releaseEnqueue b }) (·.setToken k { t with pc := .gone }))
  | .releaseEnqueue b =>
    some ((s.setPool .tx ((s.pool .tx).enqueue b)).setToken k { t with pc := .gone })
  | _ => none

/-- A client starts a call on a token it has. -/
def holdStep (k : ℕ) (f : Token → ℕ → Stream) : Option Stream :=
  match s.tokens[k]? with
  | some t =>
    match t.pc with
    | .held b => some (f t b)
    | _ => none
  | none => none

def step : Act → Option Stream := fun a =>
  if s.tripped then none
  else match a with
  | .control => s.controlStep c
  | .work w n => s.workStep c w n
  | .allocate =>
    if s.ctx .tx = .initialized then
      some { s with tokens := s.tokens ++ [⟨.allocating, ⟨0, none, 0, []⟩⟩] }
    else some s
  | .token k => s.tokens[k]?.bind (s.tokenStep c k)
  | .fill k payload => s.holdStep k fun t b =>
      { s.setToken k { t with request := { t.request with payload := payload } } with
        request := Function.update s.request b { s.request b with payload := payload } }
  | .send k size fn priv => s.holdStep k fun t b =>
      -- the flag is read first, and the context in a later step
      if s.streamStopped then s
      else s.setToken k ⟨.sendCtx b, { t.request with size := size, fn := fn, priv := priv }⟩
  | .release k => s.holdStep k fun t b =>
      -- a token of a side that is not started is lost
      s.setToken k { t with pc := if s.ctx .tx = .initialized then .releaseSub b else .gone }
  | .releaseRx b =>
    if b ∈ s.delivered then
      some ({ s.record (.rxBack b) with delivered := s.delivered.erase b }.freeStep .rx b
        (fun s => { s with releasing := b :: s.releasing }) id)
    else none
  | .enqueueRx b =>
    if b ∈ s.releasing then
      some { s.setPool .rx ((s.pool .rx).enqueue b) with releasing := s.releasing.erase b }
    else none
  | .setError e => some { s with isInError := e }

def system (c : Config) : Sys.System Stream Act := ⟨fun s => s = create c, step c⟩

end Stream

end Cutils.Asyncio
