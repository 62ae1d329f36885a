import Cutils.Lib.Live
import Mathlib.Data.Nat.Notation

/-!
# What the composed objects take from the system, on pthreads

`ts_queue_t`, `pool_t`, `notifier_t`, `dispatch_queue_t` and `state_event_loop_t`: how they are created and destroyed,
as far as mutexes, condition variables and threads go. An event flag, which is what a signal is, is a mutex and a
condition variable. Pointers are addresses, and NULL is `none`; what is only copied, and the blocks that a pool puts
into its queue, are left out. Calls that can fail have their outcomes from the system (`Live.attempt`,
`Live.create`), and so do the kill request of a dispatch queue, the wait for its worker, and the join: the
queue may have been used before it is destroyed.
-/

namespace Cutils.Resources

open Live

/-- The objects of the system, by the struct that they are a part of. -/
inductive Obj
  | queueMtx (queue : ℕ)
  | queueCnd (queue : ℕ)
  | queueFullCnd (queue : ℕ)
  | notifierMtx (notifier : ℕ)
  | signalMtx (dispatchQueue : ℕ)
  | signalCv (dispatchQueue : ℕ)
  | thread (task : ℕ)
  deriving DecidableEq, Repr

section TsQueue

structure TsQueueParams where
  pQueue : Option ℕ
  ptrArray : Option ℕ
  size : UInt64

/-- `CHECK_RUN` of the size. -/
def powerOfTwo (size : UInt64) : Bool := size > 0 && size &&& (size - 1) == 0

/-- `ts_queue_init`. Both condition variables are in one condition, and only the mutex is freed if it fails. -/
def tsQueueInit (params : Option TsQueueParams) : Prog Obj (Option ℕ) := do
  match params with
  | some ⟨some queue, some _, size⟩ =>
    if !powerOfTwo size then return none
    if !(← create (.queueMtx queue)) then return none
    if !(← create (.queueCnd queue) <&&> create (.queueFullCnd queue)) then
      destroy (.queueMtx queue)
      return none
    return some queue
  | _ => return none

/-- `ts_queue_destroy`. -/
def tsQueueDestroy (queue : Option ℕ) : Prog Obj Unit := do
  match queue with
  | some queue =>
    destroy (.queueCnd queue)
    destroy (.queueMtx queue)
  | none => pure ()

end TsQueue

section Pool

structure PoolParams where
  pPool : Option ℕ
  numOfElements : UInt32
  elementSizeRequested : UInt32
  queueParams : TsQueueParams

structure Pool where
  q : Option ℕ
  numOfElements : UInt32
  elementSize : UInt32

/-- `pool_create`. -/
def poolCreate (params : PoolParams) : Prog Obj (Option Pool) := do
  match params.pPool with
  | some _ =>
    match ← tsQueueInit (some params.queueParams) with
    | some q => return some ⟨some q, params.numOfElements, params.elementSizeRequested⟩
    | none => return none
  | none => return none

/-- `pool_destroy`. -/
def poolDestroy (pool : Option Pool) : Prog Obj Unit := do
  match pool with
  | some pool => tsQueueDestroy pool.q
  | none => pure ()

end Pool

section Notifier

structure NotifierParams where
  notifier : Option ℕ
  notifArray : Option ℕ
  poolParams : PoolParams

structure Notifier where
  notifier : ℕ
  pool : Pool

/-- `notifier_init`, with the notifier for `true`. -/
def notifierInit (params : NotifierParams) : Prog Obj (Option Notifier) := do
  match params with
  | ⟨some notifier, some _, poolParams⟩ =>
    if ← create (.notifierMtx notifier) then
      match ← poolCreate poolParams with
      | some pool => return some ⟨notifier, pool⟩
      | none =>
        destroy (.notifierMtx notifier)
        return none
    else return none
  | _ => failure

/-- `notifier_deinit`. -/
def notifierDeinit (notifier : Notifier) : Prog Obj Unit := do
  poolDestroy (some notifier.pool)
  destroy (.notifierMtx notifier.notifier)

end Notifier

section DispatchQueue

structure TaskParams where
  task : Option ℕ
  stack : Option ℕ
  stackSize : UInt32

structure DispatchQueueParams where
  pQueue : Option ℕ
  taskParams : TaskParams
  poolParams : PoolParams
  queueParams : TsQueueParams

structure DispatchQueue where
  dispatchQueue : ℕ
  queue : ℕ
  task : ℕ
  pool : Pool

/-- `event_flag_new` for the signal of a dispatch queue. -/
def signalNew (dispatchQueue : ℕ) : Prog Obj Bool :=
  create (.signalMtx dispatchQueue) <&&> create (.signalCv dispatchQueue)

/-- `event_flag_free`. -/
def signalFree (dispatchQueue : ℕ) : Prog Obj Unit := do
  destroy (.signalCv dispatchQueue)
  destroy (.signalMtx dispatchQueue)

-- the default size of stacks, as `pthread_attr_getstacksize` has it
variable (minStackSize : UInt64)

/-- `task_new_static`, for a function that is not NULL, under `SCHED_OTHER`. -/
def taskNewStatic (params : TaskParams) : Prog Obj (Option ℕ) := do
  match params with
  | ⟨some task, some _, stackSize⟩ =>
    if stackSize == 0 then return none
    -- `pthread_attr_getstacksize`, `pthread_attr_setinheritsched` and `pthread_attr_setstack`
    if !(← attempt) then return none
    if !(← attempt) then return none
    if stackSize.toUInt64 ≥ minStackSize then
      if !(← attempt) then return none
    if ← create (.thread task) then return some task
    else return none
  | _ => return none

/-- `task_destroy_static`. -/
def taskDestroyStatic (task : ℕ) : Prog Obj Unit := do
  require (← attempt)
  destroy (.thread task)

/-- `dispatch_queue_create`: what fails is asserted. -/
def dispatchQueueCreate (params : DispatchQueueParams) : Prog Obj (Option DispatchQueue) := do
  require (params.queueParams.size != 0)
  match params.pQueue with
  | some dispatchQueue =>
    require (← signalNew dispatchQueue)
    match ← tsQueueInit (some params.queueParams) with
    | some queue =>
      match ← poolCreate params.poolParams with
      | some pool =>
        match ← taskNewStatic minStackSize params.taskParams with
        | some task => return some ⟨dispatchQueue, queue, task, pool⟩
        | none => failure
      | none => failure
    | none => failure
  | none => failure

/-- `dispatch_queue_destroy`, the first call of it: the kill request, the wait for the worker, and then the objects. -/
def dispatchQueueDestroy (d : DispatchQueue) : Prog Obj Unit := do
  require (← attempt)
  if ← attempt then
    taskDestroyStatic d.task
    poolDestroy (some d.pool)
    tsQueueDestroy (some d.queue)
    signalFree d.dispatchQueue
  else failure

end DispatchQueue

section StateEventLoop

structure EventLoopParams where
  pEventLoop : Option ℕ
  notifierParams : NotifierParams
  queueParams : DispatchQueueParams
  eventPoolParams : PoolParams
  /-- `p_state_mac` of each of the `num_machines` state machines. -/
  stateMacs : List (Option ℕ)
  pSm : Option ℕ
  eventDataSize : UInt32

structure EventLoop where
  execQueue : DispatchQueue
  notifier : Notifier
  poolOfEvents : Pool

/-- `sizeof(event_t)`. -/
def sizeofEvent : UInt32 := 24

variable (minStackSize : UInt64)

/-- `state_event_loop_init`. The two checks of the sizes come when everything was created. -/
def stateEventLoopInit (params : EventLoopParams) : Prog Obj (Option EventLoop) := do
  require params.pEventLoop.isSome
  require params.pSm.isSome
  require (params.eventDataSize > sizeofEvent)
  match ← dispatchQueueCreate minStackSize params.queueParams with
  | some execQueue =>
    require (params.stateMacs.all Option.isSome)
    match ← notifierInit params.notifierParams with
    | some notifier =>
      match ← poolCreate params.eventPoolParams with
      | some pool =>
        if pool.elementSize != params.eventDataSize then
          poolDestroy (some pool)
          notifierDeinit notifier
          return none
        if pool.numOfElements.toUInt64 != params.queueParams.queueParams.size then
          poolDestroy (some pool)
          notifierDeinit notifier
          return none
        return some ⟨execQueue, notifier, pool⟩
      | none => failure
    | none => failure
  | none => failure

/-- `state_event_loop_deinit`; stopping the state machines takes nothing from the system. -/
def stateEventLoopDeinit (loop : EventLoop) : Prog Obj Unit := do
  dispatchQueueDestroy loop.execQueue
  notifierDeinit loop.notifier
  poolDestroy (some loop.poolOfEvents)

end StateEventLoop

/-- What is created. -/
inductive Composite
  | tsQueue (params : Option TsQueueParams)
  | pool (params : PoolParams)
  | notifier (params : NotifierParams)
  | dispatchQueue (params : DispatchQueueParams)
  | stateEventLoop (params : EventLoopParams)

/-- Create it, and if that does not report failure, destroy it. -/
def Composite.lifecycle (minStackSize : UInt64) : Composite → Prog Obj Unit
  | .tsQueue params => Live.lifecycle (tsQueueInit params) fun q => tsQueueDestroy (some q)
  | .pool params => Live.lifecycle (poolCreate params) fun p => poolDestroy (some p)
  | .notifier params => Live.lifecycle (notifierInit params) notifierDeinit
  | .dispatchQueue params => Live.lifecycle (dispatchQueueCreate minStackSize params) dispatchQueueDestroy
  | .stateEventLoop params => Live.lifecycle (stateEventLoopInit minStackSize params) stateEventLoopDeinit

end Cutils.Resources
