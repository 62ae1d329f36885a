import Cutils.Spec.Asyncio

/-!
# The start and stop protocol of a stream

What is left of a stream when only its life cycle is looked at. Each side has its context, the
actions on their way through its worker that have not had their effect (`pend`, in order), and the
check that its running `starter_f` or `finisher_f` makes once it has had its effect (`tail`). A side
works on its first pending action only when it is not in such a check; whether the sides share a
worker does not matter.

`Moves` is what the protocol can do; `Stream.view` is the protocol's state of a stream.
-/

namespace Cutils.Asyncio

/-- A pending action: a starter before `pool_create`, before it stores its context's state, before it
posts `rx_f`; an `rx_f` before it loads its context's state, before it posts itself again; a finisher. -/
inductive Kind
  | start
  | made
  | ready
  | read
  | reading
  | finish
  deriving DecidableEq, Repr

/-- Where a starter or a finisher is after its effect; nowhere for `none`. -/
inductive Tail
  | none
  | startLoad (y : Side)
  | startStore
  | startSend
  | destroy
  | stopLoad (y : Side)
  | stopStore
  | stopSend
  deriving DecidableEq, Repr

/-- The context has been started, and its finisher has not had its effect. -/
def InitState.on : InitState → Bool
  | .initialized | .uninitializing => true
  | _ => false

/-- One side. `live`: its pool is created. -/
structure Part where
  ctx : InitState
  pend : List Kind
  tail : Tail
  live : Bool
  deriving DecidableEq, Repr

structure View where
  initState : InitState
  startedFlag : Bool
  stoppedFlag : Bool
  streamStopped : Bool
  control : Control
  retval : Bool
  part : Side → Part

namespace View

def setPart (v : View) (x : Side) (p : Part) : View := { v with part := Function.update v.part x p }

end View

/-- Where a starter's check goes on after it has loaded the context of side `y`. -/
def Tail.startNext : Side → Tail
  | .rx => .startLoad .tx
  | .tx => .startStore

/-- Where a finisher's check goes on after it has loaded the context of side `y`. -/
def Tail.stopNext : Side → Tail
  | .rx => .stopLoad .tx
  | .tx => .stopStore

/-- What side `x`, in state `p`, can do to itself; `ctx` are the contexts of both. -/
inductive PartMoves (c : Config) (ctx : Side → InitState) (x : Side) (p : Part) : Part → Prop
  | create {l : List Kind} : p.pend = .start :: l → p.tail = .none →
      PartMoves c ctx x p { p with pend := .made :: l, live := true }
  | readyRx {l : List Kind} : x = .rx → p.pend = .made :: l → p.tail = .none →
      PartMoves c ctx x p { p with ctx := .initialized, pend := .ready :: l }
  | readyTx {l : List Kind} : x = .tx → p.pend = .made :: l → p.tail = .none →
      PartMoves c ctx x p { p with ctx := .initialized, pend := l, tail := .startLoad .rx }
  | post {l : List Kind} : x = .rx → p.pend = .ready :: l → p.tail = .none →
      PartMoves c ctx x p { p with pend := l ++ [.read], tail := .startLoad .rx }
  | startPass {y : Side} : p.tail = .startLoad y → (c.worker y).isNone ∨ ctx y = .initialized →
      PartMoves c ctx x p { p with tail := .startNext y }
  | startFail {y : Side} : p.tail = .startLoad y → (c.worker y).isSome → ctx y ≠ .initialized →
      PartMoves c ctx x p { p with tail := .none }
  | finish {l : List Kind} : p.pend = .finish :: l → p.tail = .none → p.ctx = .uninitializing →
      PartMoves c ctx x p { p with ctx := .uninitialized, pend := l, tail := .destroy }
  | skip {l : List Kind} : p.pend = .finish :: l → p.tail = .none → p.ctx ≠ .uninitializing →
      PartMoves c ctx x p { p with pend := l, tail := .stopLoad .rx }
  | destroy : p.tail = .destroy → PartMoves c ctx x p { p with tail := .stopLoad .rx, live := false }
  | stopPass {y : Side} : p.tail = .stopLoad y → ctx y = .uninitialized →
      PartMoves c ctx x p { p with tail := .stopNext y }
  | stopFail {y : Side} : p.tail = .stopLoad y → ctx y ≠ .uninitialized →
      PartMoves c ctx x p { p with tail := .none }
  | load {l : List Kind} : x = .rx → p.pend = .read :: l → p.tail = .none → p.ctx = .initialized →
      PartMoves c ctx x p { p with pend := .reading :: l }
  | die {l : List Kind} : x = .rx → p.pend = .read :: l → p.tail = .none → p.ctx ≠ .initialized →
      PartMoves c ctx x p { p with pend := l }
  | repost {l : List Kind} : x = .rx → p.pend = .reading :: l → p.tail = .none →
      PartMoves c ctx x p { p with pend := l ++ [.read] }

/-- **What the protocol can do.** A side moves by itself, completes a start or a stop, or the controller
takes a step. -/
inductive Moves (c : Config) (v : View) : View → Prop
  | part {x : Side} {p : Part} : (c.worker x).isSome →
      PartMoves c (fun y => (v.part y).ctx) x (v.part x) p → Moves c v (v.setPart x p)
  | startStore {x : Side} : (v.part x).tail = .startStore →
      Moves c v { v.setPart x { v.part x with tail := .startSend } with initState := .initialized }
  | startSend {x : Side} : (v.part x).tail = .startSend →
      Moves c v { v.setPart x { v.part x with tail := .none } with startedFlag := true }
  | stopStore {x : Side} : (v.part x).tail = .stopStore →
      Moves c v { v.setPart x { v.part x with tail := .stopSend } with initState := .uninitialized }
  | stopSend {x : Side} : (v.part x).tail = .stopSend →
      Moves c v { v.setPart x { v.part x with tail := .none } with stoppedFlag := true }
  | startCas : v.control = .down → v.initState = .uninitialized →
      Moves c v { v with initState := .initializing, control := .startClear }
  | startRefused : v.control = .down → v.initState ≠ .uninitialized →
      Moves c v { v with control := .up, retval := false }
  | startClear : v.control = .startClear →
      Moves c v { v with startedFlag := false, control := .startSet .rx }
  | startSet {x : Side} : v.control = .startSet x → (c.worker x).isSome →
      Moves c v { v.setPart x { v.part x with ctx := .initializing } with control := .startPost x }
  | startSkip {x : Side} : v.control = .startSet x → (c.worker x).isNone →
      Moves c v { v with control := Stream.afterStart x }
  | startPost {x : Side} : v.control = .startPost x → (c.worker x).isSome →
      Moves c v { v.setPart x { v.part x with pend := (v.part x).pend ++ [.start] } with
        control := Stream.afterStart x }
  | startUnstop : v.control = .startUnstop →
      Moves c v { v with streamStopped := false, control := .startWait }
  | startReturn : v.control = .startWait → v.startedFlag = true →
      Moves c v { v with control := .up, retval := true }
  | stopCas : v.control = .up → v.initState = .initialized →
      Moves c v { v with initState := .uninitializing, control := .stopCheck }
  | stopRefused : v.control = .up → v.initState ≠ .initialized →
      Moves c v { v with control := .down }
  | stopCheck : v.control = .stopCheck →
      Moves c v { v with control := if v.streamStopped then .down else .stopClear }
  | stopClear : v.control = .stopClear →
      Moves c v { v with stoppedFlag := false, control := .stopMark }
  | stopMark : v.control = .stopMark →
      Moves c v { v with streamStopped := true, control := .stopCas .rx }
  | stopSet {x : Side} : v.control = .stopCas x → (v.part x).ctx = .initialized →
      Moves c v { v.setPart x { v.part x with ctx := .uninitializing } with control := .stopPost x }
  | stopSkip {x : Side} : v.control = .stopCas x → (v.part x).ctx ≠ .initialized →
      (v.part x).ctx ≠ .initializing → Moves c v { v with control := Stream.afterStop x }
  | stopPost {x : Side} : v.control = .stopPost x → (c.worker x).isSome →
      Moves c v { v.setPart x { v.part x with pend := (v.part x).pend ++ [.finish] } with
        control := Stream.afterStop x }
  | stopReturn : v.control = .stopWait → v.stoppedFlag = true →
      Moves c v { v with control := .down }

/-- The side an action works for. -/
def Action.side : Action → Side
  | .starter x | .finisher x => x
  | .rxF => .rx
  | .txF _ _ => .tx

/-- The side the action a worker is in works for. -/
def WorkerPc.side : WorkerPc → Option Side
  | .idle => none
  | .starterCreate x | .starterReady x | .startLoad x _ | .startStore x | .startSend x => some x
  | .finisherCas x | .finisherDestroy x | .stopLoad x _ | .stopStore x | .stopSend x => some x
  | .starterPost | .rxLoad | .rxAlloc | .rxAdd _ | .rxRead _ | .rxCallback _ _ | .rxPost _ | .rxFree _
  | .rxEnqueue _ | .rxRetry => some .rx
  | .txLoad _ _ | .txCheck _ _ | .txWrite _ _ | .txNotify _ _ _ _ | .txFree _ _ | .txEnqueue _ _ => some .tx

/-- What a queued action is in the protocol. -/
def Action.kind : Action → Option Kind
  | .starter _ => some .start
  | .finisher _ => some .finish
  | .rxF => some .read
  | .txF _ _ => none

/-- What a running action still is in the protocol. -/
def WorkerPc.kind : WorkerPc → Option Kind
  | .starterCreate _ => some .start
  | .starterReady _ => some .made
  | .starterPost => some .ready
  | .finisherCas _ => some .finish
  | .rxLoad => some .read
  | .rxAlloc | .rxAdd _ | .rxRead _ | .rxCallback _ _ | .rxPost _ | .rxRetry => some .reading
  | _ => none

/-- The check a running action is in. -/
def WorkerPc.tail : WorkerPc → Tail
  | .startLoad _ y => .startLoad y
  | .startStore _ => .startStore
  | .startSend _ => .startSend
  | .finisherDestroy _ => .destroy
  | .stopLoad _ y => .stopLoad y
  | .stopStore _ => .stopStore
  | .stopSend _ => .stopSend
  | _ => .none

/-- The pending actions of side `x` in its worker's queue. -/
def restOf (x : Side) (queue : List Action) : List Kind :=
  (queue.filter (·.side = x)).filterMap Action.kind

/-- The pending actions of side `x` at its worker. -/
def pendOf (x : Side) (pc : WorkerPc) (queue : List Action) : List Kind :=
  (if pc.side = some x then pc.kind.toList else []) ++ restOf x queue

/-- The check that side `x` is in, if its worker is at `pc`. -/
def tailOf (x : Side) (pc : WorkerPc) : Tail := if pc.side = some x then pc.tail else .none

namespace Stream

variable (c : Config) (s : Stream)

def partOf (x : Side) : Part :=
  match c.worker x with
  | some w => ⟨s.ctx x, pendOf x (s.pc w) (s.queue w), tailOf x (s.pc w), (s.pool x).q.isSome⟩
  | none => ⟨s.ctx x, [], .none, (s.pool x).q.isSome⟩

/-- The protocol's state of a stream. -/
def view : View :=
  ⟨s.initState, s.startedFlag, s.stoppedFlag, s.streamStopped, s.control, s.retval, s.partOf c⟩

end Stream

end Cutils.Asyncio
