import Cutils.Spec.DispatchQueue
import Cutils.Spec.Notifier
import Cutils.Spec.StateMachine

/-!
# The state event loop (`state_event_loop.h`, `state_event_loop.c`)

Any number of `state_event_loop_post` calls and the worker of the loop's dispatch queue interleave, on a
loop that has been started. The dispatch queue is that of `Spec/DispatchQueue.lean`, with a step of a post
for every step of its `dispatch_async_f` call; the event pool has as many blocks as the queue
(`state_event_loop_init` refuses other sizes).

The pre-processor, the callbacks of the states and the listeners are client code on the client's data
`W`. They reach the event through its pointer: what callbacks of states work on is the client's data
and the event's bytes. A post may also be made by the pre-processor or a callback (`byAction`): the worker goes
on when that post has returned. Listeners neither retain the event nor write it nor post.

`serveAll` is the sequential processing that the loop is compared with.
-/

namespace Cutils.EventLoop

open Blocks StateMachine

/-- `event_t`, with the rest of the event's bytes. -/
structure Event where
  eventId : UInt32
  eventLoop : ℕ
  toString : ℕ
  data : List UInt8
  deriving DecidableEq, Repr

/-- A machine's states and where it starts. -/
structure MachineParams (W : Type) where
  states : List (State (W × Event) Unit)
  startStateId : UInt32

/-- A loop as it is set up before it is started. `self` is its address; `listeners` are the notifier and
what is registered there. -/
structure Config (W : Type) where
  self : ℕ
  queueSize : ℕ
  machines : List (MachineParams W)
  eventPreProcF : Option (Event → W → Event × W)
  listeners : Notify.Run Event
  executeF : Notify.Call Event → W → W

variable {W : Type}

namespace Config

/-- `num_machines`. -/
abbrev numMachines (c : Config W) : ℕ := c.machines.length

/-- `p_sm`. -/
abbrev Machines (c : Config W) : Type := (i : Fin c.numMachines) → Machine (c.machines.get i).states

end Config

/-- What the worker does to events: it calls the pre-processor, hands the event to a machine, lets a
machine make its transition, calls a listener. An entry has the event's bytes at the time. -/
inductive Entry (n : ℕ)
  | preProc (event : Event)
  | handle (machine : Fin n) (event : Event)
  | transition (machine : Fin n)
  | notify (call : Notify.Call Event)
  deriving DecidableEq

/-- What client code works on while an event is processed, and what has been done so far. -/
structure Serving (c : Config W) where
  machines : c.Machines
  world : W
  event : Event
  log : List (Entry c.numMachines)

namespace Serving

variable {c : Config W} (x : Serving c)

/-- The call of `event_pre_proc_f`, if there is one. -/
def preProc : Serving c :=
  match c.eventPreProcF with
  | some f => { x with
      event := (f x.event x.world).1
      world := (f x.event x.world).2
      log := x.log ++ [.preProc x.event] }
  | none => x

/-- A call on machine `i`; none if it faults. -/
def onMachine (i : Fin c.numMachines) (entries : List (Entry c.numMachines))
    (f : Machine (c.machines.get i).states → Except Fault (Machine (c.machines.get i).states)) : Option (Serving c) :=
  -- a machine works on the world and the event as they are now
  match f { x.machines i with data := (x.world, x.event) } with
  | .ok m => some ⟨Function.update x.machines i m, m.data.1, m.data.2, x.log ++ entries⟩
  | .error _ => none

/-- `state_machine_start` of machine `i`. -/
def start (i : Fin c.numMachines) : Option (Serving c) := x.onMachine i [] (·.start)

/-- `state_machine_handle_event` of machine `i`. -/
def handleEvent (i : Fin c.numMachines) : Option (Serving c) :=
  x.onMachine i [.handle i x.event] (·.handleEvent (some ()))

/-- `state_machine_transition` of machine `i`. -/
def transition (i : Fin c.numMachines) : Option (Serving c) := x.onMachine i [.transition i] (·.transition)

/-- `notifier_post_notification`, with the calls of `execute_f`. -/
def postNotification : Option (Serving c) :=
  match c.listeners.notifier.postNotification x.event.eventId x.event with
  | .ok calls => some { x with
      world := calls.foldl (fun w k => c.executeF k w) x.world
      log := x.log ++ calls.map .notify }
  | .error _ => none

end Serving

/-- The machines as `state_event_loop_init` leaves them. -/
def fresh (c : Config W) (world : W) (event : Event) : Serving c :=
  ⟨fun i => Machine.create _ (c.machines.get i).startStateId (world, event), world, event, []⟩

/-- `state_event_loop_start`. There is no event yet: `event` stands for what callbacks find there. -/
def start (c : Config W) (world : W) (event : Event) : Option (Serving c) :=
  (List.finRange c.numMachines).foldlM Serving.start (fresh c world event)

/-- Where a `state_event_loop_post` call is: before the two halves of its allocation, its `memcpy`, its
stores to the fields, its `dispatch_async_f` call, inside that call, or back. -/
inductive PostPc
  | alloc
  | add (block : ℕ)
  | copy (block : ℕ)
  | stamp (block : ℕ)
  | dispatch (block : ℕ)
  | wait (block : ℕ) (call : ℕ)
  | returned
  deriving DecidableEq, Repr

/-- A post. `evt` is the poster's own copy of the event. -/
structure Post where
  category : UInt32
  evt : Event
  byAction : Bool
  pc : PostPc
  deriving DecidableEq, Repr

/-- Where `state_event_loop_exec_queue_f` is on the event in a block: before its load of the event's loop,
the pre-processor, a call on machine `i`, the notification, the two halves of the release, back; or it is
not running. -/
inductive ExecPc (n : ℕ)
  | idle
  | load (block : ℕ)
  | preProc (block : ℕ)
  | handle (block : ℕ) (i : Fin n)
  | transition (block : ℕ) (i : Fin n)
  | notify (block : ℕ)
  | release (block : ℕ)
  | enqueue (block : ℕ)
  | done
  deriving DecidableEq

/-- The loop of `state_event_loop_exec_queue_f`, before machine `k`. -/
def ExecPc.machine {n : ℕ} (b k : ℕ) : ExecPc n := if h : k < n then .handle b ⟨k, h⟩ else .notify b

/-- Client code that may post. -/
def ExecPc.mayPost {n : ℕ} : ExecPc n → Bool
  | .preProc _ | .handle _ _ | .transition _ _ => true
  | _ => false

def PostPc.inProgress : PostPc → Bool
  | .returned => false
  | _ => true

/-- The event that a post hands over. -/
def Post.event (c : Config W) (p : Post) : Event := { p.evt with eventId := p.category, eventLoop := c.self }

/-- The loop, its callers and its worker, and what has happened so far. `posted`: the events handed over to
the worker, in order. -/
structure Loop (c : Config W) where
  queue : Dispatch.Queue
  pool : Store
  memory : ℕ → Event
  machines : c.Machines
  world : W
  posts : List Post
  exec : ExecPc c.numMachines
  posted : List Event
  log : List (Entry c.numMachines)
  tripped : Bool

/-- `overwrite`: the poster does something to its own copy. -/
inductive Act
  | post (category : UInt32) (evt : Event) (byAction : Bool)
  | call (i : ℕ)
  | overwrite (i : ℕ) (evt : Event)
  | work
  deriving DecidableEq, Repr

/-- The function that posts give to the dispatch queue. -/
def stateEventLoopExecQueueF : ℕ := 0

namespace Loop

variable {c : Config W} (s : Loop c)

def setPost (i : ℕ) (p : Post) (pc : PostPc) : Loop c := { s with posts := s.posts.set i { p with pc := pc } }

/-- The running client code is inside a post. -/
def actionPosting : Bool := s.posts.any fun p => p.byAction && p.pc.inProgress

/-- What client code works on while the event in block `b` is processed. -/
def serving (b : ℕ) : Serving c := ⟨s.machines, s.world, s.memory b, s.log⟩

/-- Client code has run on the event in block `b`. -/
def served (b : ℕ) (exec : ExecPc c.numMachines) : Option (Serving c) → Loop c
  | some x => { s with
      memory := Function.update s.memory b x.event
      machines := x.machines
      world := x.world
      log := x.log
      exec := exec }
  | none => { s with tripped := true }

/-- The next step of post `i`. -/
def callStep (i : ℕ) (p : Post) : Option (Loop c) :=
  match p.pc with
  | .alloc =>
    match s.pool.dequeue with
    | some (b, pool) => some { s.setPost i p (.add b) with pool := pool }
    -- the pool of events is used up: the assertion of the allocation
    | none => some { s with tripped := true }
  | .add b => some { s.setPost i p (.copy b) with pool := s.pool.fetchAdd b }
  | .copy b => some { s.setPost i p (.stamp b) with memory := Function.update s.memory b p.evt }
  | .stamp b =>
    some { s.setPost i p (.dispatch b) with
      memory := Function.update s.memory b
        -- the fields are stored over the bytes of the copy
        { s.memory b with eventLoop := c.self, eventId := p.category, toString := p.evt.toString } }
  | .dispatch b =>
    (s.queue.step (.post ⟨stateEventLoopExecQueueF, b, 0⟩ p.byAction)).map fun q =>
      { s.setPost i p (.wait b s.queue.calls.length) with queue := q }
  | .wait _ j =>
    (s.queue.step (.call j)).map fun q =>
      match (q.calls[j]?).map Dispatch.Call.pc with
      | some (.returned true) => { s.setPost i p .returned with queue := q, posted := s.posted ++ [p.event c] }
      -- a queue that is being destroyed refuses: the event is lost with its block
      | some (.returned false) => { s.setPost i p .returned with queue := q }
      | _ => { s with queue := q }
  | .returned => none

/-- Where the worker is after a step in `dispatch_queue_worker`: it may have called the action. -/
def entry : ExecPc c.numMachines :=
  match s.queue.worker with
  -- the only action posted to this queue is `state_event_loop_exec_queue_f`
  | .call d => .load (s.queue.blocks d).2.arg1
  | _ => .idle

/-- The next step of the worker. -/
def workStep : Option (Loop c) :=
  match s.exec with
  | .idle | .done =>
    (s.queue.step .worker).map fun q => { s with queue := q, exec := s.entry }
  | .load b =>
    -- the model has no other loop to go on with
    if (s.memory b).eventLoop = c.self then some { s with exec := .preProc b } else some { s with tripped := true }
  | .preProc b => some (s.served b (.machine b 0) (some (s.serving b).preProc))
  | .handle b i => some (s.served b (.transition b i) ((s.serving b).handleEvent i))
  | .transition b i => some (s.served b (.machine b (i + 1)) ((s.serving b).transition i))
  | .notify b => some (s.served b (.release b) (s.serving b).postNotification)
  -- `pool_free`, in its two halves
  | .release b =>
    if s.pool.retainCount b = 0 then some { s with tripped := true }
    else if s.pool.retainCount b = 1 then some { s with pool := s.pool.fetchSub b, exec := .enqueue b }
    else some { s with pool := s.pool.fetchSub b, exec := .done }
  | .enqueue b => some { s with pool := s.pool.enqueue b, exec := .done }

def step : Act → Option (Loop c) := fun a =>
  if s.tripped then none
  else match a with
  | .post category evt byAction =>
    -- the worker is inside one post at a time, and only where it runs client code
    if byAction && (s.actionPosting || !s.exec.mayPost) then none
    else some { s with posts := s.posts ++ [⟨category, evt, byAction, .alloc⟩] }
  | .call i => (s.posts[i]?).bind (s.callStep i)
  | .overwrite i evt =>
    match s.posts[i]? with
    | some p => if p.pc.inProgress then none else some { s with posts := s.posts.set i { p with evt := evt } }
    | none => none
  -- the worker waits for a post that its own code makes
  | .work => if s.actionPosting then none else s.workStep

/-- A started loop, over block memory with any contents. -/
def create (x : Serving c) (blocks : ℕ → ℕ × Dispatch.PostData) (memory : ℕ → Event) : Loop c where
  queue := Dispatch.Queue.create c.queueSize blocks
  pool := (Store.fresh c.queueSize).create
  memory := memory
  machines := x.machines
  world := x.world
  posts := []
  exec := .idle
  posted := []
  log := []
  tripped := false

/-- The runs of a loop that is started on `world`. -/
def system (c : Config W) (world : W) (event : Event) : Sys.System (Loop c) Act :=
  ⟨fun s => ∃ x blocks memory, start c world event = some x ∧ s = create x blocks memory, step⟩

/-- **What the callers may do**: they post valid categories, and never more than the two pools can hold. -/
def Room (s : Loop c) : Act → Prop
  | .post category _ _ => category < c.listeners.notifier.totalNotificationCategories
  | .call i =>
    match (s.posts[i]?).map Post.pc with
    | some .alloc => s.pool.free ≠ []
    | some (.wait _ j) => (s.queue.calls[j]?).map Dispatch.Call.pc = some .alloc → s.queue.pool ≠ []
    | _ => True
  | _ => True

end Loop

section Sequential

variable {c : Config W}

/-- The listeners registered under the event's category are called, each once. -/
def Serving.tell (x : Serving c) : Serving c :=
  let calls := (c.listeners.registered x.event.eventId).map fun b =>
    (⟨b, x.event.eventId, x.event⟩ : Notify.Call Event)
  { x with
    world := calls.foldl (fun w k => c.executeF k w) x.world
    log := x.log ++ calls.map .notify }

/-- Machines one after the other: each handles the event and makes its transition. -/
def rounds (l : List (Fin c.numMachines)) (x : Serving c) : Option (Serving c) :=
  l.foldlM (fun x i => (x.handleEvent i).bind (·.transition i)) x

/-- One event: the pre-processor, all machines, the listeners. -/
def serve (x : Serving c) : Option (Serving c) :=
  (rounds (List.finRange c.numMachines) x.preProc).map Serving.tell

/-- **Sequential processing**: the events in order, each as it was posted. -/
def serveAll (x : Serving c) (events : List Event) : Option (Serving c) :=
  events.foldlM (fun x e => serve { x with event := e }) x

end Sequential

end Cutils.EventLoop
