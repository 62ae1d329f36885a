import Cutils.Spec.EventLoop

/-!
# A state event loop that is shut down (`state_event_loop.h`, `state_event_loop.c`)

The loop of `Spec/EventLoop.lean` while `state_event_loop_deinit` is in `dispatch_queue_destroy`, up to where that tears
the exec queue down. Client code may keep an event (`state_event_loop_retain_event`): the one that the worker is
processing, or one it has already kept, and give it back later (`state_event_loop_release_event`).

`state_event_loop_post` does not look at the result of its `dispatch_async_f` call, and returns true.
-/

namespace Cutils.EventLoop

open Blocks

variable {W : Type}

/-- What a post returned. -/
def PostPc.retval : PostPc → Option Bool
  | .returned => some true
  | _ => none

/-- The block that the worker's client code has: the pre-processor's, a state's or a listener's. -/
def ExecPc.client {n : ℕ} : ExecPc n → Option ℕ
  | .preProc b | .handle b _ | .transition b _ | .notify b => some b
  | _ => none

/-- The loop; the posts that have handed their event over to the exec queue; the blocks that clients keep, once for
each reference; and those that a client is about to put back in the free queue. -/
structure Closing (c : Config W) where
  loop : Loop c
  handed : List ℕ
  retained : List ℕ
  freeing : List ℕ

/-- `destroy` and `destroyer` are the steps of `state_event_loop_deinit`. -/
inductive CloseAct
  | loop (a : Act)
  | retain (b : ℕ)
  | release (b : ℕ)
  | giveBack (b : ℕ)
  | destroy
  | destroyer
  deriving DecidableEq, Repr

namespace Closing

variable {c : Config W} (s : Closing c)

def setPool (pool : Store) : Closing c := { s with loop := { s.loop with pool := pool } }

def setQueue (queue : Dispatch.Queue) : Closing c := { s with loop := { s.loop with queue := queue } }

/-- The post that hands its event over in a step of the loop. -/
def handing (a : Act) (l : Loop c) : List ℕ :=
  match a with
  | .call i => if s.loop.posted.length < l.posted.length then [i] else []
  | _ => []

def retainStep (b : ℕ) : Option (Closing c) :=
  -- the code that is shown the event may keep it, and a keeper may keep it once more
  if s.loop.exec.client = some b ∨ b ∈ s.retained then
    some { s.setPool (s.loop.pool.fetchAdd b) with retained := s.retained ++ [b] }
  else none

/-- `pool_free` up to its enqueue. -/
def releaseStep (b : ℕ) : Option (Closing c) :=
  if b ∈ s.retained then
    if s.loop.pool.retainCount b = 0 then some { s with loop := { s.loop with tripped := true } }
    else if s.loop.pool.retainCount b = 1 then
      some { s.setPool (s.loop.pool.fetchSub b) with
        retained := s.retained.erase b
        freeing := s.freeing ++ [b] }
    else some { s.setPool (s.loop.pool.fetchSub b) with retained := s.retained.erase b }
  else none

/-- The enqueue of `pool_free`. -/
def giveBackStep (b : ℕ) : Option (Closing c) :=
  if b ∈ s.freeing then some { s.setPool (s.loop.pool.enqueue b) with freeing := s.freeing.erase b } else none

def step (a : CloseAct) : Option (Closing c) :=
  if s.loop.tripped then none
  else match a with
  | .loop a => (s.loop.step a).map fun l => { s with loop := l, handed := s.handed ++ s.handing a l }
  | .retain b => s.retainStep b
  | .release b => s.releaseStep b
  | .giveBack b => s.giveBackStep b
  | .destroy => (s.loop.queue.step .destroy).map s.setQueue
  | .destroyer =>
    -- up to the teardown
    if s.loop.queue.destroyer = .teardown then none else (s.loop.queue.step .destroyer).map s.setQueue

/-- The runs of a loop that is started on `world`, and shut down at some point. -/
def system (c : Config W) (world : W) (event : Event) : Sys.System (Closing c) CloseAct :=
  ⟨fun s => ∃ l, (Loop.system c world event).init l ∧ s = ⟨l, [], [], []⟩, step⟩

/-- A post whose `dispatch_async_f` call loads `destroying`, and finds it set. -/
def late : CloseAct → Bool
  | .loop (.call i) =>
    match (s.loop.posts[i]?).map Post.pc with
    | some (.wait _ j) => (s.loop.queue.calls[j]?).map Dispatch.Call.pc == some .load && s.loop.queue.destroying
    | _ => false
  | _ => false

/-- **No post comes too late.** -/
def InTime (a : CloseAct) : Prop := s.late a = false

instance (a : CloseAct) : Decidable (s.InTime a) := inferInstanceAs (Decidable (_ = _))

end Closing

end Cutils.EventLoop
