import Cutils.Lib.History
import Cutils.Lib.Simulation
import Cutils.Spec.TsQueueThreads

/-!
# The critical sections of a thread-safe queue, access by access (`pthread/ts_queue.h`)

`Threads` takes the body of an enqueue or a dequeue as one step. In `Steps` it is one step for
each access to the queue: the `atomic_fetch_add` of a counter, the slot, `count` read and written
back, the signal. All other threads may run in between.

`system` is watched by a history of the calls made, the items put and taken, and the calls
that have returned.
-/

namespace Cutils.TsQueue

/-- Where a call is in the body of its critical section, with its local values: the wait loop
was left; the counter was moved on from `p`; the slot was written or read; `count` was read;
`count` was written. -/
inductive Inner (w : ℕ) (α : Type)
  | body
  | claimed (p : BitVec w)
  | moved (item : α)
  | loaded (item : α) (count : BitVec w)
  | counted (item : α)
  deriving DecidableEq, Repr

/-- Threads at a queue; `inner i` says where in the body call `i` is, if it is there. -/
structure Steps (w : ℕ) (α : Type) extends Threads w α where
  inner : ℕ → Option (Inner w α)

variable {w : ℕ} {α : Type}

/-- A call that leaves its wait loop with `rval` goes on to the body. -/
def Request.enters : Request α → Rval → Bool
  | .enqueue _, rval => rval != .timedOut
  | .dequeue, rval => rval == .zero

namespace Steps

variable (s : Steps w α)

def setInner (i : ℕ) (k : Inner w α) (q : Queue w α) : Steps w α :=
  { s with q := q, inner := Function.update s.inner i (some k) }

/-- One access of the body, up to the signal. -/
def bodyStep (i : ℕ) (c : Call α) (woken : Option ℕ) (k : Inner w α) : Option (Steps w α) :=
  match k, c.request with
  | .body, .enqueue _ => some (s.setInner i (.claimed s.q.head) { s.q with head := s.q.head + 1 })
  | .body, .dequeue => some (s.setInner i (.claimed s.q.tail) { s.q with tail := s.q.tail + 1 })
  | .claimed p, .enqueue x => some (s.setInner i (.moved x)
      { s.q with ppPtrArray := Function.update s.q.ppPtrArray (s.q.slot p) x })
  | .claimed p, .dequeue => some (s.setInner i (.moved (s.q.ppPtrArray (s.q.slot p))) s.q)
  | .moved item, _ => some (s.setInner i (.loaded item s.q.count) s.q)
  | .loaded item count, .enqueue _ => some (s.setInner i (.counted item) { s.q with count := count + 1 })
  | .loaded item count, .dequeue => some (s.setInner i (.counted item) { s.q with count := count - 1 })
  | .counted _, .enqueue _ =>
    ((s.setCall i c (.unlock (.enqueued true))).signal .consumer woken).map
      (⟨·, Function.update s.inner i none⟩)
  | .counted item, .dequeue =>
    ((s.setCall i c (.unlock (.dequeued (some item)))).signal .producer woken).map
      (⟨·, Function.update s.inner i none⟩)

/-- The call is about to leave its wait loop for the body. -/
def entering (c : Call α) : Bool :=
  match c.pc with
  | .loop rval => !(s.blocked c.request.side && rval != .timedOut) && c.request.enters rval
  | _ => false

def runStep (i : ℕ) (c : Call α) (woken : Option ℕ) : Option (Steps w α) :=
  match s.inner i with
  | some k => s.bodyStep i c woken k
  | none =>
    if s.entering c then some (s.setInner i .body s.q)
    else (s.toThreads.runStep i c woken).map (⟨·, s.inner⟩)

def step (a : Act α) : Option (Steps w α) :=
  match a with
  | .run i woken => (s.calls[i]?).bind fun c => s.runStep i c woken
  | a => (s.toThreads.step a).map (⟨·, s.inner⟩)

/-- Threads at a queue that was just initialised. -/
def system (w : ℕ) (α : Type) : Sys.System (Steps w α) (Act α) :=
  ⟨fun s => (Threads.system w α).init s.toThreads ∧ s.inner = fun _ => none, step⟩

/-- The lock works. -/
def LockWorks (a : Act α) : Prop := s.toThreads.LockWorks a

/-- No call is in the body of its critical section. -/
def Idle : Prop := ∀ i, s.inner i = none

end Steps

/-- What a call does to the queue. -/
inductive Effect (α : Type)
  | put (item : α)
  | take (item : α)
  deriving DecidableEq, Repr

abbrev Event (α : Type) := History.Event (Request α) (Effect α) (Obs α)

/-- The effect of a call that returns `retval`. -/
def Request.effects : Request α → Obs α → List (Effect α)
  | .enqueue x, .enqueued true => [.put x]
  | .dequeue, .dequeued (some x) => [.take x]
  | _, _ => []

/-- What call `i` adds to the history when it goes from `c` to `c'`. -/
def Call.events (i : ℕ) (c c' : Call α) : List (Event α) :=
  match c.pc, c'.pc with
  | .loop _, .unlock retval => (c.request.effects retval).map (.effect i)
  | .unlock _, .returned retval => [.returned i retval]
  | _, _ => []

/-- The history after a step. -/
def note (s : Threads w α) (a : Act α) (s' : Threads w α) (h : List (Event α)) : List (Event α) :=
  match a with
  | .call request _ _ => h ++ [.invoked s.calls.length request]
  | .run i _ =>
    match s.calls[i]?, s'.calls[i]? with
    | some c, some c' => h ++ c.events i c'
    | _, _ => h
  | _ => h

/-- Threads at a queue, with the history of their calls. -/
def Threads.watched (w : ℕ) (α : Type) : Sys.System (Threads w α × List (Event α)) (Act α) :=
  (Threads.system w α).recorded [] note

/-- The same, access by access. -/
def Steps.watched (w : ℕ) (α : Type) : Sys.System (Steps w α × List (Event α)) (Act α) :=
  (Steps.system w α).recorded [] fun s a s' => note s.toThreads a s'.toThreads

/-- **The queue in the abstract**: what it holds, oldest first, and how many items were taken. -/
structure Contents (α : Type) where
  items : List α
  taken : ℕ

/-- An effect on a queue of `n` slots: there was room for the item, or it was the oldest. -/
def Contents.step (n : ℕ) (t : Contents α) (e : Effect α) (t' : Contents α) : Prop :=
  match e with
  | .put x => t.items.length < n ∧ t' = ⟨t.items ++ [x], t.taken⟩
  | .take x => t.items = x :: t'.items ∧ t'.taken = t.taken + 1

/-- The contents that a history leads to. -/
abbrev Leads (n : ℕ) : List (Event α) → Contents α → Prop := History.Leads (Contents.step n) ⟨[], 0⟩

/-- What a call that gives up has seen: no item; or no free slot, unless the full test wraps. -/
def Contents.refuses (w n : ℕ) (t : Contents α) : Side → Prop
  | .producer => t.items.length = n ∨ 2 ^ w ≤ t.taken + n
  | .consumer => t.items = []

/-- At a moment of call `i`, the queue refused it. -/
abbrev Refused (w n : ℕ) (h : List (Event α)) (i : ℕ) (request : Request α) : Prop :=
  History.During (Contents.step n) ⟨[], 0⟩ h i request fun t => t.refuses w n request.side

/-- **The outcomes of a call**: it put its item, or took one, and says so; or it did nothing, and was refused. -/
inductive Outcome (w n : ℕ) (h : List (Event α)) (i : ℕ) : Request α → Obs α → Prop
  | put (x : α) : Outcome w n h i (.enqueue x) (.enqueued true)
  | take (x : α) : Outcome w n h i .dequeue (.dequeued (some x))
  | full (x : α) : Refused w n h i (.enqueue x) → Outcome w n h i (.enqueue x) (.enqueued false)
  | empty : Refused w n h i .dequeue → Outcome w n h i .dequeue (.dequeued none)

/-- A condition wait, or what follows one that timed out or was refused: the call has found the queue in its way. -/
def Pc.refused : Pc α → Bool
  | .waiting => true
  | .waking rval | .loop rval => rval != .zero
  | _ => false

/-- **What a history says of call `i`**: that it was made, and nothing else before the call is done; then its
effect, if its outcome has one; and last its return. -/
def Told (w n : ℕ) (h : List (Event α)) (i : ℕ) (c : Call α) : Prop :=
  match c.pc with
  | .unlock retval => Outcome w n h i c.request retval ∧
    History.ofCall i h = .invoked i c.request :: (c.request.effects retval).map (.effect i)
  | .returned retval => Outcome w n h i c.request retval ∧
    History.ofCall i h = .invoked i c.request :: (c.request.effects retval).map (.effect i) ++ [.returned i retval]
  | pc => History.ofCall i h = [.invoked i c.request] ∧ (pc.refused = true → Refused w n h i c.request)

end Cutils.TsQueue
