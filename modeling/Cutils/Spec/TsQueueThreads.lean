import Cutils.Lib.Reach
import Cutils.Spec.TsQueue
import Mathlib.Algebra.Group.Nat.Defs
import Mathlib.Data.Int.Notation

/-!
# Threads at a thread-safe queue (`pthread/ts_queue.h`, `pthread/mutex.h`)

Any number of `ts_queue_enqueue` and `ts_queue_dequeue` calls interleave: each is an entry of
`calls`, with its position in the code. The mutex and the condition variables behave as POSIX
specifies them:

* `pthread_mutex_timedlock` takes a free mutex whatever its deadline; on a held one it returns
  `EINVAL` at once if the deadline's nanoseconds are out of range, `ETIMEDOUT` once the deadline
  is reached, and otherwise waits. The callers ignore its result.
* a condition wait releases the mutex and takes it again before it returns. A signal moves one
  waiter, if there is one; waiters also time out or wake spuriously. A timed wait with its
  nanoseconds out of range returns `EINVAL` at once, with the mutex still held.

Every reading of the clock is arbitrary, with its nanoseconds in range.
-/

namespace Cutils.TsQueue

/-- `struct timespec`. -/
structure Timespec where
  sec : ℤ
  nsec : ℤ
  deriving DecidableEq, Repr

/-- The nanoseconds are in range. -/
def Timespec.valid (t : Timespec) : Bool := 0 ≤ t.nsec && t.nsec < 1000000000

/-- Deadline `d` is reached at `now`. -/
def Timespec.reached (d now : Timespec) : Bool := d.sec < now.sec || (d.sec == now.sec && d.nsec ≤ now.nsec)

def WAIT_FOREVER : UInt32 := 0xFFFFFFFF

/-- The deadline `mutex_lock` computes from its clock reading. -/
def mutexDeadline (tm : Timespec) (waitMs : UInt32) : Timespec :=
  ⟨tm.sec + (waitMs / 1000).toNat, tm.nsec + (1000000 * (waitMs % 1000)).toNat⟩

/-- The deadline `ts_queue_enqueue` and `ts_queue_dequeue` compute; `long` has `w` bits. -/
def queueDeadline (w : ℕ) (ts : Timespec) (waitMs : UInt32) : Timespec :=
  if waitMs ≠ WAIT_FOREVER then
    ⟨ts.sec + (waitMs / 1000).toNat,
      ts.nsec + (BitVec.ofNat w waitMs.toNat).toInt.tmod 1000 * 1000000⟩
  else ts

/-- What a condition wait returned last. -/
inductive Rval
  | zero
  | timedOut
  | inval
  deriving DecidableEq, Repr

/-- What a call is for. -/
inductive Request (α : Type)
  | enqueue (item : α)
  | dequeue
  deriving DecidableEq, Repr

/-- The two sides of the queue; each waits on its own condition variable. -/
inductive Side
  | producer
  | consumer
  deriving DecidableEq, Repr

/-- Where a call is: before `mutex_lock`; blocked in it; at the test of its wait loop; waiting
on its condition variable; signalled there, or woken otherwise, and about to take the mutex
again; before `mutex_unlock`; back. -/
inductive Pc (α : Type)
  | lock
  | locking (deadline : Timespec)
  | loop (rval : Rval)
  | waiting
  | signalled
  | waking (rval : Rval)
  | unlock (retval : Obs α)
  | returned (retval : Obs α)
  deriving DecidableEq, Repr

structure Call (α : Type) where
  request : Request α
  waitMs : UInt32
  deadline : Timespec
  pc : Pc α
  deriving DecidableEq, Repr

variable {w : ℕ} {α : Type}

/-- Between `mutex_lock` and `mutex_unlock`, and not waiting. -/
def Pc.critical : Pc α → Bool
  | .loop _ | .unlock _ => true
  | _ => false

def Pc.isWaiting : Pc α → Bool
  | .waiting => true
  | _ => false

def Request.side : Request α → Side
  | .enqueue _ => .producer
  | .dequeue => .consumer

/-- Call `c` waits, un-signalled, on the condition variable of side `k`. -/
def Call.waitsOn (c : Call α) (k : Side) : Bool := c.request.side == k && c.pc.isWaiting

structure Threads (w : ℕ) (α : Type) where
  q : Queue w α
  owner : Option ℕ
  calls : List (Call α)

inductive Act (α : Type)
  | call (request : Request α) (waitMs : UInt32) (ts : Timespec)
  | lock (i : ℕ) (tm : Timespec)
  | lockTimeout (i : ℕ) (now : Timespec)
  | acquire (i : ℕ)
  | run (i : ℕ) (woken : Option ℕ)
  | wake (i : ℕ)
  | timeout (i : ℕ) (now : Timespec)
  deriving DecidableEq, Repr

namespace Threads

variable (s : Threads w α)

def setCall (i : ℕ) (c : Call α) (pc : Pc α) : Threads w α :=
  { s with calls := s.calls.set i { c with pc := pc } }

/-- The wait condition of a side. -/
def blocked : Side → Bool
  | .producer => s.q.isFull
  | .consumer => s.q.isEmpty

/-- `pthread_cond_signal` on the condition variable of side `k`: it moves one waiter, `woken`,
and does nothing if there is none. -/
def signal (k : Side) (woken : Option ℕ) : Option (Threads w α) :=
  match woken with
  | some j => (s.calls[j]?).bind fun c => if c.waitsOn k then some (s.setCall j c .signalled) else none
  | none => if s.calls.any (·.waitsOn k) then none else some s

/-- `pthread_mutex_timedlock` of `mutex_lock(.., WAIT_FOREVER)`, up to where it waits. -/
def lockStep (i : ℕ) (c : Call α) (tm : Timespec) : Option (Threads w α) :=
  match c.pc with
  | .lock =>
    if s.owner = none then some { s.setCall i c (.loop .zero) with owner := some i }
    else if (mutexDeadline tm WAIT_FOREVER).valid then
      some (s.setCall i c (.locking (mutexDeadline tm WAIT_FOREVER)))
    -- `EINVAL`: the caller goes on as if it had the mutex
    else some (s.setCall i c (.loop .zero))
  | _ => none

/-- `ETIMEDOUT` in `mutex_lock`: the caller goes on as if it had the mutex. -/
def lockTimeoutStep (i : ℕ) (c : Call α) (now : Timespec) : Option (Threads w α) :=
  match c.pc with
  | .locking deadline =>
    if s.owner ≠ none ∧ deadline.reached now then some (s.setCall i c (.loop .zero)) else none
  | _ => none

/-- A call that waits for the mutex gets it. -/
def acquireStep (i : ℕ) (c : Call α) : Option (Threads w α) :=
  if s.owner = none then
    match c.pc with
    | .locking _ | .signalled => some { s.setCall i c (.loop .zero) with owner := some i }
    | .waking rval => some { s.setCall i c (.loop rval) with owner := some i }
    | _ => none
  else none

/-- The wait loop's test with what follows it, or the unlock. -/
def runStep (i : ℕ) (c : Call α) (woken : Option ℕ) : Option (Threads w α) :=
  match c.pc with
  | .loop rval =>
    if s.blocked c.request.side ∧ rval ≠ .timedOut then
      if c.waitMs = WAIT_FOREVER ∨ c.deadline.valid then some { s.setCall i c .waiting with owner := none }
      else some (s.setCall i c (.loop .inval))
    else match c.request with
    | .enqueue x =>
      if rval ≠ .timedOut then
        signal { s.setCall i c (.unlock (.enqueued true)) with q := s.q.put x } .consumer woken
      else some (s.setCall i c (.unlock (.enqueued false)))
    | .dequeue =>
      if rval = .zero then
        signal { s.setCall i c (.unlock (.dequeued (some s.q.take.2))) with q := s.q.take.1 } .producer woken
      else some (s.setCall i c (.unlock (.dequeued none)))
  | .unlock retval => some { s.setCall i c (.returned retval) with owner := none }
  | _ => none

/-- A spurious wake-up. -/
def wakeStep (i : ℕ) (c : Call α) : Option (Threads w α) :=
  match c.pc with
  | .waiting => some (s.setCall i c (.waking .zero))
  | _ => none

/-- The timeout of a timed wait. -/
def timeoutStep (i : ℕ) (c : Call α) (now : Timespec) : Option (Threads w α) :=
  match c.pc with
  | .waiting =>
    if c.waitMs ≠ WAIT_FOREVER ∧ c.deadline.reached now then some (s.setCall i c (.waking .timedOut)) else none
  | _ => none

def step (a : Act α) : Option (Threads w α) :=
  match a with
  | .call request waitMs ts =>
    if ts.valid then some { s with calls := s.calls ++ [⟨request, waitMs, queueDeadline w ts waitMs, .lock⟩] }
    else none
  | .lock i tm => if tm.valid then (s.calls[i]?).bind fun c => s.lockStep i c tm else none
  | .lockTimeout i now => if now.valid then (s.calls[i]?).bind fun c => s.lockTimeoutStep i c now else none
  | .acquire i => (s.calls[i]?).bind (s.acquireStep i)
  | .run i woken => (s.calls[i]?).bind fun c => s.runStep i c woken
  | .wake i => (s.calls[i]?).bind (s.wakeStep i)
  | .timeout i now => if now.valid then (s.calls[i]?).bind fun c => s.timeoutStep i c now else none

/-- Threads at a queue that was just initialised. -/
def system (w : ℕ) (α : Type) : Sys.System (Threads w α) (Act α) :=
  ⟨fun s => ∃ ptrArray size, init ptrArray size true true = some s.q ∧ s.owner = none ∧ s.calls = [], step⟩

/-- **The lock works**: a `mutex_lock` that finds the mutex held read a clock whose nanoseconds
leave room for those of the deadline, and none waits until its deadline. -/
def LockWorks : Act α → Prop
  | .lock _ tm => s.owner = none ∨ tm.nsec < 705000000
  | .lockTimeout _ _ => False
  | _ => True

/-- Every timed condition wait has a valid deadline. -/
def DeadlinesValid (_ : Threads w α) : Act α → Prop
  | .call _ waitMs ts => waitMs = WAIT_FOREVER ∨ (queueDeadline w ts waitMs).valid = true
  | _ => True

/-- A producer tests its wait condition only while `tail + size` does not wrap. -/
def FullTestFits : Act α → Prop
  | .run i _ => ∀ c rval, s.calls[i]? = some c → c.request.side = .producer → c.pc = .loop rval →
    s.q.tail.toNat + s.q.size.toNat < 2 ^ w
  | _ => True

end Threads

end Cutils.TsQueue
