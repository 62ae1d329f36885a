import Cutils.Spec.EventFlag
import Cutils.Spec.TsQueueThreads

/-!
# Threads at an event flag (`pthread/event_flag.h`, `signal.h`)

Any number of `event_flag_send`, `event_flag_clear` and `event_flag_wait` calls interleave on one flag: each is an entry
of `calls`, with its position in the code. The mutex and the condition variable behave as POSIX specifies them:

* `pthread_mutex_timedlock` takes a free mutex whatever its deadline; on a held one it returns `EINVAL` at once if the
  deadline's nanoseconds are out of range, `ETIMEDOUT` once the deadline is reached, and otherwise waits.
  `pthread_mutex_trylock` returns `EBUSY` on a held mutex, and `pthread_mutex_lock` waits.
* a condition wait releases the mutex and takes it again before it returns. A broadcast moves every waiter; waiters
  also time out or wake spuriously. A timed wait with its nanoseconds out of range returns `EINVAL` at once.

Every reading of the clock is arbitrary, since the Epoch and with its nanoseconds in range.

The last section is one `event_flag_wait` by itself, with what happens in its condition waits given.
-/

namespace Cutils.EventFlag

open TsQueue (Timespec WAIT_FOREVER Rval)

def NO_SLEEP : UInt32 := 0

/-- A reading of `CLOCK_REALTIME`. -/
def reading (t : Timespec) : Bool := t.valid && 0 ≤ t.sec

/-- The deadline that `event_flag_wait` computes from a clock reading. -/
def flagDeadline (ts : Timespec) (waitMs : UInt32) : Timespec :=
  ⟨ts.sec + (waitMs / 1000).toNat, ts.nsec + (waitMs % 1000 * 1000000).toNat⟩

/-- `ts` at the lock: it stays zero for `WAIT_FOREVER`. -/
def lockDeadline (ts : Timespec) (waitMs : UInt32) : Timespec :=
  if waitMs ≠ WAIT_FOREVER then flagDeadline ts waitMs else ⟨0, 0⟩

inductive Request
  | send (flagBits : UInt32)
  | clear (flagBits : UInt32)
  | wait (requiredFlags : UInt32) (waitType : WaitType) (waitMs : UInt32)
  deriving DecidableEq, Repr

/-- `signal_wait`. -/
def signalWait : Request := .wait 1 .waitOrClear WAIT_FOREVER

/-- `signal_send`. -/
def signalSend : Request := .send 1

/-- Where a call is: before it locks the mutex; blocked there; at its work under the mutex; waiting on the condition
variable; woken there, and about to take the mutex again; before the unlock; back. -/
inductive Pc
  | lock
  | locking
  | critical
  | waiting (abstime : Option Timespec)
  | waking (rval : Rval)
  | unlock (retval : Bool)
  | returned (retval : Bool)
  deriving DecidableEq, Repr

/-- A call; a wait has its `ts` and what the caller's variable holds. -/
structure Call where
  request : Request
  ts : Timespec
  actual : Option UInt32
  pc : Pc
  deriving DecidableEq, Repr

def Request.waitsForever : Request → Bool
  | .wait _ _ waitMs => waitMs == WAIT_FOREVER
  | _ => false

/-- `dispatch_queue_destroy` asserts that the `signal_wait` of its exit handshake succeeded. -/
def Call.handshakeFails (c : Call) : Bool := c.request == signalWait && c.pc == .returned false

/-- `pthread_cond_broadcast`, for one call. -/
def Call.wakeUp (c : Call) : Call :=
  match c.pc with
  | .waiting _ => { c with pc := .waking .zero }
  | _ => c

structure Threads where
  val : UInt32
  owner : Option ℕ
  calls : List Call
  deriving DecidableEq, Repr

inductive Act
  | call (request : Request) (actual : Option UInt32) (ts : Timespec)
  | lock (i : ℕ) (now : Timespec)
  | lockTimeout (i : ℕ) (now : Timespec)
  | acquire (i : ℕ)
  | run (i : ℕ) (ts : Timespec)
  | wake (i : ℕ)
  | timeout (i : ℕ) (now : Timespec)
  deriving DecidableEq, Repr

namespace Threads

variable (s : Threads)

def setCall (i : ℕ) (c : Call) (pc : Pc) : Threads := { s with calls := s.calls.set i { c with pc := pc } }

/-- The call has the mutex, and goes on at `pc`. -/
def take (i : ℕ) (c : Call) (pc : Pc) : Threads := { s.setCall i c pc with owner := some i }

def broadcast : Threads := { s with calls := s.calls.map Call.wakeUp }

/-- `ts` as a call begins. -/
def entryTs (ts : Timespec) : Request → Timespec
  | .wait _ _ waitMs => lockDeadline ts waitMs
  | _ => ⟨0, 0⟩

/-- The attempt to lock a held mutex. -/
def lockHeld (i : ℕ) (c : Call) (now : Timespec) : Threads :=
  match c.request with
  | .send _ | .clear _ => s.setCall i c .locking
  | .wait _ _ waitMs =>
    -- `EBUSY`; or `EINVAL`, or `ETIMEDOUT`: the mutex is not acquired, and the wait fails
    if waitMs = NO_SLEEP then s.setCall i c (.returned false)
    else if !c.ts.valid || c.ts.reached now then s.setCall i c (.returned false)
    else s.setCall i c .locking

def lockStep (i : ℕ) (c : Call) (now : Timespec) : Option Threads :=
  match c.pc with
  | .lock => if s.owner = none then some (s.take i c .critical) else some (s.lockHeld i c now)
  | _ => none

/-- `ETIMEDOUT` in `pthread_mutex_timedlock`, after a while. -/
def lockTimeoutStep (i : ℕ) (c : Call) (now : Timespec) : Option Threads :=
  match c.pc, c.request with
  | .locking, .wait _ _ _ =>
    if s.owner ≠ none ∧ c.ts.reached now then some (s.setCall i c (.returned false)) else none
  | _, _ => none

/-- A call that is blocked on the mutex gets it; a wait goes back to its loop, or has timed out. -/
def acquireStep (i : ℕ) (c : Call) : Option Threads :=
  if s.owner = none then
    match c.pc with
    | .locking | .waking .zero => some (s.take i c .critical)
    | .waking _ => some (s.take i c (.unlock false))
    | _ => none
  else none

/-- The loop of `event_flag_wait`: its test, and the wait. -/
def loopStep (i : ℕ) (c : Call) (requiredFlags : UInt32) (waitType : WaitType) (waitMs : UInt32) (ts : Timespec) :
    Threads :=
  let r := checkFlags s.val requiredFlags waitType c.actual
  if r.retval then { s.setCall i { c with actual := r.actual } (.unlock true) with val := r.val }
  else if waitMs ≠ WAIT_FOREVER then
    if (flagDeadline ts waitMs).valid then
      { s.setCall i c (.waiting (some (flagDeadline ts waitMs))) with owner := none }
    -- `EINVAL`
    else s.setCall i c (.unlock false)
  else { s.setCall i c (.waiting none) with owner := none }

/-- What a call does under the mutex, or the unlock. -/
def runStep (i : ℕ) (c : Call) (ts : Timespec) : Option Threads :=
  match c.pc with
  | .critical =>
    match c.request with
    | .send flagBits => some (broadcast { s.setCall i c (.unlock true) with val := pthreadSend s.val flagBits })
    | .clear flagBits => some { s.setCall i c (.unlock true) with val := pthreadClear s.val flagBits }
    | .wait requiredFlags waitType waitMs => some (s.loopStep i c requiredFlags waitType waitMs ts)
  | .unlock retval => some { s.setCall i c (.returned retval) with owner := none }
  | _ => none

/-- A spurious wake-up. -/
def wakeStep (i : ℕ) (c : Call) : Option Threads :=
  match c.pc with
  | .waiting _ => some (s.setCall i c (.waking .zero))
  | _ => none

def timeoutStep (i : ℕ) (c : Call) (now : Timespec) : Option Threads :=
  match c.pc with
  | .waiting (some abstime) => if abstime.reached now then some (s.setCall i c (.waking .timedOut)) else none
  | _ => none

def step : Act → Option Threads
  | .call request actual ts =>
    if reading ts then some { s with calls := s.calls ++ [⟨request, entryTs ts request, actual, .lock⟩] } else none
  | .lock i now => if reading now then (s.calls[i]?).bind fun c => s.lockStep i c now else none
  | .lockTimeout i now => if reading now then (s.calls[i]?).bind fun c => s.lockTimeoutStep i c now else none
  | .acquire i => (s.calls[i]?).bind (s.acquireStep i)
  | .run i ts => if reading ts then (s.calls[i]?).bind fun c => s.runStep i c ts else none
  | .wake i => (s.calls[i]?).bind (s.wakeStep i)
  | .timeout i now => if reading now then (s.calls[i]?).bind fun c => s.timeoutStep i c now else none

/-- Threads at a flag after `event_flag_new`. -/
def system : Sys.System Threads Act := ⟨fun s => s = ⟨0, none, []⟩, step⟩

/-- **No contention**: a wait that is to last for ever finds the mutex free. -/
def Uncontended : Act → Prop
  | .lock i _ => ∀ c ∈ s.calls[i]?, c.request.waitsForever = true → c.pc = .lock → s.owner = none
  | _ => True

end Threads

section OneWait

/-- What happens in one condition wait: the clock reading before it, the clock at the wake-up that comes, if any comes,
and the flag word when the mutex is held again. -/
structure Waited where
  ts : Timespec
  wakeup : Option Timespec
  val : UInt32
  deriving DecidableEq, Repr

/-- `pthread_cond_timedwait`: a wake-up counts if it comes before the deadline. -/
def condTimedwait (abstime : Timespec) (e : Waited) : Rval :=
  if !abstime.valid then .inval
  else match e.wakeup with
  | none => .timedOut
  | some t => if abstime.reached t then .timedOut else .zero

variable (requiredFlags : UInt32) (waitType : WaitType) (waitMs : UInt32)

/-- The loop: what it returns, none while the caller is still in it, and the deadlines it hands to
`pthread_cond_timedwait`. -/
def waitLoop (val : UInt32) (actual : Option UInt32) : List Waited → Option Outcome × List Timespec
  | [] =>
    let r := checkFlags val requiredFlags waitType actual
    (if r.retval then some r else none, [])
  | e :: es =>
    let r := checkFlags val requiredFlags waitType actual
    if r.retval then (some r, [])
    else if waitMs ≠ WAIT_FOREVER then
      let abstime := flagDeadline e.ts waitMs
      match condTimedwait abstime e with
      | .zero =>
        let rest := waitLoop e.val r.actual es
        (rest.1, abstime :: rest.2)
      | .timedOut => (some ⟨false, e.val, r.actual⟩, [abstime])
      -- at once, with the mutex held all the time
      | .inval => (some ⟨false, r.val, r.actual⟩, [abstime])
    else if e.wakeup.isSome then waitLoop e.val r.actual es
    else (none, [])

/-- `event_flag_wait`; `locked` tells whether it gets the mutex. -/
def waitTimed (val : UInt32) (actual : Option UInt32) (locked : Bool) (es : List Waited) :
    Option Outcome × List Timespec :=
  if locked then waitLoop requiredFlags waitType waitMs val actual es else (some ⟨false, val, actual⟩, [])

end OneWait

end Cutils.EventFlag
