import Cutils.Spec.TsQueueThreads

/-!
# One call on a thread-safe queue and its waits (`pthread/ts_queue.h`)

`ts_queue_enqueue` and `ts_queue_dequeue` as one caller goes through them, once it has the mutex. What happens in its
condition waits is given, wait by wait: the clock when the wait begins, whether a wake-up ends it, and the queue when
the mutex is held again. As POSIX specifies it, a timed wait whose deadline has nanoseconds out of range returns `EINVAL`
at once with the mutex still held; one that begins at or after its deadline, or that no wake-up ends, returns `ETIMEDOUT`.
-/

namespace Cutils.TsQueue

variable {w : ℕ} {α : Type}

/-- What happens in one condition wait. -/
structure Waited (w : ℕ) (α : Type) where
  now : Timespec
  woken : Bool
  q : Queue w α

/-- `pthread_cond_wait`: what it returns, and the queue then. -/
def condWait (e : Waited w α) : Rval × Queue w α := (.zero, e.q)

/-- `pthread_cond_timedwait`. -/
def condTimedwait (abstime : Timespec) (q : Queue w α) (e : Waited w α) : Rval × Queue w α :=
  if !abstime.valid then (.inval, q)
  else if abstime.reached e.now || !e.woken then (.timedOut, e.q)
  else (.zero, e.q)

/-- The wait loops, with the wait condition `blocked`; none while the caller is still in the loop. -/
def waitLoop (blocked : Queue w α → Bool) (waitMs : UInt32) (ts : Timespec) :
    Rval × Queue w α → List (Waited w α) → Option (Rval × Queue w α)
  | (rval, q), [] => if blocked q && rval != .timedOut then none else some (rval, q)
  | (rval, q), e :: es =>
    if blocked q && rval != .timedOut then
      waitLoop blocked waitMs ts (if waitMs = WAIT_FOREVER then condWait e else condTimedwait ts q e) es
    else some (rval, q)

namespace Queue

variable (q : Queue w α)

/-- `ts_queue_enqueue`; `ts` is its clock reading. -/
def enqueueTimed (item : α) (ts : Timespec) (waitMs : UInt32) (es : List (Waited w α)) : Option (Queue w α × Bool) :=
  (waitLoop isFull waitMs (queueDeadline w ts waitMs) (.zero, q) es).map fun r =>
    if r.1 ≠ .timedOut then (r.2.put item, true) else (r.2, false)

/-- `ts_queue_dequeue`, with the item it stored. -/
def dequeueTimed (ts : Timespec) (waitMs : UInt32) (es : List (Waited w α)) : Option (Queue w α × Option α) :=
  (waitLoop isEmpty waitMs (queueDeadline w ts waitMs) (.zero, q) es).map fun r =>
    if r.1 = .zero then (r.2.take.1, some r.2.take.2) else (r.2, none)

end Queue

end Cutils.TsQueue
