import Cutils.Spec.LogBuffer
import Mathlib.Data.Int.Notation

/-!
# The thread-safe log buffer (`ts_log_buffer.h`, `ts_log_buffer.c`)

A log buffer behind a mutex, which tells a client how full it is after every push. The mutex makes each call
one step; the callback is called after it was released, with what the step found.
-/

namespace Cutils.Log

/-- `ts_log_buffer_notfication_e`. -/
inductive Notification
  | full
  | almostFull
  | empty
  deriving DecidableEq, Repr

/-- A `ts_log_buffer_f`, by its address. -/
abbrev Callback := ℕ

/-- `ts_log_buffer_t`. -/
structure TsLogBuffer where
  lb : LogBuffer
  fn : Option Callback
  priv : ℕ

namespace TsLogBuffer

variable (ts : TsLogBuffer)

/-- The end of `ts_log_buffer_push`: the call of `fn`, if there is one. -/
def notify (diff : ℤ) : Option (Callback × Notification × ℕ) :=
  match ts.fn with
  | some fn =>
    if 0 < diff ∧ diff < 3 then some (fn, .almostFull, ts.priv)
    else if diff ≤ 0 then some (fn, .full, ts.priv)
    else none
  | none => none

/-- `ts_log_buffer_push`; a null string is `none`. -/
def push (string : Option (ℕ → UInt8)) (stringSize : UInt32) : TsLogBuffer × Option (Callback × Notification × ℕ) :=
  if ts.lb.isInit then
    let lb := match string with
      | some string => (ts.lb.push string stringSize).1
      | none => ts.lb
    let usedLines := linesFromSize lb.currentSize.1
    let maxLines := linesFromSize lb.bufferSize - 1
    let diff : ℤ := (maxLines - usedLines).toBitVec.toInt
    ({ ts with lb := lb }, ts.notify diff)
  else (ts, none)

end TsLogBuffer

end Cutils.Log
