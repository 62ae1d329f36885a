import Cutils.Lib.Monitor
import Cutils.Spec.TsLogBuffer

/-!
# Threads at a thread-safe log buffer (`ts_log_buffer.c`)

Any number of `ts_log_buffer_push`, `ts_log_buffer_install_notifications` and `ts_log_buffer_current_size` calls. Under the
mutex a push takes a step for its test of `isInit`, for each character, and for each thing it reads to tell the client; the
callback is called past the unlock, with what was read before it. `mutex_lock` may fail on a held mutex, and its callers
do not look at its result.
-/

namespace Cutils.Log

open Cyclic

/-- A null string is `none`, and so is a null callback. -/
inductive Request
  | push (string : Option (ℕ → UInt8)) (stringSize : UInt32)
  | installNotifications (fn : Option Callback) (priv : ℕ)
  | currentSize

/-- What a call comes back with: the call of `fn` that a push makes, or the size with its chunks. -/
inductive Answer
  | notified (call : Option (Callback × Notification × ℕ))
  | installed
  | sized (size initialBytes residualBytes : UInt32)
  deriving DecidableEq, Repr

/-- Where a call is under the mutex: a push before its test of `isInit`, with the characters it has left, before its loads of
`fn`, `private` and the sizes; an install before its two stores; a query; or a call that is about to unlock. -/
inductive Section
  | check (string : Option (ℕ → UInt8)) (stringSize : UInt32)
  | characters (rest : List UInt8)
  | loadFn
  | loadPrivate (fn : Option Callback)
  | loadSizes (fn : Option Callback) (priv : ℕ)
  | storeFn (fn : Option Callback) (priv : ℕ)
  | storePrivate (priv : ℕ)
  | size
  | done (answer : Answer)

namespace TsLogBuffer

variable (ts : TsLogBuffer)

/-- How many lines are left: `max_lines - used_lines`, as an `int32_t`. -/
def diff : ℤ := (linesFromSize ts.lb.bufferSize - 1 - linesFromSize ts.lb.currentSize.1).toBitVec.toInt

/-- `ts_log_buffer_install_notifications`. -/
def installNotifications (fn : Option Callback) (priv : ℕ) : TsLogBuffer := { ts with fn := fn, priv := priv }

/-- A whole call. -/
def call : Request → TsLogBuffer × Answer
  | .push string stringSize => ((ts.push string stringSize).1, .notified (ts.push string stringSize).2)
  | .installNotifications fn priv => (ts.installNotifications fn priv, .installed)
  | .currentSize => (ts, .sized ts.lb.currentSize.1 ts.lb.currentSize.2.1 ts.lb.currentSize.2.2)

/-- The calls under the mutex. -/
def monitor : Monitor TsLogBuffer Request Section Answer where
  enter
    | .push string stringSize => .check string stringSize
    | .installNotifications fn priv => .storeFn fn priv
    | .currentSize => .size
  step ts
    | .check string stringSize =>
      if ts.lb.isInit then
        match string with
        -- the test of `log_buffer_push`
        | some string =>
          if stringSize < ts.lb.bufferSize then some (ts, .characters (firstN string stringSize.toNat)) else some (ts, .loadFn)
        | none => some (ts, .loadFn)
      else some (ts, .done (.notified none))
    | .characters [] => some (ts, .loadFn)
    | .characters (c :: rest) => some ({ ts with lb := ts.lb.pushCharacter c }, .characters rest)
    | .loadFn => some (ts, .loadPrivate ts.fn)
    | .loadPrivate fn => some (ts, .loadSizes fn ts.priv)
    | .loadSizes fn priv => some (ts, .done (.notified (notify { ts with fn := fn, priv := priv } ts.diff)))
    | .storeFn fn priv => some ({ ts with fn := fn }, .storePrivate priv)
    | .storePrivate priv => some ({ ts with priv := priv }, .done .installed)
    | .size => some (ts, .done (.sized ts.lb.currentSize.1 ts.lb.currentSize.2.1 ts.lb.currentSize.2.2))
    | .done _ => none
  leave
    | .done answer => answer
    -- there is no unlock but at the end
    | _ => .installed

end TsLogBuffer

end Cutils.Log
