import Cutils.Lib.CString
import Cutils.Lib.Reach
import Mathlib.Data.UInt

/-!
# The name of a task (`pthread/task.c`, `c11/task.c`)

`task_new_static` clears the task, creates the thread, and only then writes the sanity word and the label, while the new
thread runs and may ask for its name. On pthreads the sanity word is written first, and on C11 threads last. Every store
and every load is a step of its own; `strncpy` stores each byte once, in any order, and loads the source from its start.

`pthread_create` succeeds. A load outside of the label array is a fault.
-/

namespace Cutils.TaskNames

open CString

inductive Port
  | pthread
  | c11
  deriving DecidableEq, Repr

/-- A store of `task_new_static` after the thread was created. -/
inductive Store
  | sanity
  | label (i : ℕ)
  deriving DecidableEq, Repr

/-- The size of `label`. -/
def labelSize : ℕ := 30

/-- The stores, with those of `strncpy` in some order. -/
def Port.stores (order : List ℕ) : Port → List Store
  | .pthread => .sanity :: order.map .label
  | .c11 => order.map .label ++ [.sanity]

/-- What `strncpy` writes to the first `k` bytes of its destination. -/
def padded (k : ℕ) (src : List UInt8) : List UInt8 := src.take k ++ List.replicate (k - src.length) 0

/-- "unknown". -/
def unknown : List UInt8 := [117, 110, 107, 110, 111, 119, 110]

/-- Where a `task_get_current_name` call is: before its test of the sanity word; inside `strncpy`, with the bytes that it has
copied; back, with the bytes that it has written to `name`. -/
inductive Pc
  | check
  | copy (copied : List UInt8)
  | returned (name : List UInt8)
  deriving DecidableEq, Repr

/-- `late`: `task_new_static` was through with its stores when the call was made. -/
structure Call where
  stringLen : ℕ
  late : Bool
  pc : Pc
  deriving DecidableEq, Repr

/-- `todo`: the stores that `task_new_static` has left. -/
structure Task where
  sanity : Bool
  label : ℕ → UInt8
  todo : List Store
  calls : List Call
  fault : Bool

inductive Act
  | store
  | call (stringLen : ℕ)
  | run (i : ℕ)
  deriving DecidableEq, Repr

namespace Task

variable (name : Str UInt8) (s : Task)

def setPc (i : ℕ) (c : Call) (pc : Pc) : Task := { s with calls := s.calls.set i { c with pc := pc } }

/-- The next store of `task_new_static`, whose parameters have the label `name`. -/
def storeStep : Option Task :=
  match s.todo with
  | [] => none
  | .sanity :: rest => some { s with sanity := true, todo := rest }
  | .label i :: rest => some { s with label := Function.update s.label i (name.chars[i]?.getD 0), todo := rest }

/-- The next step of a `task_get_current_name` call. -/
def runStep (i : ℕ) (c : Call) : Option Task :=
  match c.pc with
  | .check => some (s.setPc i c (if s.sanity then .copy [] else .returned (padded c.stringLen unknown)))
  | .copy copied =>
    if copied.length = c.stringLen then some (s.setPc i c (.returned copied))
    else if copied.length < labelSize then
      -- the rest is filled up once there is a NUL
      if s.label copied.length = 0 then some (s.setPc i c (.returned (padded c.stringLen copied)))
      else some (s.setPc i c (.copy (copied ++ [s.label copied.length])))
    else some { s with fault := true }
  | .returned _ => none

def step : Act → Option Task
  | .store => s.storeStep name
  | .call stringLen => some { s with calls := s.calls ++ [⟨stringLen, s.todo.isEmpty, .check⟩] }
  | .run i => s.calls[i]?.bind (s.runStep i)

/-- A task that was just created. -/
def created (port : Port) (order : List ℕ) : Task := ⟨false, fun _ => 0, port.stores order, [], false⟩

/-- `strncpy` copies to all but the last byte of the label. -/
def system (name : Str UInt8) (port : Port) : Sys.System Task Act :=
  ⟨fun s => ∃ order, order.Perm (List.range (labelSize - 1)) ∧ s = created port order, step name⟩

end Task

end Cutils.TaskNames
