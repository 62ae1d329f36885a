import Mathlib.Data.Nat.Notation

/-!
# Event flags (`event_flag.h`), on pthreads and on FreeRTOS

The calls that do not block: sends, clears, and waits with `NO_SLEEP` that nobody contends for. On pthreads such a
wait locks, checks, and if that fails comes back from `pthread_cond_timedwait` with `ETIMEDOUT`, perhaps after
spurious wake-ups, at each of which it checks again. On FreeRTOS it is one call of the kernel, whose event groups are
a parameter (`EventGroups`).

A wait has the caller's variable for the actual flags, or NULL.
-/

namespace Cutils.EventFlag

/-- `event_flag_wait_type_e`. -/
inductive WaitType
  | waitOr
  | waitOrClear
  | waitAnd
  | waitAndClear
  deriving DecidableEq, Repr

/-- What a call leaves: its result, the flag word, and the caller's variable. -/
structure Outcome where
  retval : Bool
  val : UInt32
  actual : Option UInt32
  deriving DecidableEq, Repr

/-- `*p_actual_flags = flags`, if there is such a variable. -/
def report (actual : Option UInt32) (flags : UInt32) : Option UInt32 := actual.map fun _ => flags

section Pthread

/-- `check_flags`. -/
def checkFlags (val requiredFlags : UInt32) (waitType : WaitType) (actual : Option UInt32) : Outcome :=
  let actFlags := val &&& requiredFlags
  let retval :=
    if waitType = .waitOr ∨ waitType = .waitOrClear then actFlags != 0
    else actFlags == requiredFlags
  -- the variable is written only on success
  let actual := if retval then report actual actFlags else actual
  -- the word loses only flags that were asked for
  let val := if retval && (waitType == .waitAndClear || waitType == .waitOrClear) then val &&& ~~~actFlags else val
  ⟨retval, val, actual⟩

/-- `event_flag_wait` with `NO_SLEEP`, after so many spurious wake-ups. -/
def pthreadWait (val requiredFlags : UInt32) (waitType : WaitType) (actual : Option UInt32) : ℕ → Outcome
  | 0 => checkFlags val requiredFlags waitType actual
  | wakeups + 1 =>
    let r := checkFlags val requiredFlags waitType actual
    if r.retval then r else pthreadWait r.val requiredFlags waitType r.actual wakeups

def pthreadSend (val flagBits : UInt32) : UInt32 := val ||| flagBits

def pthreadClear (val flagBits : UInt32) : UInt32 := val &&& ~~~flagBits

end Pthread

section FreeRTOS

/-- The event groups of the kernel. `waitBits` has the word, the bits, `xClearOnExit` and `xWaitForAllBits`, and no
ticks to wait; it returns a word and leaves one. -/
structure EventGroups where
  setBits : UInt32 → UInt32 → UInt32
  clearBits : UInt32 → UInt32 → UInt32
  waitBits : UInt32 → UInt32 → Bool → Bool → UInt32 × UInt32

/-- `EVENT_FLAG_VALID_BITS`. -/
def validBits : UInt32 := 0x00FFFFFF

variable (g : EventGroups)

/-- `event_flag_wait` with `NO_SLEEP`. -/
def freertosWait (val requiredFlags : UInt32) (waitType : WaitType) (actual : Option UInt32) : Outcome :=
  let xClearOnExit : Bool := match waitType with
    | .waitOrClear | .waitAndClear => true
    | .waitOr | .waitAnd => false
  let xWaitForAllBits : Bool := match waitType with
    | .waitAnd | .waitAndClear => true
    | .waitOr | .waitOrClear => false
  let r := g.waitBits val (requiredFlags &&& validBits) xClearOnExit xWaitForAllBits
  -- the word that the kernel returns, also after a timeout
  let got := r.1
  let retval := if xWaitForAllBits then got &&& requiredFlags == requiredFlags else got &&& requiredFlags != 0
  ⟨retval, r.2, report actual got⟩

def freertosSend (val flagBits : UInt32) : UInt32 := g.setBits val (flagBits &&& validBits)

def freertosClear (val flagBits : UInt32) : UInt32 := g.clearBits val (flagBits &&& validBits)

end FreeRTOS

/-- A call; a wait also has what the caller's variable holds, and how often it wakes up spuriously. -/
inductive Op
  | send (flagBits : UInt32)
  | clear (flagBits : UInt32)
  | wait (requiredFlags : UInt32) (waitType : WaitType) (actual : Option UInt32) (wakeups : ℕ)
  deriving DecidableEq, Repr

/-- What the caller sees: the result, and its variable afterwards. -/
structure Obs where
  retval : Bool
  actual : Option UInt32
  deriving DecidableEq, Repr

def pthreadCall (val : UInt32) : Op → UInt32 × Obs
  | .send flagBits => (pthreadSend val flagBits, ⟨true, none⟩)
  | .clear flagBits => (pthreadClear val flagBits, ⟨true, none⟩)
  | .wait requiredFlags waitType actual wakeups =>
    let r := pthreadWait val requiredFlags waitType actual wakeups
    (r.val, ⟨r.retval, r.actual⟩)

def freertosCall (g : EventGroups) (val : UInt32) : Op → UInt32 × Obs
  | .send flagBits => (freertosSend g val flagBits, ⟨true, none⟩)
  | .clear flagBits => (freertosClear g val flagBits, ⟨true, none⟩)
  | .wait requiredFlags waitType actual _ =>
    let r := freertosWait g val requiredFlags waitType actual
    (r.val, ⟨r.retval, r.actual⟩)

end Cutils.EventFlag
