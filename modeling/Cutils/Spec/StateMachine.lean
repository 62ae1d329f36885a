import Cutils.Lib.Reach

/-!
# State machines (`state.h`, `state_machine.h`, `state_machine.c`)

A machine runs over its registered states. The states' callbacks are client code: they act on
the client's own data `σ`, and `f_enter` and `f_handle_event` may also call
`state_machine_stop` on their machine, as often as they like (`Prog`).

An operation that dereferences a null `current_state`, or whose `CUTILS_ASSERT` fails, ends the
run with a `Fault`. `log` is the sequence of callbacks called.
-/

namespace Cutils.StateMachine

/-- Client code that may stop the machine. -/
inductive Prog (σ ρ : Type) where
  | ret (retval : ρ)
  | client (f : σ → σ) (next : σ → Prog σ ρ)
  | stop (next : Prog σ ρ)

/-- `state_t`, for events `ε`. -/
structure State (σ ε : Type) where
  stateId : UInt32
  fInit : Option (σ → σ)
  fEnter : Prog σ Unit
  fExit : σ → σ
  fValidEvent : ε → σ → σ × Bool
  fHandleEvent : ε → Prog σ UInt32

/-- A callback of the state at an index. -/
inductive Callback
  | init (state : ℕ)
  | enter (state : ℕ)
  | exit (state : ℕ)
  | validEvent (state : ℕ)
  | handleEvent (state : ℕ)
  deriving DecidableEq, Repr

/-- How an operation can go wrong. -/
inductive Fault
  | nullCurrentState
  | noInitialState
  | noNextState
  deriving DecidableEq, Repr

variable {σ ε ρ : Type}

/-- `state_machine_register_state`: a full machine ignores it. -/
def registerState (states : List (State σ ε)) (state : State σ ε) : List (State σ ε) :=
  if states.length < 20 then states ++ [state] else states

/-- `state_machine_t` over the registered `states`, with the client's data and what happened so
far. `stopped`: there was a stop, and no start since. -/
structure Machine (states : List (State σ ε)) where
  startStateId : UInt32
  currentState : Option (Fin states.length)
  transitionRequested : Bool
  nextStateRequested : UInt32
  stateMachineStarted : Bool
  enteredOnce : Fin states.length → Bool
  data : σ
  log : List Callback
  stopped : Bool

namespace Machine

variable {states : List (State σ ε)}

/-- `state_machine_create`, with the states registered since. -/
def create (states : List (State σ ε)) (startStateId : UInt32) (data : σ) : Machine states :=
  ⟨startStateId, none, false, 0, false, fun _ => false, data, [], false⟩

variable (m : Machine states)

/-- `state_machine_get_state`: the first registered state with that id. -/
def getState (_ : Machine states) (stateId : UInt32) : Option (Fin states.length) :=
  states.findFinIdx? (·.stateId == stateId)

/-- `state_machine_stop`. -/
def stop : Machine states :=
  match m.currentState with
  -- `state_machine_started` is not cleared
  | some i => { m with
      data := (states.get i).fExit m.data
      log := m.log ++ [.exit i]
      currentState := none
      transitionRequested := false
      stopped := true }
  | none => { m with stopped := true }

/-- Run a callback that may stop the machine. -/
def exec : Prog σ ρ → Machine states → Machine states × ρ
  | .ret retval, m => (m, retval)
  | .client f next, m => exec (next (f m.data)) { m with data := f m.data }
  | .stop next, m => exec next m.stop

/-- The first part of `enter_state`. -/
def initState (i : Fin states.length) : Machine states :=
  if m.enteredOnce i then m
  else match (states.get i).fInit with
    -- the mark comes first: it is there while `f_init` runs
    | some fInit => { m with
        enteredOnce := fun j => j == i || m.enteredOnce j
        data := fInit m.data
        log := m.log ++ [.init i] }
    | none => { m with enteredOnce := fun j => j == i || m.enteredOnce j }

/-- `enter_state`. -/
def enterState (i : Fin states.length) : Machine states :=
  (exec (states.get i).fEnter { m.initState i with log := (m.initState i).log ++ [.enter i] }).1

/-- `state_machine_start`. -/
def start : Except Fault (Machine states) :=
  match m.getState m.startStateId with
  | none => .error .noInitialState
  | some i =>
    .ok (enterState { m with currentState := some i, stateMachineStarted := true, stopped := false } i)

/-- `state_machine_handle_event`, from the call of `f_handle_event` on. -/
def dispatchEvent (i : Fin states.length) (event : ε) : Except Fault (Machine states) :=
  let r := exec ((states.get i).fHandleEvent event) { m with log := m.log ++ [.handleEvent i] }
  -- `f_handle_event` may have stopped the machine, and the comparison looks at its state
  match r.1.currentState with
  | none => .error .nullCurrentState
  | some j => .ok { r.1 with
      nextStateRequested := r.2
      transitionRequested := r.1.transitionRequested || r.2 != (states.get j).stateId }

/-- `state_machine_handle_event`. -/
def handleEvent (event : Option ε) : Except Fault (Machine states) :=
  match event with
  | none => .ok m
  | some e =>
    if m.stateMachineStarted then
      match m.currentState with
      | none => .error .nullCurrentState
      | some i =>
        let r := (states.get i).fValidEvent e m.data
        let m' := { m with data := r.1, log := m.log ++ [.validEvent i] }
        -- an event that is not valid here is dropped
        if r.2 then m'.dispatchEvent i e else .ok m'
    else .ok m

/-- `state_machine_transition`. -/
def transition : Except Fault (Machine states) :=
  if m.transitionRequested && m.stateMachineStarted then
    match m.currentState with
    | none => .error .nullCurrentState
    | some i =>
      if (states.get i).stateId != m.nextStateRequested then
        match m.getState m.nextStateRequested with
        -- no state has the id that `f_handle_event` asked for
        | none => .error .noNextState
        | some j => .ok (enterState { m with
            transitionRequested := false
            data := (states.get i).fExit m.data
            log := m.log ++ [.exit i]
            currentState := some j } j)
      -- the request is over, also if the machine is in that state by now
      else .ok { m with transitionRequested := false }
  else .ok m

end Machine

/-- The calls a client makes. -/
inductive Op (ε : Type)
  | start
  | handleEvent (event : Option ε)
  | transition
  | stop
  deriving DecidableEq, Repr

/-- Event processing, as opposed to control. -/
def Op.isEvent : Op ε → Bool
  | .handleEvent _ | .transition => true
  | _ => false

def Machine.call {states : List (State σ ε)} (m : Machine states) : Op ε → Except Fault (Machine states)
  | .start => m.start
  | .handleEvent event => m.handleEvent event
  | .transition => m.transition
  | .stop => .ok m.stop

/-- A run of calls; a fault ends it. -/
structure Run (states : List (State σ ε)) where
  machine : Machine states
  fault : Option Fault

namespace Run

variable {states : List (State σ ε)}

def step (r : Run states) (op : Op ε) : Option (Run states) :=
  if r.fault.isSome then none
  else match r.machine.call op with
    | .ok m => some ⟨m, none⟩
    | .error f => some ⟨r.machine, some f⟩

def system (states : List (State σ ε)) : Sys.System (Run states) (Op ε) :=
  ⟨fun r => ∃ startStateId data, r = ⟨Machine.create states startStateId data, none⟩, step⟩

end Run

end Cutils.StateMachine
