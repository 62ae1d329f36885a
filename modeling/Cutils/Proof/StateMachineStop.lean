import Cutils.Spec.StateMachine

/-!
# Stopping a state machine

`state_machine_stop` clears `current_state` and leaves `state_machine_started` set, so that
`state_machine_handle_event` goes on to dereference the null `current_state`: for an event after
the stop, and also when the handler of the event stops the machine. `state_machine_transition`
is safe: nothing is requested while there is no current state (`Inv`).

* `stop_discards_events`: in every run, a call does what the header promises exactly if it
  `Handles` its event.
* `event_after_stop_faults`: the two runs in which it does not.
-/

namespace Cutils.StateMachine

variable {σ ε ρ : Type} {states : List (State σ ε)}

/-- The code calls `state_machine_stop`, run on the client's data. -/
def Prog.callsStop : Prog σ ρ → σ → Bool
  | .ret _, _ => false
  | .client f next, d => (next (f d)).callsStop (f d)
  | .stop _, _ => true

/-- **The condition**: a non-null event for a machine that was started meets a current state, and
if that state accepts the event its handler does not stop the machine. -/
def Machine.Handles (m : Machine states) : Op ε → Prop
  | .handleEvent (some e) => m.stateMachineStarted = true → ∃ i, m.currentState = some i ∧
      (((states.get i).fValidEvent e m.data).2 = true →
        ((states.get i).fHandleEvent e).callsStop ((states.get i).fValidEvent e m.data).1 = false)
  | _ => True

instance (m : Machine states) : ∀ op, Decidable (m.Handles op)
  | .handleEvent (some _) => inferInstanceAs (Decidable (_ → ∃ _, _ ∧ (_ → _)))
  | .handleEvent none | .start | .transition | .stop => inferInstanceAs (Decidable True)

/-- **The promise**: no null `current_state` is dereferenced, and between a stop and the next
start event processing calls no callback and changes nothing. -/
def Machine.Discards (m : Machine states) (op : Op ε) : Prop :=
  m.call op ≠ .error .nullCurrentState ∧ (m.stopped = true → op.isEvent = true → m.call op = .ok m)

namespace Machine

variable {m m' : Machine states}

/-- A machine that was stopped has no current state, and without one nothing is requested. -/
structure Inv (m : Machine states) : Prop where
  stopped : m.stopped = true → m.currentState = none
  idle : m.currentState = none → m.transitionRequested = false

theorem stop_currentState (m : Machine states) : m.stop.currentState = none := by
  unfold stop
  split
  · rfl
  · assumption

theorem Inv.stop (h : Inv m) : Inv m.stop := by
  refine ⟨fun _ => m.stop_currentState, ?_⟩
  intro _
  unfold Machine.stop
  split
  · rfl
  · exact h.idle ‹_›

section Exec

/-- A callback that does not stop the machine leaves its current state. -/
theorem exec_of_not_callsStop (p : Prog σ ρ) (m : Machine states) (h : p.callsStop m.data = false) :
    (exec p m).1.currentState = m.currentState := by
  induction p generalizing m with
  | ret retval => rfl
  | client f next ih => exact ih _ { m with data := f m.data } h
  | stop next ih => cases h

/-- Once stopped, the machine stays without a current state. -/
theorem exec_currentState (p : Prog σ ρ) (m : Machine states) (h : m.currentState = none) :
    (exec p m).1.currentState = none := by
  induction p generalizing m with
  | ret retval => exact h
  | client f next ih => exact ih _ { m with data := f m.data } h
  | stop next ih => exact ih m.stop m.stop_currentState

theorem exec_of_callsStop (p : Prog σ ρ) (m : Machine states) (h : p.callsStop m.data = true) :
    (exec p m).1.currentState = none := by
  induction p generalizing m with
  | ret retval => cases h
  | client f next ih => exact ih _ { m with data := f m.data } h
  | stop next ih => exact exec_currentState next m.stop m.stop_currentState

theorem Inv.exec (h : Inv m) (p : Prog σ ρ) : Inv (exec p m).1 := by
  induction p generalizing m with
  | ret retval => exact h
  | client f next ih => exact ih _ ⟨h.stopped, h.idle⟩
  | stop next ih => exact ih h.stop

end Exec

theorem Inv.enterState (h : Inv m) (i : Fin states.length) : Inv (m.enterState i) := by
  unfold Machine.enterState
  have hinit : Inv (m.initState i) := by
    unfold initState
    split
    · exact h
    · split
      all_goals exact ⟨h.stopped, h.idle⟩
  refine Inv.exec ?_ _
  exact ⟨hinit.stopped, hinit.idle⟩

/-- With a current state and no stop, any machine will do. -/
theorem Inv.of_some {i : Fin states.length} (hc : m.currentState = some i) (hs : m.stopped = false) :
    Inv m := by
  refine ⟨?_, ?_⟩
  · intro h
    rw [hs] at h; cases h
  · intro h
    rw [hc] at h; cases h

theorem Inv.not_stopped (h : Inv m) {i : Fin states.length} (hc : m.currentState = some i) :
    m.stopped = false := by
  by_contra hne
  have := h.stopped (by simpa using hne)
  rw [hc] at this; cases this

theorem start_inv (hs : m.start = .ok m') : Inv m' := by
  unfold start at hs
  split at hs
  · cases hs
  · rename_i i _
    cases hs
    refine Inv.enterState ?_ i
    exact Inv.of_some (i := i) rfl rfl

theorem dispatchEvent_inv {i : Fin states.length} {e : ε} (h : Inv m) (hs : m.dispatchEvent i e = .ok m') :
    Inv m' := by
  unfold dispatchEvent at hs
  have hexec : Inv (exec ((states.get i).fHandleEvent e) { m with log := m.log ++ [.handleEvent i] }).1 := by
    refine Inv.exec ?_ _
    exact ⟨h.stopped, h.idle⟩
  dsimp only at hs
  split at hs
  · cases hs
  · rename_i j hj
    cases hs
    exact Inv.of_some hj (hexec.not_stopped hj)

theorem handleEvent_inv {event : Option ε} (h : Inv m) (hs : m.handleEvent event = .ok m') : Inv m' := by
  unfold handleEvent at hs
  cases event with
  | none => cases hs; exact h
  | some e =>
    simp only at hs
    split at hs
    · split at hs
      · cases hs
      · split at hs
        · refine dispatchEvent_inv ?_ hs
          exact ⟨h.stopped, h.idle⟩
        · cases hs
          exact ⟨h.stopped, h.idle⟩
    · cases hs; exact h

theorem transition_inv (h : Inv m) (hs : m.transition = .ok m') : Inv m' := by
  unfold transition at hs
  split at hs
  · split at hs
    · cases hs
    · rename_i i hi
      have hrun := h.not_stopped hi
      split at hs
      · split at hs
        · cases hs
        · rename_i j _
          cases hs
          refine Inv.enterState ?_ j
          exact Inv.of_some (i := j) rfl hrun
      · cases hs
        exact ⟨h.stopped, fun _ => rfl⟩
  · cases hs; exact h

theorem call_inv {op : Op ε} (h : Inv m) (hs : m.call op = .ok m') : Inv m' := by
  cases op with
  | start => exact start_inv hs
  | handleEvent event => exact handleEvent_inv h hs
  | transition => exact transition_inv h hs
  | stop => cases hs; exact h.stop

/-- Starting never looks at a current state it has not set. -/
theorem start_ne_null : m.start ≠ .error .nullCurrentState := by
  unfold start
  split
  · simp
  · simp

/-- The handler of an accepted event leaves a current state exactly if it does not stop. -/
theorem dispatchEvent_null_iff {i : Fin states.length} {e : ε} (hc : m.currentState = some i) :
    m.dispatchEvent i e = .error .nullCurrentState ↔
      ((states.get i).fHandleEvent e).callsStop m.data = true := by
  unfold dispatchEvent
  cases hstop : ((states.get i).fHandleEvent e).callsStop m.data with
  | true =>
    have hnone := exec_of_callsStop _ { m with log := m.log ++ [.handleEvent i] } hstop
    simp only [hnone]
  | false =>
    have hsome := (exec_of_not_callsStop _ { m with log := m.log ++ [.handleEvent i] } hstop).trans hc
    simp only [hsome]
    simp

theorem handleEvent_discards (h : Inv m) (e : ε) : m.Discards (.handleEvent (some e)) ↔
    m.Handles (.handleEvent (some e)) := by
  unfold Discards Handles
  simp only [call, handleEvent]
  by_cases hstarted : m.stateMachineStarted = true
  · simp only [hstarted, if_true, forall_const]
    cases hc : m.currentState with
    | none => simp
    | some i =>
      -- there is a current state, so the machine is not stopped
      simp only [h.not_stopped hc, Bool.false_eq_true, false_implies, and_true, Option.some.injEq, exists_eq_left']
      by_cases hv : ((states.get i).fValidEvent e m.data).2 = true
      · simp only [hv, if_true, forall_const]
        rw [ne_eq, dispatchEvent_null_iff rfl, Bool.not_eq_true]
      · rw [if_neg hv]
        exact ⟨fun _ hv' => absurd hv' hv, fun _ => by simp⟩
  · simp [hstarted]

theorem transition_discards (h : Inv m) : m.Discards .transition := by
  unfold Discards
  simp only [call]
  refine ⟨?_, ?_⟩
  · unfold transition
    split
    · rename_i hreq
      simp only [Bool.and_eq_true] at hreq
      split
      · -- no state, and so no request
        rename_i hc
        rw [h.idle hc] at hreq
        cases hreq.1
      · split
        · split
          · simp
          · simp
        · simp
    · simp
  · intro hs _
    unfold transition
    rw [h.idle (h.stopped hs)]
    rfl

/-- **One call**: the promise is kept exactly under the condition. -/
theorem call_discards (h : Inv m) (op : Op ε) : m.Discards op ↔ m.Handles op := by
  cases op with
  | start => exact ⟨fun _ => trivial, fun _ => ⟨start_ne_null, fun _ he => by cases he⟩⟩
  | handleEvent event =>
    cases event with
    | none => exact ⟨fun _ => trivial, fun _ => ⟨by simp [call, handleEvent], fun _ _ => rfl⟩⟩
    | some e => exact handleEvent_discards h e
  | transition => exact ⟨fun _ => trivial, fun _ => transition_discards h⟩
  | stop => exact ⟨fun _ => trivial, fun _ => ⟨by simp [call], fun _ he => by cases he⟩⟩

end Machine

namespace Run

theorem step_inv {r r' : Run states} {op : Op ε} (h : r.machine.Inv) (hs : r.step op = some r') :
    r'.machine.Inv := by
  unfold step at hs
  split at hs
  · cases hs
  · split at hs
    · rename_i m hm
      simp only [Option.some.injEq] at hs; subst hs
      exact Machine.call_inv h hm
    · simp only [Option.some.injEq] at hs; subst hs
      exact h

theorem create_reach (states : List (State σ ε)) {ok : Run states → Op ε → Prop} (startStateId : UInt32)
    (data : σ) :
    Sys.Reach (system states) ok ⟨Machine.create states startStateId data, none⟩ :=
  .init ⟨startStateId, data, rfl⟩

theorem create_inv {r : Run states} (h : (system states).init r) : r.machine.Inv := by
  obtain ⟨startStateId, data, rfl⟩ := h
  exact ⟨fun _ => rfl, fun _ => rfl⟩

theorem reach_inv {r : Run states} {ok : Run states → Op ε → Prop} (h : Sys.Reach (system states) ok r) :
    r.machine.Inv := by
  refine Sys.Reach.inv (I := fun r => r.machine.Inv) ?_ ?_ h
  · intro r hr
    exact create_inv hr
  · intro r op r' hr _ hs
    exact step_inv hr hs

/-- A call that handles its event does not end the run at a null `current_state`. -/
theorem step_fault {r r' : Run states} {op : Op ε} (h : r.machine.Inv)
    (hok : r.machine.Handles op) (hs : r.step op = some r') : r'.fault ≠ some .nullCurrentState := by
  unfold step at hs
  split at hs
  · cases hs
  · split at hs
    · simp only [Option.some.injEq] at hs; subst hs
      simp
    · rename_i f hcall
      simp only [Option.some.injEq] at hs; subst hs
      rintro ⟨⟩
      exact ((Machine.call_discards h op).2 hok).1 hcall

end Run

open Run

/-- **Stop discards events, exactly when every event is handled.** For every set of registered
states and every sequence of calls, with handlers and `f_enter`s that stop the machine or not: at
every state reached, a call keeps the promise (no null `current_state`, nothing called or changed
between a stop and the next start) if and only if it meets the condition; and a run of calls that
all do never dereferences a null `current_state`. -/
theorem stop_discards_events (states : List (State σ ε)) :
    (∀ r, Sys.Reach (system states) Sys.Always r → ∀ op, r.machine.Discards op ↔ r.machine.Handles op) ∧
    (∀ r, Sys.Reach (system states) (fun r op => r.machine.Handles op) r →
      r.fault ≠ some .nullCurrentState) := by
  constructor
  · intro r h op
    exact Machine.call_discards (reach_inv h) op
  · intro r h
    have hboth : r.machine.Inv ∧ r.fault ≠ some .nullCurrentState := by
      refine Sys.Reach.inv (I := fun r => r.machine.Inv ∧ r.fault ≠ some .nullCurrentState) ?_ ?_ h
      · intro r hr
        refine ⟨create_inv hr, ?_⟩
        obtain ⟨startStateId, data, rfl⟩ := hr
        simp
      · rintro r op r' ⟨h1, -⟩ hok hs
        exact ⟨step_inv h1 hs, step_fault h1 hok hs⟩
    exact hboth.2

/-- A state with id 1 that accepts every event; `handler` handles it. -/
def oneState (handler : Prog Unit UInt32) : List (State Unit Unit) :=
  [⟨1, none, .ret (), id, fun _ d => (d, true), fun _ => handler⟩]

/-- An event, and a stop: the state handles the one, and after the other a transition is discarded and an event is not. -/
theorem stop_discards_events_one :
    ∃ r, Sys.Reach (system (oneState (.ret 1))) (fun r op => r.machine.Handles op) r ∧
      r.machine.log = [.enter 0, .validEvent 0, .handleEvent 0, .exit 0] ∧ r.machine.stopped = true ∧
      r.fault ≠ some .nullCurrentState ∧ r.machine.Discards .transition ∧
      ¬ r.machine.Discards (.handleEvent (some ())) := by
  have hrun : (Sys.exec (system (oneState (.ret 1))) (fun r op => r.machine.Handles op) ⟨.create _ 1 (), none⟩
      [.start, .handleEvent (some ()), .stop]).map (fun r => r.machine.log ==
        [.enter 0, .validEvent 0, .handleEvent 0, .exit 0] && r.machine.stopped &&
        !decide (r.machine.Handles (.handleEvent (some ())))) = some true := by
    decide
  obtain ⟨r, hr, hp⟩ := (create_reach _ 1 ()).of_trace hrun
  simp only [Bool.and_eq_true, beq_iff_eq, Bool.not_eq_true', decide_eq_false_iff_not] at hp
  obtain ⟨⟨hlog, hstopped⟩, hevent⟩ := hp
  obtain ⟨hcall, hfault⟩ := stop_discards_events (oneState (.ret 1))
  have hreach := hr.mono fun _ _ _ => trivial
  exact ⟨r, hr, hlog, hstopped, hfault r hr, (hcall r hreach .transition).2 trivial,
    fun h => hevent ((hcall r hreach _).1 h)⟩

/-- **An event after a stop** dereferences the null `current_state`, and so does an event whose
handler stops the machine. -/
theorem event_after_stop_faults :
    (∃ r, Sys.Reach (system (oneState (.ret 1))) Sys.Always r ∧ r.machine.stopped = true ∧
      r.machine.handleEvent (some ()) = .error .nullCurrentState) ∧
    (∃ r, Sys.Reach (system (oneState (.stop (.ret 1)))) Sys.Always r ∧
      r.fault = some .nullCurrentState) := by
  have hstop : (Sys.exec (system (oneState (.ret 1))) Sys.Always ⟨.create _ 1 (), none⟩ [.start, .stop]).map
      (fun r => r.machine.stopped && r.machine.currentState == none && r.machine.stateMachineStarted) =
      some true := by decide
  have hinside : (Sys.exec (system (oneState (.stop (.ret 1)))) Sys.Always ⟨.create _ 1 (), none⟩
      [.start, .handleEvent (some ())]).map (fun r => r.fault == some .nullCurrentState) = some true := by
    decide
  obtain ⟨r, hr, hp⟩ := (create_reach _ 1 ()).of_trace hstop
  obtain ⟨r', hr', hp'⟩ := (create_reach _ 1 ()).of_trace hinside
  simp only [Bool.and_eq_true, beq_iff_eq] at hp hp'
  refine ⟨⟨r, hr, hp.1.1, ?_⟩, ⟨r', hr', hp'⟩⟩
  simp only [Machine.handleEvent, hp.2, hp.1.2, if_true]

end Cutils.StateMachine
