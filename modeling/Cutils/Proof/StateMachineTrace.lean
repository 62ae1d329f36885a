import Cutils.Proof.StateMachineStop

/-!
# The callbacks of a state machine

A client runs its machine in rounds: a start, events and transitions in any order, a stop. The
states' callbacks do not call back into the machine, and handlers return ids of registered
states.

`callback_discipline`: in every such run `f_enter` and `f_exit` alternate, `current_state` is the
state entered and not exited, `f_init` comes once, right before its state's first `f_enter`, and a
transition goes to the state the last handler asked for.

`registered_iff`, `start_error_iff`: the states of a machine are the first 20 that were registered.
-/

namespace Cutils.StateMachine

variable {σ ε ρ : Type} {states : List (State σ ε)} {startStateId : UInt32}

/-- What client code returns, run on the client's data. -/
def Prog.run : Prog σ ρ → σ → σ × ρ
  | .ret retval, d => (d, retval)
  | .client f next, d => (next (f d)).run (f d)
  | .stop next, d => next.run d

/-- **The states a client may register**: the start state is one of them, their callbacks do not
stop the machine, and their handlers return ids of registered states. -/
structure Registered (states : List (State σ ε)) (startStateId : UInt32) : Prop where
  start : ∃ st ∈ states, st.stateId = startStateId
  enter : ∀ st ∈ states, ∀ d, st.fEnter.callsStop d = false
  handler : ∀ st ∈ states, ∀ e d, (st.fHandleEvent e).callsStop d = false
  closed : ∀ st ∈ states, ∀ e d, ∃ st' ∈ states, st'.stateId = ((st.fHandleEvent e).run d).2

/-- The state entered and not exited, after one more callback; none if `f_enter` and `f_exit` do
not alternate. -/
def Callback.alternate : Option ℕ → Callback → Option (Option ℕ)
  | none, .enter i => some (some i)
  | some i, .exit j => if i = j then some none else none
  | cur, .init _ | cur, .validEvent _ | cur, .handleEvent _ => some cur
  | some _, .enter _ | none, .exit _ => none

/-- The state entered and not exited at the end of a trace. -/
def entered (log : List Callback) : Option (Option ℕ) := log.foldlM Callback.alternate none

/-- Every `f_init` is its state's only one, and comes right before the state's first `f_enter`. -/
def InitFirst (log : List Callback) : Prop :=
  ∀ pre i post, log = pre ++ .init i :: post →
    .init i ∉ pre ∧ .enter i ∉ pre ∧ post.head? = some (.enter i)

/-- The id the handler of an event returns, if `state_machine_handle_event` calls it. -/
def Machine.handlerResult (m : Machine states) (event : Option ε) : Option UInt32 :=
  match event, m.currentState with
  | some e, some i =>
    let r := (states.get i).fValidEvent e m.data
    if r.2 then some (((states.get i).fHandleEvent e).run r.1).2 else none
  | _, _ => none

/-- A run in rounds. `running`: between a start and its stop. `handled`: what the last handler
called since the last transition or start returned. -/
structure Round (states : List (State σ ε)) where
  machine : Machine states
  fault : Option Fault
  running : Bool
  handled : Option UInt32

namespace Round

def isStart : Op ε → Bool
  | .start => true
  | _ => false

def isStop : Op ε → Bool
  | .stop => true
  | _ => false

/-- The last handler's result after a call. -/
def handledAfter (r : Round states) : Op ε → Option UInt32
  | .handleEvent event => (r.machine.handlerResult event).or r.handled
  | _ => none

/-- A call of a round: a start outside of a round, anything else inside. -/
def step (r : Round states) (op : Op ε) : Option (Round states) :=
  if r.fault.isSome || r.running == isStart op then none
  else match r.machine.call op with
    | .ok m => some ⟨m, none, !isStop op, r.handledAfter op⟩
    | .error f => some { r with fault := some f }

def system (states : List (State σ ε)) (startStateId : UInt32) : Sys.System (Round states) (Op ε) :=
  ⟨fun r => ∃ data, r = ⟨Machine.create states startStateId data, none, false, none⟩, step⟩

end Round

section Trace

variable {log : List Callback} {i : ℕ}

theorem entered_append (log more : List Callback) :
    entered (log ++ more) = (entered log).bind (more.foldlM Callback.alternate) := by
  unfold entered
  rw [List.foldlM_append]
  rfl

/-- Where a callback sits in a trace with one more at its end. -/
theorem split_append_singleton {pre post : List Callback} {c x : Callback}
    (h : log ++ [c] = pre ++ x :: post) :
    (∃ post', post = post' ++ [c] ∧ log = pre ++ x :: post') ∨ (post = [] ∧ x = c ∧ log = pre) := by
  rcases List.eq_nil_or_concat post with rfl | ⟨post', y, rfl⟩
  · obtain ⟨hpre, hx⟩ := List.append_inj' h rfl
    exact .inr ⟨rfl, (List.cons.inj hx).1.symm, hpre⟩
  · rw [List.concat_eq_append, ← List.cons_append, ← List.append_assoc] at h
    obtain ⟨hpre, hy⟩ := List.append_inj' h rfl
    exact .inl ⟨post', by rw [List.concat_eq_append, (List.cons.inj hy).1], hpre⟩

/-- What comes right after an `f_init` stays there. -/
theorem head?_append_of_eq_some {post : List Callback} {c x : Callback} (h : post.head? = some x) :
    (post ++ [c]).head? = some x := by
  cases post with
  | nil => cases h
  | cons y ys => exact h

/-- A callback that is not `f_init` keeps the order of the others. -/
theorem InitFirst.append (h : InitFirst log) {c : Callback} (hc : ∀ i, c ≠ .init i) :
    InitFirst (log ++ [c]) := by
  intro pre i post hlog
  rcases split_append_singleton hlog with ⟨post', rfl, hlog'⟩ | ⟨-, hx, -⟩
  · obtain ⟨h1, h2, h3⟩ := h pre i post' hlog'
    exact ⟨h1, h2, head?_append_of_eq_some h3⟩
  · exact absurd hx.symm (hc i)

/-- The first `f_enter` of a state, after its `f_init`. -/
theorem InitFirst.append_init (h : InitFirst log) (hinit : .init i ∉ log) (henter : .enter i ∉ log) :
    InitFirst (log ++ [.init i, .enter i]) := by
  intro pre j post hlog
  rw [show log ++ [Callback.init i, .enter i] = (log ++ [.init i]) ++ [.enter i] by simp] at hlog
  rcases split_append_singleton hlog with ⟨post₁, rfl, hlog₁⟩ | ⟨-, hx, -⟩
  · rcases split_append_singleton hlog₁ with ⟨post₂, rfl, hlog₂⟩ | ⟨rfl, hx, rfl⟩
    · obtain ⟨h1, h2, h3⟩ := h pre j post₂ hlog₂
      exact ⟨h1, h2, head?_append_of_eq_some (head?_append_of_eq_some h3)⟩
    · -- the new `f_init` itself
      obtain rfl : j = i := Callback.init.inj hx
      exact ⟨hinit, henter, rfl⟩
  · cases hx

end Trace

namespace Machine

variable {m m' : Machine states}

/-- A callback that does not stop the machine changes the client's data only. -/
theorem exec_eq_run (p : Prog σ ρ) (m : Machine states) (h : p.callsStop m.data = false) :
    exec p m = ({ m with data := (p.run m.data).1 }, (p.run m.data).2) := by
  induction p generalizing m with
  | ret retval => rfl
  | client f next ih => exact ih _ { m with data := f m.data } h
  | stop next ih => cases h

/-- The calls of `f_init` in `enter_state`. -/
def initCalls (m : Machine states) (i : Fin states.length) : List Callback :=
  if m.enteredOnce i = false ∧ (states.get i).fInit.isSome then [.init i] else []

theorem initState_eq (m : Machine states) (i : Fin states.length) : ∃ d, m.initState i = { m with
    data := d
    log := m.log ++ m.initCalls i
    enteredOnce := fun j => j == i || m.enteredOnce j } := by
  unfold initState initCalls
  cases honce : m.enteredOnce i with
  | true =>
    have hsame : (fun j => j == i || m.enteredOnce j) = m.enteredOnce := by
      funext j
      by_cases hj : j = i
      · subst hj; simp [honce]
      · simp [hj]
    refine ⟨m.data, ?_⟩
    rw [hsame]
    simp
  | false =>
    cases (states.get i).fInit with
    | none => exact ⟨m.data, by simp⟩
    | some fInit => exact ⟨fInit m.data, by simp⟩

/-- **What `enter_state` does**, with an `f_enter` that does not stop the machine. -/
theorem enterState_eq (hreg : Registered states startStateId) (m : Machine states)
    (i : Fin states.length) : ∃ d, m.enterState i = { m with
      data := d
      log := m.log ++ m.initCalls i ++ [.enter i]
      enteredOnce := fun j => j == i || m.enteredOnce j } := by
  obtain ⟨d, hd⟩ := m.initState_eq i
  unfold enterState
  rw [exec_eq_run _ _ (hreg.enter _ (List.get_mem _ _) _), hd]
  exact ⟨_, rfl⟩

theorem getState_eq_none {id : UInt32} : m.getState id = none ↔ ∀ st ∈ states, st.stateId ≠ id := by
  unfold getState
  rw [List.findFinIdx?_eq_none_iff]
  simp

/-- The lookup of a registered id finds a state with it. -/
theorem getState_registered {id : UInt32} (h : ∃ st ∈ states, st.stateId = id) :
    ∃ i, m.getState id = some i ∧ (states.get i).stateId = id := by
  cases hf : m.getState id with
  | none =>
    obtain ⟨st, hst, hid⟩ := h
    exact absurd hid (m.getState_eq_none.1 hf st hst)
  | some i =>
    refine ⟨i, rfl, ?_⟩
    unfold getState at hf
    rw [List.findFinIdx?_eq_some_iff] at hf
    simpa using hf.1

/-- The trace of a machine whose entered and not exited state is `cur`. -/
structure Traced (m : Machine states) (cur : Option (Fin states.length)) : Prop where
  entered : entered m.log = some (cur.map Fin.val)
  initFirst : InitFirst m.log
  once : ∀ i : Fin states.length, m.enteredOnce i = false → .init i ∉ m.log ∧ .enter i ∉ m.log

/-- One more callback, neither `f_init` nor `f_enter`. -/
theorem Traced.push {cur cur' : Option (Fin states.length)} {c : Callback} (h : Traced m cur)
    (hc : c.alternate (cur.map Fin.val) = some (cur'.map Fin.val)) (hinit : ∀ i, c ≠ .init i)
    (henter : ∀ i, c ≠ .enter i) (hlog : m'.log = m.log ++ [c]) (honce : m'.enteredOnce = m.enteredOnce) :
    Traced m' cur' := by
  refine ⟨?_, ?_, ?_⟩
  · rw [hlog, entered_append, h.entered]
    simp [hc]
  · rw [hlog]
    exact h.initFirst.append hinit
  · intro i hi
    rw [honce] at hi
    obtain ⟨h1, h2⟩ := h.once i hi
    rw [hlog]
    simp only [List.mem_append, List.mem_singleton, not_or]
    exact ⟨⟨h1, (hinit i).symm⟩, h2, (henter i).symm⟩

/-- Entering a state when none is entered. -/
theorem Traced.enterState (hreg : Registered states startStateId) (h : Traced m none)
    (i : Fin states.length) : Traced (m.enterState i) (some i) := by
  obtain ⟨d, hd⟩ := m.enterState_eq hreg i
  rw [hd]
  refine ⟨?_, ?_, ?_⟩
  · show StateMachine.entered (m.log ++ m.initCalls i ++ [.enter i]) = _
    rw [List.append_assoc, entered_append, h.entered]
    unfold initCalls
    split
    · rfl
    · rfl
  · show InitFirst (m.log ++ m.initCalls i ++ [.enter i])
    unfold initCalls
    split
    · rename_i hfirst
      obtain ⟨h1, h2⟩ := h.once i hfirst.1
      rw [List.append_assoc]
      exact h.initFirst.append_init h1 h2
    · rw [List.append_nil]
      exact h.initFirst.append (by simp)
  · intro j hj
    simp only [Bool.or_eq_false_iff, beq_eq_false_iff_ne] at hj
    obtain ⟨hne, hj⟩ := hj
    obtain ⟨h1, h2⟩ := h.once j hj
    have hval : (j : ℕ) ≠ i := fun h => hne (Fin.ext h)
    unfold initCalls
    split
    all_goals simp [h1, h2, hval]

end Machine

section Registration

/-- Registering one state after the other fills the 20 places in order. -/
theorem foldl_registerState (calls : List (State σ ε)) (h : states.length ≤ 20) :
    calls.foldl registerState states = (states ++ calls).take 20 := by
  induction calls generalizing states with
  | nil =>
    rw [List.append_nil, List.take_of_length_le h]
    rfl
  | cons state calls ih =>
    rw [List.foldl_cons]
    by_cases hlt : states.length < 20
    · have hstep : registerState states state = states ++ [state] := if_pos hlt
      have hle : (states ++ [state]).length ≤ 20 := by
        rw [List.length_append, List.length_singleton]
        omega
      rw [hstep, ih hle, List.append_assoc]
      rfl
    · -- the machine is full
      have hstep : registerState states state = states := if_neg hlt
      rw [hstep, ih h, List.take_append_of_le_length (by omega), List.take_append_of_le_length (by omega)]

/-- **The states of a machine** are those registered, at most 20 of them. -/
theorem registered_iff : (∃ calls : List (State σ ε), calls.foldl registerState [] = states) ↔ states.length ≤ 20 := by
  constructor
  · rintro ⟨calls, rfl⟩
    rw [foldl_registerState calls (Nat.zero_le _)]
    exact List.length_take_le 20 _
  · intro h
    refine ⟨states, ?_⟩
    rw [foldl_registerState states (Nat.zero_le _)]
    exact List.take_of_length_le h

/-- **A state registered after 20 others is not there**: a start fails exactly if none of the first 20 has its id. -/
theorem start_error_iff (calls : List (State σ ε)) (m : Machine (calls.foldl registerState [])) :
    m.start = .error .noInitialState ↔ ∀ st ∈ calls.take 20, st.stateId ≠ m.startStateId := by
  have hstates : calls.foldl registerState [] = calls.take 20 := foldl_registerState calls (Nat.zero_le _)
  rw [← hstates, ← m.getState_eq_none]
  unfold Machine.start
  cases m.getState m.startStateId with
  | none => exact iff_of_true rfl rfl
  | some i => exact iff_of_false nofun nofun

end Registration

namespace Round

open Machine

variable {r r' : Round states}

/-- What is requested agrees with what the last handler returned. -/
def Latched (m : Machine states) : Option UInt32 → Prop
  | none => m.transitionRequested = false
  | some id => m.nextStateRequested = id ∧ (∃ st ∈ states, st.stateId = id) ∧
      (m.transitionRequested = false → ∀ i, m.currentState = some i → (states.get i).stateId = id)

/-- The invariant of rounds. -/
structure Inv (startStateId : UInt32) (r : Round states) : Prop where
  fault : r.fault = none
  start : r.machine.startStateId = startStateId
  traced : r.machine.Traced r.machine.currentState
  running : r.running = r.machine.currentState.isSome
  started : r.running = true → r.machine.stateMachineStarted = true
  latched : Latched r.machine r.handled
  idle : r.running = false → r.handled = none

theorem init_inv (hi : (system states startStateId).init r) : Inv startStateId r := by
  obtain ⟨data, rfl⟩ := hi
  refine ⟨rfl, rfl, ⟨rfl, ?_, ?_⟩, rfl, by simp, rfl, fun _ => rfl⟩
  · intro pre i post h
    simp [Machine.create] at h
  · intro i _
    simp [Machine.create]

theorem Inv.current (h : Inv startStateId r) (hrun : r.running = true) :
    ∃ i, r.machine.currentState = some i := by
  rw [h.running] at hrun
  exact Option.isSome_iff_exists.1 hrun

theorem start_inv (hreg : Registered states startStateId) (h : Inv startStateId r)
    (hrun : r.running = false) : ∃ m, r.machine.start = .ok m ∧
      Inv startStateId ⟨m, none, true, none⟩ := by
  -- a machine that does not run is in no state
  have hcur : r.machine.currentState = none := by
    have := h.running
    rw [hrun] at this
    simpa using this.symm
  have htr := h.traced
  have hlat := h.latched
  rw [hcur] at htr
  rw [h.idle hrun] at hlat
  obtain ⟨i, hi, -⟩ := getState_registered (m := r.machine) hreg.start
  rw [← h.start] at hi
  set m₁ : Machine states :=
    { r.machine with currentState := some i, stateMachineStarted := true, stopped := false } with hm₁
  have hgo : r.machine.start = .ok (m₁.enterState i) := by
    unfold Machine.start
    rw [hi]
  have htr₁ : m₁.Traced none := ⟨htr.entered, htr.initFirst, htr.once⟩
  obtain ⟨d, hd⟩ := m₁.enterState_eq hreg i
  refine ⟨_, hgo, rfl, ?_, ?_, ?_, ?_, ?_, by simp⟩
  · rw [hd]; exact h.start
  · have := htr₁.enterState hreg i
    rwa [show (m₁.enterState i).currentState = some i by rw [hd]]
  · rw [hd]; rfl
  · intro _
    rw [hd]
  · show (m₁.enterState i).transitionRequested = false
    rw [hd]
    exact hlat

theorem stop_inv (h : Inv startStateId r) (hrun : r.running = true) :
    Inv startStateId ⟨r.machine.stop, none, false, none⟩ := by
  obtain ⟨i, hi⟩ := h.current hrun
  have htr := h.traced
  rw [hi] at htr
  have hstop : r.machine.stop = { r.machine with
      data := (states.get i).fExit r.machine.data
      log := r.machine.log ++ [.exit i]
      currentState := none
      transitionRequested := false
      stopped := true } := by
    unfold Machine.stop
    rw [hi]
  rw [hstop]
  refine ⟨rfl, h.start, ?_, rfl, by simp, rfl, fun _ => rfl⟩
  exact htr.push (c := .exit i) (by simp [Callback.alternate]) (by simp) (by simp) rfl rfl

/-- A handler called on a current state latches what it returns. -/
theorem dispatchEvent_eq (hreg : Registered states startStateId) {m : Machine states}
    {i : Fin states.length} (hi : m.currentState = some i) (e : ε) :
    m.dispatchEvent i e = .ok { m with
      data := (((states.get i).fHandleEvent e).run m.data).1
      log := m.log ++ [.handleEvent i]
      nextStateRequested := (((states.get i).fHandleEvent e).run m.data).2
      transitionRequested := m.transitionRequested ||
        (((states.get i).fHandleEvent e).run m.data).2 != (states.get i).stateId } := by
  unfold dispatchEvent
  rw [exec_eq_run _ _ (hreg.handler _ (List.get_mem _ _) e _)]
  simp only [hi]

theorem handleEvent_inv (hreg : Registered states startStateId) (h : Inv startStateId r)
    (hrun : r.running = true) (event : Option ε) : ∃ m, r.machine.handleEvent event = .ok m ∧
      Inv startStateId ⟨m, none, true, r.handledAfter (.handleEvent event)⟩ := by
  obtain ⟨i, hi⟩ := h.current hrun
  have hstarted := h.started hrun
  unfold handledAfter handlerResult
  cases event with
  | none =>
    refine ⟨_, rfl, rfl, h.start, h.traced, ?_, fun _ => hstarted, h.latched, by simp⟩
    rw [← h.running, hrun]
  | some e =>
    unfold handleEvent
    simp only [hstarted, if_true, hi]
    set v := (states.get i).fValidEvent e r.machine.data with hv
    have htr := h.traced
    rw [hi] at htr
    set m₁ : Machine states := ⟨_, some i, _, _, _, _, v.1, r.machine.log ++ [.validEvent i], _⟩ with hm₁
    have htrv : m₁.Traced (some i) := htr.push (c := .validEvent i) rfl (by simp) (by simp) rfl rfl
    cases hacc : v.2 with
    -- the state does not take the event: only the test was called
    | false =>
      simp only [Bool.false_eq_true, if_false, Option.none_or]
      refine ⟨_, rfl, rfl, h.start, htrv, rfl, fun _ => rfl, ?_, by simp⟩
      have hlat := h.latched
      unfold Latched at hlat ⊢
      rwa [hi] at hlat
    | true =>
      simp only [if_true, Option.some_or]
      rw [dispatchEvent_eq hreg rfl]
      refine ⟨_, rfl, rfl, h.start, ?_, rfl, fun _ => rfl, ?_, by simp⟩
      · exact htrv.push (c := .handleEvent i) rfl (by simp) (by simp) rfl rfl
      · refine ⟨rfl, hreg.closed _ (List.get_mem _ _) e v.1, ?_⟩
        -- no request: the state asked for itself
        intro hreq j hj
        obtain rfl : i = j := Option.some.inj hj
        simp only [Bool.or_eq_false_iff, bne_eq_false_iff_eq] at hreq
        exact hreq.2.symm

/-- **Where a transition goes**: to the state the last handler asked for. -/
def Arrives (before after : Machine states) : Option UInt32 → Prop
  | none => after.currentState = before.currentState
  | some id => ∃ i, after.currentState = some i ∧ (states.get i).stateId = id

theorem transition_inv (hreg : Registered states startStateId) (h : Inv startStateId r)
    (hrun : r.running = true) : ∃ m, r.machine.transition = .ok m ∧
      Inv startStateId ⟨m, none, true, none⟩ ∧ Arrives r.machine m r.handled := by
  obtain ⟨i, hi⟩ := h.current hrun
  have hstarted := h.started hrun
  have hlat := h.latched
  have htr := h.traced
  unfold transition
  simp only [hstarted, Bool.and_true, hi]
  cases hreq : r.machine.transitionRequested with
  | false =>
    simp only [Bool.false_eq_true, if_false]
    refine ⟨_, rfl, ⟨rfl, h.start, htr, ?_, fun _ => hstarted, hreq, by simp⟩, ?_⟩
    · rw [← h.running, hrun]
    · cases hh : r.handled with
      | none => rfl
      | some id =>
        rw [hh] at hlat
        exact ⟨i, hi, hlat.2.2 hreq i hi⟩
  | true =>
    simp only [if_true]
    -- something is requested, so a handler has run since the last transition
    obtain ⟨id, hh⟩ : ∃ id, r.handled = some id := by
      cases hh : r.handled with
      | none => rw [hh] at hlat; exact absurd (hreq.symm.trans hlat) (by simp)
      | some id => exact ⟨id, rfl⟩
    rw [hh] at hlat ⊢
    obtain ⟨hnext, hmem, -⟩ := hlat
    rw [hi] at htr
    by_cases hsame : (states.get i).stateId = id
    · rw [if_neg (by rw [hnext, hsame, bne_self_eq_false]; simp)]
      refine ⟨_, rfl, ⟨rfl, h.start, ?_, rfl, fun _ => rfl, rfl, by simp⟩, i, rfl, hsame⟩
      exact ⟨htr.entered, htr.initFirst, htr.once⟩
    · obtain ⟨j, hj, hjid⟩ := getState_registered (m := r.machine) hmem
      rw [if_pos (by rw [hnext]; exact bne_iff_ne.2 hsame), hnext]
      rw [hj]
      -- the old state is exited, then the new one entered
      set m₁ : Machine states := ⟨_, some j, false, _, _, _, _, r.machine.log ++ [.exit i], _⟩ with hm₁
      have htr₁ : m₁.Traced none :=
        htr.push (c := .exit i) (by simp [Callback.alternate]) (by simp) (by simp) rfl rfl
      have hnew := htr₁.enterState hreg j
      obtain ⟨d, hd⟩ := m₁.enterState_eq hreg j
      refine ⟨m₁.enterState j, rfl, ⟨rfl, ?_, ?_, ?_, ?_, ?_, by simp⟩, j, ?_, hjid⟩
      · rw [hd]; exact h.start
      · rwa [show (m₁.enterState j).currentState = some j by rw [hd]]
      · rw [hd]; rfl
      · intro _
        rw [hd]
      · show (m₁.enterState j).transitionRequested = false
        rw [hd]
      · rw [hd]

theorem step_inv (hreg : Registered states startStateId) {op : Op ε} (h : Inv startStateId r)
    (hs : r.step op = some r') : Inv startStateId r' ∧
      (op = .transition → Arrives r.machine r'.machine r.handled) := by
  unfold step at hs
  simp only [h.fault, Option.isSome_none, Bool.false_or] at hs
  split at hs
  · cases hs
  · rename_i hpos
    cases op with
    | start =>
      obtain ⟨m, hm, hm'⟩ := start_inv hreg h (by simpa [isStart] using hpos)
      simp only [Machine.call, hm, Option.some.injEq] at hs
      subst hs
      exact ⟨hm', by simp⟩
    | handleEvent event =>
      obtain ⟨m, hm, hm'⟩ := handleEvent_inv hreg h (by simpa [isStart] using hpos) event
      simp only [Machine.call, hm, Option.some.injEq] at hs
      subst hs
      exact ⟨hm', by simp⟩
    | transition =>
      obtain ⟨m, hm, hm', harr⟩ := transition_inv hreg h (by simpa [isStart] using hpos)
      simp only [Machine.call, hm, Option.some.injEq] at hs
      subst hs
      exact ⟨hm', fun _ => harr⟩
    | stop =>
      have hm := stop_inv h (by simpa [isStart] using hpos)
      simp only [Machine.call, Option.some.injEq] at hs
      subst hs
      exact ⟨hm, by simp⟩

theorem reach_inv (hreg : Registered states startStateId)
    (h : Sys.Reach (system states startStateId) Sys.Always r) : Inv startStateId r := by
  refine Sys.Reach.inv (I := Inv startStateId) (fun r hr => init_inv hr) ?_ h
  intro r op r' hr _ hs
  exact (step_inv hreg hr hs).1

end Round

open Round

/-- **Callback discipline.** For every set of registered states and every run in rounds, in every
state reached: nothing has gone wrong, `f_enter` and `f_exit` alternate and `current_state` is the
state entered and not exited, each `f_init` comes once and right before its state's first
`f_enter`; and a transition from there goes to the state with the id the last handler returned, or
nowhere if no handler has run. -/
theorem callback_discipline (hreg : Registered states startStateId) {r : Round states}
    (h : Sys.Reach (Round.system states startStateId) Sys.Always r) :
    r.fault = none ∧
    entered r.machine.log = some (r.machine.currentState.map Fin.val) ∧
    InitFirst r.machine.log ∧
    ∀ r', r.step .transition = some r' → Arrives r.machine r'.machine r.handled := by
  have hinv := reach_inv hreg h
  refine ⟨hinv.fault, hinv.traced.entered, hinv.traced.initFirst, ?_⟩
  intro r' hs
  exact (step_inv hreg hinv hs).2 rfl

/-- States 1 and 2, the first with an `f_init`; an event names the state to go to. -/
def twoStates : List (State Unit Bool) :=
  [⟨1, some id, .ret (), id, fun _ d => (d, true), fun e => .ret (if e then 1 else 2)⟩,
   ⟨2, none, .ret (), id, fun _ d => (d, true), fun e => .ret (if e then 1 else 2)⟩]

theorem twoStates_registered : Registered twoStates 1 := by
  refine ⟨⟨_, List.mem_cons_self, rfl⟩, ?_, ?_, ?_⟩
  · simp [twoStates, Prog.callsStop]
  · simp [twoStates, Prog.callsStop]
  · intro st hst e d
    have hrun : ((st.fHandleEvent e).run d).2 = if e then 1 else 2 := by
      simp only [twoStates, List.mem_cons, List.not_mem_nil, or_false] at hst
      rcases hst with rfl | rfl
      · rfl
      · rfl
    rw [hrun]
    cases e with
    | true => exact ⟨_, List.mem_cons_self, rfl⟩
    | false => exact ⟨_, List.mem_cons_of_mem _ List.mem_cons_self, rfl⟩

/-- A round trip between the two states over two rounds: `f_init` is called once. -/
theorem callback_discipline_twoStates : ∃ r : Round twoStates, Sys.Reach (Round.system twoStates 1) Sys.Always r ∧
    r.fault = none ∧ r.machine.log = [.init 0, .enter 0, .validEvent 0, .handleEvent 0, .exit 0, .enter 1, .exit 1,
      .enter 0] ∧
    entered r.machine.log = some (r.machine.currentState.map Fin.val) ∧ InitFirst r.machine.log := by
  have hexec : (Sys.exec (Round.system twoStates 1) Sys.Always ⟨.create _ 1 (), none, false, none⟩
      [.start, .handleEvent (some false), .transition, .stop, .start]).map
      (fun r => r.machine.log == [.init 0, .enter 0, .validEvent 0, .handleEvent 0, .exit 0, .enter 1,
        .exit 1, .enter 0]) = some true := by decide
  have hinit : (Round.system twoStates 1).init ⟨.create _ 1 (), none, false, none⟩ := ⟨(), rfl⟩
  obtain ⟨r, hr, hlog⟩ := (Sys.Reach.init hinit).of_trace hexec
  obtain ⟨hfault, hent, hfirst, -⟩ := callback_discipline twoStates_registered hr
  exact ⟨r, hr, hfault, by simpa using hlog, hent, hfirst⟩

end Cutils.StateMachine
