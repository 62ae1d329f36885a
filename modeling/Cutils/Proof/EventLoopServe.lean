import Cutils.Proof.NotifierLists
import Cutils.Proof.StateMachineTrace
import Cutils.Spec.EventLoop

/-!
# One event in a state event loop

The steps of `state_event_loop_exec_queue_f` on an event are those of `serve`, one after the other:
`ExecPc.rest` is what `serve` has still to do at each of them. With client code as `Config.OK` describes
it none of them faults, and between two of them every machine has made its transition.
-/

namespace Cutils.EventLoop

open Blocks StateMachine

variable {W : Type} {c : Config W} {x y : Serving c} {i : Fin c.numMachines} {b k : ℕ}

/-- The category of the event is one of the notifier's. -/
def Event.Valid (c : Config W) (e : Event) : Prop := e.eventId < c.listeners.notifier.totalNotificationCategories

/-- **The client code a loop may be set up with**: the states of each machine are well registered; the
pre-processor and the callbacks of the states leave a valid category; the listeners were registered with the
notifier's own calls. -/
structure Config.OK (c : Config W) : Prop where
  registered : ∀ p ∈ c.machines, Registered p.states p.startStateId
  preProc : ∀ f, c.eventPreProcF = some f → ∀ e w, e.Valid c → (f e w).1.Valid c
  handle : ∀ p ∈ c.machines, ∀ m m' : Machine p.states, m.data.2.Valid c → m.handleEvent (some ()) = .ok m' →
    m'.data.2.Valid c
  transition : ∀ p ∈ c.machines, ∀ m m' : Machine p.states, m.data.2.Valid c → m.transition = .ok m' →
    m'.data.2.Valid c
  listeners : ∃ n, Sys.Reach (Notify.Run.system Event n c.listeners.notifier.totalNotificationCategories)
    Notify.Run.Enabled c.listeners

/-- What is still to be done for the event. -/
def ExecPc.rest : ExecPc c.numMachines → Serving c → Option (Serving c)
  | .load _, x | .preProc _, x => serve x
  | .handle _ i, x => (rounds ((List.finRange c.numMachines).drop i) x).map Serving.tell
  | .transition _ i, x =>
    (x.transition i).bind fun x => (rounds ((List.finRange c.numMachines).drop (i + 1)) x).map Serving.tell
  | .notify _, x => some x.tell
  | .idle, x | .release _, x | .enqueue _, x | .done, x => some x

/-- The block of the event. -/
def ExecPc.block {n : ℕ} : ExecPc n → Option ℕ
  | .load b | .preProc b | .handle b _ | .transition b _ | .notify b | .release b | .enqueue b => some b
  | .idle | .done => none

/-- The machine whose transition comes next. -/
def ExecPc.turn {n : ℕ} : ExecPc n → Option (Fin n)
  | .transition _ i => some i
  | _ => none

theorem ExecPc.turn_none {n : ℕ} {pc : ExecPc n} (h : pc.block = none) : pc.turn = none := by
  cases pc <;> first | rfl | cases h

section Rest

theorem drop_finRange {n : ℕ} (i : Fin n) : (List.finRange n).drop i = i :: (List.finRange n).drop (i + 1) := by
  rw [List.drop_eq_getElem_cons (by simp), List.getElem_finRange]
  rfl

/-- The loop goes on with machine `k`, or with the notification after the last. -/
theorem rest_machine : (ExecPc.machine b k).rest x =
    (rounds ((List.finRange c.numMachines).drop k) x).map Serving.tell := by
  unfold ExecPc.machine
  split
  · rfl
  · rename_i hk
    rw [List.drop_of_length_le (by simpa using hk)]
    rfl

theorem rest_preProc : (ExecPc.preProc b).rest x = (ExecPc.machine b 0).rest x.preProc := by
  rw [rest_machine]
  rfl

theorem rest_handle : (ExecPc.handle b i).rest x = (x.handleEvent i).bind (ExecPc.transition b i).rest := by
  simp only [ExecPc.rest, drop_finRange i, rounds, List.foldlM_cons]
  cases x.handleEvent i with
  | none => rfl
  | some y =>
    simp only [Option.bind_eq_bind, Option.bind_some]
    cases hy : y.transition i with
    | none => simp [ExecPc.rest, hy]
    | some z => simp [ExecPc.rest, hy, rounds]

theorem rest_transition : (ExecPc.transition b i).rest x =
    (x.transition i).bind (ExecPc.machine b (i + 1)).rest := by
  simp only [ExecPc.rest]
  cases x.transition i with
  | none => rfl
  | some y => exact rest_machine.symm

end Rest

/-- Between two steps: every machine is started, and has made its transition unless it is its turn. -/
def Settled (turn : Option (Fin c.numMachines)) (machines : c.Machines) : Prop :=
  ∀ i, ∃ handled, Round.Inv (c.machines.get i).startStateId ⟨machines i, none, true, handled⟩ ∧
    (handled ≠ none → turn = some i)

section Settled

variable {turn : Option (Fin c.numMachines)} {m : Machine (c.machines.get i).states}

/-- The data that callbacks work on is no concern of the machine. -/
theorem inv_data {handled : Option UInt32} {running : Bool} {id : UInt32}
    (h : Round.Inv id ⟨m, none, running, handled⟩) (d : W × Event) :
    Round.Inv id ⟨{ m with data := d }, none, running, handled⟩ := by
  refine ⟨rfl, h.start, ⟨h.traced.entered, h.traced.initFirst, h.traced.once⟩, h.running, h.started, ?_, h.idle⟩
  have hlat := h.latched
  unfold Round.Latched at hlat ⊢
  cases handled with
  | none => exact hlat
  | some id => exact hlat

theorem Settled.transitionRequested {machines : c.Machines} (h : Settled turn machines) (hi : turn ≠ some i) :
    (machines i).transitionRequested = false := by
  obtain ⟨handled, hinv, hturn⟩ := h i
  cases handled with
  | none => exact hinv.latched
  | some id => exact absurd (hturn (by simp)) hi

/-- One machine goes on. -/
theorem Settled.update {machines : c.Machines} (h : Settled turn machines) {handled : Option UInt32}
    (hm : Round.Inv (c.machines.get i).startStateId ⟨m, none, true, handled⟩)
    {turn' : Option (Fin c.numMachines)} (hturn : handled ≠ none → turn' = some i)
    (hold : ∀ j, j ≠ i → turn ≠ some j) : Settled turn' (Function.update machines i m) := by
  intro j
  by_cases hj : j = i
  · subst hj
    refine ⟨handled, ?_, hturn⟩
    rwa [Function.update_self]
  · obtain ⟨handled', hinv, hturn'⟩ := h j
    refine ⟨handled', ?_, fun hne => absurd (hturn' hne) (hold j hj)⟩
    rwa [Function.update_of_ne hj]

end Settled

section Calls

theorem mem_machines (i : Fin c.numMachines) : c.machines.get i ∈ c.machines := List.get_mem _ _

/-- A call on a machine that does not fault. -/
theorem onMachine_ok {entries : List (Entry c.numMachines)}
    {f : Machine (c.machines.get i).states → Except Fault (Machine (c.machines.get i).states)}
    {m : Machine (c.machines.get i).states} (hm : f { x.machines i with data := (x.world, x.event) } = .ok m) :
    x.onMachine i entries f = some ⟨Function.update x.machines i m, m.data.1, m.data.2, x.log ++ entries⟩ := by
  unfold Serving.onMachine
  rw [hm]

/-- **A machine handles the event**; then it is its turn to make a transition. -/
theorem handleEvent_ok (hc : c.OK) (h : Settled none x.machines) (hv : x.event.Valid c) :
    ∃ y, x.handleEvent i = some y ∧ Settled (some i) y.machines ∧ y.event.Valid c := by
  obtain ⟨handled, hinv, -⟩ := h i
  obtain ⟨m, hm, hinv'⟩ := Round.handleEvent_inv (hc.registered _ (mem_machines i))
    (inv_data hinv (x.world, x.event)) rfl (some ())
  refine ⟨_, onMachine_ok hm, h.update hinv' (fun _ => rfl) (by simp), ?_⟩
  exact hc.handle _ (mem_machines i) _ m hv hm

/-- **A machine makes its transition**. -/
theorem transition_ok (hc : c.OK) (h : Settled (some i) x.machines) (hv : x.event.Valid c) :
    ∃ y, x.transition i = some y ∧ Settled none y.machines ∧ y.event.Valid c := by
  obtain ⟨handled, hinv, -⟩ := h i
  obtain ⟨m, hm, hinv', -⟩ := Round.transition_inv (hc.registered _ (mem_machines i))
    (inv_data hinv (x.world, x.event)) rfl
  refine ⟨_, onMachine_ok hm, h.update hinv' (by simp) ?_, ?_⟩
  · intro j hj heq
    exact hj (Option.some.inj heq).symm
  · exact hc.transition _ (mem_machines i) _ m hv hm

theorem preProc_ok (hc : c.OK) (hv : x.event.Valid c) :
    x.preProc.machines = x.machines ∧ x.preProc.event.Valid c := by
  unfold Serving.preProc
  split
  · rename_i f hf
    exact ⟨rfl, hc.preProc f hf _ _ hv⟩
  · exact ⟨rfl, hv⟩

/-- **Every listener of the category is called once.** -/
theorem postNotification_ok (hc : c.OK) (hv : x.event.Valid c) : x.postNotification = some x.tell := by
  obtain ⟨n, hn⟩ := hc.listeners
  unfold Serving.postNotification
  rw [(Notify.Run.reach_inv hn).post hv x.event]
  rfl

/-- `state_event_loop_start` starts the machines one after the other. -/
theorem foldlM_start (hc : c.OK) {l : List (Fin c.numMachines)} (hl : l.Nodup)
    (hx : ∀ i ∈ l, Round.Inv (c.machines.get i).startStateId ⟨x.machines i, none, false, none⟩)
    (hs : l.foldlM Serving.start x = some y) :
    (∀ i ∈ l, Round.Inv (c.machines.get i).startStateId ⟨y.machines i, none, true, none⟩) ∧
      (∀ i, i ∉ l → y.machines i = x.machines i) ∧ y.log = x.log := by
  induction l generalizing x with
  | nil =>
    obtain rfl := Option.some.inj hs
    exact ⟨nofun, fun _ _ => rfl, rfl⟩
  | cons i l ih =>
    obtain ⟨hil, hl⟩ := List.nodup_cons.1 hl
    obtain ⟨m, hm, hinv⟩ := Round.start_inv (hc.registered _ (mem_machines i))
      (inv_data (hx i List.mem_cons_self) (x.world, x.event)) rfl
    have hstart : x.start i = some ⟨Function.update x.machines i m, m.data.1, m.data.2, x.log ++ []⟩ := onMachine_ok hm
    rw [List.foldlM_cons, hstart] at hs
    -- the machines after the first are not touched by its start
    have hne : ∀ j ∈ l, j ≠ i := by
      rintro j hj rfl
      exact hil hj
    obtain ⟨h1, h2, h3⟩ := ih hl (fun j hj => by
      dsimp only
      rw [Function.update_of_ne (hne j hj)]
      exact hx j (List.mem_cons_of_mem _ hj)) hs
    refine ⟨?_, ?_, by rw [h3, List.append_nil]⟩
    · intro j hj
      rcases List.mem_cons.1 hj with rfl | hj
      · rw [h2 _ hil]
        dsimp only
        rwa [Function.update_self]
      · exact h1 j hj
    · intro j hj
      rw [List.mem_cons, not_or] at hj
      rw [h2 j hj.2]
      exact Function.update_of_ne hj.1 ..

theorem start_settled (hc : c.OK) {w : W} {e : Event} (hs : start c w e = some x) :
    Settled none x.machines ∧ x.log = [] := by
  have hall := foldlM_start hc (List.nodup_finRange _) (fun i _ => Round.init_inv ⟨(w, e), rfl⟩) hs
  exact ⟨fun i => ⟨none, hall.1 i (List.mem_finRange i), by simp⟩, hall.2.2⟩

end Calls

end Cutils.EventLoop
