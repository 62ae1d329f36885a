import Cutils.Proof.EventLoopRun

/-!
# A state event loop processes its events in order

The loop is compared with `serveAll`, the sequential processing of the events in the order in which they were
handed over: at every step of the worker, what is left of the event at hand leads to what `serveAll` gives
(`Follows`).

* `event_loop_in_order`: in every run within `Room`.
-/

namespace Cutils.Dispatch

/-- A bound on the steps left in `dispatch_queue_worker`, around an action of `n` machines. -/
def WorkerPc.left (n : ℕ) : WorkerPc → ℕ
  | .call _ => 2 * n + 9
  | .running _ => 2
  | .free _ => 1
  | .dequeue | .signal | .exited => 0

end Cutils.Dispatch

namespace Cutils.EventLoop

open Blocks StateMachine

variable {W : Type} {c : Config W} {w : W} {e : Event}

theorem serveAll_append (x : Serving c) (l : List Event) (ev : Event) :
    serveAll x (l ++ [ev]) = (serveAll x l).bind fun y => serve { y with event := ev } := by
  unfold serveAll
  rw [List.foldlM_append]
  simp

/-- The dispatch queue's call by the running action is that of a post. -/
theorem Tied.actionPosting {n : ℕ} {q : Dispatch.Queue} {posts : List Post} (h : Tied n q posts)
    (hp : (posts.any fun p => p.byAction && p.pc.inProgress) = false) : q.actionPosting = false := by
  rw [Dispatch.Queue.actionPosting, List.any_eq_false]
  intro k hk hon
  rw [Bool.and_eq_true] at hon
  obtain ⟨j, hj⟩ := List.getElem?_of_mem hk
  obtain ⟨i, p, b, hi, hw, hb⟩ := h.owner hj hon.2
  refine List.any_eq_false.1 hp p (List.mem_of_getElem? hi) ?_
  rw [hb, hon.1, hw]
  rfl

/-- A bound on the steps left in `state_event_loop_exec_queue_f`. -/
def ExecPc.left {n : ℕ} : ExecPc n → ℕ
  | .idle => 0
  | .done => 1
  | .enqueue _ => 2
  | .release _ => 3
  | .notify _ => 4
  | .transition _ i => 2 * (n - i) + 3
  | .handle _ i => 2 * (n - i) + 4
  | .preProc _ => 2 * n + 5
  | .load _ => 2 * n + 6

theorem left_machine {n b k : ℕ} : (ExecPc.machine b k : ExecPc n).left = 2 * (n - k) + 4 := by
  unfold ExecPc.machine
  split
  · rfl
  · simp only [ExecPc.left]
    omega

namespace Loop

variable {s s' : Loop c} {a : Act} {b : ℕ}

/-- What sequential processing makes of the events that the worker has taken. -/
def sequential (w : W) (e : Event) (s : Loop c) : Option (Serving c) :=
  (start c w e).bind (serveAll · (s.posted.take s.queue.executed.length))

/-- **The loop follows the sequential processing**: what is left of the event at hand leads there; between events it is
there. -/
structure Follows (w : W) (e : Event) (s : Loop c) : Prop where
  sound : s.tripped = false
  settled : Settled s.exec.turn s.machines
  valid : ∀ b, s.exec.block = some b → (s.memory b).Valid c
  own : ∀ b, s.exec = .load b → (s.memory b).eventLoop = c.self
  busy : ∀ b, s.exec.block = some b → s.exec.rest (s.serving b) = s.sequential w e
  rest : s.exec.block = none → ∃ ev, s.sequential w e = some ⟨s.machines, s.world, ev, s.log⟩

section Steps

/-- A step that is not the worker's. -/
theorem Follows.frame (h : Follows w e s) (hexec : s'.exec = s.exec) (hmachines : s'.machines = s.machines)
    (hworld : s'.world = s.world) (hlog : s'.log = s.log) (hsound : s'.tripped = s.tripped)
    (hmemory : ∀ b, s.exec.block = some b → s'.memory b = s.memory b)
    (hseq : s'.sequential w e = s.sequential w e) : Follows w e s' := by
  have hserving : ∀ b, s.exec.block = some b → s'.serving b = s.serving b := by
    intro b hb
    simp only [serving, hmachines, hworld, hlog, hmemory b hb]
  refine ⟨hsound.trans h.sound, by rw [hexec, hmachines]; exact h.settled, ?_, ?_, ?_, ?_⟩
  · intro b hb
    rw [hexec] at hb
    rw [hmemory b hb]
    exact h.valid b hb
  · intro b hb
    rw [hexec] at hb
    rw [hmemory b (by rw [hb]; rfl)]
    exact h.own b hb
  · intro b hb
    rw [hexec] at hb
    rw [hexec, hserving b hb, hseq]
    exact h.busy b hb
  · intro hb
    rw [hexec] at hb
    rw [hseq, hmachines, hworld, hlog]
    exact h.rest hb

/-- **Client code runs**: it does not fault, and does what sequential processing does. -/
theorem Runs.follows (hc : c.OK) (h : Follows w e s) {exec : ExecPc c.numMachines} {r : Option (Serving c)}
    (hr : Runs s b exec r) : ∃ x, r = some x ∧ Settled exec.turn x.machines ∧ x.event.Valid c ∧
      exec.rest x = s.exec.rest (s.serving b) := by
  have hset := h.settled
  have hv : (s.serving b).event.Valid c := h.valid b hr.refs.1
  cases hr with
  | preProc hx =>
    rw [hx] at hset
    obtain ⟨hm, hv'⟩ := preProc_ok hc hv
    refine ⟨_, rfl, ?_, hv', by rw [hx, rest_preProc]⟩
    rw [turn_machine, hm]
    exact hset
  | @handle i hx =>
    rw [hx] at hset
    obtain ⟨y, hy, hset', hv'⟩ := handleEvent_ok (i := i) hc (x := s.serving b) hset hv
    refine ⟨y, hy, hset', hv', ?_⟩
    rw [hx, rest_handle, hy]
    rfl
  | @transition i hx =>
    rw [hx] at hset
    obtain ⟨y, hy, hset', hv'⟩ := transition_ok (i := i) hc (x := s.serving b) hset hv
    refine ⟨y, hy, by rw [turn_machine]; exact hset', hv', ?_⟩
    rw [hx, rest_transition, hy]
    rfl
  | notify hx =>
    rw [hx] at hset
    refine ⟨_, postNotification_ok hc hv, hset, hv, ?_⟩
    rw [hx]
    rfl

theorem Runs.not_load {exec : ExecPc c.numMachines} {r : Option (Serving c)} (hr : Runs s b exec r) (b' : ℕ) :
    exec ≠ .load b' := by
  have hmachine : ∀ k, (ExecPc.machine b k : ExecPc c.numMachines) ≠ .load b' := by
    intro k
    unfold ExecPc.machine
    split <;> simp
  cases hr with
  | preProc => exact hmachine 0
  | transition => exact hmachine _
  | handle | notify => simp

/-- The worker takes an event: sequential processing has one more to do. -/
theorem Follows.take {d : ℕ} {q : Dispatch.Queue} (h : Follows w e s) (hh : Held s) (hx : s.exec.block = none)
    (hq : s.queue.step .worker = some q) (hw : s.queue.worker = .call d) :
    Follows w e { s with queue := q, exec := .load (s.queue.blocks d).2.arg1 } := by
  obtain ⟨⟨later, hlater⟩, hlen, -⟩ := hh.take hx hq hw
  set b := (s.queue.blocks d).2.arg1 with hb
  have hmem : s.memory b ∈ s.posted := List.mem_of_mem_drop (by rw [hlater]; exact List.mem_cons_self)
  obtain ⟨hvalid, hown⟩ := hh.posted _ hmem
  have htake : s.posted.take q.executed.length = s.posted.take s.queue.executed.length ++ [s.memory b] := by
    rw [hlen, List.take_add_one, ← List.head?_drop, hlater]
    rfl
  obtain ⟨ev, hseq⟩ := h.rest hx
  have hset := h.settled
  rw [ExecPc.turn_none hx] at hset
  refine ⟨h.sound, hset, ?_, ?_, ?_, by simp [ExecPc.block]⟩
  · rintro b' ⟨⟩
    exact hvalid
  · rintro b' ⟨⟩
    exact hown
  · rintro b' ⟨⟩
    unfold sequential at hseq ⊢
    dsimp only
    rw [htake]
    cases hstart : start c w e with
    | none => rw [hstart] at hseq; cases hseq
    | some x =>
      rw [hstart, Option.bind_some] at hseq
      rw [Option.bind_some, serveAll_append, hseq]
      rfl

/-- **One step** follows the sequential processing, and trips nothing. -/
theorem step_follows (hc : c.OK) (h : Follows w e s) (hh : Held s) (hroom : Room s a) (hs : s.step a = some s') :
    Follows w e s' := by
  have hposts : ∀ {i b' : ℕ} {p : Post}, s.posts[i]? = some p → p.pc.block = some b' →
      ∀ b, s.exec.block = some b → b ≠ b' := by
    rintro i b' p hp hb' b hb rfl
    exact (hh.owned.post hp hb').2.2.2.1 hb
  cases step_trans hs with
  | post category evt byAction => exact h.frame rfl rfl rfl rfl rfl (fun _ _ => rfl) rfl
  | alloc | add | overwrite => exact h.frame rfl rfl rfl rfl rfl (fun _ _ => rfl) rfl
  | @allocTrips i p hp hpc hq =>
    -- the pool is not empty
    have hfree : s.pool.free ≠ [] := by simpa only [Room, hp, Option.map_some, hpc] using hroom
    unfold Store.dequeue at hq
    rw [hh.owned.live] at hq
    cases hl : s.pool.free with
    | nil => exact absurd hl hfree
    | cons b rest => rw [hl] at hq; cases hq
  | copy hp hpc =>
    exact h.frame rfl rfl rfl rfl rfl
      (fun b hb => Function.update_of_ne (hposts hp (by rw [hpc]; rfl) b hb) ..) rfl
  | stamp hp hpc =>
    exact h.frame rfl rfl rfl rfl rfl
      (fun b hb => Function.update_of_ne (hposts hp (by rw [hpc]; rfl) b hb) ..) rfl
  | dispatch hp hpc hq =>
    refine h.frame rfl rfl rfl rfl rfl (fun _ _ => rfl) ?_
    unfold sequential
    rw [Dispatch.Queue.step_post hq]
    rfl
  | pass hp hpc hq hr =>
    refine h.frame rfl rfl rfl rfl rfl (fun _ _ => rfl) ?_
    obtain ⟨k, pc, -, -, -, -, hexec, -⟩ := Dispatch.Queue.step_call hh.tied.queue (room_call hroom hp hpc) hq
    unfold sequential
    rw [hexec]
  | handOver hp hpc hq hr =>
    refine h.frame rfl rfl rfl rfl rfl (fun _ _ => rfl) ?_
    obtain ⟨hexec, -⟩ := hh.handOver hroom hp hpc hq hr
    unfold sequential
    dsimp only
    rw [hexec, List.take_append_of_le_length hh.executed_le]
  | refused hp hpc hq hr =>
    obtain ⟨k, pc, hk, -, hcalls, hne, -⟩ := Dispatch.Queue.step_call hh.tied.queue (room_call hroom hp hpc) hq
    rw [hcalls, List.get_set_self hk] at hr
    exact absurd (Option.some.inj hr) hne
  | take hx hq hw => exact h.take hh hx hq hw
  | @turn q hx hq hw =>
    obtain ⟨hexec, -⟩ := hh.turn hx hq hw
    have hset := h.settled
    rw [ExecPc.turn_none hx] at hset
    refine ⟨h.sound, hset, by simp [ExecPc.block], by simp, by simp [ExecPc.block], fun _ => ?_⟩
    obtain ⟨ev, hseq⟩ := h.rest hx
    refine ⟨ev, ?_⟩
    unfold sequential at hseq ⊢
    rw [hexec]
    exact hseq
  | @load b hx =>
    have hset := h.settled
    have hbusy := h.busy b (by rw [hx]; rfl)
    rw [hx] at hset hbusy
    refine ⟨h.sound, hset, ?_, by simp, ?_, by simp [ExecPc.block]⟩
    · rintro b' ⟨⟩
      exact h.valid b (by rw [hx]; rfl)
    · rintro b' ⟨⟩
      exact hbusy
  | foreign hx hne => exact absurd (h.own _ hx) hne
  | @run b exec r hr =>
    obtain ⟨hb, -, hb', -⟩ := hr.refs
    obtain ⟨x, rfl, hset, hv, hrest⟩ := hr.follows hc h
    have hmem : (s.served b exec (some x)).memory b = x.event := Function.update_self ..
    have hserving : (s.served b exec (some x)).serving b = x := by
      simp only [serving, hmem]
      rfl
    refine ⟨h.sound, hset, ?_, ?_, ?_, ?_⟩
    · intro b' hb''
      obtain rfl := Option.some.inj (hb'.symm.trans hb'')
      rw [hmem]
      exact hv
    · intro b' hx
      exact absurd hx (hr.not_load b')
    · intro b' hb''
      obtain rfl := Option.some.inj (hb'.symm.trans hb'')
      rw [hserving]
      exact hrest.trans (h.busy b hb)
    · intro hnone
      rw [show (s.served b exec (some x)).exec.block = _ from hb'] at hnone
      cases hnone
  | @release b hx h1 =>
    have hset := h.settled
    have hbusy := h.busy b (by rw [hx]; rfl)
    rw [hx] at hset hbusy
    refine ⟨h.sound, hset, ?_, by simp, ?_, by simp [ExecPc.block]⟩
    · rintro b' ⟨⟩
      exact h.valid b (by rw [hx]; rfl)
    · rintro b' ⟨⟩
      exact hbusy
  | releaseOdd hx h1 =>
    have ho := hh.owned
    rw [hx] at ho
    exact absurd ho.retainCount h1
  | @enqueue b hx =>
    have hset := h.settled
    have hbusy := h.busy b (by rw [hx]; rfl)
    rw [hx] at hset hbusy
    refine ⟨h.sound, hset, by simp [ExecPc.block], by simp, by simp [ExecPc.block], fun _ => ?_⟩
    exact ⟨s.memory b, hbusy.symm⟩

/-- **In every run** within `Room`. -/
theorem reach_follows (hc : c.OK) (h : Sys.Reach (system c w e) Room s) : Held s ∧ Follows w e s := by
  refine Sys.Reach.inv (I := fun s => Held s ∧ Follows w e s) ?_ ?_ h
  · rintro s ⟨x, blocks, memory, hstart, rfl⟩
    refine ⟨⟨⟨.init ⟨blocks, rfl⟩, rfl, by simp [create], by simp [create], ?_⟩, ?_, ?_,
      ⟨by simp [create], by simp [create], rfl⟩, rfl, by simp [create], by simp [create], rfl⟩,
      rfl, (start_settled hc hstart).1, by simp [create, ExecPc.block], by simp [create],
      by simp [create, ExecPc.block], ?_⟩
    · simp [create, Dispatch.Queue.create]
    · exact ⟨fun _ => rfl, fun _ => rfl⟩
    · refine ⟨rfl, rfl, ?_, ?_⟩
      · intro b
        simp [create, Store.create, Store.free, Store.fresh, waiting, Dispatch.Queue.pending, Dispatch.Queue.create,
          ExecPc.block]
      · intro b hlt
        simp [create, Store.create, Store.fresh, waiting, Dispatch.Queue.pending, Dispatch.Queue.create, ExecPc.ref, hlt]
    · intro _
      refine ⟨x.event, ?_⟩
      have hlog := (start_settled hc hstart).2
      simp only [sequential, hstart, Option.bind_some]
      change some x = some ⟨x.machines, x.world, x.event, []⟩
      rw [← hlog]
  · rintro s a s' ⟨hh, hf⟩ hroom hs
    have hf' := step_follows hc hf hh hroom hs
    exact ⟨step_held hh hroom hs hf'.sound, hf'⟩

end Steps

section Drain

/-- A bound on the steps that the worker has before it. -/
def todo (s : Loop c) : ℕ :=
  (2 * c.numMachines + 10) * s.queue.queue.length + s.queue.worker.left c.numMachines + s.exec.left

/-- At rest: nothing is at the worker or on its way there. -/
structure Idle (s : Loop c) : Prop where
  exec : s.exec = .idle
  worker : s.queue.worker = .dequeue
  queue : s.queue.queue = []

end Drain

section InOrder

end InOrder

section Two

/-- `Room`, as a test. -/
def roomy (s : Loop c) : Act → Bool
  | .post category _ _ => category < c.listeners.notifier.totalNotificationCategories
  | .call i =>
    match (s.posts[i]?).map Post.pc with
    | some .alloc => s.pool.free ≠ []
    | some (.wait _ j) => (s.queue.calls[j]?).map Dispatch.Call.pc = some .alloc → s.queue.pool ≠ []
    | _ => true
  | _ => true

theorem room_of_roomy (s : Loop c) (a : Act) (h : s.roomy a = true) : Room s a := by
  cases a with
  | post category evt byAction => exact of_decide_eq_true (p := category < _) h
  | call i =>
    simp only [roomy] at h
    simp only [Room]
    cases hpc : (s.posts[i]?).map Post.pc with
    | none => trivial
    | some pc =>
      rw [hpc] at h
      cases pc with
      | alloc => simpa using h
      | wait b j => simpa using h
      | _ => trivial
  | overwrite | work => trivial

/-- A state that counts its events and asks for the state `next`. -/
def counting (stateId next : UInt32) : State (ℕ × Event) Unit where
  stateId := stateId
  fInit := none
  fEnter := .ret ()
  fExit := id
  fValidEvent := fun _ d => (d, true)
  fHandleEvent := fun _ => .client (fun d => (d.1 + 1, d.2)) fun _ => .ret next

/-- A notifier of one block and one category. -/
def noListener : Notify.Run Event :=
  ⟨.init 1 1 ⟨fun _ => none, fun _ => none⟩ (fun _ => 0), none, [], fun _ => [], []⟩

/-- The same with the block registered. -/
def oneListener : Notify.Run Event :=
  ((noListener.step .allocate).bind (·.step (.register 0 0))).getD noListener

/-- A loop for two events, with a machine of two states. -/
def twoStates : Config ℕ where
  self := 7
  queueSize := 2
  machines := [⟨[counting 0 1, counting 1 0], 0⟩]
  eventPreProcF := some fun e w => (e, w + 10)
  listeners := oneListener
  executeF := fun k w => w + 100 * k.notificationData.data.length

section Counting

variable {states : List (State (ℕ × Event) Unit)} {m m' : Machine states}

theorem counting_handleEvent (hst : ∀ i : Fin states.length, ∃ a b, states.get i = counting a b)
    (hs : m.handleEvent (some ()) = .ok m') : m'.data.2 = m.data.2 := by
  unfold Machine.handleEvent at hs
  dsimp only at hs
  split at hs
  · split at hs
    · cases hs
    · rename_i i _
      obtain ⟨a, b, hab⟩ := hst i
      simp only [hab, counting, if_true, Machine.dispatchEvent, Machine.exec] at hs
      split at hs
      · cases hs
      · obtain rfl := Except.ok.inj hs
        rfl
  · obtain rfl := Except.ok.inj hs
    rfl

theorem counting_transition (hst : ∀ i : Fin states.length, ∃ a b, states.get i = counting a b)
    (hs : m.transition = .ok m') : m'.data.2 = m.data.2 := by
  unfold Machine.transition at hs
  split at hs
  · split at hs
    · cases hs
    · rename_i i _
      obtain ⟨a, b, hab⟩ := hst i
      split at hs
      · split at hs
        · cases hs
        · rename_i j _
          obtain ⟨a', b', hab'⟩ := hst j
          obtain rfl := Except.ok.inj hs
          simp only [Machine.enterState, Machine.initState, hab, hab', counting, Machine.exec]
          split <;> rfl
      · obtain rfl := Except.ok.inj hs
        rfl
  · obtain rfl := Except.ok.inj hs
    rfl

end Counting

theorem twoStates_ok : twoStates.OK := by
  have hst : ∀ i : Fin [counting 0 1, counting 1 0].length, ∃ a b, [counting 0 1, counting 1 0].get i = counting a b := by
    intro i
    match i with
    | 0 => exact ⟨0, 1, rfl⟩
    | 1 => exact ⟨1, 0, rfl⟩
  have hmem : ∀ st ∈ [counting 0 1, counting 1 0], st = counting 0 1 ∨ st = counting 1 0 := by
    intro st h
    simpa using h
  -- the fields of `Config.OK`, in order
  refine ⟨?_, ?_, ?_, ?_, ?_⟩
  · intro p hp
    obtain rfl := List.mem_singleton.1 hp
    refine ⟨⟨_, List.mem_cons_self, rfl⟩, ?_, ?_, ?_⟩
    · intro st h d
      rcases hmem st h with rfl | rfl <;> rfl
    · intro st h e d
      rcases hmem st h with rfl | rfl <;> rfl
    · intro st h e d
      rcases hmem st h with rfl | rfl
      · exact ⟨counting 1 0, by simp, rfl⟩
      · exact ⟨counting 0 1, by simp, rfl⟩
  · rintro f ⟨⟩ e w he
    exact he
  · intro p hp m m' hm hs
    obtain rfl := List.mem_singleton.1 hp
    rw [counting_handleEvent hst hs]
    exact hm
  · intro p hp m m' hm hs
    obtain rfl := List.mem_singleton.1 hp
    rw [counting_transition hst hs]
    exact hm
  · -- the listener was registered under the one category there is
    have h0 : Sys.Reach (Notify.Run.system Event 1 1) Notify.Run.Enabled noListener := .init ⟨_, _, rfl⟩
    have h1 := h0.step (a := .allocate) (Notify.Run.enabled_of_enabledZero _ _ (by decide)) rfl
    exact ⟨1, h1.step (a := .register 0 0) (Notify.Run.enabled_of_enabledZero _ _ (by decide)) rfl⟩

/-- Two threads post; the second hands its event over first, and overwrites its own copy before the worker
runs. -/
def twoPosts : List Act :=
  [.post 0 ⟨5, 0, 0, [1]⟩ false, .post 0 ⟨6, 0, 0, [1, 2]⟩ false, .call 0, .call 1] ++ List.replicate 8 (.call 1) ++
    [.overwrite 1 ⟨9, 9, 9, []⟩] ++ List.replicate 8 (.call 0) ++ List.replicate 22 .work

end Two

end Loop

end Cutils.EventLoop
