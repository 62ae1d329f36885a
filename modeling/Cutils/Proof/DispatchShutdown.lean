import Cutils.Proof.DispatchRun

/-!
# The shutdown of a dispatch queue

The kill request travels through the action queue (`Phase`): behind every action until
the worker takes it, and then the queue is empty for good, provided that no call enqueues
after it. The load of `destroying` does not order the two, so a call that passed it can.

* `shutdown_runs_accepted`: as long as no post straggles behind the shutdown, every
  accepted post has run once when `dispatch_queue_destroy` returns, and with one block
  to spare no assertion trips and every call returns.
* `post_overtaken_by_kill`: without it, both fail.
-/

namespace Cutils.Dispatch

/-- The worker has not met the kill request. -/
def WorkerPc.alive : WorkerPc → Bool
  | .signal | .exited => false
  | _ => true

/-- The steps a call has left until it returns. -/
def CallPc.stepsLeft : CallPc → ℕ
  | .load => 4
  | .alloc => 3
  | .fill _ => 2
  | .enqueue _ => 1
  | .returned _ => 0

namespace Queue

variable {q q' : Queue}

/-- Where the kill request is. -/
inductive Phase (q : Queue) : Prop
  | before (hd : q.destroyer = .idle ∨ q.destroyer = .kill) (hq : .kill ∉ q.queue)
      (hw : q.worker.alive = true)
  | queued (pre : List Item) (hd : q.destroyer = .wait) (hq : q.queue = pre ++ [.kill])
      (hpre : .kill ∉ pre) (hw : q.worker.alive = true)
  | taken (hd : q.destroyer = .wait) (hq : q.queue = []) (hw : q.worker.alive = false)
  | gone (hd : q.destroyer = .teardown ∨ q.destroyer = .returned) (hq : q.queue = [])
      (hw : q.worker = .exited)

/-- A step that leaves the action queue, the worker and the destroyer alone. -/
theorem Phase.keep (h : Phase q) (hd : q'.destroyer = q.destroyer) (hq : q'.queue = q.queue)
    (hw : q'.worker = q.worker) : Phase q' := by
  rcases h with ⟨h1, h2, h3⟩ | ⟨pre, h1, h2, h3, h4⟩ | ⟨h1, h2, h3⟩ | ⟨h1, h2, h3⟩
  · exact .before (by rwa [hd]) (by rwa [hq]) (by rwa [hw])
  · exact .queued pre (by rwa [hd]) (by rwa [hq]) h3 (by rwa [hw])
  · exact .taken (by rwa [hd]) (by rwa [hq]) (by rwa [hw])
  · exact .gone (by rwa [hd]) (by rwa [hq]) (by rwa [hw])

/-- A step of the worker that is not a dequeue, before it met the kill request. -/
theorem Phase.work (h : Phase q) (hold : q.worker.alive = true) (hd : q'.destroyer = q.destroyer)
    (hq : q'.queue = q.queue) (hw : q'.worker.alive = true) : Phase q' := by
  rcases h with ⟨h1, h2, _⟩ | ⟨pre, h1, h2, h3, _⟩ | ⟨_, _, h3⟩ | ⟨_, _, h3⟩
  · exact .before (by rwa [hd]) (by rwa [hq]) hw
  · exact .queued pre (by rwa [hd]) (by rwa [hq]) h3 hw
  · rw [h3] at hold; cases hold
  · rw [h3] at hold; cases hold

theorem not_torn_of_not_killed (h : q.killed = false) : q.torn = false := by
  cases hd : q.destroyer <;> simp [killed, torn, hd] at h ⊢

/-- Before the kill request is enqueued, the queue holds blocks only, and the worker has not
met it. -/
theorem Phase.unkilled (h : Phase q) (hk : q.killed = false) :
    (q.destroyer = .idle ∨ q.destroyer = .kill) ∧ .kill ∉ q.queue ∧ q.worker.alive = true := by
  rcases h with ⟨h1, h2, h3⟩ | ⟨_, h1, _, _, _⟩ | ⟨h1, _, _⟩ | ⟨h1 | h1, _, _⟩
  · exact ⟨h1, h2, h3⟩
  all_goals simp [killed, h1] at hk

/-- Once the worker has met the kill request, the queue is empty. -/
theorem Phase.queue_of_dead (h : Phase q) (hw : q.worker.alive = false) : q.queue = [] := by
  rcases h with ⟨_, _, h3⟩ | ⟨_, _, _, _, h3⟩ | ⟨_, h2, _⟩ | ⟨_, h2, _⟩
  · rw [h3] at hw; cases hw
  · rw [h3] at hw; cases hw
  · exact h2
  · exact h2

/-- From the teardown on, the worker has exited. -/
theorem Phase.exited (h : Phase q) (hd : q.destroyer = .teardown ∨ q.destroyer = .returned) :
    q.worker = .exited := by
  rcases h with ⟨h1 | h1, _, _⟩ | ⟨_, h1, _, _, _⟩ | ⟨h1, _, _⟩ | ⟨_, _, h3⟩
  all_goals first | exact h3 | simp [h1] at hd

/-- The worker takes a block. -/
theorem Phase.take {b : ℕ} {rest : List Item} (h : Phase q) (hw : q.worker = .dequeue)
    (hq : q.queue = .data b :: rest) : Phase { q with queue := rest, worker := .call b } := by
  rcases h with ⟨h1, h2, _⟩ | ⟨pre, h1, h2, h3, _⟩ | ⟨_, _, h3⟩ | ⟨_, _, h3⟩
  · exact .before h1 (fun hm => h2 (by rw [hq]; exact List.mem_cons_of_mem _ hm)) rfl
  · cases pre with
    | nil => rw [hq, List.nil_append] at h2; cases h2
    | cons x pre =>
      rw [hq, List.cons_append] at h2
      injection h2 with _ hrest
      exact .queued pre h1 hrest (fun hm => h3 (List.mem_cons_of_mem _ hm)) rfl
  · rw [hw] at h3; cases h3
  · rw [hw] at h3; cases h3

/-- The worker takes the kill request, which was the last of the queue. -/
theorem Phase.takeKill {rest : List Item} (h : Phase q) (hw : q.worker = .dequeue)
    (hq : q.queue = .kill :: rest) : Phase { q with queue := rest, worker := .signal } := by
  rcases h with ⟨_, h2, _⟩ | ⟨pre, h1, h2, h3, _⟩ | ⟨_, _, h3⟩ | ⟨_, _, h3⟩
  · exact absurd (by rw [hq]; exact List.mem_cons_self) h2
  · cases pre with
    | nil =>
      rw [hq, List.nil_append] at h2
      cases h2
      exact .taken h1 rfl rfl
    | cons x pre =>
      rw [hq, List.cons_append] at h2
      injection h2 with hx
      exact absurd (by rw [hx]; exact List.mem_cons_self) h3
  · rw [hw] at h3; cases h3
  · rw [hw] at h3; cases h3

theorem step_phase {a : Act} (h : Phase q) (hok : q.PostsBeforeKill a) (hs : q.step a = some q') :
    Phase q' := by
  cases step_trans hs with
  | post | refuse | pass | alloc | allocTrips | fill | enqueueTrips | killTrips =>
    exact h.keep rfl rfl rfl
  | enqueue i c b hc hpc =>
    -- behind the kill request, the enqueue would not meet the condition
    have hk := hok i c rfl hc
    rw [hpc, postOk, Bool.not_eq_true'] at hk
    obtain ⟨hd, hq, hw⟩ := h.unkilled hk
    refine .before hd ?_ hw
    intro hm
    rcases List.mem_append.1 hm with hm | hm
    · exact hq hm
    · cases List.mem_singleton.1 hm
  | take b rest hw hq => exact h.take hw hq
  | takeKill rest hw hq => exact h.takeKill hw hq
  | run b hw | finish b hw | free b hw => exact h.work (by rw [hw]; rfl) rfl rfl rfl
  | exit hw =>
    rcases h with ⟨_, _, h3⟩ | ⟨_, _, _, _, h3⟩ | ⟨h1, h2, _⟩ | ⟨_, _, h3⟩
    · rw [hw] at h3; cases h3
    · rw [hw] at h3; cases h3
    · exact .taken h1 h2 rfl
    · rw [hw] at h3; cases h3
  | destroy hd =>
    obtain ⟨-, hq, hw⟩ := h.unkilled (by simp [killed, hd])
    exact .before (.inr rfl) hq hw
  | kill hd =>
    obtain ⟨-, hq, hw⟩ := h.unkilled (by simp [killed, hd])
    exact .queued q.queue rfl rfl hq hw
  | joined hd hw => exact .gone (.inl rfl) (h.queue_of_dead (by rw [hw]; rfl)) hw
  | teardown hd =>
    have hw := h.exited (.inl hd)
    exact .gone (.inr rfl) (h.queue_of_dead (by rw [hw]; rfl)) hw

theorem reach_phase {capacity : ℕ} (h : Sys.Reach (system capacity) PostsBeforeKill q) : Phase q := by
  refine h.inv ?_ ?_
  · rintro q ⟨blocks, rfl⟩
    exact .before (.inl rfl) List.not_mem_nil rfl
  · intro q a q' hq hok hs
    exact step_phase hq hok hs

/-- Enqueued and not executed, once the destroy has returned: nothing. -/
theorem Phase.pending_of_returned (h : Phase q) (hd : q.destroyer = .returned) : q.pending = [] := by
  have hw := h.exited (.inr hd)
  have hq := h.queue_of_dead (by rw [hw]; rfl)
  simp [pending, hq, hw]

/-- An accepted call is in the enqueue history once, with its own post data. -/
theorem Inv.enqueued_of_accepted (h : Inv q) {i : ℕ} {c : Call} (hc : q.calls[i]? = some c)
    (hpc : c.pc = .returned true) : q.enqueued.filter (·.1 == i) = [(i, c.post)] := by
  have hacc : q.accepted i = true := by simp [accepted, hc, hpc]
  have hlen : (q.enqueued.filter (·.1 == i)).length = 1 := by
    rw [← List.countP_eq_length_filter]
    have h1 := h.posted i
    rwa [if_pos hacc, List.count, List.countP_map] at h1
  obtain ⟨x, hx⟩ := List.length_eq_one_iff.1 hlen
  have hmem : x ∈ q.enqueued.filter (·.1 == i) := by rw [hx]; exact List.mem_singleton_self x
  obtain ⟨hmem, hxi⟩ := List.mem_filter.1 hmem
  obtain ⟨c', hc', hpost⟩ := h.data x hmem
  have hxi : x.1 = i := by simpa using hxi
  rw [hxi, hc, Option.some.injEq] at hc'
  rw [hx, hc', hpost, ← hxi]

/-- The posters leave one block to spare. -/
def Spare (q : Queue) (a : Act) : Prop := q.PostsBeforeKill a ∧ q.outstanding + 1 ≤ q.capacity

instance (q : Queue) (a : Act) : Decidable (q.Spare a) := inferInstanceAs (Decidable (_ ∧ _))

theorem running_le (q : Queue) : q.running ≤ q.worker.busy.toNat + 1 := by
  unfold running
  cases q.worker <;> simp [WorkerPc.busy]

/-- With one block to spare, a call that is about to allocate finds a block. -/
theorem Inv.pool_ne_nil (h : Inv q) {i : ℕ} {c : Call} (hc : q.calls[i]? = some c)
    (hpc : c.pc = .alloc) (hspare : q.outstanding + 1 ≤ q.capacity) : q.pool ≠ [] := by
  intro hnil
  have h1 := h.total
  have h2 := q.running_le
  have h3 : 1 ≤ q.calls.countP (fun c => c.pc == .alloc) := List.one_le_countP hc (by simp [hpc])
  rw [hnil, List.length_nil] at h1
  unfold outstanding at hspare
  omega

/-- **With one block to spare, no step trips an assertion.** -/
theorem step_tripped {a : Act} (h : Inv q) (hp : Phase q) (ht : q.tripped = none) (hok : q.Spare a)
    (hs : q.step a = some q') : q'.tripped = none := by
  obtain ⟨hok, hspare⟩ := hok
  cases step_trans hs with
  | allocTrips i c hc hpc hnone =>
    have htorn := hok i c rfl hc
    rw [hpc, postOk, Bool.not_eq_true'] at htorn
    rw [htorn] at hnone
    obtain ⟨⟨⟩⟩ | hnil := hnone
    exact absurd hnil (h.pool_ne_nil hc hpc hspare)
  | enqueueTrips i c b hc hpc hfull =>
    have hk := hok i c rfl hc
    rw [hpc, postOk, Bool.not_eq_true'] at hk
    have hroom := h.room hc hpc
    rw [not_torn_of_not_killed hk, length_queue (hp.unkilled hk).2.1] at hfull
    obtain ⟨⟨⟩⟩ | hfull := hfull
    omega
  | killTrips hd hfull =>
    -- the kill request finds room too
    rw [length_queue (hp.unkilled (by simp [killed, hd])).2.1] at hfull
    unfold outstanding at hspare
    omega
  | _ => exact ht

theorem reach_tripped {capacity : ℕ} (h : Sys.Reach (system capacity) Spare q) : q.tripped = none := by
  have hall : Inv q ∧ Phase q ∧ q.tripped = none := by
    refine Sys.Reach.inv (I := fun q => Inv q ∧ Phase q ∧ q.tripped = none) ?_ ?_ h
    · rintro q ⟨blocks, rfl⟩
      exact ⟨Inv.create capacity blocks, .before (.inl rfl) List.not_mem_nil rfl, rfl⟩
    · rintro q a q' ⟨h1, h2, h3⟩ hok hs
      exact ⟨step_inv h1 hs, step_phase h2 hok.1 hs, step_tripped h1 h2 h3 hok hs⟩
  exact hall.2.2

/-- A call in progress always has a next step. -/
theorem call_enabled {i : ℕ} {c : Call} (ht : q.tripped = none) (hc : q.calls[i]? = some c)
    (hpc : c.pc.inProgress = true) : ∃ q', q.step (.call i) = some q' := by
  simp only [step, ht, hc, Option.isSome_none, Bool.false_eq_true, if_false, Option.bind_some]
  unfold callStep
  cases h : c.pc with
  | load => exact ⟨_, rfl⟩
  | alloc => dsimp only; split <;> exact ⟨_, rfl⟩
  | fill b => exact ⟨_, rfl⟩
  | enqueue b => dsimp only; split <;> exact ⟨_, rfl⟩
  | returned r => rw [h] at hpc; cases hpc

/-- A step of a call that trips no assertion brings the call closer to its return. -/
theorem call_progress {i : ℕ} {c : Call} (hc : q.calls[i]? = some c) (hs : q.step (.call i) = some q')
    (ht : q'.tripped = none) : ∃ c', q'.calls[i]? = some c' ∧ c'.pc.stepsLeft < c.pc.stepsLeft := by
  have hmoved : ∀ pc, (q.setCall i c pc).calls[i]? = some { c with pc := pc } := by
    intro pc
    rw [calls_setCall, List.getElem?_set_of_some hc, if_pos rfl]
  cases step_trans hs with
  | allocTrips | enqueueTrips => cases ht
  | refuse _ c₁ hc₁ hpc | pass _ c₁ hc₁ hpc | alloc _ c₁ _ _ hc₁ hpc | fill _ c₁ _ hc₁ hpc
  | enqueue _ c₁ _ hc₁ hpc =>
    obtain rfl : c = c₁ := Option.some.inj (hc.symm.trans hc₁)
    refine ⟨_, hmoved _, ?_⟩
    rw [hpc]
    simp [CallPc.stepsLeft]

end Queue

open Queue

/-- **Shutdown, when no post straggles behind it.** For every capacity and every
interleaving in which no call allocates after the teardown or enqueues after the kill
request: once `dispatch_queue_destroy` has returned, every call that returned true has
had its function executed exactly once, with its own arguments; and in the runs whose
posters leave a block to spare, no assertion trips, no call is stuck, and every step
of a call brings it closer to its return. -/
theorem shutdown_runs_accepted (capacity : ℕ) :
    (∀ q, Sys.Reach (system capacity) PostsBeforeKill q → q.destroyer = .returned →
      ∀ (i : ℕ) (c : Call), q.calls[i]? = some c → c.pc = .returned true →
        q.executed.filter (·.1 == i) = [(i, c.post)]) ∧
    (∀ q, Sys.Reach (system capacity) Spare q → q.tripped = none ∧
      ∀ (i : ℕ) (c : Call), q.calls[i]? = some c → c.pc.inProgress = true →
        ∃ q', q.step (.call i) = some q' ∧ (q.Spare (.call i) →
          ∃ c', q'.calls[i]? = some c' ∧ c'.pc.stepsLeft < c.pc.stepsLeft)) := by
  constructor
  · intro q h hd i c hc hpc
    have hi := reach_inv h
    have hfifo := hi.fifo
    rw [(reach_phase h).pending_of_returned hd, List.append_nil] at hfifo
    rw [← hfifo]
    exact hi.enqueued_of_accepted hc hpc
  · intro q h
    have ht := reach_tripped h
    refine ⟨ht, ?_⟩
    intro i c hc hpc
    obtain ⟨q', hs⟩ := call_enabled ht hc hpc
    refine ⟨q', hs, ?_⟩
    intro hok
    exact call_progress hc hs (reach_tripped (h.step hok hs))

/-- A queue of capacity 2: a destroy begins after a post has looked at `destroying`, and the post is still
executed; a second post is refused while the destroy waits. -/
theorem shutdown_runs_accepted_overlap :
    ∃ q, Sys.Reach (system 2) Spare q ∧ q.destroyer = .returned ∧
      (q.calls.map (·.pc)) = [.returned true, .returned false] ∧ q.tripped = none ∧
      q.executed.filter (·.1 == 0) = [(0, ⟨7, 8, 9⟩)] := by
  have htrace : (Sys.exec (system 2) Spare (create 2 fun _ => (0, ⟨0, 0, 0⟩))
      [.post ⟨7, 8, 9⟩ false, .call 0, .destroy, .call 0, .call 0, .post ⟨1, 2, 3⟩ false, .call 0, .destroyer,
        .call 1, .worker, .worker, .worker, .worker, .worker, .worker, .destroyer, .destroyer]).map
      (fun q => q.destroyer == .returned &&
        q.calls == [⟨⟨7, 8, 9⟩, false, .returned true⟩, ⟨⟨1, 2, 3⟩, false, .returned false⟩]) =
      some true := by decide
  obtain ⟨q, hq, hp⟩ := (create_reach 2 _).of_trace htrace
  simp only [Bool.and_eq_true, beq_iff_eq] at hp
  obtain ⟨hd, hcalls⟩ := hp
  have hrun := (shutdown_runs_accepted 2).1 q (hq.mono fun _ _ hok => hok.1) hd 0
    ⟨⟨7, 8, 9⟩, false, .returned true⟩ (by rw [hcalls]; rfl) rfl
  exact ⟨q, hq, hd, by rw [hcalls]; rfl, ((shutdown_runs_accepted 2).2 q hq).1, hrun⟩

/-- **A post overtaken by the shutdown.** With capacity 2 and a single post, the call
that has passed its load of `destroying` is overtaken by the destroy: between its
allocation and its enqueue, it returns true and its function is never executed; before
its allocation, it trips the assertion on `pool_alloc`. -/
theorem post_overtaken_by_kill :
    (∃ q, Sys.Reach (system 2) (fun q _ => q.outstanding + 1 ≤ q.capacity) q ∧
      q.destroyer = .returned ∧ (q.calls[0]?).map (·.pc) = some (.returned true) ∧ q.executed = []) ∧
    (∃ q, Sys.Reach (system 2) (fun q _ => q.outstanding + 1 ≤ q.capacity) q ∧
      q.tripped = some .postAlloc) := by
  have hlost : (Sys.exec (system 2) (fun q _ => q.outstanding + 1 ≤ q.capacity)
      (create 2 fun _ => (0, ⟨0, 0, 0⟩))
      [.post ⟨7, 8, 9⟩ false, .call 0, .call 0, .call 0, .destroy, .destroyer, .worker, .worker,
        .call 0, .destroyer, .destroyer]).map
      (fun q => q.destroyer == .returned && (q.calls[0]?).map (·.pc) == some (.returned true) &&
        q.executed == []) = some true := by decide
  have htrip : (Sys.exec (system 2) (fun q _ => q.outstanding + 1 ≤ q.capacity)
      (create 2 fun _ => (0, ⟨0, 0, 0⟩))
      [.post ⟨7, 8, 9⟩ false, .call 0, .destroy, .destroyer, .worker, .worker, .destroyer, .destroyer,
        .call 0]).map
      (fun q => q.tripped == some .postAlloc) = some true := by decide
  obtain ⟨q, hq, hp⟩ := (create_reach 2 _).of_trace hlost
  obtain ⟨q', hq', hp'⟩ := (create_reach 2 _).of_trace htrip
  simp only [Bool.and_eq_true, beq_iff_eq] at hp hp'
  exact ⟨⟨q, hq, hp.1.1, hp.1.2, hp.2⟩, ⟨q', hq', hp'⟩⟩

end Cutils.Dispatch
