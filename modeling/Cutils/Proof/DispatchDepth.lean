import Cutils.Proof.DispatchShutdown

/-!
# How much a dispatch queue takes

The pool and the action queue have the same capacity. The kill request takes a place in the queue but no block, so the
queue can be full when it comes; and the worker keeps the block of the action it runs, so the pool can be empty when the
queue is not full.

* `destroy_starts_iff`: a destroy gets its kill request enqueued if and only if the queue is not full.
* `post_succeeds_iff`: a post succeeds if and only if the waiting actions and the worker's leave a block.
-/

namespace Cutils.Dispatch

namespace Queue

variable {q q' q₁ q₂ : Queue} {capacity : ℕ}

/-- The queue from a state on. -/
def after (q : Queue) : Sys.System Queue Act := ⟨fun s => s = q, step⟩

/-- No `dispatch_async_f` call is in progress. -/
def noPost (q : Queue) : Bool := q.calls.all fun c => !c.pc.inProgress

theorem inProgress_of_noPost (h : q.noPost = true) {c : Call} (hc : c ∈ q.calls) : c.pc.inProgress = false := by
  simpa using List.all_eq_true.1 h c hc

section Kill

/-- **A destroy starts**: whatever happens between its test-and-set and its kill request, the request is enqueued. -/
def DestroyStarts (q : Queue) : Prop :=
  ∃ q₁, q.step .destroy = some q₁ ∧ ∀ q₂, Sys.Reach (after q₁) (fun _ a => a ≠ .destroyer) q₂ →
    ∃ q₃, q₂.step .destroyer = some q₃ ∧ q₃.tripped = none ∧ q₃.queue = q₂.queue ++ [.kill]

/-- Between the test-and-set and the kill request, with room for the request: posts are refused. -/
structure Closing (q : Queue) : Prop where
  destroying : q.destroying = true
  destroyer : q.destroyer = .kill
  calls : ∀ (i : ℕ) (c : Call), q.calls[i]? = some c → c.pc.inProgress = true → c.pc = .load
  tripped : q.tripped = none
  room : q.queue.length < q.capacity

/-- A call that has passed its load is not in progress. -/
theorem Closing.not_past (h : Closing q) {i : ℕ} {c : Call} (hc : q.calls[i]? = some c) {pc : CallPc}
    (hpc : c.pc = pc) (hprog : pc.inProgress = true) (hpast : pc ≠ .load) : False := by
  subst hpc
  exact hpast (h.calls i c hc hprog)

theorem Closing.step {a : Act} (h : Closing q) (ha : a ≠ .destroyer) (hs : q.step a = some q') : Closing q' := by
  cases step_trans hs with
  | post data byAction =>
    refine ⟨h.destroying, h.destroyer, ?_, h.tripped, h.room⟩
    intro i c hc hprog
    rcases List.get_append_singleton hc with ⟨-, rfl⟩ | hc
    · rfl
    · exact h.calls i c hc hprog
  | refuse i c hc =>
    refine ⟨h.destroying, h.destroyer, ?_, h.tripped, h.room⟩
    intro j d hd hprog
    rcases List.get_set hd with ⟨-, rfl⟩ | ⟨-, hd⟩
    · cases hprog
    · exact h.calls j d hd hprog
  | pass i c hc hpc hd => rw [h.destroying] at hd; cases hd
  -- no call is past its load
  | alloc i c b rest hc hpc => exact (h.not_past hc hpc rfl (by rintro ⟨⟩)).elim
  | allocTrips i c hc hpc => exact (h.not_past hc hpc rfl (by rintro ⟨⟩)).elim
  | fill i c b hc hpc => exact (h.not_past hc hpc rfl (by rintro ⟨⟩)).elim
  | enqueue i c b hc hpc => exact (h.not_past hc hpc rfl (by rintro ⟨⟩)).elim
  | enqueueTrips i c b hc hpc => exact (h.not_past hc hpc rfl (by rintro ⟨⟩)).elim
  | take b rest hw hq =>
    refine ⟨h.destroying, h.destroyer, h.calls, h.tripped, ?_⟩
    have hroom := h.room
    rw [hq, List.length_cons] at hroom
    exact Nat.lt_of_succ_lt hroom
  | takeKill rest hw hq =>
    refine ⟨h.destroying, h.destroyer, h.calls, h.tripped, ?_⟩
    have hroom := h.room
    rw [hq, List.length_cons] at hroom
    exact Nat.lt_of_succ_lt hroom
  | run | finish | free | exit => exact ⟨h.destroying, h.destroyer, h.calls, h.tripped, h.room⟩
  | destroy hd => rw [h.destroyer] at hd; cases hd
  | kill | killTrips | joined | teardown => exact absurd rfl ha

theorem step_destroy (ht : q.tripped = none) (hd : q.destroyer = .idle) :
    q.step .destroy = some { q with destroying := true, destroyer := .kill } := by
  simp [step, ht, hd]

end Kill

/-- **The kill request has room**, or it trips the assertion. -/
theorem destroyStarts_iff (ht : q.tripped = none) (hd : q.destroyer = .idle) (hno : q.noPost = true) :
    DestroyStarts q ↔ q.queue.length < q.capacity := by
  constructor
  · rintro ⟨q₁, hq₁, hstart⟩
    -- the request may come at once
    obtain ⟨q₃, hq₃, htrip, -⟩ := hstart q₁ (.init rfl)
    rw [step_destroy ht hd, Option.some.injEq] at hq₁
    subst hq₁
    by_contra hfull
    simp only [step, ht, destroyerStep, Option.isSome_none, Bool.false_eq_true, if_false, if_neg hfull,
      Option.some.injEq] at hq₃
    rw [← hq₃] at htrip
    cases htrip
  · intro hroom
    refine ⟨_, step_destroy ht hd, fun q₂ hq₂ => ?_⟩
    have hclosing : Closing q₂ := by
      refine hq₂.inv ?_ fun q a q' ih ha hs => ih.step ha hs
      rintro q rfl
      refine ⟨rfl, rfl, ?_, ht, hroom⟩
      intro i c hc hprog
      rw [inProgress_of_noPost hno (List.mem_of_getElem? hc)] at hprog
      cases hprog
    refine ⟨{ q₂ with queue := q₂.queue ++ [.kill], destroyer := .wait }, ?_, hclosing.tripped, rfl⟩
    simp [step, hclosing.tripped, destroyerStep, hclosing.destroyer, hclosing.room]

section Depth

/-- **A post succeeds**: with the worker at work meanwhile, no assertion trips; the call goes on until it returns, and
then it has returned true and enqueued its action. -/
def PostSucceeds (q : Queue) (data : PostData) (byAction : Bool) : Prop :=
  ∃ q₁, q.step (.post data byAction) = some q₁ ∧
    ∀ q₂, Sys.Reach (after q₁) (fun _ a => a = .worker ∨ a = .call q.calls.length) q₂ → q₂.tripped = none ∧
      ∃ c, q₂.calls[q.calls.length]? = some c ∧
        ((∃ q₃ c', q₂.step (.call q.calls.length) = some q₃ ∧ q₃.calls[q.calls.length]? = some c' ∧
          c'.pc.stepsLeft < c.pc.stepsLeft) ∨
        (c.pc = .returned true ∧ (q.calls.length, data) ∈ q₂.enqueued))

/-- Call `n` on its way: there is a block until it has one. -/
structure Posting (capacity n : ℕ) (data : PostData) (q : Queue) : Prop where
  inv : Inv q
  live : Open capacity q
  destroying : q.destroying = false
  tripped : q.tripped = none
  block : ∀ c, q.calls[n]? = some c → c.pc = .load ∨ c.pc = .alloc → q.pool ≠ []
  call : ∃ c, q.calls[n]? = some c ∧ c.post = data ∧ c.pc ≠ .returned false

variable {n : ℕ} {data : PostData}

/-- The worker gives blocks to the pool only. -/
theorem Posting.worker (h : Posting capacity n data q) (hs : q.step .worker = some q') : Posting capacity n data q' := by
  have hinv := step_inv h.inv hs
  have hopen := step_open h.inv h.live (by rintro ⟨⟩) hs
  cases step_trans hs with
  | take | takeKill | run | finish | exit => exact ⟨hinv, hopen, h.destroying, h.tripped, h.block, h.call⟩
  | free b hw =>
    refine ⟨hinv, hopen, h.destroying, h.tripped, ?_, h.call⟩
    intro c hc hpc
    have hpool := h.block c hc hpc
    dsimp only
    split
    · simp
    · exact hpool

/-- The call moves to a place where it needs no block of the pool. -/
theorem Posting.move (h : Posting capacity n data q) {c : Call} {pc : CallPc} (hc : q.calls[n]? = some c)
    (hinv : Inv q') (hopen : Open capacity q') (hd : q'.destroying = q.destroying) (ht : q'.tripped = q.tripped)
    (hcalls : q'.calls = q.calls.set n { c with pc := pc })
    (hpc : pc ≠ .load ∧ pc ≠ .alloc ∧ pc ≠ .returned false) : Posting capacity n data q' := by
  obtain ⟨c₀, hc₀, hpost, -⟩ := h.call
  obtain rfl := Option.some.inj (hc₀.symm.trans hc)
  have hself : q'.calls[n]? = some { c₀ with pc := pc } := by
    rw [hcalls]
    exact List.get_set_self hc
  refine ⟨hinv, hopen, hd.trans h.destroying, ht.trans h.tripped, ?_, ⟨_, hself, hpost, hpc.2.2⟩⟩
  intro d hd hneeds
  obtain rfl := Option.some.inj (hself.symm.trans hd)
  rcases hneeds with hload | halloc
  · exact absurd hload hpc.1
  · exact absurd halloc hpc.2.1

/-- The call's own step. -/
theorem Posting.call_step (h : Posting capacity n data q) (hs : q.step (.call n) = some q') :
    Posting capacity n data q' := by
  have hinv := step_inv h.inv hs
  have hopen := step_open h.inv h.live (by rintro ⟨⟩) hs
  cases step_trans hs with
  | refuse _ c hc hpc hd => rw [h.destroying] at hd; cases hd
  | pass _ c hc hpc =>
    obtain ⟨c₀, hc₀, hpost, -⟩ := h.call
    obtain rfl := Option.some.inj (hc₀.symm.trans hc)
    refine ⟨hinv, hopen, h.destroying, h.tripped, fun _ _ _ => h.block _ hc (.inl hpc), ?_⟩
    exact ⟨_, List.get_set_self hc, hpost, by rintro ⟨⟩⟩
  | alloc _ c b rest hc => exact h.move hc hinv hopen rfl rfl rfl (by simp)
  | allocTrips _ c hc hpc hnone =>
    rw [torn, h.live.destroyer] at hnone
    obtain ⟨⟨⟩⟩ | hnil := hnone
    exact absurd hnil (h.block c hc (.inr hpc))
  | fill _ c b hc => exact h.move hc hinv hopen rfl rfl rfl (by simp)
  | enqueue _ c b hc => exact h.move hc hinv hopen rfl rfl rfl (by simp)
  | enqueueTrips => exact absurd rfl hopen.tripped

/-- Once the call is back, its action is enqueued. -/
theorem Posting.enqueued (h : Posting capacity n data q) {c : Call} (hc : q.calls[n]? = some c)
    (hprog : c.pc.inProgress = false) : c.pc = .returned true ∧ (n, data) ∈ q.enqueued := by
  obtain ⟨c₀, hc₀, rfl, hne⟩ := h.call
  obtain rfl := Option.some.inj (hc₀.symm.trans hc)
  have hpc : c₀.pc = .returned true := by
    cases hpc : c₀.pc with
    | returned retval =>
      cases retval with
      | true => rfl
      | false => exact absurd hpc hne
    | _ => rw [hpc] at hprog; cases hprog
  have hone := h.inv.enqueued_of_accepted hc hpc
  have hmem : (n, c₀.post) ∈ q.enqueued.filter (·.1 == n) := by
    rw [hone]
    exact List.mem_singleton_self _
  exact ⟨hpc, (List.mem_filter.1 hmem).1⟩

theorem post_enabled (data : PostData) (ht : q.tripped = none) (hno : q.noPost = true) {byAction : Bool}
    (hact : byAction = true → q.worker.inAction = true) :
    q.step (.post data byAction) = some { q with calls := q.calls ++ [⟨data, byAction, .load⟩] } := by
  have hnone : q.actionPosting = false := by
    refine List.any_eq_false.2 fun c hc => ?_
    simp [inProgress_of_noPost hno hc]
  cases byAction with
  | false => simp [step, ht]
  | true => simp [step, ht, hnone, hact rfl]

/-- A post to a queue that is open and has a block in its pool. -/
theorem postSucceeds_of_pool (hinv : Inv q) (hopen : Open capacity q) (hd : q.destroying = false)
    (ht : q.tripped = none) (hno : q.noPost = true) {byAction : Bool}
    (hact : byAction = true → q.worker.inAction = true) (hpool : q.pool ≠ []) : PostSucceeds q data byAction := by
  have hpost := post_enabled data ht hno hact
  refine ⟨_, hpost, fun q₂ hq₂ => ?_⟩
  have hposting : Posting capacity q.calls.length data q₂ := by
    refine hq₂.inv ?_ ?_
    · rintro _ rfl
      refine ⟨step_inv hinv hpost, step_open hinv hopen (by rintro ⟨⟩) hpost, hd, ht, fun _ _ _ => hpool, ?_⟩
      exact ⟨⟨data, byAction, .load⟩, by simp, rfl, by rintro ⟨⟩⟩
    · intro q a q' ih ha hs
      rcases ha with rfl | rfl
      · exact ih.worker hs
      · exact ih.call_step hs
  obtain ⟨c, hc, -⟩ := hposting.call
  refine ⟨hposting.tripped, c, hc, ?_⟩
  -- at most four steps are left to it
  cases hprog : c.pc.inProgress with
  | false => exact .inr (hposting.enqueued hc hprog)
  | true =>
    obtain ⟨q₃, hq₃⟩ := call_enabled hposting.tripped hc hprog
    obtain ⟨c', hc', hlt⟩ := call_progress hc hq₃ (hposting.call_step hq₃).tripped
    exact .inl ⟨q₃, c', hq₃, hc', hlt⟩

/-- With no block in the pool, a call at its beginning trips the assertion on its allocation. -/
theorem post_trips {i : ℕ} {c : Call} (ht : q.tripped = none) (hd : q.destroying = false) (hc : q.calls[i]? = some c)
    (hpc : c.pc = .load) (hnil : q.pool = []) :
    ∃ q₂, Sys.Reach (after q) (fun _ a => a = .worker ∨ a = .call i) q₂ ∧ q₂.tripped = some .postAlloc := by
  have hload : q.step (.call i) = some (q.setCall i c .alloc) := by simp [step, ht, hc, callStep, hpc, hd]
  have hnext : (q.setCall i c .alloc).calls[i]? = some { c with pc := .alloc } := List.get_set_self hc
  have halloc : (q.setCall i c .alloc).step (.call i) =
      some { q.setCall i c .alloc with tripped := some .postAlloc } := by
    have hpool : (q.setCall i c .alloc).pool = [] := hnil
    have hnone : (q.setCall i c .alloc).tripped = none := ht
    simp [step, hnone, hnext, callStep, hpool]
  have hreach : Sys.Reach (after q) (fun _ a => a = .worker ∨ a = .call i) (q.setCall i c .alloc) :=
    Sys.Reach.step (.init rfl) (.inr rfl) hload
  exact ⟨_, hreach.step (.inr rfl) halloc, rfl⟩

theorem pool_of_postSucceeds (hd : q.destroying = false) (ht : q.tripped = none) {byAction : Bool}
    (h : PostSucceeds q data byAction) : q.pool ≠ [] := by
  intro hnil
  obtain ⟨q₁, hq₁, hall⟩ := h
  cases step_trans hq₁ with
  | post _ _ _ =>
    obtain ⟨q₂, hreach, htrips⟩ := post_trips (q := { q with calls := q.calls ++ [⟨data, byAction, .load⟩] })
      (i := q.calls.length) ht hd (List.getElem?_concat_length) rfl hnil
    rw [(hall q₂ hreach).1] at htrips
    cases htrips

end Depth

end Queue

open Queue

/-- **Destroys start.** For every capacity and every state reached without a destroy and without tripping an assertion,
when no post is in progress: a destroy gets its kill request enqueued, whatever happens meanwhile, if and only if the
queue is not full of waiting actions. -/
theorem destroy_starts_iff (capacity : ℕ) (q : Queue) (h : Sys.Reach (system capacity) (fun _ a => a ≠ .destroy) q)
    (ht : q.tripped = none) (hno : q.noPost = true) : DestroyStarts q ↔ q.queue.length < capacity := by
  have hopen := reach_open h
  rw [destroyStarts_iff ht hopen.destroyer hno, hopen.capacity]

/-- One action waits in a queue of two. -/
theorem destroy_starts_iff_two : ∃ q : Queue, Sys.Reach (system 2) (fun _ a => a ≠ .destroy) q ∧ q.queue.length = 1 ∧
    DestroyStarts q := by
  have htrace : (Sys.exec (system 2) (fun _ a => a ≠ .destroy) (create 2 fun _ => (0, ⟨0, 0, 0⟩))
      [.post ⟨7, 8, 9⟩ false, .call 0, .call 0, .call 0, .call 0]).map
      (fun q => q.tripped == none && q.noPost && q.queue.length == 1) = some true := by decide
  obtain ⟨q, hq, hp⟩ := (create_reach 2 _).of_trace htrace
  simp only [Bool.and_eq_true, beq_iff_eq] at hp
  obtain ⟨⟨ht, hno⟩, hlen⟩ := hp
  exact ⟨q, hq, hlen, (destroy_starts_iff 2 q hq ht hno).2 (by rw [hlen]; decide)⟩

/-- **A full queue**: one action waits in a queue of one, and the kill request trips the assertion. -/
theorem destroy_of_full_queue_trips :
    ∃ q, Sys.Reach (system 1) (fun _ a => a ≠ .destroy) q ∧ q.tripped = none ∧ q.noPost = true ∧
      (∃ q₁ q₂, q.step .destroy = some q₁ ∧ q₁.step .destroyer = some q₂ ∧ q₂.tripped = some .killEnqueue) ∧
      ¬ DestroyStarts q := by
  have htrace : (Sys.exec (system 1) (fun _ a => a ≠ .destroy) (create 1 fun _ => (0, ⟨0, 0, 0⟩))
      [.post ⟨7, 8, 9⟩ false, .call 0, .call 0, .call 0, .call 0]).map
      (fun q => q.tripped == none && q.noPost && q.queue.length == 1) = some true := by decide
  obtain ⟨q, hq, hp⟩ := (create_reach 1 _).of_trace htrace
  simp only [Bool.and_eq_true, beq_iff_eq] at hp
  obtain ⟨⟨ht, hno⟩, hlen⟩ := hp
  have hopen := reach_open hq
  have hfull : ¬ q.queue.length < q.capacity := by
    rw [hlen, hopen.capacity]
    decide
  refine ⟨q, hq, ht, hno, ⟨_, { q with destroying := true, destroyer := .kill, tripped := some .killEnqueue },
    step_destroy ht hopen.destroyer, ?_, rfl⟩, ?_⟩
  · simp [step, ht, destroyerStep, hfull]
  · rw [destroyStarts_iff ht hopen.destroyer hno]
    exact hfull

/-- **Depth.** For every capacity and every state reached without a destroy and without tripping an assertion, when no
other post is in progress: a post, also one by the action that the worker is running, succeeds if and only if the
waiting actions and the one whose block the worker holds are fewer than the capacity. -/
theorem post_succeeds_iff (capacity : ℕ) (q : Queue) (h : Sys.Reach (system capacity) (fun _ a => a ≠ .destroy) q)
    (ht : q.tripped = none) (hno : q.noPost = true) (data : PostData) (byAction : Bool)
    (hact : byAction = true → q.worker.inAction = true) :
    PostSucceeds q data byAction ↔ q.queue.length + q.running < capacity := by
  have hinv := reach_inv h
  have hopen := reach_open h
  have hd := reach_destroying h
  have htotal := hinv.total
  have hnone : q.allocated = 0 := by
    refine List.countP_eq_zero.2 fun c hc hblock => ?_
    have hprog := inProgress_of_noPost hno hc
    cases hpc : c.pc <;> simp_all [CallPc.inProgress]
  -- every block is in the pool, waiting, or at the worker
  have hpool : q.pool ≠ [] ↔ q.queue.length + q.running < capacity := by
    rw [← List.length_pos_iff, length_queue hopen.queue]
    rw [hnone, hopen.capacity] at htotal
    omega
  rw [← hpool]
  exact ⟨pool_of_postSucceeds hd ht, postSucceeds_of_pool hinv hopen hd ht hno hact⟩

/-- The worker of a queue of two is running an action, nothing waits, and the action posts. -/
theorem post_succeeds_iff_two :
    ∃ q : Queue, Sys.Reach (system 2) (fun _ a => a ≠ .destroy) q ∧ q.worker.inAction = true ∧ q.queue = [] ∧
      PostSucceeds q ⟨1, 2, 3⟩ true := by
  have htrace : (Sys.exec (system 2) (fun _ a => a ≠ .destroy) (create 2 fun _ => (0, ⟨0, 0, 0⟩))
      [.post ⟨7, 8, 9⟩ false, .call 0, .call 0, .call 0, .call 0, .worker, .worker]).map
      (fun q => q.tripped == none && q.noPost && q.queue == [] && q.worker == .running 0) = some true := by decide
  obtain ⟨q, hq, hp⟩ := (create_reach 2 _).of_trace htrace
  simp only [Bool.and_eq_true, beq_iff_eq] at hp
  obtain ⟨⟨⟨ht, hno⟩, hempty⟩, hw⟩ := hp
  have hact : q.worker.inAction = true := by rw [hw]; rfl
  have hroom : q.queue.length + q.running < 2 := by
    rw [running, hempty, hw]
    decide
  exact ⟨q, hq, hact, hempty, (post_succeeds_iff 2 q hq ht hno ⟨1, 2, 3⟩ true fun _ => hact).2 hroom⟩

/-- **An empty pool**: the worker of a queue of one is running an action, and nothing waits. A post trips the assertion,
by the action or not. -/
theorem post_to_running_worker_trips :
    ∃ q, Sys.Reach (system 1) (fun _ a => a ≠ .destroy) q ∧ q.tripped = none ∧ q.noPost = true ∧
      q.worker.inAction = true ∧ q.queue.length < 1 ∧
      ∀ byAction, (∃ q₁ q₂, q.step (.post ⟨1, 2, 3⟩ byAction) = some q₁ ∧
        Sys.Reach (after q₁) (fun _ a => a = .worker ∨ a = .call q.calls.length) q₂ ∧
        q₂.tripped = some .postAlloc) ∧ ¬ PostSucceeds q ⟨1, 2, 3⟩ byAction := by
  have htrace : (Sys.exec (system 1) (fun _ a => a ≠ .destroy) (create 1 fun _ => (0, ⟨0, 0, 0⟩))
      [.post ⟨7, 8, 9⟩ false, .call 0, .call 0, .call 0, .call 0, .worker, .worker]).map
      (fun q => q.tripped == none && q.noPost && q.worker.inAction && q.queue == [] && q.pool == []) =
      some true := by decide
  obtain ⟨q, hq, hp⟩ := (create_reach 1 _).of_trace htrace
  simp only [Bool.and_eq_true, beq_iff_eq] at hp
  obtain ⟨⟨⟨⟨ht, hno⟩, hact⟩, hempty⟩, hpool⟩ := hp
  have hd := reach_destroying hq
  refine ⟨q, hq, ht, hno, hact, by rw [hempty]; decide, fun byAction => ⟨?_, ?_⟩⟩
  · have hpost := post_enabled ⟨1, 2, 3⟩ ht hno fun (_ : byAction = true) => hact
    obtain ⟨q₂, hreach, htrips⟩ := post_trips (q := { q with calls := q.calls ++ [⟨⟨1, 2, 3⟩, byAction, .load⟩] })
      ht hd List.getElem?_concat_length rfl hpool
    exact ⟨_, q₂, hpost, hreach, htrips⟩
  · exact fun hpost => pool_of_postSucceeds hd ht hpost hpool

end Cutils.Dispatch
