import Cutils.Spec.Resources
import Mathlib.Tactic.Abel

/-!
# Objects that are left

`ts_queue_destroy` forgets the second condition variable of a queue, and `ts_queue_init` forgets the first one if it
could not create the second. A state event loop that refuses its sizes forgets its dispatch queue.

* `os_resources_balance`: exactly when creating something, and destroying it if that did not fail, leaves the
  objects live that were.
-/

namespace Cutils.Resources

open Live

/-- The first condition variable of the queue is created: the parameters are accepted, and so are the mutex and it. -/
def TsQueueParams.Starts : Option TsQueueParams → (ℕ → Bool) → Prop
  | some ⟨some _, some _, size⟩, outcomes => powerOfTwo size ∧ outcomes 0 ∧ outcomes 1
  | _, _ => False

/-- The same for the queue of a pool. -/
def PoolParams.Starts (params : PoolParams) (outcomes : ℕ → Bool) : Prop :=
  params.pPool.isSome ∧ TsQueueParams.Starts (some params.queueParams) outcomes

/-- The same for the queue of the pool of a notifier, whose own mutex comes first. -/
def NotifierParams.Starts (params : NotifierParams) (outcomes : ℕ → Bool) : Prop :=
  outcomes 0 ∧ params.poolParams.Starts fun n => outcomes (n + 1)

/-- What the destruction of a queue destroys. -/
def queueDestroyed (q : ℕ) : Multiset Obj := {.queueCnd q} + {.queueMtx q}

variable {s s' : Sys Obj}

section TsQueue

theorem tsQueueDestroy_frees (q : ℕ) : Frees (tsQueueDestroy (some q)) (queueDestroyed q) :=
  (Frees.destroy _).seq (Frees.destroy _)

/-- **`ts_queue_init`**: it creates all three objects, or all but the last and destroys one of the two, or none. -/
theorem tsQueueInit_cases {params : Option TsQueueParams} {r : Option ℕ} (h : tsQueueInit params s = some (r, s')) :
    (∃ q, r = some q ∧ TsQueueParams.Starts params s.outcomes ∧
      s'.live = s.live + ({.queueFullCnd q} + queueDestroyed q)) ∨
    (∃ q, r = none ∧ TsQueueParams.Starts params s.outcomes ∧ s'.live = s.live + {.queueCnd q}) ∨
    (r = none ∧ ¬ TsQueueParams.Starts params s.outcomes ∧ s'.live = s.live) := by
  match params with
  | none | some ⟨none, _, _⟩ | some ⟨some _, none, _⟩ =>
    obtain ⟨rfl, rfl⟩ := pure_iff.1 h
    exact .inr (.inr ⟨rfl, nofun, rfl⟩)
  | some ⟨some q, some _, size⟩ =>
    simp only [tsQueueInit] at h
    by_cases hsize : powerOfTwo size = true
    · rw [hsize, Bool.not_true, if_neg Bool.false_ne_true] at h
      obtain ⟨mtx, s₁, hmtx, h⟩ := bind_iff.1 h
      obtain ⟨hout, ⟨rfl, h0, hlive⟩ | ⟨rfl, h0, hlive⟩⟩ := create_cases hmtx
      · obtain ⟨both, s₂, hcnds, h⟩ := bind_iff.1 h
        obtain ⟨cnd, s₃, hcnd, hcnds⟩ := and_iff.1 hcnds
        obtain ⟨-, ⟨rfl, h1, hlive₃⟩ | ⟨rfl, h1, hlive₃⟩⟩ := create_cases hcnd
        · rw [hout] at h1
          obtain ⟨-, ⟨rfl, -, hlive₂⟩ | ⟨rfl, -, hlive₂⟩⟩ := create_cases hcnds
          · obtain ⟨rfl, rfl⟩ := pure_iff.1 h
            refine .inl ⟨q, rfl, ⟨hsize, h0, h1⟩, ?_⟩
            rw [hlive₂, hlive₃, hlive, queueDestroyed]
            abel
          · -- only the mutex is freed
            obtain ⟨_, s₄, hfree, h⟩ := bind_iff.1 h
            obtain ⟨rfl, rfl⟩ := pure_iff.1 h
            refine .inr (.inl ⟨q, rfl, ⟨hsize, h0, h1⟩, (Frees.destroy _).left ?_ hfree⟩)
            rw [hlive₂, hlive₃, hlive]
            abel
        · rw [hout] at h1
          obtain ⟨rfl, rfl⟩ := hcnds
          obtain ⟨_, s₄, hfree, h⟩ := bind_iff.1 h
          obtain ⟨rfl, rfl⟩ := pure_iff.1 h
          have hback : s'.live = s.live + 0 := (Frees.destroy _).left (by rw [hlive₃, hlive, zero_add]) hfree
          exact .inr (.inr ⟨rfl, fun hs => by simpa [h1] using hs.2.2, by rw [hback, add_zero]⟩)
      · obtain ⟨rfl, rfl⟩ := pure_iff.1 h
        exact .inr (.inr ⟨rfl, fun hs => by simpa [h0] using hs.2.1, hlive⟩)
    · rw [Bool.not_eq_true] at hsize
      rw [hsize] at h
      obtain ⟨rfl, rfl⟩ := pure_iff.1 h
      exact .inr (.inr ⟨rfl, fun hs => by simpa [hsize] using hs.1, rfl⟩)

theorem tsQueueInit_leaves (params : Option TsQueueParams) :
    Leaves (tsQueueInit params) queueDestroyed (TsQueueParams.Starts params) := by
  intro s r s' h
  rcases tsQueueInit_cases h with ⟨q, rfl, hstarts, hlive⟩ | ⟨q, rfl, hstarts, hlive⟩ | ⟨rfl, hstarts, hlive⟩
  · exact ⟨_, iff_of_false (Multiset.singleton_ne_zero _) (not_not.2 hstarts), hlive⟩
  · exact ⟨_, iff_of_false (Multiset.singleton_ne_zero _) (not_not.2 hstarts), by rw [hlive, Option.elim_none, add_zero]⟩
  · exact ⟨0, iff_of_true rfl hstarts, by rw [hlive, Option.elim_none, add_zero, add_zero]⟩

end TsQueue

section Pool

def Pool.destroyed (pool : Pool) : Multiset Obj := pool.q.elim 0 queueDestroyed

theorem poolDestroy_frees (pool : Pool) : Frees (poolDestroy (some pool)) pool.destroyed := by
  obtain ⟨_ | q, _, _⟩ := pool
  · exact Frees.skip
  · exact tsQueueDestroy_frees q

theorem poolCreate_leaves (params : PoolParams) : Leaves (poolCreate params) Pool.destroyed params.Starts := by
  intro s r s' h
  obtain ⟨_ | _, _, _, queueParams⟩ := params
  · obtain ⟨rfl, rfl⟩ := pure_iff.1 h
    exact ⟨0, iff_of_true rfl fun hs => Bool.false_ne_true hs.1, by rw [Option.elim_none, add_zero, add_zero]⟩
  · simp only [poolCreate] at h
    obtain ⟨q, s₁, hq, h⟩ := bind_iff.1 h
    obtain ⟨left, hiff, hlive⟩ := tsQueueInit_leaves _ _ _ _ hq
    refine ⟨left, hiff.trans (not_congr ⟨fun hs => ⟨rfl, hs⟩, And.right⟩), ?_⟩
    cases q with
    | none =>
      obtain ⟨rfl, rfl⟩ := pure_iff.1 h
      exact hlive
    | some q =>
      obtain ⟨rfl, rfl⟩ := pure_iff.1 h
      exact hlive

end Pool

section Notifier

def Notifier.destroyed (notifier : Notifier) : Multiset Obj :=
  notifier.pool.destroyed + {.notifierMtx notifier.notifier}

theorem notifierDeinit_frees (notifier : Notifier) : Frees (notifierDeinit notifier) notifier.destroyed :=
  (poolDestroy_frees _).seq (Frees.destroy _)

theorem notifierInit_leaves (params : NotifierParams) :
    Leaves (notifierInit params) Notifier.destroyed params.Starts := by
  intro s r s' h
  match params with
  | ⟨none, _, _⟩ | ⟨some _, none, _⟩ => exact nomatch h
  | ⟨some notifier, some _, poolParams⟩ =>
    simp only [notifierInit] at h
    obtain ⟨mtx, s₁, hmtx, h⟩ := bind_iff.1 h
    obtain ⟨hout, ⟨rfl, h0, hlive⟩ | ⟨rfl, h0, hlive⟩⟩ := create_cases hmtx
    · obtain ⟨pool, s₂, hpool, h⟩ := bind_iff.1 h
      obtain ⟨left, hiff, hlive₂⟩ := poolCreate_leaves _ _ _ _ hpool
      rw [hout] at hiff
      refine ⟨left, hiff.trans (not_congr ⟨fun hs => ⟨h0, hs⟩, And.right⟩), ?_⟩
      cases pool with
      | none =>
        -- the pool has freed what it created, and the mutex is freed here
        obtain ⟨_, s₃, hfree, h⟩ := bind_iff.1 h
        obtain ⟨rfl, rfl⟩ := pure_iff.1 h
        rw [Option.elim_none, add_zero]
        refine (Frees.destroy _).left ?_ hfree
        rw [hlive₂, hlive, Option.elim_none]
        abel
      | some pool =>
        obtain ⟨rfl, rfl⟩ := pure_iff.1 h
        rw [hlive₂, hlive, Option.elim_some, Option.elim_some, Notifier.destroyed]
        abel
    · obtain ⟨rfl, rfl⟩ := pure_iff.1 h
      exact ⟨0, iff_of_true rfl fun hs => by simpa [h0] using hs.1, by rw [hlive, Option.elim_none, add_zero, add_zero]⟩

end Notifier

section DispatchQueue

def DispatchQueue.destroyed (d : DispatchQueue) : Multiset Obj :=
  {.thread d.task} + (d.pool.destroyed + (queueDestroyed d.queue +
    ({.signalCv d.dispatchQueue} + {.signalMtx d.dispatchQueue})))

theorem dispatchQueueDestroy_frees (d : DispatchQueue) : Frees (dispatchQueueDestroy d) d.destroyed := by
  refine Frees.attempt fun ok => Frees.require (Frees.attempt fun ok => ?_)
  cases ok with
  | false => exact Frees.fail _
  | true =>
    have htask : Frees (taskDestroyStatic d.task) {.thread d.task} :=
      Frees.attempt fun ok => Frees.require (Frees.destroy _)
    have hsignal : Frees (signalFree d.dispatchQueue) _ := (Frees.destroy _).seq (Frees.destroy _)
    exact htask.seq ((poolDestroy_frees _).seq ((tsQueueDestroy_frees _).seq hsignal))

variable {minStackSize : UInt64}

theorem signalNew_adds (d : ℕ) : Adds (signalNew d) true ({.signalCv d} + {.signalMtx d}) := by
  intro s s' h
  obtain ⟨mtx, s₁, hmtx, hcv⟩ := and_iff.1 h
  obtain ⟨-, ⟨rfl, -, hlive⟩ | ⟨rfl, -, -⟩⟩ := create_cases hmtx
  · obtain ⟨-, ⟨-, -, hlive₁⟩ | ⟨hcv, -, -⟩⟩ := create_cases hcv
    · rw [hlive₁, hlive]
      abel
    · cases hcv
  · cases hcv.1

theorem taskNewStatic_adds (params : TaskParams) (task : ℕ) :
    Adds (taskNewStatic minStackSize params) (some task) {.thread task} := by
  match params with
  | ⟨none, _, _⟩ | ⟨some _, none, _⟩ => exact Adds.other nofun
  | ⟨some t, some _, stackSize⟩ =>
    -- `pthread_create`, the one call that leaves something
    have hcreate : Adds (create (.thread t) >>= fun ok => if ok = true then pure (some t) else pure none) (some task)
        {Obj.thread task} := by
      intro s s' h
      obtain ⟨ok, s₁, hok, h⟩ := bind_iff.1 h
      obtain ⟨-, ⟨rfl, -, hlive⟩ | ⟨rfl, -, -⟩⟩ := create_cases hok
      · obtain ⟨hsame, rfl⟩ := pure_iff.1 h
        cases hsame
        exact hlive
      · cases (pure_iff.1 h).1
    simp only [taskNewStatic]
    split
    · exact Adds.other nofun
    -- the attributes come first
    refine Adds.attempt fun ok => ?_
    cases ok with
    | false => exact Adds.other nofun
    | true =>
      refine Adds.attempt fun ok => ?_
      cases ok with
      | false => exact Adds.other nofun
      | true =>
        show Adds (if stackSize.toUInt64 ≥ minStackSize then _ else _) _ _
        split
        · refine Adds.attempt fun ok => ?_
          cases ok with
          | false => exact Adds.other nofun
          | true => exact hcreate
        · exact hcreate

/-- **`dispatch_queue_create`** reports no failure, and its two queues are not all destroyed again. -/
theorem dispatchQueueCreate_leaves (params : DispatchQueueParams) :
    Leaves (dispatchQueueCreate minStackSize params) DispatchQueue.destroyed fun _ => True := by
  intro s r s' h
  obtain ⟨pQueue, taskParams, poolParams, queueParams⟩ := params
  simp only [dispatchQueueCreate, bind_iff, require_iff] at h
  obtain ⟨_, _, ⟨-, rfl⟩, h⟩ := h
  cases pQueue with
  | none => cases h
  | some d =>
    simp only [bind_iff, require_iff] at h
    obtain ⟨_, s₂, hsignal, _, _, ⟨rfl, rfl⟩, q, s₃, hqueue, h⟩ := h
    obtain ⟨q, rfl, -, hlive₃⟩ | ⟨q, rfl, -⟩ | ⟨rfl, -⟩ := tsQueueInit_cases hqueue
    · simp only [bind_iff] at h
      obtain ⟨pool, s₄, hpool, h⟩ := h
      obtain ⟨left, -, hlive₄⟩ := poolCreate_leaves _ _ _ _ hpool
      cases pool with
      | none => cases h
      | some pool =>
        simp only [bind_iff] at h
        obtain ⟨task, s₅, htask, h⟩ := h
        cases task with
        | none => cases h
        | some task =>
          obtain ⟨rfl, rfl⟩ := pure_iff.1 h
          refine ⟨{.queueFullCnd q} + left, iff_of_false ?_ (not_not.2 trivial), ?_⟩
          · rw [add_eq_zero, not_and_or]
            exact .inl (Multiset.singleton_ne_zero _)
          · rw [taskNewStatic_adds _ _ _ _ htask, hlive₄, hlive₃, signalNew_adds _ _ _ hsignal, Option.elim_some,
              Option.elim_some, DispatchQueue.destroyed]
            abel
    · cases h
    · cases h

end DispatchQueue

section StateEventLoop

variable {minStackSize : UInt64}

def EventLoop.destroyed (loop : EventLoop) : Multiset Obj :=
  loop.execQueue.destroyed + (loop.notifier.destroyed + loop.poolOfEvents.destroyed)

theorem stateEventLoopDeinit_frees (loop : EventLoop) : Frees (stateEventLoopDeinit loop) loop.destroyed :=
  (dispatchQueueDestroy_frees _).seq ((notifierDeinit_frees _).seq (poolDestroy_frees _))

/-- Either check of the sizes: the pool and the notifier are destroyed, and nothing else. -/
theorem refuse_live {pool : Pool} {notifier : Notifier} {left l : Multiset Obj} {r : Option EventLoop}
    (hlive : s.live = l + (left + (pool.destroyed + notifier.destroyed)))
    (h : (do
      poolDestroy (some pool)
      notifierDeinit notifier
      return none : Prog Obj (Option EventLoop)) s = some (r, s')) : r = none ∧ s'.live = l + left := by
  simp only [bind_iff] at h
  obtain ⟨_, s₁, hpool, _, s₂, hnotifier, h⟩ := h
  obtain ⟨rfl, rfl⟩ := pure_iff.1 h
  refine ⟨rfl, ?_⟩
  have hboth : (poolDestroy (some pool) >>= fun _ => notifierDeinit notifier) s = some ((), s') :=
    bind_iff.2 ⟨_, s₁, hpool, hnotifier⟩
  exact ((poolDestroy_frees _).seq (notifierDeinit_frees _)).left hlive hboth

/-- **`state_event_loop_init`** creates everything that it has before it can report a failure, and then keeps its
dispatch queue. -/
theorem stateEventLoopInit_leaves (params : EventLoopParams) :
    Leaves (stateEventLoopInit minStackSize params) EventLoop.destroyed fun _ => True := by
  intro s r s' h
  simp only [stateEventLoopInit, bind_iff, require_iff] at h
  obtain ⟨_, _, ⟨-, rfl⟩, _, _, ⟨-, rfl⟩, _, s, ⟨-, rfl⟩, execQueue, s₁, hexec, h⟩ := h
  cases execQueue with
  | none => cases h
  | some execQueue =>
    obtain ⟨left₁, hleft₁, hlive₁⟩ := dispatchQueueCreate_leaves _ _ _ _ hexec
    have hpos : ∀ more, left₁ + more ≠ 0 := by
      intro more hzero
      exact hleft₁.1 (add_eq_zero.1 hzero).1 trivial
    simp only [bind_iff, require_iff] at h
    obtain ⟨_, s₁, ⟨-, rfl⟩, notifier, s₂, hnotifier, h⟩ := h
    cases notifier with
    | none => cases h
    | some notifier =>
      obtain ⟨left₂, -, hlive₂⟩ := notifierInit_leaves _ _ _ _ hnotifier
      simp only [bind_iff] at h
      obtain ⟨pool, s₃, hpool, h⟩ := h
      cases pool with
      | none => cases h
      | some pool =>
        obtain ⟨left₃, -, hlive₃⟩ := poolCreate_leaves _ _ _ _ hpool
        simp only [Option.elim_some] at hlive₁ hlive₂ hlive₃
        have hrefuse : s₃.live = s.live + (left₁ + (execQueue.destroyed + (left₂ + left₃)) +
            (pool.destroyed + notifier.destroyed)) := by
          rw [hlive₃, hlive₂, hlive₁]
          abel
        have hdone : s₃.live = s.live + (left₁ + (left₂ + left₃) +
            EventLoop.destroyed ⟨execQueue, notifier, pool⟩) := by
          rw [hlive₃, hlive₂, hlive₁, EventLoop.destroyed]
          abel
        dsimp only at h
        by_cases hsize : (pool.elementSize != params.eventDataSize) = true
        · rw [if_pos hsize] at h
          obtain ⟨rfl, hlive⟩ := refuse_live hrefuse h
          exact ⟨_, iff_of_false (hpos _) (not_not.2 trivial), by rw [hlive, Option.elim_none, add_zero]⟩
        · rw [if_neg hsize] at h
          by_cases hblocks : (pool.numOfElements.toUInt64 != params.queueParams.queueParams.size) = true
          · rw [if_pos hblocks] at h
            obtain ⟨rfl, hlive⟩ := refuse_live hrefuse h
            exact ⟨_, iff_of_false (hpos _) (not_not.2 trivial), by rw [hlive, Option.elim_none, add_zero]⟩
          · rw [if_neg hblocks] at h
            obtain ⟨rfl, rfl⟩ := pure_iff.1 h
            exact ⟨_, iff_of_false (hpos _) (not_not.2 trivial), hdone⟩

end StateEventLoop

/-- No queue gets as far as its first condition variable. A dispatch queue or an event loop always does. -/
def Composite.Clean (outcomes : ℕ → Bool) : Composite → Prop
  | .tsQueue params => ¬ TsQueueParams.Starts params outcomes
  | .pool params => ¬ params.Starts outcomes
  | .notifier params => ¬ params.Starts outcomes
  | .dispatchQueue _ | .stateEventLoop _ => False

/-- **The objects that are live** after something was created, and destroyed if that did not report failure, are those
that were before if and only if no queue in it got as far as its first condition variable. -/
theorem os_resources_balance (minStackSize : UInt64) (c : Composite) (s s' : Sys Obj)
    (h : c.lifecycle minStackSize s = some ((), s')) : s'.live = s.live ↔ c.Clean s.outcomes := by
  cases c with
  | tsQueue params => exact (tsQueueInit_leaves params).lifecycle tsQueueDestroy_frees h
  | pool params => exact (poolCreate_leaves params).lifecycle poolDestroy_frees h
  | notifier params => exact (notifierInit_leaves params).lifecycle notifierDeinit_frees h
  | dispatchQueue params =>
    rw [(dispatchQueueCreate_leaves params).lifecycle dispatchQueueDestroy_frees h]
    exact not_true
  | stateEventLoop params =>
    rw [(stateEventLoopInit_leaves params).lifecycle stateEventLoopDeinit_frees h]
    exact not_true

/-- A notifier whose mutex can be created, and the mutex of whose queue cannot. -/
theorem os_resources_balance_refused :
    ∃ s', (Composite.notifier ⟨some 1, some 2, ⟨some 3, 4, 16, ⟨some 5, some 6, 4⟩⟩⟩).lifecycle 0
      ⟨{.thread 7}, fun n => n == 0⟩ = some ((), s') ∧ s'.live = {.thread 7} := by
  refine ⟨_, rfl, (os_resources_balance 0 (.notifier ⟨some 1, some 2, ⟨some 3, 4, 16, ⟨some 5, some 6, 4⟩⟩⟩)
    ⟨{.thread 7}, fun n => n == 0⟩ _ rfl).2 ?_⟩
  rintro ⟨-, -, -, h, -⟩
  exact Bool.false_ne_true h

/-- An event loop with blocks of another size than that of its events. -/
def oddLoop : EventLoopParams where
  pEventLoop := some 1
  notifierParams := ⟨some 2, some 3, ⟨some 4, 4, 16, ⟨some 5, some 6, 4⟩⟩⟩
  queueParams := ⟨some 7, ⟨some 8, some 9, 4096⟩, ⟨some 10, 4, 24, ⟨some 11, some 12, 4⟩⟩, ⟨some 13, some 14, 4⟩⟩
  eventPoolParams := ⟨some 15, 4, 32, ⟨some 16, some 17, 4⟩⟩
  stateMacs := [some 18]
  pSm := some 18
  eventDataSize := 40

/-- **What is left**: of a queue that was created and destroyed, the second condition variable; of one whose second
condition variable could not be created, the first one; of an event loop that was refused, its worker, and more. -/
theorem os_resources_left :
    (((Composite.tsQueue (some ⟨some 5, some 6, 4⟩)).lifecycle 0 ⟨0, fun _ => true⟩).map fun r => r.2.live) =
      some {.queueFullCnd 5} ∧
    ((tsQueueInit (some ⟨some 5, some 6, 4⟩) ⟨0, fun n => n != 2⟩).map fun r => (r.1, r.2.live)) =
      some (none, {.queueCnd 5}) ∧
    ((stateEventLoopInit 0 oddLoop ⟨0, fun _ => true⟩).map fun r => (r.1.isSome, r.2.live.count (.thread 8))) =
      some (false, 1) := by
  refine ⟨by decide, by decide, by decide⟩

end Cutils.Resources
