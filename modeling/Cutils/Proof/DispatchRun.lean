import Cutils.Lib.Count
import Cutils.Spec.DispatchQueue

/-!
# The dispatch queue in operation

The counting invariant `Inv` couples the pool and the action queue: every block is in
the pool, with a call, in the queue or at the worker, exactly once. So the queue never
overflows, a block a call fills is nowhere else, and what the worker executes is what
was enqueued, in order (`Inv.fifo`). It holds in every interleaving, shutdown included.
`Trans` lists what a step can do, once for all invariants (`step_trans`).

`dispatch_runs_in_order`: without a destroy, at every reachable state.
-/

namespace Cutils.Dispatch

namespace Queue

variable {q q' : Queue}

/-- Everything a step can do. -/
inductive Trans (q : Queue) : Act → Queue → Prop
  | post (data : PostData) (byAction : Bool)
      (hact : byAction = true → q.actionPosting = false ∧ q.worker.inAction = true) :
      Trans q (.post data byAction) { q with calls := q.calls ++ [⟨data, byAction, .load⟩] }
  | refuse (i : ℕ) (c : Call) (hc : q.calls[i]? = some c) (hpc : c.pc = .load)
      (hd : q.destroying = true) : Trans q (.call i) (q.setCall i c (.returned false))
  | pass (i : ℕ) (c : Call) (hc : q.calls[i]? = some c) (hpc : c.pc = .load)
      (hd : q.destroying = false) : Trans q (.call i) (q.setCall i c .alloc)
  | alloc (i : ℕ) (c : Call) (b : ℕ) (rest : List ℕ) (hc : q.calls[i]? = some c) (hpc : c.pc = .alloc)
      (ht : q.torn = false) (hp : q.pool = b :: rest) :
      Trans q (.call i) { q.setCall i c (.fill b) with pool := rest }
  | allocTrips (i : ℕ) (c : Call) (hc : q.calls[i]? = some c) (hpc : c.pc = .alloc)
      (hp : q.torn = true ∨ q.pool = []) : Trans q (.call i) { q with tripped := some .postAlloc }
  | fill (i : ℕ) (c : Call) (b : ℕ) (hc : q.calls[i]? = some c) (hpc : c.pc = .fill b) :
      Trans q (.call i)
        { q.setCall i c (.enqueue b) with blocks := Function.update q.blocks b (i, c.post) }
  | enqueue (i : ℕ) (c : Call) (b : ℕ) (hc : q.calls[i]? = some c) (hpc : c.pc = .enqueue b)
      (ht : q.torn = false) (hroom : q.queue.length < q.capacity) :
      Trans q (.call i)
        { q.setCall i c (.returned true) with
          queue := q.queue ++ [.data b]
          enqueued := q.enqueued ++ [q.blocks b] }
  | enqueueTrips (i : ℕ) (c : Call) (b : ℕ) (hc : q.calls[i]? = some c) (hpc : c.pc = .enqueue b)
      (hfull : q.torn = true ∨ q.capacity ≤ q.queue.length) :
      Trans q (.call i) { q with tripped := some .postEnqueue }
  | take (b : ℕ) (rest : List Item) (hw : q.worker = .dequeue) (hq : q.queue = .data b :: rest) :
      Trans q .worker { q with queue := rest, worker := .call b }
  | takeKill (rest : List Item) (hw : q.worker = .dequeue) (hq : q.queue = .kill :: rest) :
      Trans q .worker { q with queue := rest, worker := .signal }
  | run (b : ℕ) (hw : q.worker = .call b) :
      Trans q .worker { q with worker := .running b, executed := q.executed ++ [q.blocks b] }
  | finish (b : ℕ) (hw : q.worker = .running b) (hact : q.actionPosting = false) :
      Trans q .worker { q with worker := .free b }
  | free (b : ℕ) (hw : q.worker = .free b) :
      Trans q .worker
        { q with
          worker := .dequeue
          pool := if q.pool.length < q.capacity then q.pool ++ [b] else q.pool }
  | exit (hw : q.worker = .signal) : Trans q .worker { q with worker := .exited }
  | destroy (hd : q.destroyer = .idle) :
      Trans q .destroy { q with destroying := true, destroyer := .kill }
  | kill (hd : q.destroyer = .kill) (hroom : q.queue.length < q.capacity) :
      Trans q .destroyer { q with queue := q.queue ++ [.kill], destroyer := .wait }
  | killTrips (hd : q.destroyer = .kill) (hfull : q.capacity ≤ q.queue.length) :
      Trans q .destroyer { q with tripped := some .killEnqueue }
  | joined (hd : q.destroyer = .wait) (hw : q.worker = .exited) :
      Trans q .destroyer { q with destroyer := .teardown }
  | teardown (hd : q.destroyer = .teardown) : Trans q .destroyer { q with destroyer := .returned }

theorem call_trans {i : ℕ} {c : Call} (hc : q.calls[i]? = some c) (hs : q.callStep i c = some q') :
    Trans q (.call i) q' := by
  unfold callStep at hs
  cases hpc : c.pc with
  | load =>
    simp only [hpc, Option.some.injEq] at hs; subst hs
    split
    · exact .refuse i c hc hpc ‹_›
    · exact .pass i c hc hpc (Bool.eq_false_iff.2 ‹_›)
  | alloc =>
    simp only [hpc] at hs
    split at hs
    · rename_i b rest ht hp
      simp only [Option.some.injEq] at hs; subst hs
      exact .alloc i c b rest hc hpc ht hp
    · rename_i hnot
      simp only [Option.some.injEq] at hs; subst hs
      -- either the pool was torn down, or it has no block
      refine .allocTrips i c hc hpc ?_
      cases ht : q.torn with
      | true => exact .inl rfl
      | false =>
        cases hp : q.pool with
        | nil => exact .inr rfl
        | cons b rest => exact absurd hp (hnot b rest ht)
  | fill b =>
    simp only [hpc, Option.some.injEq] at hs; subst hs
    exact .fill i c b hc hpc
  | enqueue b =>
    simp only [hpc] at hs
    split at hs
    · rename_i hroom
      simp only [Option.some.injEq] at hs; subst hs
      simp only [Bool.and_eq_true, Bool.not_eq_true', decide_eq_true_eq] at hroom
      exact .enqueue i c b hc hpc hroom.1 hroom.2
    · rename_i hnot
      simp only [Option.some.injEq] at hs; subst hs
      -- either the queue was torn down, or it is full
      refine .enqueueTrips i c b hc hpc ?_
      cases ht : q.torn with
      | true => exact .inl rfl
      | false => exact .inr (by simpa [ht] using hnot)
  | returned r => simp [hpc] at hs

theorem worker_trans (hs : q.workerStep = some q') : Trans q .worker q' := by
  unfold workerStep at hs
  cases hw : q.worker with
  | dequeue =>
    simp only [hw] at hs
    split at hs
    · cases hs
    · simp only [Option.some.injEq] at hs; subst hs
      exact .takeKill _ hw ‹_›
    · simp only [Option.some.injEq] at hs; subst hs
      exact .take _ _ hw ‹_›
  | call b =>
    simp only [hw, Option.some.injEq] at hs; subst hs
    exact .run b hw
  | running b =>
    simp only [hw] at hs
    split at hs
    · cases hs
    · simp only [Option.some.injEq] at hs; subst hs
      exact .finish b hw (Bool.eq_false_iff.2 ‹_›)
  | free b =>
    simp only [hw, Option.some.injEq] at hs; subst hs
    exact .free b hw
  | signal =>
    simp only [hw, Option.some.injEq] at hs; subst hs
    exact .exit hw
  | exited => simp [hw] at hs

theorem destroyer_trans (hs : q.destroyerStep = some q') : Trans q .destroyer q' := by
  unfold destroyerStep at hs
  cases hd : q.destroyer with
  | idle => simp [hd] at hs
  | returned => simp [hd] at hs
  | kill =>
    simp only [hd] at hs
    split at hs
    · simp only [Option.some.injEq] at hs; subst hs
      exact .kill hd ‹_›
    · rename_i hfull
      simp only [Option.some.injEq] at hs; subst hs
      simpa only [hd] using Trans.killTrips hd (by omega)
  -- the destroyer waits until the worker is gone
  | wait =>
    simp only [hd] at hs
    split at hs
    · rename_i hw
      simp only [Option.some.injEq] at hs; subst hs
      exact .joined hd (by simpa using hw)
    · cases hs
  | teardown =>
    simp only [hd, Option.some.injEq] at hs; subst hs
    exact .teardown hd

/-- **Every step is one of these.** -/
theorem step_trans {a : Act} (hs : q.step a = some q') : Trans q a q' := by
  unfold step at hs
  split at hs
  · cases hs
  cases a with
  | post data byAction =>
    simp only at hs
    split at hs
    · cases hs
    · rename_i hact
      simp only [Option.some.injEq] at hs; subst hs
      exact .post data byAction (by rintro rfl; simpa using hact)
  | call i =>
    obtain ⟨c, hc, hs⟩ := Option.bind_eq_some_iff.1 hs
    exact call_trans hc hs
  | worker => exact worker_trans hs
  | destroy =>
    simp only at hs
    split at hs
    · rename_i hd
      simp only [Option.some.injEq] at hs; subst hs
      exact .destroy (by simpa using hd)
    · cases hs
  | destroyer => exact destroyer_trans hs

/-- Enqueued and not executed: what the worker is about to call, then the queue's actions. -/
def pending (q : Queue) : List (ℕ × PostData) :=
  (match q.worker with | .call b => [q.blocks b] | _ => []) ++
    q.queue.filterMap fun x => x.block.map q.blocks

/-- Call `i` has returned true. -/
def accepted (q : Queue) (i : ℕ) : Bool := (q.calls[i]?).any (·.pc == .returned true)

structure Inv (q : Queue) : Prop where
  once : ∀ b, q.pool.count b + q.calls.countP (fun c => c.pc.block == some b) +
    q.queue.count (.data b) + q.worker.block.toList.count b = (List.range q.capacity).count b
  total : q.pool.length + q.allocated + q.queued + q.running = q.capacity
  filled : ∀ i c b, q.calls[i]? = some c → c.pc = .enqueue b → q.blocks b = (i, c.post)
  fifo : q.enqueued = q.executed ++ q.pending
  posted : ∀ i, (q.enqueued.map Prod.fst).count i = if q.accepted i then 1 else 0
  data : ∀ x ∈ q.enqueued, ∃ c, q.calls[x.1]? = some c ∧ c.post = x.2

theorem Inv.create (capacity : ℕ) (blocks : ℕ → ℕ × PostData) : Inv (create capacity blocks) := by
  refine ⟨?_, ?_, ?_, rfl, ?_, ?_⟩
  · intro b
    simp [Queue.create, WorkerPc.block]
  · simp [Queue.create, allocated, queued, running, WorkerPc.block]
  · intro i c b h; simp [Queue.create] at h
  · intro i; simp [Queue.create, accepted]
  · intro x hx; cases hx

section Calls

variable {i : ℕ} {c : Call} {pc : CallPc}

theorem calls_setCall (q : Queue) (i : ℕ) (c : Call) (pc : CallPc) :
    (q.setCall i c pc).calls = q.calls.set i { c with pc := pc } := rfl

theorem accepted_setCall (hc : q.calls[i]? = some c) (j : ℕ) :
    (q.setCall i c pc).accepted j = if i = j then pc == .returned true else q.accepted j := by
  unfold accepted
  rw [calls_setCall, List.getElem?_set_of_some hc]
  split <;> rfl

theorem data_setCall (h : ∀ x ∈ q.enqueued, ∃ c, q.calls[x.1]? = some c ∧ c.post = x.2)
    (hc : q.calls[i]? = some c) :
    ∀ x ∈ q.enqueued, ∃ c', (q.calls.set i { c with pc := pc })[x.1]? = some c' ∧ c'.post = x.2 := by
  intro x hx
  obtain ⟨c', h1, h2⟩ := h x hx
  rw [List.getElem?_set_of_some hc]
  split
  · rename_i hi
    rw [← hi, hc, Option.some.injEq] at h1
    exact ⟨_, rfl, by rw [← h2, ← h1]⟩
  · exact ⟨c', h1, h2⟩

/-- The calls that hold block `b`, when call `i` moves. -/
theorem holding_setCall (hc : q.calls[i]? = some c) (pc : CallPc) (b : ℕ) :
    (q.setCall i c pc).calls.countP (fun c => c.pc.block == some b) + c.pc.block.toList.count b =
      q.calls.countP (fun c => c.pc.block == some b) + pc.block.toList.count b := by
  have hone : ∀ o : Option ℕ, o.toList.count b = if (o == some b) = true then 1 else 0 := by
    intro o; cases o <;> simp [List.count_singleton]
  rw [hone, hone]
  exact List.countP_set_add _ hc

/-- The calls that hold any block, when call `i` moves. -/
theorem allocated_setCall (hc : q.calls[i]? = some c) (pc : CallPc) :
    (q.setCall i c pc).allocated + c.pc.block.toList.length = q.allocated + pc.block.toList.length := by
  have hone : ∀ o : Option ℕ, o.toList.length = if o.isSome = true then 1 else 0 := by
    intro o; cases o <;> rfl
  rw [hone, hone]
  exact List.countP_set_add _ hc

end Calls

theorem Inv.once_le (h : Inv q) (b : ℕ) : q.pool.count b + q.calls.countP (fun c => c.pc.block == some b) +
    q.queue.count (.data b) + q.worker.block.toList.count b ≤ 1 := by
  rw [h.once b]
  exact List.nodup_iff_count_le_one.1 List.nodup_range b

/-- A block with a call is neither queued nor at the worker, nor with another call. -/
theorem Inv.exclusive (h : Inv q) {i : ℕ} {c : Call} {b : ℕ} (hc : q.calls[i]? = some c)
    (hb : c.pc.block = some b) :
    .data b ∉ q.queue ∧ q.worker.block ≠ some b ∧
      ∀ j c', q.calls[j]? = some c' → c'.pc.block = some b → j = i := by
  have h1 := h.once_le b
  have h2 : 1 ≤ q.calls.countP (fun c => c.pc.block == some b) := List.one_le_countP hc (by simp [hb])
  refine ⟨?_, ?_, ?_⟩
  · intro hm
    have := List.count_pos_iff.2 hm
    omega
  · intro hw
    rw [hw] at h1
    simp only [Option.toList_some, List.count_singleton_self] at h1
    omega
  · intro j c' hc' hb'
    by_contra hij
    have h3 : 2 ≤ q.calls.countP (fun c => c.pc.block == some b) :=
      List.two_le_countP hij hc' hc (by simp [hb']) (by simp [hb])
    omega

/-- Filling a block that is not queued and not at the worker changes nothing pending. -/
theorem pending_update {b : ℕ} {x : ℕ × PostData} (hq : .data b ∉ q.queue) (hw : q.worker.block ≠ some b) :
    pending { q with blocks := Function.update q.blocks b x } = q.pending := by
  unfold pending
  congr 1
  · cases hwk : q.worker with
    | call b' =>
      have : b' ≠ b := by rintro rfl; exact hw (by rw [hwk]; rfl)
      simp [this]
    | _ => rfl
  · apply List.filterMap_congr
    intro x hx
    cases x with
    | kill => rfl
    | data b' =>
      have : b' ≠ b := by rintro rfl; exact hq hx
      simp [this]

section Steps

variable {i b : ℕ} {c : Call} {pc : CallPc}

/-- Call `i` moves to `pc`, which is not its return with true. -/
theorem posted_setCall (h : Inv q) (hc : q.calls[i]? = some c) (hr : c.pc ≠ .returned true)
    (hr' : pc ≠ .returned true) (j : ℕ) :
    (q.enqueued.map Prod.fst).count j = if (q.setCall i c pc).accepted j then 1 else 0 := by
  rw [accepted_setCall hc, h.posted]
  by_cases hij : i = j
  · subst hij
    have h1 : q.accepted i = false := by simp [accepted, hc, hr]
    simp [h1, hr']
  · simp [hij]

/-- Call `i` moves to a place that is not before an enqueue. -/
theorem filled_setCall (h : Inv q) (hc : q.calls[i]? = some c) (hpc : ∀ b, pc ≠ .enqueue b) (j : ℕ)
    (c' : Call) (b : ℕ) (hj : (q.setCall i c pc).calls[j]? = some c') (hpc' : c'.pc = .enqueue b) :
    q.blocks b = (j, c'.post) := by
  rw [calls_setCall, List.getElem?_set_of_some hc] at hj
  split at hj
  · simp only [Option.some.injEq] at hj; subst hj
    exact absurd hpc' (hpc b)
  · exact h.filled j c' b hj hpc'

/-- A call that moves without gaining or losing a block, and not to its return with true. -/
theorem Inv.move (h : Inv q) (hc : q.calls[i]? = some c)
    (hb : c.pc.block = none) (hb' : pc.block = none) (hr : c.pc ≠ .returned true)
    (hr' : pc ≠ .returned true) : Inv (q.setCall i c pc) := by
  refine ⟨?_, ?_, ?_, h.fifo, posted_setCall h hc hr hr', data_setCall h.data hc⟩
  · intro b
    have h1 := h.once b
    have h2 := holding_setCall hc pc b
    rw [hb, hb'] at h2
    simp only [setCall] at *
    omega
  · have h1 := h.total
    have h2 := allocated_setCall hc pc
    rw [hb, hb'] at h2
    simp only [queued, running, setCall] at *
    omega
  · exact filled_setCall h hc (by rintro b rfl; cases hb')

/-- **The allocation** takes a block out of the pool. -/
theorem Inv.alloc (h : Inv q) {rest : List ℕ} (hc : q.calls[i]? = some c) (hpc : c.pc = .alloc)
    (hp : q.pool = b :: rest) : Inv { q.setCall i c (.fill b) with pool := rest } := by
  refine ⟨?_, ?_, ?_, h.fifo, ?_, data_setCall h.data hc⟩
  · intro b'
    have h1 := h.once b'
    have h2 := holding_setCall hc (.fill b) b'
    rw [hp, List.count_head_add] at h1
    simp only [hpc, CallPc.block_alloc, CallPc.block_fill, Option.toList_none, Option.toList_some,
      List.count_nil] at h2
    simp only [setCall] at *
    omega
  · have h1 := h.total
    have h2 := allocated_setCall hc (.fill b)
    simp only [hpc, CallPc.block_alloc, CallPc.block_fill, Option.toList_none, Option.toList_some,
      List.length_nil, List.length_singleton] at h2
    simp only [allocated, queued, running, setCall, hp, List.length_cons] at *
    omega
  · exact filled_setCall h hc (by rintro b ⟨⟩)
  · exact posted_setCall h hc (by rw [hpc]; rintro ⟨⟩) (by rintro ⟨⟩)

/-- **Filling the block** is not seen by anyone else. -/
theorem Inv.fill (h : Inv q) (hc : q.calls[i]? = some c) (hpc : c.pc = .fill b) :
    Inv { q.setCall i c (.enqueue b) with blocks := Function.update q.blocks b (i, c.post) } := by
  obtain ⟨hq, hw, hother⟩ := h.exclusive hc (by rw [hpc]; rfl)
  refine ⟨?_, ?_, ?_, ?_, ?_, data_setCall h.data hc⟩
  · intro b'
    have h1 := h.once b'
    have h2 := holding_setCall hc (.enqueue b) b'
    simp only [hpc, CallPc.block_fill, CallPc.block_enqueue] at h2
    simp only [setCall] at *
    omega
  · have h1 := h.total
    have h2 := allocated_setCall hc (.enqueue b)
    simp only [hpc, CallPc.block_fill, CallPc.block_enqueue] at h2
    simp only [allocated, queued, running, setCall] at *
    omega
  · intro j c' b' hj hpc'
    have hj' : (q.calls.set i { c with pc := .enqueue b })[j]? = some c' := hj
    rw [List.getElem?_set_of_some hc] at hj'
    split at hj'
    · rename_i hij
      simp only [Option.some.injEq] at hj'; subst hj'
      simp only [CallPc.enqueue.injEq] at hpc'
      subst hpc' hij
      simp
    · rename_i hij
      -- another call before its enqueue holds another block
      have hne : b' ≠ b := by
        intro hbb
        exact hij (hother j c' hj' (by rw [hpc', hbb]; rfl)).symm
      simp only [Function.update_of_ne hne]
      exact h.filled j c' b' hj' hpc'
  · exact h.fifo.trans (by rw [← pending_update hq hw]; rfl)
  · exact posted_setCall h hc (by rw [hpc]; rintro ⟨⟩) (by rintro ⟨⟩)

/-- **The enqueue** appends the action the call was given. -/
theorem Inv.enqueue (h : Inv q) (hc : q.calls[i]? = some c) (hpc : c.pc = .enqueue b) :
    Inv { q.setCall i c (.returned true) with
      queue := q.queue ++ [.data b]
      enqueued := q.enqueued ++ [q.blocks b] } := by
  have hb := h.filled i c b hc hpc
  refine ⟨?_, ?_, filled_setCall h hc (by rintro b ⟨⟩), ?_, ?_, ?_⟩
  · intro b'
    have h1 := h.once b'
    have h2 := holding_setCall hc (.returned true) b'
    have h3 : [Item.data b].count (.data b') = [b].count b' := by
      by_cases hbb : b = b' <;> simp [hbb]
    simp only [hpc, CallPc.block_enqueue, CallPc.block_returned, Option.toList_none, Option.toList_some,
      List.count_nil] at h2
    simp only [setCall, List.count_append, h3] at *
    omega
  · have h1 := h.total
    have h2 := allocated_setCall hc (.returned true)
    simp only [hpc, CallPc.block_enqueue, CallPc.block_returned, Option.toList_none, Option.toList_some,
      List.length_nil, List.length_singleton] at h2
    simp only [allocated, queued, running, setCall, List.countP_append, List.countP_singleton,
      Item.block_data, Option.isSome_some, if_true] at *
    omega
  · simp [pending, h.fifo, setCall]
  · intro j
    show ((q.enqueued ++ [q.blocks b]).map Prod.fst).count j =
      if (q.setCall i c (.returned true)).accepted j then 1 else 0
    rw [accepted_setCall hc, List.map_append, List.count_append, h.posted, hb]
    by_cases hij : i = j
    · subst hij; simp [accepted, hc, hpc]
    · simp [hij]
  · intro x hx
    rcases List.mem_append.1 hx with hx | hx
    · exact data_setCall h.data hc x hx
    · rw [List.mem_singleton.1 hx, hb]
      refine ⟨{ c with pc := .returned true }, ?_, rfl⟩
      show (q.calls.set i _)[i]? = _
      rw [List.getElem?_set_of_some hc, if_pos rfl]

/-- A new call holds nothing yet. -/
theorem Inv.post (h : Inv q) (data : PostData) (byAction : Bool) :
    Inv { q with calls := q.calls ++ [⟨data, byAction, .load⟩] } := by
  have hlt : ∀ x ∈ q.enqueued, x.1 < q.calls.length := by
    intro x hx
    obtain ⟨c, hc, -⟩ := h.data x hx
    exact (List.getElem?_eq_some_iff.1 hc).1
  refine ⟨?_, ?_, ?_, h.fifo, ?_, ?_⟩
  · intro b
    have h1 := h.once b
    simpa [List.countP_append] using h1
  · have h1 := h.total
    simpa [allocated, queued, running, List.countP_append] using h1
  · intro j c' b hj hpc
    rcases List.get_append_singleton hj with ⟨-, rfl⟩ | hj
    · cases hpc
    · exact h.filled j c' b hj hpc
  · intro j
    show (q.enqueued.map Prod.fst).count j = _
    rw [h.posted]
    unfold accepted
    rcases Nat.lt_or_ge j q.calls.length with hjl | hjl
    · rw [List.getElem?_append_left hjl]
    · rw [List.getElem?_append_right hjl, List.getElem?_eq_none hjl]
      cases hk : j - q.calls.length with
      | zero => simp
      | succ k => simp
  · intro x hx
    obtain ⟨c, hc, hp⟩ := h.data x hx
    exact ⟨c, by rw [List.getElem?_append_left (hlt x hx)]; exact hc, hp⟩

/-- The destroyer and the assertions are no part of the invariant. -/
theorem Inv.keep (h : Inv q) (destroying : Bool) (destroyer : DestroyPc) (tripped : Option Site) :
    Inv { q with destroying := destroying, destroyer := destroyer, tripped := tripped } :=
  ⟨h.once, h.total, h.filled, h.fifo, h.posted, h.data⟩

/-- The worker moves with the block it has, or with none. -/
theorem Inv.work (h : Inv q) {worker : WorkerPc} {executed : List (ℕ × PostData)}
    (hb : worker.block = q.worker.block)
    (hp : executed ++ pending { q with worker := worker } = q.executed ++ q.pending) :
    Inv { q with worker := worker, executed := executed } := by
  refine ⟨?_, ?_, h.filled, h.fifo.trans hp.symm, h.posted, h.data⟩
  · intro b
    show _ + worker.block.toList.count b = _
    rw [hb]
    exact h.once b
  · show _ + worker.block.toList.length = _
    rw [hb]
    exact h.total

/-- **The dequeue** hands the oldest action to the worker. -/
theorem Inv.take (h : Inv q) {rest : List Item} (hw : q.worker = .dequeue)
    (hq : q.queue = .data b :: rest) : Inv { q with queue := rest, worker := .call b } := by
  refine ⟨?_, ?_, h.filled, ?_, h.posted, h.data⟩
  · intro b'
    have h1 := h.once b'
    have h3 : (Item.data b :: rest).count (.data b') = [b].count b' + rest.count (.data b') := by
      rw [List.count_head_add]
      by_cases hbb : b = b' <;> simp [hbb]
    rw [hw, hq, h3] at h1
    simp only [WorkerPc.block_dequeue, WorkerPc.block_call, Option.toList_none, Option.toList_some,
      List.count_nil] at *
    omega
  · have h1 := h.total
    simp only [allocated, queued, running, hw, hq, List.countP_cons, Item.block_data,
      Option.isSome_some, if_true, WorkerPc.block_dequeue, WorkerPc.block_call, Option.toList_none,
      Option.toList_some, List.length_nil, List.length_singleton] at *
    omega
  · simpa [pending, hw, hq] using h.fifo

/-- The kill request at the head of the queue holds no block. -/
theorem Inv.takeKill (h : Inv q) {rest : List Item} (hw : q.worker = .dequeue)
    (hq : q.queue = .kill :: rest) : Inv { q with queue := rest, worker := .signal } := by
  refine ⟨?_, ?_, h.filled, ?_, h.posted, h.data⟩
  · intro b
    simpa [hw, hq] using h.once b
  · simpa [allocated, queued, running, hw, hq] using h.total
  · simpa [pending, hw, hq, List.filterMap_cons] using h.fifo

/-- Nor does it behind the actions. -/
theorem Inv.kill (h : Inv q) : Inv { q with queue := q.queue ++ [.kill], destroyer := .wait } := by
  refine ⟨?_, ?_, h.filled, ?_, h.posted, h.data⟩
  · intro b
    simpa [List.count_append] using h.once b
  · simpa [allocated, queued, running, List.countP_append] using h.total
  · simpa [pending, List.filterMap_cons] using h.fifo

/-- **The free** gives the worker's block back; it was missing in the pool, so there is room. -/
theorem Inv.free (h : Inv q) (hw : q.worker = .free b) :
    Inv { q with
      worker := .dequeue
      pool := if q.pool.length < q.capacity then q.pool ++ [b] else q.pool } := by
  have htotal := h.total
  have hroom : q.pool.length < q.capacity := by
    simp only [running, hw, WorkerPc.block_free, Option.toList_some, List.length_singleton] at htotal
    omega
  rw [if_pos hroom]
  refine ⟨?_, ?_, h.filled, ?_, h.posted, h.data⟩
  · intro b'
    have h1 := h.once b'
    simp only [hw, WorkerPc.block_free, WorkerPc.block_dequeue, Option.toList_none, Option.toList_some,
      List.count_nil, List.count_append] at *
    omega
  · simp only [allocated, queued, running, hw, WorkerPc.block_free, WorkerPc.block_dequeue,
      Option.toList_none, Option.toList_some, List.length_nil, List.length_singleton,
      List.length_append] at *
    omega
  · simpa [pending, hw] using h.fifo

end Steps

/-- **Every step** keeps the invariant. -/
theorem step_inv {a : Act} (h : Inv q) (hs : q.step a = some q') : Inv q' := by
  cases step_trans hs with
  | post data byAction => exact h.post data byAction
  | refuse i c hc hpc | pass i c hc hpc =>
    exact h.move hc (by rw [hpc]; rfl) rfl (by rw [hpc]; rintro ⟨⟩) (by rintro ⟨⟩)
  | alloc i c b rest hc hpc _ hp => exact h.alloc hc hpc hp
  | fill i c b hc hpc => exact h.fill hc hpc
  | enqueue i c b hc hpc => exact h.enqueue hc hpc
  | take b rest hw hq => exact h.take hw hq
  | takeKill rest hw hq => exact h.takeKill hw hq
  | run b hw => exact h.work (by rw [hw]; rfl) (by simp [pending, hw])
  | finish b hw => exact h.work (by rw [hw]; rfl) (by simp [pending, hw])
  | free b hw => exact h.free hw
  | exit hw => exact h.work (by rw [hw]; rfl) (by simp [pending, hw])
  | kill hd => exact h.kill
  | allocTrips | enqueueTrips | destroy | killTrips | joined | teardown => exact h.keep _ _ _

theorem reach_inv {capacity : ℕ} {ok : Queue → Act → Prop} (h : Sys.Reach (system capacity) ok q) :
    Inv q := by
  refine h.inv ?_ ?_
  · rintro q ⟨blocks, rfl⟩
    exact Inv.create capacity blocks
  · intro q a q' hq _ hs
    exact step_inv hq hs

/-- A call before its enqueue holds a block, so not all blocks are queued. -/
theorem Inv.room (h : Inv q) {i b : ℕ} {c : Call} (hc : q.calls[i]? = some c) (hpc : c.pc = .enqueue b) :
    q.queued < q.capacity := by
  have h1 := h.total
  have h2 : 1 ≤ q.allocated := List.one_le_countP hc (by rw [hpc]; rfl)
  omega

/-- Without a kill request, the queue holds blocks only. -/
theorem length_queue (hk : .kill ∉ q.queue) : q.queue.length = q.queued := by
  symm
  apply List.countP_eq_length.2
  intro x hx
  cases x with
  | data b => rfl
  | kill => exact absurd hx hk

/-- No destroy so far, and the enqueue's assertion has not tripped. -/
structure Open (capacity : ℕ) (q : Queue) : Prop where
  capacity : q.capacity = capacity
  destroyer : q.destroyer = .idle
  queue : .kill ∉ q.queue
  tripped : q.tripped ≠ some .postEnqueue

theorem step_open {capacity : ℕ} {a : Act} (h : Inv q) (ho : Open capacity q) (ha : a ≠ .destroy)
    (hs : q.step a = some q') : Open capacity q' := by
  obtain ⟨hcap, hidle, hkill, htrip⟩ := ho
  cases step_trans hs with
  | post | refuse | pass | alloc | fill | run | finish | free | exit => exact ⟨hcap, hidle, hkill, htrip⟩
  | allocTrips => exact ⟨hcap, hidle, hkill, by rintro ⟨⟩⟩
  | enqueue i c b hc hpc =>
    refine ⟨hcap, hidle, ?_, htrip⟩
    intro hm
    rcases List.mem_append.1 hm with hm | hm
    · exact hkill hm
    · cases List.mem_singleton.1 hm
  | enqueueTrips i c b hc hpc hfull =>
    -- the queue has room, so the assertion holds
    have hroom := h.room hc hpc
    rw [torn, hidle, length_queue hkill] at hfull
    obtain ⟨⟨⟩⟩ | hfull := hfull
    omega
  | take b rest hw hq =>
    exact ⟨hcap, hidle, fun hm => hkill (by rw [hq]; exact List.mem_cons_of_mem _ hm), htrip⟩
  | takeKill rest hw hq => exact absurd (by rw [hq]; exact List.mem_cons_self) hkill
  | destroy => exact absurd rfl ha
  | kill hd | killTrips hd | joined hd | teardown hd => rw [hidle] at hd; cases hd

theorem reach_open {capacity : ℕ} (h : Sys.Reach (system capacity) (fun _ a => a ≠ .destroy) q) :
    Open capacity q := by
  have hboth : Inv q ∧ Open capacity q := by
    refine Sys.Reach.inv (I := fun q => Inv q ∧ Open capacity q) ?_ ?_ h
    · rintro q ⟨blocks, rfl⟩
      exact ⟨Inv.create capacity blocks, rfl, rfl, List.not_mem_nil, by rintro ⟨⟩⟩
    · intro q a q' hq ha hs
      exact ⟨step_inv hq.1 hs, step_open hq.1 hq.2 ha hs⟩
  exact hboth.2

/-- Without a destroy no call is refused. -/
theorem reach_destroying {capacity : ℕ} (h : Sys.Reach (system capacity) (fun _ a => a ≠ .destroy) q) :
    q.destroying = false := by
  refine Sys.Reach.inv (I := fun q => q.destroying = false) ?_ ?_ h
  · rintro q ⟨blocks, rfl⟩
    rfl
  · intro q a q' hq ha hs
    cases step_trans hs with
    | destroy => exact absurd rfl ha
    | _ => exact hq

theorem create_reach {ok : Queue → Act → Prop} (capacity : ℕ) (blocks : ℕ → ℕ × PostData) :
    Sys.Reach (system capacity) ok (create capacity blocks) := .init ⟨blocks, rfl⟩

theorem Inv.accepted_of_mem (h : Inv q) {x : ℕ × PostData} (hx : x ∈ q.enqueued) :
    q.accepted x.1 = true := by
  have h1 := h.posted x.1
  have h2 := List.count_pos_iff.2 (List.mem_map_of_mem (f := Prod.fst) hx)
  split at h1
  · assumption
  · omega

end Queue

open Queue

/-- **The dispatch queue in normal operation.** For every capacity, at every state reached
by any interleaving of posts (the running action's included) and worker steps: the
executed actions are a prefix of the enqueued ones, in enqueue order; no call enqueues
twice, and each enqueued action is the `fn`, `arg1` and `arg2` its call was given; the
blocks in use are those allocated and not enqueued, queued, or at the worker; and the
assertion on the enqueue has not failed. -/
theorem dispatch_runs_in_order {capacity : ℕ} {q : Queue}
    (h : Sys.Reach (system capacity) (fun _ a => a ≠ .destroy) q) :
    q.executed <+: q.enqueued ∧ (q.enqueued.map Prod.fst).Nodup ∧
      (∀ x ∈ q.enqueued, ∃ c, q.calls[x.1]? = some c ∧ c.post = x.2 ∧ c.pc = .returned true) ∧
      q.pool.length ≤ capacity ∧ capacity - q.pool.length = q.allocated + q.queued + q.running ∧
      q.tripped ≠ some .postEnqueue := by
  have hi := reach_inv h
  have ho := reach_open h
  have htotal := hi.total
  rw [ho.capacity] at htotal
  refine ⟨⟨_, hi.fifo.symm⟩, ?_, ?_, by omega, by omega, ho.tripped⟩
  · rw [List.nodup_iff_count_le_one]
    intro i
    rw [hi.posted]
    split <;> omega
  · intro x hx
    obtain ⟨c, hc, hp⟩ := hi.data x hx
    have hacc := hi.accepted_of_mem hx
    simp only [accepted, hc, Option.any_some, beq_iff_eq] at hacc
    exact ⟨c, hc, hp, hacc⟩

/-- Three posts to a queue of capacity 2. The second one has its block first, and is enqueued last of the two; the third
one has the block of the one that was run. -/
theorem dispatch_runs_in_order_three :
    ∃ q : Queue, Sys.Reach (system 2) (fun _ a => a ≠ .destroy) q ∧ q.executed = [(0, ⟨7, 8, 9⟩), (1, ⟨1, 2, 3⟩)] ∧
      q.blocks 1 = (2, ⟨4, 5, 6⟩) ∧ q.executed <+: q.enqueued := by
  have htrace : (Sys.exec (system 2) (fun _ a => a ≠ .destroy) (create 2 fun _ => (0, ⟨0, 0, 0⟩))
      [.post ⟨7, 8, 9⟩ false, .post ⟨1, 2, 3⟩ false, .call 1, .call 0, .call 1, .call 0, .call 0, .call 1, .call 0,
        .worker, .worker, .call 1, .worker, .worker, .post ⟨4, 5, 6⟩ false, .call 2, .call 2, .call 2, .worker, .worker,
        .call 2]).map
      (fun q => q.executed == [(0, ⟨7, 8, 9⟩), (1, ⟨1, 2, 3⟩)] && q.blocks 1 == (2, ⟨4, 5, 6⟩)) = some true := by
    decide
  obtain ⟨q, hq, hp⟩ := (create_reach 2 _).of_trace htrace
  simp only [Bool.and_eq_true, beq_iff_eq] at hp
  exact ⟨q, hq, hp.1, hp.2, (dispatch_runs_in_order hq).1⟩

end Cutils.Dispatch
