import Cutils.Proof.DispatchDepth
import Cutils.Spec.AsyncioSend

/-!
# Whole posts to a worker

The queue of a worker, as whole calls use it, against the steps of `Spec/DispatchQueue.lean`: a post is the steps of its
call in a row, and taking an action and ending it are two steps of the worker each.

* `dispatchAsyncF_pending`, `pending_take`, `pending_finish`: what they do to the requests that are pending.
* `dispatchAsyncF_steps`, `take_steps`, `finish_steps`: they are steps in a row.
* `Reached.stands`: so every worker that whole calls lead to stands for a queue that a run leads to.
-/

namespace Cutils.Asyncio.Send

open Blocks

namespace Worker

variable {w w' : Worker} {j : Job} {block b : ℕ} {r : Bool}

theorem pending_enqueue {rest : List ℕ} (h : w.pool = block :: rest) (j : Job) :
    (w.enqueue block rest h j).pending = w.pending ++ j.request.toList := by
  unfold pending enqueue
  dsimp only
  rw [← List.append_assoc, List.filterMap_append]
  cases j <;> rfl

theorem dispatchAsyncF_cons {rest : List ℕ} (hdestroying : w.destroying = false) (hpool : w.pool = block :: rest) (j : Job) :
    w.dispatchAsyncF j = some (w.enqueue block rest hpool j, true) := by
  unfold dispatchAsyncF
  rw [hdestroying, if_neg Bool.false_ne_true]
  split
  · rename_i block' rest' hpool'
    obtain ⟨rfl, rfl⟩ := List.cons.inj (hpool.symm.trans hpool')
    rfl
  · rename_i hpool'
    cases hpool.symm.trans hpool'

theorem dispatchAsyncF_nil (hdestroying : w.destroying = false) (hpool : w.pool = []) (j : Job) :
    w.dispatchAsyncF j = none := by
  unfold dispatchAsyncF
  rw [hdestroying, if_neg Bool.false_ne_true]
  split
  · rename_i block rest hpool'
    cases hpool.symm.trans hpool'
  · rfl

/-- **A whole post**: refused, or the last in the queue. -/
theorem dispatchAsyncF_pending (h : w.dispatchAsyncF j = some (w', r)) :
    (r = false ∧ w.destroying = true ∧ w' = w) ∨
      (r = true ∧ w.destroying = false ∧ w'.pending = w.pending ++ j.request.toList) := by
  unfold dispatchAsyncF at h
  split at h
  · rename_i hdestroying
    cases h
    exact .inl ⟨rfl, hdestroying, rfl⟩
  · rename_i hdestroying
    split at h
    · rename_i block rest hpool
      cases h
      exact .inr ⟨rfl, by simpa using hdestroying, pending_enqueue hpool j⟩
    · cases h

theorem pending_take (w : Worker) : w.take.pending = w.pending := by
  unfold take
  split
  · rename_i x rest hr hq
    simp only [pending, hr, hq, Option.toList_some, Option.toList_none, List.nil_append, List.singleton_append]
  · rfl

theorem pending_finish {j : Job} (h : w.running = some (block, j)) : w.pending = j.request.toList ++ w.finish.pending := by
  unfold finish
  split
  · rename_i x hr
    obtain rfl := Option.some.inj (hr.symm.trans h)
    simp only [pending, hr, Option.toList_some, Option.toList_none, List.nil_append, List.singleton_append, List.filterMap_cons]
    cases j <;> rfl
  · rename_i hr
    rw [hr] at h
    cases h

/-- Nothing is taken while an action runs, or from an empty queue. -/
theorem take_of_running {x : ℕ × Job} (h : w.running = some x) : w.take = w := by
  unfold take
  split
  · rename_i hr _
    cases hr.symm.trans h
  · rfl

theorem take_of_empty (h : w.queue = []) : w.take = w := by
  unfold take
  split
  · rename_i hq
    cases hq.symm.trans h
  · rfl

theorem finish_of_idle (h : w.running = none) : w.finish = w := by
  unfold finish
  split
  · rename_i hr
    cases hr.symm.trans h
  · rfl

section Dispatch

open Dispatch

variable {q : Queue}

/-- The queue of `Spec/DispatchQueue.lean`, between whole posts. A destroy puts its kill request there. -/
structure Stands (w : Worker) (q : Queue) : Prop where
  capacity : q.capacity = w.capacity
  destroying : q.destroying = w.destroying
  pool : q.pool = w.pool
  torn : q.torn = false
  tripped : q.tripped = none
  queue : w.destroying = false → q.queue = w.queue.map fun x => .data x.1
  worker : q.worker = w.running.elim .dequeue fun x => .running x.1
  noPost : q.noPost = true

theorem go_on (h : q.tripped = none) : ¬ q.tripped.isSome := by
  rw [h]
  exact Bool.false_ne_true

/-- One more call, at `pc`. -/
def posting (q : Queue) (data : PostData) (pc : CallPc) : Queue := { q with calls := q.calls ++ [⟨data, false, pc⟩] }

/-- The last call's step. -/
theorem step_last (htripped : q.tripped = none) (data : PostData) (pc : CallPc) :
    (posting q data pc).step (.call q.calls.length) = (posting q data pc).callStep q.calls.length ⟨data, false, pc⟩ := by
  have hgo : ¬ (posting q data pc).tripped.isSome := go_on htripped
  have hc : (posting q data pc).calls[q.calls.length]? = some ⟨data, false, pc⟩ := List.getElem?_concat_length ..
  unfold Queue.step
  rw [if_neg hgo]
  dsimp only
  rw [hc, Option.bind_some]

/-- The rest of the queue, and the call, take the step. -/
theorem step_posting {data : PostData} {pc pc' : CallPc} {q' : Queue} (htripped : q.tripped = none) (hcalls : q'.calls = q.calls)
    (hstep : (posting q data pc).callStep q.calls.length ⟨data, false, pc⟩ =
      some { q' with calls := (posting q data pc).calls.set q.calls.length ⟨data, false, pc'⟩ }) :
    (posting q data pc).step (.call q.calls.length) = some (posting q' data pc') := by
  have hset : (posting q data pc).calls.set q.calls.length ⟨data, false, pc'⟩ = q.calls ++ [⟨data, false, pc'⟩] := by
    show (q.calls ++ [_]).set q.calls.length _ = _
    rw [List.set_append_right _ _ (Nat.le_refl _), Nat.sub_self, List.set_cons_zero]
  rw [step_last htripped, hstep, hset, ← hcalls]
  rfl

theorem step_post (htripped : q.tripped = none) (data : PostData) : q.step (.post data false) = some (posting q data .load) := by
  unfold Queue.step
  rw [if_neg (go_on htripped)]
  rfl

theorem step_load (htripped : q.tripped = none) (data : PostData) :
    (posting q data .load).step (.call q.calls.length) =
      some (posting q data (if q.destroying then .returned false else .alloc)) :=
  step_posting htripped rfl rfl

theorem step_alloc {rest : List ℕ} (htripped : q.tripped = none) (htorn : q.torn = false) (hpool : q.pool = block :: rest)
    (data : PostData) :
    (posting q data .alloc).step (.call q.calls.length) = some (posting { q with pool := rest } data (.fill block)) := by
  refine step_posting htripped rfl ?_
  have htorn' : (posting q data .alloc).torn = false := htorn
  have hpool' : (posting q data .alloc).pool = block :: rest := hpool
  simp only [Queue.callStep, htorn', hpool']
  rfl

theorem step_alloc_trips (htripped : q.tripped = none) (htorn : q.torn = false) (hpool : q.pool = [])
    (data : PostData) :
    (posting q data .alloc).step (.call q.calls.length) = some { posting q data .alloc with tripped := some .postAlloc } := by
  have htorn' : (posting q data .alloc).torn = false := htorn
  have hpool' : (posting q data .alloc).pool = [] := hpool
  rw [step_last htripped]
  simp only [Queue.callStep, htorn', hpool']

theorem step_fill (htripped : q.tripped = none) (block : ℕ) (data : PostData) :
    (posting q data (.fill block)).step (.call q.calls.length) =
      some (posting { q with blocks := Function.update q.blocks block (q.calls.length, data) } data (.enqueue block)) :=
  step_posting htripped rfl rfl

theorem step_enqueue (htripped : q.tripped = none) (htorn : q.torn = false) (hroom : q.queue.length < q.capacity)
    (block : ℕ) (data : PostData) :
    (posting q data (.enqueue block)).step (.call q.calls.length) =
      some (posting { q with queue := q.queue ++ [.data block], enqueued := q.enqueued ++ [q.blocks block] } data
        (.returned true)) := by
  refine step_posting htripped rfl ?_
  have hgo : (!(posting q data (.enqueue block)).torn &&
      decide ((posting q data (.enqueue block)).queue.length < (posting q data (.enqueue block)).capacity)) = true := by
    change (!q.torn && decide (q.queue.length < q.capacity)) = true
    rw [htorn, decide_eq_true hroom]
    rfl
  simp only [Queue.callStep, hgo, if_true]
  rfl

theorem noPost_returned (h : q.noPost = true) (data : PostData) (r : Bool) : (posting q data (.returned r)).noPost = true := by
  show (q.calls ++ [_]).all _ = true
  rw [List.all_append]
  exact Bool.and_eq_true_iff.2 ⟨h, rfl⟩

/-- A post, and the first `k` steps of its call. -/
def postActs (q : Queue) (data : PostData) (k : ℕ) : List Dispatch.Act :=
  .post data false :: List.replicate k (.call q.calls.length)

/-- **A whole post is its steps in a row**: it returns, or trips at its allocation. -/
theorem dispatchAsyncF_steps (h : Stands w q) (j : Job) (data : PostData) (n : ℕ) :
    ∃ k q', Sys.exec (Queue.system n) Sys.Always q (postActs q data k) = some q' ∧
      ((∃ w' r, w.dispatchAsyncF j = some (w', r) ∧ Stands w' q' ∧ q'.calls = q.calls ++ [⟨data, false, .returned r⟩]) ∨
        (w.dispatchAsyncF j = none ∧ q'.tripped = some .postAlloc)) := by
  have hpost := step_post h.tripped data
  have hload := step_load h.tripped data
  rw [h.destroying] at hload
  cases hdestroying : w.destroying with
  | true =>
    rw [hdestroying, if_pos rfl] at hload
    refine ⟨1, _, (Sys.exec_cons trivial hpost).trans (Sys.exec_cons trivial hload), .inl ⟨w, false, ?_, ?_, rfl⟩⟩
    · rw [dispatchAsyncF, if_pos hdestroying]
    · exact ⟨h.capacity, h.destroying, h.pool, h.torn, h.tripped, h.queue, h.worker, noPost_returned h.noPost data false⟩
  | false =>
    rw [hdestroying, if_neg Bool.false_ne_true] at hload
    cases hpool : w.pool with
    | nil =>
      have htrips := step_alloc_trips h.tripped h.torn (h.pool.trans hpool) data
      have hexec : Sys.exec (Queue.system n) Sys.Always q (postActs q data 2) = some _ :=
        (Sys.exec_cons trivial hpost).trans ((Sys.exec_cons trivial hload).trans (Sys.exec_cons trivial htrips))
      exact ⟨2, _, hexec, .inr ⟨dispatchAsyncF_nil hdestroying hpool j, rfl⟩⟩
    | cons block rest =>
      -- the pool and the queue have the same capacity, and the queue's actions have blocks
      have hroom : q.queue.length < q.capacity := by
        have := w.room
        rw [hpool, List.length_cons] at this
        rw [h.queue hdestroying, List.length_map, h.capacity]
        omega
      have halloc := step_alloc h.tripped h.torn (h.pool.trans hpool) data
      have hfill := step_fill (q := { q with pool := rest }) h.tripped block data
      have henqueue := step_enqueue (q := { q with
        pool := rest
        blocks := Function.update q.blocks block (q.calls.length, data) }) h.tripped h.torn hroom block data
      have hexec : Sys.exec (Queue.system n) Sys.Always q (postActs q data 4) = some _ :=
        (Sys.exec_cons trivial hpost).trans ((Sys.exec_cons trivial hload).trans ((Sys.exec_cons trivial halloc).trans
          ((Sys.exec_cons trivial hfill).trans (Sys.exec_cons trivial henqueue))))
      refine ⟨4, _, hexec, .inl ⟨w.enqueue block rest hpool j, true, dispatchAsyncF_cons hdestroying hpool j, ?_, rfl⟩⟩
      refine ⟨h.capacity, h.destroying, rfl, h.torn, h.tripped, fun _ => ?_, h.worker, noPost_returned h.noPost data true⟩
      show q.queue ++ [.data block] = (w.queue ++ [(block, j)]).map fun x => .data x.1
      rw [h.queue hdestroying, List.map_append]
      rfl

/-- A queue that was just created. -/
theorem create_stands (capacity : ℕ) (blocks : ℕ → ℕ × PostData) : Stands (create capacity) (Queue.create capacity blocks) :=
  ⟨rfl, rfl, rfl, rfl, rfl, fun _ => rfl, rfl, rfl⟩

theorem step_worker (htripped : q.tripped = none) : q.step .worker = q.workerStep := by
  unfold Queue.step
  rw [if_neg (go_on htripped)]

/-- **Taking an action** is two steps of the worker. -/
theorem take_steps (h : Stands w q) (hdestroying : w.destroying = false) {x : ℕ × Job} {rest : List (ℕ × Job)}
    (hrunning : w.running = none) (hqueue : w.queue = x :: rest) (n : ℕ) :
    ∃ q', Sys.exec (Queue.system n) Sys.Always q [.worker, .worker] = some q' ∧ Stands w.take q' := by
  have hworker : q.worker = .dequeue := by rw [h.worker, hrunning]; rfl
  have hq : q.queue = .data x.1 :: rest.map fun x => .data x.1 := by
    rw [h.queue hdestroying, hqueue, List.map_cons]
  have hdequeue : q.step .worker = some { q with queue := rest.map fun x => .data x.1, worker := .call x.1 } := by
    rw [step_worker h.tripped]
    simp only [Queue.workerStep, hworker, hq]
  have hcall : Queue.step { q with queue := rest.map fun x => .data x.1, worker := .call x.1 } .worker = some { q with
      queue := rest.map fun x => .data x.1
      worker := .running x.1
      executed := q.executed ++ [q.blocks x.1] } :=
    step_worker (q := { q with queue := rest.map fun x => .data x.1, worker := .call x.1 }) h.tripped
  refine ⟨_, (Sys.exec_cons trivial hdequeue).trans (Sys.exec_cons trivial hcall), ?_⟩
  unfold take
  split
  · rename_i y rest' _ hqueue'
    obtain ⟨rfl, rfl⟩ := List.cons.inj (hqueue.symm.trans hqueue')
    exact ⟨h.capacity, h.destroying, h.pool, h.torn, h.tripped, fun _ => rfl, rfl, h.noPost⟩
  · rename_i hnot
    exact (hnot x rest hrunning hqueue).elim

/-- **Ending an action** is two steps of the worker. -/
theorem finish_steps (h : Stands w q) {x : ℕ × Job} (hrunning : w.running = some x) (n : ℕ) :
    ∃ q', Sys.exec (Queue.system n) Sys.Always q [.worker, .worker] = some q' ∧ Stands w.finish q' := by
  have hworker : q.worker = .running x.1 := by rw [h.worker, hrunning]; rfl
  have hposting : q.actionPosting = false := by
    unfold Queue.actionPosting
    rw [List.any_eq_false]
    intro c hc
    rw [Queue.inProgress_of_noPost h.noPost hc, Bool.and_false]
    exact Bool.false_ne_true
  have hroom : q.pool.length < q.capacity := by
    have := w.room
    rw [hrunning, Option.toList_some, List.length_singleton] at this
    rw [h.pool, h.capacity]
    omega
  have hover : q.step .worker = some { q with worker := .free x.1 } := by
    rw [step_worker h.tripped]
    simp only [Queue.workerStep, hworker, hposting, Bool.false_eq_true, if_false]
  have hfree : Queue.step { q with worker := .free x.1 } .worker =
      some { q with worker := .dequeue, pool := q.pool ++ [x.1] } := by
    refine (step_worker (q := { q with worker := .free x.1 }) h.tripped).trans ?_
    simp only [Queue.workerStep, hroom, if_true]
  refine ⟨_, (Sys.exec_cons trivial hover).trans (Sys.exec_cons trivial hfree), ?_⟩
  unfold finish
  split
  · rename_i y hrunning'
    obtain rfl := Option.some.inj (hrunning.symm.trans hrunning')
    exact ⟨h.capacity, h.destroying, congrArg (· ++ [x.1]) h.pool, h.torn, h.tripped, h.queue, rfl, h.noPost⟩
  · rename_i hrunning'
    cases hrunning.symm.trans hrunning'

/-- What a whole call does to a worker. -/
inductive Moves (w : Worker) : Worker → Prop
  | post {w' : Worker} {r : Bool} (j : Job) : w.dispatchAsyncF j = some (w', r) → Moves w w'
  | take : Moves w w.take
  | finish : Moves w w.finish
  | destroy : Moves w w.destroy

/-- The workers that whole calls lead to. -/
inductive Reached (capacity : ℕ) : Worker → Prop
  | create : Reached capacity (create capacity)
  | move {w w' : Worker} : Reached capacity w → Moves w w' → Reached capacity w'

theorem take_destroying (w : Worker) : w.take.destroying = w.destroying := by
  unfold take
  split <;> rfl

theorem finish_destroying (w : Worker) : w.finish.destroying = w.destroying := by
  unfold finish
  split <;> rfl

/-- A destroy is for good. -/
theorem Moves.not_destroying (h : Moves w w') (hd : w'.destroying = false) : w.destroying = false := by
  cases h with
  | post j hpost =>
    obtain ⟨-, -, rfl⟩ | ⟨-, hdestroying, -⟩ := dispatchAsyncF_pending hpost
    · exact hd
    · exact hdestroying
  | take => rwa [take_destroying] at hd
  | finish => rwa [finish_destroying] at hd
  | destroy => cases hd

/-- **Until a destroy, every one of them stands for a queue** that a run of the steps leads to. -/
theorem Reached.stands {capacity : ℕ} (h : Reached capacity w) (hd : w.destroying = false) :
    ∃ q, Sys.Reach (Queue.system capacity) Sys.Always q ∧ Stands w q := by
  induction h with
  | create => exact ⟨_, .init ⟨fun _ => (0, ⟨0, 0, 0⟩), rfl⟩, create_stands capacity _⟩
  | @move w w' hw hmove ih =>
    have hbefore := hmove.not_destroying hd
    obtain ⟨q, hq, hstands⟩ := ih hbefore
    cases hmove with
    | post j hpost =>
      obtain ⟨k, q', hexec, ⟨w₁, r, hpost₁, hstands', -⟩ | ⟨hnone, -⟩⟩ := dispatchAsyncF_steps hstands j ⟨0, 0, 0⟩ capacity
      · obtain ⟨rfl, -⟩ := Prod.mk.inj (Option.some.inj (hpost.symm.trans hpost₁))
        exact ⟨q', hq.of_exec hexec, hstands'⟩
      · cases hnone.symm.trans hpost
    | take =>
      cases hrunning : w.running with
      | some x => exact ⟨q, hq, by rwa [take_of_running hrunning]⟩
      | none =>
        cases hqueue : w.queue with
        | nil => exact ⟨q, hq, by rwa [take_of_empty hqueue]⟩
        | cons x rest =>
          obtain ⟨q', hexec, hstands'⟩ := take_steps hstands hbefore hrunning hqueue capacity
          exact ⟨q', hq.of_exec hexec, hstands'⟩
    | finish =>
      cases hrunning : w.running with
      | none => exact ⟨q, hq, by rwa [finish_of_idle hrunning]⟩
      | some x =>
        obtain ⟨q', hexec, hstands'⟩ := finish_steps hstands hrunning capacity
        exact ⟨q', hq.of_exec hexec, hstands'⟩
    | destroy => cases hd

end Dispatch

end Worker

end Cutils.Asyncio.Send
