import Cutils.Proof.DispatchRun
import Cutils.Proof.EventLoopServe

/-!
# The runs of a state event loop

`Trans` lists what a step can do. The dispatch queue inside the loop makes steps of its own system, so that
what holds of its runs holds of it here (`Tied.queue`); the blocks of the event pool are in the free queue, with a
post, at the dispatch queue or at the worker, each exactly once (`Owned`).
-/

namespace Cutils.Dispatch.Queue

variable {q q' : Queue} {capacity i : ℕ}

/-- Without a destroy the worker does not leave its loop. -/
theorem reach_working (h : Sys.Reach (system capacity) (fun _ a => a ≠ .destroy) q) :
    q.worker ≠ .signal ∧ q.worker ≠ .exited := by
  have hboth : Sys.Reach (system capacity) (fun _ a => a ≠ .destroy) q ∧ q.worker ≠ .signal ∧ q.worker ≠ .exited := by
    refine Sys.Reach.inv (I := fun q => Sys.Reach (system capacity) (fun _ a => a ≠ .destroy) q ∧
      q.worker ≠ .signal ∧ q.worker ≠ .exited) ?_ ?_ h
    · rintro q ⟨blocks, rfl⟩
      exact ⟨.init ⟨blocks, rfl⟩, nofun, nofun⟩
    · rintro q a q' ⟨hr, hsig, hex⟩ ha hs
      refine ⟨hr.step ha hs, ?_⟩
      cases step_trans hs with
      | take | run | finish | free => exact ⟨nofun, nofun⟩
      | takeKill rest hw hq => exact absurd (by rw [hq]; exact List.mem_cons_self) (reach_open hr).queue
      | exit hw => exact absurd hw hsig
      | _ => exact ⟨hsig, hex⟩
  exact hboth.2

/-- A `dispatch_async_f` call begins. -/
theorem step_post {data : PostData} {byAction : Bool} (hs : q.step (.post data byAction) = some q') :
    q' = { q with calls := q.calls ++ [⟨data, byAction, .load⟩] } := by
  cases step_trans hs
  rfl

/-- **A call goes on**, or trips an assertion: the worker is not concerned, and the queue only when the call returns true.
It returns false only from its load of `destroying`. -/
theorem step_call_any (h : Inv q) (hs : q.step (.call i) = some q') :
    (q' = { q with tripped := some .postAlloc } ∧ (q.calls[i]?).map Call.pc = some .alloc ∧
      (q.torn = true ∨ q.pool = [])) ∨ q' = { q with tripped := some .postEnqueue } ∨
    ∃ k pc, q.calls[i]? = some k ∧ k.pc.inProgress = true ∧ q'.calls = q.calls.set i { k with pc := pc } ∧
      (pc = .returned false ↔ k.pc = .load ∧ q.destroying = true) ∧ q'.executed = q.executed ∧ q'.worker = q.worker ∧
      q'.tripped = q.tripped ∧ q'.enqueued = q.enqueued ++ if pc = .returned true then [(i, k.post)] else [] := by
  cases step_trans hs with
  | refuse i k hc hpc hd =>
    exact .inr (.inr ⟨k, .returned false, hc, by rw [hpc]; rfl, rfl, by simp [hpc, hd], rfl, rfl, rfl, by simp [setCall]⟩)
  | pass i k hc hpc hd =>
    exact .inr (.inr ⟨k, .alloc, hc, by rw [hpc]; rfl, rfl, by simp [hd], rfl, rfl, rfl, by simp [setCall]⟩)
  | alloc i k b rest hc hpc =>
    exact .inr (.inr ⟨k, .fill b, hc, by rw [hpc]; rfl, rfl, by simp [hpc], rfl, rfl, rfl, by simp [setCall]⟩)
  | allocTrips i k hc hpc hp => exact .inl ⟨rfl, by rw [hc, Option.map_some, hpc], hp⟩
  | fill i k b hc hpc =>
    exact .inr (.inr ⟨k, .enqueue b, hc, by rw [hpc]; rfl, rfl, by simp [hpc], rfl, rfl, rfl, by simp [setCall]⟩)
  | enqueue i k b hc hpc =>
    refine .inr (.inr ⟨k, .returned true, hc, by rw [hpc]; rfl, rfl, by simp [hpc], rfl, rfl, rfl, ?_⟩)
    rw [if_pos rfl, ← h.filled i k b hc hpc]
  | enqueueTrips => exact .inr (.inl rfl)

/-- Without a destroy, a call is not refused, and it trips only if it finds the pool empty. -/
theorem step_call (hr : Sys.Reach (system capacity) (fun _ a => a ≠ .destroy) q)
    (hroom : (q.calls[i]?).map Call.pc = some .alloc → q.pool ≠ [])
    (hs : q.step (.call i) = some q') :
    ∃ k pc, q.calls[i]? = some k ∧ k.pc.inProgress = true ∧ q'.calls = q.calls.set i { k with pc := pc } ∧
      pc ≠ .returned false ∧ q'.executed = q.executed ∧ q'.worker = q.worker ∧ q'.tripped = q.tripped ∧
      q'.enqueued = q.enqueued ++ if pc = .returned true then [(i, k.post)] else [] := by
  have ho := reach_open hr
  rcases step_call_any (reach_inv hr) hs with ⟨-, hpc, hnone⟩ | htrips | ⟨k, pc, hc, hprog, hcalls, hfalse, hrest⟩
  · rw [torn, ho.destroyer] at hnone
    exact absurd (hnone.resolve_left (by simp)) (hroom hpc)
  · have hopen := step_open (reach_inv hr) ho (by simp) hs
    rw [htrips] at hopen
    exact absurd rfl hopen.tripped
  · refine ⟨k, pc, hc, hprog, hcalls, fun heq => ?_, hrest⟩
    have hd := (hfalse.1 heq).2
    rw [reach_destroying hr] at hd
    cases hd

/-- **The worker goes on** in `dispatch_queue_worker`. -/
theorem step_worker (hs : q.step .worker = some q') :
    q'.calls = q.calls ∧ q'.enqueued = q.enqueued ∧ q'.tripped = q.tripped ∧
      (∀ d, q.worker = .call d → q'.executed = q.executed ++ [q.blocks d] ∧ q'.worker = .running d) ∧
      ((∀ d, q.worker ≠ .call d) → q'.executed = q.executed ∧ q'.worker.inAction = false) := by
  cases step_trans hs with
  | run b hw =>
    refine ⟨rfl, rfl, rfl, ?_, fun hne => absurd hw (hne b)⟩
    intro d hd
    rw [hw] at hd
    cases hd
    exact ⟨rfl, rfl⟩
  | take b rest hw hq => exact ⟨rfl, rfl, rfl, by rw [hw]; nofun, fun _ => ⟨rfl, rfl⟩⟩
  | takeKill rest hw hq => exact ⟨rfl, rfl, rfl, by rw [hw]; nofun, fun _ => ⟨rfl, rfl⟩⟩
  | finish b hw | free b hw | exit hw => exact ⟨rfl, rfl, rfl, by rw [hw]; nofun, fun _ => ⟨rfl, rfl⟩⟩

/-- What is pending, from what was enqueued and executed. -/
theorem pending_eq (h : Inv q) (h' : Inv q') (more : List (ℕ × PostData)) (he : q'.enqueued = q.enqueued ++ more)
    (hx : q'.executed = q.executed) : q'.pending = q.pending ++ more := by
  have hq' := h'.fifo
  rw [he, hx, h.fifo, List.append_assoc] at hq'
  exact (List.append_cancel_left hq').symm

theorem pending_run (h : Inv q) (h' : Inv q') {x : ℕ × PostData} (he : q'.enqueued = q.enqueued)
    (hx : q'.executed = q.executed ++ [x]) : q.pending = x :: q'.pending := by
  have hq' := h'.fifo
  rw [he, hx, h.fifo, List.append_assoc] at hq'
  exact List.append_cancel_left hq'

end Cutils.Dispatch.Queue

namespace Cutils.EventLoop

open Blocks

/-- The block a post has. -/
def PostPc.block : PostPc → Option ℕ
  | .add b | .copy b | .stamp b | .dispatch b | .wait b _ => some b
  | .alloc | .returned => none

/-- The block a post has a reference to. -/
def PostPc.ref : PostPc → Option ℕ
  | .copy b | .stamp b | .dispatch b | .wait b _ => some b
  | .alloc | .add _ | .returned => none

/-- The block the worker has a reference to. -/
def ExecPc.ref {n : ℕ} : ExecPc n → Option ℕ
  | .load b | .preProc b | .handle b _ | .transition b _ | .notify b | .release b => some b
  | .idle | .enqueue _ | .done => none

theorem ExecPc.ref_none {n : ℕ} {pc : ExecPc n} (h : pc.block = none) : pc.ref = none := by
  cases pc <;> first | rfl | cases h

theorem block_machine {n b k : ℕ} : (ExecPc.machine b k : ExecPc n).block = some b := by
  unfold ExecPc.machine
  split <;> rfl

theorem ref_machine {n b k : ℕ} : (ExecPc.machine b k : ExecPc n).ref = some b := by
  unfold ExecPc.machine
  split <;> rfl

theorem turn_machine {n b k : ℕ} : (ExecPc.machine b k : ExecPc n).turn = none := by
  unfold ExecPc.machine
  split <;> rfl

section Calls

variable {i j b : ℕ} {q q' : Dispatch.Queue} {posts posts' : List Post} {p : Post} {k : Dispatch.Call}
  {pc : Dispatch.CallPc}

/-- **The posts' calls of `dispatch_async_f`**: each has one of its own in progress, with its block. -/
structure Calls (q : Dispatch.Queue) (posts : List Post) : Prop where
  call : ∀ {i b j : ℕ} {p : Post}, posts[i]? = some p → p.pc = .wait b j → ∃ pc,
    q.calls[j]? = some ⟨⟨stateEventLoopExecQueueF, b, 0⟩, p.byAction, pc⟩ ∧ pc.inProgress = true
  one : ∀ {i i' b b' j : ℕ} {p p' : Post}, posts[i]? = some p → posts[i']? = some p' → p.pc = .wait b j →
    p'.pc = .wait b' j → i = i'

/-- The posts within `dispatch_async_f` are among those before. -/
theorem Calls.of_wait (h : Calls q posts)
    (hw : ∀ {i b j : ℕ} {p : Post}, p.pc = .wait b j → posts'[i]? = some p → posts[i]? = some p) : Calls q posts' := by
  refine ⟨fun hi hpc => h.call (hw hpc hi) hpc, ?_⟩
  intro i i' b b' j p p' hi hi' hpc hpc'
  exact h.one (hw hpc hi) (hw hpc' hi') hpc hpc'

theorem Calls.keep (h : Calls q posts) (hcalls : q'.calls = q.calls) : Calls q' posts :=
  ⟨by rw [hcalls]; exact h.call, h.one⟩

theorem Calls.post (h : Calls q posts) (hpc : ∀ b j, p.pc ≠ .wait b j) : Calls q (posts ++ [p]) := by
  refine h.of_wait fun {i b j p'} hw hi => ?_
  rcases List.get_append_singleton hi with ⟨-, rfl⟩ | hi
  · exact absurd hw (hpc b j)
  · exact hi

theorem Calls.set (h : Calls q posts) (p' : Post) (hpc' : ∀ b j, p'.pc ≠ .wait b j) : Calls q (posts.set i p') := by
  refine h.of_wait fun {i' b j u} hw hi => ?_
  rcases List.get_set hi with ⟨-, rfl⟩ | ⟨-, hi⟩
  · exact absurd hw (hpc' b j)
  · exact hi

/-- A post calls `dispatch_async_f`. -/
theorem Calls.dispatch (h : Calls q posts)
    (hq : q.step (.post ⟨stateEventLoopExecQueueF, b, 0⟩ p.byAction) = some q') :
    Calls q' (posts.set i { p with pc := .wait b q.calls.length }) := by
  have hcalls := Dispatch.Queue.step_post hq
  have hlt : ∀ {j : ℕ} {k : Dispatch.Call}, q.calls[j]? = some k → j < q.calls.length :=
    fun hk => (List.getElem?_eq_some_iff.1 hk).1
  refine ⟨?_, ?_⟩
  · intro i' b' j u hi hw
    rw [hcalls]
    rcases List.get_set hi with ⟨-, rfl⟩ | ⟨-, hi⟩
    · cases hw
      exact ⟨.load, by simp, rfl⟩
    · obtain ⟨pc, hk, hin⟩ := h.call hi hw
      exact ⟨pc, by rw [List.getElem?_append_left (hlt hk)]; exact hk, hin⟩
  · intro i₁ i₂ b₁ b₂ j u₁ u₂ h₁ h₂ hw₁ hw₂
    -- the index of the new call is that of no other
    have hnew : ∀ {i' b' : ℕ} {u : Post}, posts[i']? = some u → u.pc ≠ .wait b' q.calls.length := by
      intro i' b' u hi hw
      obtain ⟨pc, hk, -⟩ := h.call hi hw
      exact absurd (hlt hk) (Nat.lt_irrefl _)
    rcases List.get_set h₁ with ⟨hi₁, rfl⟩ | ⟨-, g₁⟩
    · cases hw₁
      rcases List.get_set h₂ with ⟨hi₂, -⟩ | ⟨-, g₂⟩
      · rw [hi₁, hi₂]
      · exact absurd hw₂ (hnew g₂)
    · rcases List.get_set h₂ with ⟨-, rfl⟩ | ⟨-, g₂⟩
      · cases hw₂
        exact absurd hw₁ (hnew g₁)
      · exact h.one g₁ g₂ hw₁ hw₂

/-- What a step of a `dispatch_async_f` call leaves of the other posts. -/
theorem Calls.others (h : Calls q posts) (hp : posts[i]? = some p) (hpc : p.pc = .wait b j) {i' b' j' : ℕ} {u : Post}
    (hi : posts[i']? = some u) (hne : i' ≠ i) (hw : u.pc = .wait b' j') :
    ∃ pc, (q.calls.set j k)[j']? = some ⟨⟨stateEventLoopExecQueueF, b', 0⟩, u.byAction, pc⟩ ∧
      pc.inProgress = true := by
  obtain ⟨pc, hk, hin⟩ := h.call hi hw
  have hj : j ≠ j' := by
    rintro rfl
    exact hne (h.one hi hp hw hpc)
  exact ⟨pc, by rw [List.getElem?_set_ne hj]; exact hk, hin⟩

/-- The call of a post goes on. -/
theorem Calls.pass (h : Calls q posts) (hp : posts[i]? = some p) (hpc : p.pc = .wait b j) (hk : q.calls[j]? = some k)
    (hcalls : q'.calls = q.calls.set j { k with pc := pc }) (hin : pc.inProgress = true) : Calls q' posts := by
  obtain ⟨pc₀, hk₀, -⟩ := h.call hp hpc
  have hkeq := Option.some.inj (hk.symm.trans hk₀)
  refine ⟨?_, h.one⟩
  intro i' b' j' u hi hw
  rw [hcalls]
  by_cases hne : i' = i
  · subst hne
    obtain rfl := Option.some.inj (hp.symm.trans hi)
    rw [hpc] at hw
    cases hw
    exact ⟨pc, by rw [List.get_set_self hk, hkeq], hin⟩
  · exact h.others hp hpc hi hne hw

/-- The call of a post returns, and so does the post. -/
theorem Calls.leave (h : Calls q posts) (hp : posts[i]? = some p) (hpc : p.pc = .wait b j)
    (hcalls : q'.calls = q.calls.set j k) : Calls q' (posts.set i { p with pc := .returned }) := by
  have hwait : ∀ {i' b' j' : ℕ} {u : Post}, (posts.set i { p with pc := .returned })[i']? = some u → u.pc = .wait b' j' →
      i' ≠ i ∧ posts[i']? = some u := by
    intro i' b' j' u hi hw
    rcases List.get_set hi with ⟨-, rfl⟩ | hi
    · cases hw
    · exact hi
  refine ⟨?_, ?_⟩
  · intro i' b' j' u hi hw
    obtain ⟨hne, hi⟩ := hwait hi hw
    rw [hcalls]
    exact h.others hp hpc hi hne hw
  · intro i₁ i₂ b₁ b₂ j u₁ u₂ h₁ h₂ hw₁ hw₂
    exact h.one (hwait h₁ hw₁).2 (hwait h₂ hw₂).2 hw₁ hw₂

end Calls

section Tied

variable {n i j b : ℕ} {q q' : Dispatch.Queue} {posts : List Post} {p : Post} {pc : PostPc}

/-- **The dispatch queue is in a run of its own**, and its calls in progress are those of the posts. -/
structure Tied (n : ℕ) (q : Dispatch.Queue) (posts : List Post) : Prop where
  queue : Sys.Reach (Dispatch.Queue.system n) (fun _ a => a ≠ .destroy) q
  sound : q.tripped = none
  call : ∀ {i b j : ℕ} {p : Post}, posts[i]? = some p → p.pc = .wait b j → ∃ pc,
    q.calls[j]? = some ⟨⟨stateEventLoopExecQueueF, b, 0⟩, p.byAction, pc⟩ ∧ pc.inProgress = true
  one : ∀ {i i' b b' j : ℕ} {p p' : Post}, posts[i]? = some p → posts[i']? = some p' → p.pc = .wait b j →
    p'.pc = .wait b' j → i = i'
  owner : ∀ {j : ℕ} {k : Dispatch.Call}, q.calls[j]? = some k → k.pc.inProgress = true →
    ∃ (i : ℕ) (p : Post) (b : ℕ), posts[i]? = some p ∧ p.pc = .wait b j ∧ p.byAction = k.byAction

theorem Tied.calls (h : Tied n q posts) : Calls q posts := ⟨h.call, h.one⟩

/-- A new post. -/
theorem Tied.post (h : Tied n q posts) (hpc : ∀ b j, p.pc ≠ .wait b j) : Tied n q (posts ++ [p]) := by
  have hcalls := h.calls.post hpc
  refine ⟨h.queue, h.sound, hcalls.call, hcalls.one, fun hk hin => ?_⟩
  obtain ⟨i, p', b, hi, hw, hb⟩ := h.owner hk hin
  have hlt := (List.getElem?_eq_some_iff.1 hi).1
  exact ⟨i, p', b, by rw [List.getElem?_append_left hlt]; exact hi, hw, hb⟩

/-- The post of a call in progress is still there when another post goes on. -/
theorem Tied.owner_set (h : Tied n q posts) {k : Dispatch.Call} (hk : q.calls[j]? = some k)
    (hin : k.pc.inProgress = true) (hp : posts[i]? = some p) (hpc : ∀ b, p.pc ≠ .wait b j) (p' : Post) :
    ∃ (i' : ℕ) (u : Post) (b : ℕ), (posts.set i p')[i']? = some u ∧ u.pc = .wait b j ∧ u.byAction = k.byAction := by
  obtain ⟨i', u, b, hi, hw, hb⟩ := h.owner hk hin
  have hne : i ≠ i' := by
    rintro rfl
    obtain rfl := Option.some.inj (hp.symm.trans hi)
    exact hpc b hw
  exact ⟨i', u, b, by rw [List.getElem?_set_ne hne]; exact hi, hw, hb⟩

/-- A post goes on outside of `dispatch_async_f`. -/
theorem Tied.set (h : Tied n q posts) (hp : posts[i]? = some p) (hpc : ∀ b j, p.pc ≠ .wait b j) (p' : Post)
    (hpc' : ∀ b j, p'.pc ≠ .wait b j) : Tied n q (posts.set i p') := by
  have hcalls := h.calls.set (i := i) p' hpc'
  exact ⟨h.queue, h.sound, hcalls.call, hcalls.one, fun hk hin => h.owner_set hk hin hp (fun b => hpc b _) p'⟩

/-- A post calls `dispatch_async_f`. -/
theorem Tied.dispatch (h : Tied n q posts) (hp : posts[i]? = some p) (hpc : p.pc = .dispatch b)
    (hq : q.step (.post ⟨stateEventLoopExecQueueF, b, 0⟩ p.byAction) = some q') :
    Tied n q' (posts.set i { p with pc := .wait b q.calls.length }) := by
  have heq := Dispatch.Queue.step_post hq
  have hcalls := h.calls.dispatch (i := i) hq
  refine ⟨h.queue.step (a := .post _ _) nofun hq, by rw [heq]; exact h.sound, hcalls.call, hcalls.one, ?_⟩
  intro j k hk hin
  rw [heq] at hk
  rcases List.get_append_singleton hk with ⟨rfl, rfl⟩ | hk
  · exact ⟨i, _, b, List.get_set_self hp, rfl, rfl⟩
  · exact h.owner_set hk hin hp (by rw [hpc]; simp) _

/-- The call of a post goes on. -/
theorem Tied.pass (h : Tied n q posts) (hp : posts[i]? = some p) (hpc : p.pc = .wait b j)
    (hroom : (q.calls[j]?).map Dispatch.Call.pc = some .alloc → q.pool ≠ []) (hq : q.step (.call j) = some q')
    (hr : ∀ retval, (q'.calls[j]?).map Dispatch.Call.pc ≠ some (.returned retval)) : Tied n q' posts := by
  obtain ⟨k, pc, hk, hin, hcalls, -, -, -, htrip, -⟩ := Dispatch.Queue.step_call h.queue hroom hq
  obtain ⟨pc₀, hk₀, -⟩ := h.call hp hpc
  have hkeq := Option.some.inj (hk.symm.trans hk₀)
  have hself := List.get_set_self (x := ({ k with pc := pc } : Dispatch.Call)) hk
  have hpc' : pc.inProgress = true := by
    cases hpc' : pc with
    | returned retval =>
      refine absurd ?_ (hr retval)
      rw [hcalls, hself, hpc']
      rfl
    | _ => rfl
  have hpass := h.calls.pass hp hpc hk hcalls hpc'
  refine ⟨h.queue.step (a := .call j) nofun hq, htrip.trans h.sound, hpass.call, hpass.one, ?_⟩
  intro j' k' hk' hin'
  rw [hcalls] at hk'
  rcases List.get_set hk' with ⟨rfl, rfl⟩ | ⟨-, hk'⟩
  · exact ⟨i, p, b, hp, hpc, by rw [hkeq]⟩
  · exact h.owner hk' hin'

/-- The call of a post returns. -/
theorem Tied.handOver (h : Tied n q posts) (hp : posts[i]? = some p) (hpc : p.pc = .wait b j)
    (hroom : (q.calls[j]?).map Dispatch.Call.pc = some .alloc → q.pool ≠ []) (hq : q.step (.call j) = some q')
    (hr : (q'.calls[j]?).map Dispatch.Call.pc = some (.returned true)) :
    Tied n q' (posts.set i { p with pc := .returned }) := by
  obtain ⟨k, pc, hk, hin, hcalls, -, -, -, htrip, -⟩ := Dispatch.Queue.step_call h.queue hroom hq
  have hself := List.get_set_self (x := ({ k with pc := pc } : Dispatch.Call)) hk
  have hpc' : pc = .returned true := by
    rw [hcalls, hself] at hr
    exact Option.some.inj hr
  have hleave := h.calls.leave hp hpc hcalls
  refine ⟨h.queue.step (a := .call j) nofun hq, htrip.trans h.sound, hleave.call, hleave.one, ?_⟩
  intro j' k' hk' hin'
  rw [hcalls] at hk'
  rcases List.get_set hk' with ⟨rfl, rfl⟩ | ⟨hne, hk'⟩
  · rw [hpc'] at hin'
    cases hin'
  · exact h.owner_set hk' hin' hp (by rw [hpc]; rintro b' ⟨⟩; exact hne rfl) _

theorem Tied.worker (h : Tied n q posts) (hq : q.step .worker = some q') : Tied n q' posts := by
  obtain ⟨hcalls, -, htrip, -⟩ := Dispatch.Queue.step_worker hq
  exact ⟨h.queue.step (a := .worker) nofun hq, htrip.trans h.sound, by rw [hcalls]; exact h.call, h.one,
    by rw [hcalls]; exact h.owner⟩

end Tied

section Counted

variable {n i b : ℕ} {pool pool' : Store} {posts : List Post} {waiting : List ℕ} {held held' refs refs' : ℕ → ℕ}
  {p p' : Post}

/-- **Every block of the event pool is somewhere**: in the free queue, with a post, at the dispatch queue (`waiting`) or
held otherwise, `held b` times. Its retain count is the number of the references to it; `refs b` are those not with
posts or at the dispatch queue. -/
structure Counted (n : ℕ) (pool : Store) (posts : List Post) (waiting : List ℕ) (held refs : ℕ → ℕ) : Prop where
  size : pool.numOfElements = n
  live : pool.q = some pool.free
  once : ∀ b, pool.free.count b + posts.countP (fun p => p.pc.block == some b) + waiting.count b + held b =
    (List.range n).count b
  refs : ∀ b, b < n → pool.retainCount b =
    posts.countP (fun p => p.pc.ref == some b) + waiting.count b + refs b

theorem count_range (b : ℕ) : (List.range n).count b ≤ 1 := List.nodup_iff_count_le_one.1 List.nodup_range b

theorem lt_of_count (h : 0 < (List.range n).count b) : b < n := List.mem_range.1 (List.count_pos_iff.1 h)

theorem block_of_ref {pc : PostPc} (h : pc.ref = some b) : pc.block = some b := by
  cases pc <;> first | exact h | cases h

theorem countP_ref_le (b : ℕ) : posts.countP (fun p => p.pc.ref == some b) ≤ posts.countP fun p => p.pc.block == some b := by
  refine List.countP_mono_left fun p _ h => ?_
  simp only [beq_iff_eq] at h ⊢
  exact block_of_ref h

/-- One post goes on: what changes in a count. -/
theorem count_set (f : Post → Option ℕ) (p' : Post) (x y : Option ℕ) (hp : posts[i]? = some p) (hx : f p = x)
    (hy : f p' = y) (j : ℕ) : (posts.set i p').countP (fun p => f p == some j) + x.toList.count j =
      posts.countP (fun p => f p == some j) + y.toList.count j := by
  have hcount : ∀ z : Option ℕ, (if z == some j then 1 else 0) = z.toList.count j := by
    intro z
    cases z with
    | none => simp
    | some b => simp [List.count_singleton]
  have hset := List.countP_set_add (y := p') (fun p => f p == some j) hp
  rwa [hx, hy, hcount, hcount] at hset

theorem Counted.begin (h : Counted n pool posts waiting held refs) (hb : p.pc.block = none) (hr : p.pc.ref = none) :
    Counted n pool (posts ++ [p]) waiting held refs := by
  refine ⟨h.size, h.live, ?_, ?_⟩
  · intro b
    rw [List.countP_append, List.countP_singleton, hb]
    simpa using h.once b
  · intro b hlt
    rw [List.countP_append, List.countP_singleton, hr]
    simpa using h.refs b hlt

/-- A post goes on with the block it has. -/
theorem Counted.keep (h : Counted n pool posts waiting held refs) (hp : posts[i]? = some p)
    (hb : p'.pc.block = p.pc.block) (hr : p'.pc.ref = p.pc.ref) : Counted n pool (posts.set i p') waiting held refs := by
  refine ⟨h.size, h.live, ?_, ?_⟩
  · intro b
    have hset := count_set (·.pc.block) p' _ _ hp rfl hb b
    have honce := h.once b
    omega
  · intro b hlt
    have hset := count_set (·.pc.ref) p' _ _ hp rfl hr b
    have hrefs := h.refs b hlt
    omega

/-- A post takes a block. -/
theorem Counted.alloc (h : Counted n pool posts waiting held refs) (hp : posts[i]? = some p) (hpc : p.pc = .alloc)
    (hq : pool.dequeue = some (b, pool')) : Counted n pool' (posts.set i { p with pc := .add b }) waiting held refs := by
  unfold Store.dequeue at hq
  rw [h.live] at hq
  cases hfree : pool.free with
  | nil => rw [hfree] at hq; cases hq
  | cons b' rest =>
    rw [hfree] at hq
    cases hq
    refine ⟨h.size, rfl, ?_, ?_⟩
    · intro j
      have hset := count_set (·.pc.block) { p with pc := .add b } none (some b) hp (by rw [hpc]; rfl) rfl j
      have honce := h.once j
      rw [hfree, List.count_cons] at honce
      simp only [Option.toList_none, Option.toList_some, List.count_nil, List.count_singleton] at hset
      change rest.count j + _ + _ + _ = _
      omega
    · intro j hlt
      have hset := count_set (·.pc.ref) { p with pc := .add b } none none hp (by rw [hpc]; rfl) rfl j
      have hrefs := h.refs j hlt
      change pool.retainCount j = _
      omega

theorem fetchAdd_count (pool : Store) (b j : ℕ) :
    (pool.fetchAdd b).retainCount j = pool.retainCount j + [b].count j := by
  by_cases hj : b = j
  · subst hj
    simp [Store.fetchAdd]
  · simp [Store.fetchAdd, hj, Function.update_of_ne (Ne.symm hj)]

theorem fetchSub_count (pool : Store) (hpos : 0 < pool.retainCount b) (j : ℕ) :
    (pool.fetchSub b).retainCount j + [b].count j = pool.retainCount j := by
  by_cases hj : b = j
  · subst hj
    simp [Store.fetchSub, Nat.sub_add_cancel hpos]
  · simp [Store.fetchSub, hj, Function.update_of_ne (Ne.symm hj)]

/-- A post takes its reference. -/
theorem Counted.add (h : Counted n pool posts waiting held refs) (hp : posts[i]? = some p) (hpc : p.pc = .add b) :
    Counted n (pool.fetchAdd b) (posts.set i { p with pc := .copy b }) waiting held refs := by
  refine ⟨h.size, h.live, ?_, ?_⟩
  · intro j
    have hset := count_set (·.pc.block) { p with pc := .copy b } (some b) (some b) hp (by rw [hpc]; rfl) rfl j
    have honce := h.once j
    change pool.free.count j + _ + _ + _ = _
    omega
  · intro j hlt
    have hset := count_set (·.pc.ref) { p with pc := .copy b } none (some b) hp (by rw [hpc]; rfl) rfl j
    have hrefs := h.refs j hlt
    simp only [Option.toList_none, Option.toList_some, List.count_nil] at hset
    rw [fetchAdd_count]
    omega

/-- A post hands its block over to the dispatch queue. -/
theorem Counted.handOver {j : ℕ} (h : Counted n pool posts waiting held refs) (hp : posts[i]? = some p)
    (hpc : p.pc = .wait b j) : Counted n pool (posts.set i { p with pc := .returned }) (waiting ++ [b]) held refs := by
  refine ⟨h.size, h.live, ?_, ?_⟩
  · intro j
    have hset := count_set (·.pc.block) { p with pc := .returned } (some b) none hp (by rw [hpc]; rfl) rfl j
    have honce := h.once j
    simp only [Option.toList_none, Option.toList_some, List.count_nil] at hset
    rw [List.count_append]
    omega
  · intro j hlt
    have hset := count_set (·.pc.ref) { p with pc := .returned } (some b) none hp (by rw [hpc]; rfl) rfl j
    have hrefs := h.refs j hlt
    simp only [Option.toList_none, Option.toList_some, List.count_nil] at hset
    rw [List.count_append]
    omega

/-- The first block that waits is taken. -/
theorem Counted.take {rest : List ℕ} (h : Counted n pool posts (b :: rest) held refs)
    (hheld : ∀ j, held' j = held j + [b].count j) (hrefs : ∀ j, refs' j = refs j + [b].count j) :
    Counted n pool posts rest held' refs' := by
  refine ⟨h.size, h.live, fun j => ?_, fun j hlt => ?_⟩
  · have honce := h.once j
    rw [List.count_head_add] at honce
    rw [hheld]
    omega
  · have hr := h.refs j hlt
    rw [List.count_head_add] at hr
    rw [hrefs]
    omega

/-- A reference is dropped. -/
theorem Counted.release (h : Counted n pool posts waiting held refs) (hlt : b < n)
    (hrefs : ∀ j, refs' j + [b].count j = refs j) (hheld : ∀ j, held' j = held j) :
    Counted n (pool.fetchSub b) posts waiting held' refs' := by
  refine ⟨h.size, h.live, fun j => by rw [hheld]; exact h.once j, fun j hj => ?_⟩
  have hpos : 0 < pool.retainCount b := by
    have hb := hrefs b
    rw [List.count_singleton_self] at hb
    have hr := h.refs b hlt
    omega
  have hsub := fetchSub_count pool hpos j
  have hr := h.refs j hj
  have hj := hrefs j
  omega

/-- A block that is held, without a reference, goes back to the free queue. -/
theorem Counted.enqueue (h : Counted n pool posts waiting held refs) (hheld : ∀ j, held' j + [b].count j = held j) :
    (pool.enqueue b).free = pool.free ++ [b] ∧ Counted n (pool.enqueue b) posts waiting held' refs := by
  have hb := hheld b
  have honceb := h.once b
  have hrangeb := count_range (n := n) b
  rw [List.count_singleton_self] at hb
  -- a block that is not free leaves room in the free queue
  have hlen : pool.free.length < pool.numOfElements := by
    have hnodup : (b :: pool.free).Nodup := by
      refine List.nodup_cons.2 ⟨List.count_eq_zero.1 (by omega), List.nodup_iff_count_le_one.2 fun j => ?_⟩
      have honce := h.once j
      have hrange := count_range (n := n) j
      omega
    have hsub : ∀ j ∈ b :: pool.free, j ∈ List.range n := by
      intro j hj
      rcases List.mem_cons.1 hj with rfl | hj
      · exact List.mem_range.2 (lt_of_count (by omega))
      · have honce := h.once j
        have hpos := List.count_pos_iff.2 hj
        exact List.mem_range.2 (lt_of_count (by omega))
    have hle := (List.subperm_of_subset hnodup hsub).length_le
    rw [List.length_range, List.length_cons] at hle
    rw [h.size]
    omega
  have henq : pool.enqueue b = { pool with q := some (pool.free ++ [b]) } := by
    unfold Store.enqueue
    rw [h.live]
    exact if_pos hlen
  rw [henq]
  refine ⟨rfl, h.size, rfl, fun j => ?_, h.refs⟩
  have honce := h.once j
  have hj := hheld j
  change (pool.free ++ [b]).count j + _ + _ + _ = _
  rw [List.count_append]
  omega

end Counted

section Owned

variable {n i b : ℕ} {pool pool' : Store} {posts : List Post} {waiting : List ℕ} {block ref : Option ℕ} {p p' : Post}

/-- **Every block of the event pool has one holder**: the free queue, a post, the dispatch queue (`waiting`) or the
worker (`block`). Its retain count is 1 while the holder has the reference. -/
structure Owned (n : ℕ) (pool : Store) (posts : List Post) (waiting : List ℕ) (block ref : Option ℕ) : Prop where
  size : pool.numOfElements = n
  live : pool.q = some pool.free
  once : ∀ b, pool.free.count b + posts.countP (fun p => p.pc.block == some b) + waiting.count b +
    block.toList.count b = (List.range n).count b
  refs : ∀ b, b < n → pool.retainCount b =
    posts.countP (fun p => p.pc.ref == some b) + waiting.count b + ref.toList.count b

theorem owned_iff : Owned n pool posts waiting block ref ↔
    Counted n pool posts waiting (block.toList.count ·) (ref.toList.count ·) :=
  ⟨fun h => ⟨h.size, h.live, h.once, h.refs⟩, fun h => ⟨h.size, h.live, h.once, h.refs⟩⟩

/-- The worker's block is nobody else's. -/
theorem Owned.worker (h : Owned n pool posts waiting (some b) ref) : b < n ∧ b ∉ pool.free ∧ b ∉ waiting ∧
    posts.countP (fun p => p.pc.block == some b) = 0 := by
  have honce := h.once b
  have hrange := count_range (n := n) b
  simp only [Option.toList_some, List.count_singleton_self] at honce
  refine ⟨lt_of_count (by omega), ?_, ?_, by omega⟩
  · exact List.count_eq_zero.1 (by omega)
  · exact List.count_eq_zero.1 (by omega)

/-- A post's block is nobody else's. -/
theorem Owned.post (h : Owned n pool posts waiting block ref) (hp : posts[i]? = some p) (hb : p.pc.block = some b) :
    b < n ∧ b ∉ pool.free ∧ b ∉ waiting ∧ block ≠ some b ∧
      ∀ {j : ℕ} {u : Post}, posts[j]? = some u → u.pc.block = some b → j = i := by
  have honce := h.once b
  have hrange := count_range (n := n) b
  have hone : 1 ≤ posts.countP fun p => p.pc.block == some b := List.one_le_countP hp (by simp [hb])
  refine ⟨lt_of_count (by omega), List.count_eq_zero.1 (by omega), List.count_eq_zero.1 (by omega), ?_, ?_⟩
  · rintro rfl
    simp only [Option.toList_some, List.count_singleton_self] at honce
    omega
  · intro j u hj hu
    by_contra hne
    have htwo : 2 ≤ posts.countP fun p => p.pc.block == some b :=
      List.two_le_countP hne hj hp (by simp [hu]) (by simp [hb])
    omega

/-- A block at the dispatch queue is nobody else's. -/
theorem Owned.queued (h : Owned n pool posts waiting block ref) (hb : b ∈ waiting) :
    waiting.count b = 1 ∧ block ≠ some b := by
  have honce := h.once b
  have hrange := count_range (n := n) b
  have hpos := List.count_pos_iff.2 hb
  refine ⟨by omega, ?_⟩
  rintro rfl
  simp only [Option.toList_some, List.count_singleton_self] at honce
  omega

theorem Owned.begin (h : Owned n pool posts waiting block ref) (hb : p.pc.block = none) (hr : p.pc.ref = none) :
    Owned n pool (posts ++ [p]) waiting block ref := owned_iff.2 ((owned_iff.1 h).begin hb hr)

theorem Owned.keep (h : Owned n pool posts waiting block ref) (hp : posts[i]? = some p)
    (hb : p'.pc.block = p.pc.block) (hr : p'.pc.ref = p.pc.ref) : Owned n pool (posts.set i p') waiting block ref :=
  owned_iff.2 ((owned_iff.1 h).keep hp hb hr)

theorem Owned.alloc (h : Owned n pool posts waiting block ref) (hp : posts[i]? = some p) (hpc : p.pc = .alloc)
    (hq : pool.dequeue = some (b, pool')) : Owned n pool' (posts.set i { p with pc := .add b }) waiting block ref :=
  owned_iff.2 ((owned_iff.1 h).alloc hp hpc hq)

theorem Owned.add (h : Owned n pool posts waiting block ref) (hp : posts[i]? = some p) (hpc : p.pc = .add b) :
    Owned n (pool.fetchAdd b) (posts.set i { p with pc := .copy b }) waiting block ref :=
  owned_iff.2 ((owned_iff.1 h).add hp hpc)

theorem Owned.handOver {j : ℕ} (h : Owned n pool posts waiting block ref) (hp : posts[i]? = some p)
    (hpc : p.pc = .wait b j) : Owned n pool (posts.set i { p with pc := .returned }) (waiting ++ [b]) block ref :=
  owned_iff.2 ((owned_iff.1 h).handOver hp hpc)

/-- The worker takes the first block that waits. -/
theorem Owned.take {rest : List ℕ} (h : Owned n pool posts (b :: rest) none none) :
    Owned n pool posts rest (some b) (some b) :=
  owned_iff.2 ((owned_iff.1 h).take (by simp) (by simp))

/-- The worker's block has its one reference. -/
theorem Owned.retainCount (h : Owned n pool posts waiting (some b) (some b)) : pool.retainCount b = 1 := by
  obtain ⟨hlt, -, hw, hp⟩ := h.worker
  have hrefs := h.refs b hlt
  have hle : posts.countP (fun p => p.pc.ref == some b) ≤ _ := countP_ref_le b
  rw [List.count_eq_zero.2 hw, Option.toList_some, List.count_singleton_self] at hrefs
  omega

/-- The worker drops its reference. -/
theorem Owned.release (h : Owned n pool posts waiting (some b) (some b)) :
    Owned n (pool.fetchSub b) posts waiting (some b) none :=
  owned_iff.2 ((owned_iff.1 h).release h.worker.1 (by simp) fun _ => rfl)

/-- The worker's block goes back to the free queue. -/
theorem Owned.enqueue (h : Owned n pool posts waiting (some b) none) :
    (pool.enqueue b).free = pool.free ++ [b] ∧ Owned n (pool.enqueue b) posts waiting none none := by
  have hheld : ∀ j, (none : Option ℕ).toList.count j + [b].count j = (some b).toList.count j := by simp
  obtain ⟨hfree, hcounted⟩ := (owned_iff.1 h).enqueue hheld
  exact ⟨hfree, owned_iff.2 hcounted⟩

end Owned

section Kept

variable {W : Type} {c : Config W} {n i b : ℕ} {pool : Store} {memory : ℕ → Event} {posts : List Post}
  {waiting : List ℕ} {block ref : Option ℕ} {later : List Event} {p p' : Post} {e : Event}

/-- The post has written all of its event. -/
def PostPc.sealed : PostPc → Option ℕ
  | .dispatch b | .wait b _ => some b
  | _ => none

theorem block_of_sealed {pc : PostPc} (h : pc.sealed = some b) : pc.block = some b := by
  cases pc <;> first | exact h | cases h

/-- **The bytes of an event stay as they were posted** until the worker takes it; `later` are the events handed over
that it has not taken. -/
structure Kept (c : Config W) (memory : ℕ → Event) (posts : List Post) (waiting : List ℕ) (later : List Event) :
    Prop where
  copied : ∀ {i b : ℕ} {p : Post}, posts[i]? = some p → p.pc = .stamp b → memory b = p.evt
  stamped : ∀ {i b : ℕ} {p : Post}, posts[i]? = some p → p.pc.sealed = some b → memory b = p.event c
  queued : waiting.map memory = later

/-- A post goes on with its block as it is. -/
theorem Kept.set (h : Kept c memory posts waiting later) (hcopied : ∀ b, p'.pc ≠ .stamp b)
    (hstamped : ∀ b, p'.pc.sealed = some b → memory b = p'.event c) : Kept c memory (posts.set i p') waiting later := by
  refine ⟨?_, ?_, h.queued⟩
  · intro j b u hj hu
    rcases List.get_set hj with ⟨-, rfl⟩ | ⟨-, hj⟩
    · exact absurd hu (hcopied b)
    · exact h.copied hj hu
  · intro j b u hj hu
    rcases List.get_set hj with ⟨-, rfl⟩ | ⟨-, hj⟩
    · exact hstamped b hu
    · exact h.stamped hj hu

/-- A post writes its block. -/
theorem Kept.write (h : Kept c memory posts waiting later) (ho : Owned n pool posts waiting block ref)
    (hp : posts[i]? = some p) (hb : p.pc.block = some b) (hcopied : ∀ b', p'.pc = .stamp b' → b' = b ∧ e = p'.evt)
    (hstamped : ∀ b', p'.pc.sealed = some b' → b' = b ∧ e = p'.event c) :
    Kept c (Function.update memory b e) (posts.set i p') waiting later := by
  obtain ⟨-, -, hwait, -, hone⟩ := ho.post hp hb
  have hne : ∀ {j b' : ℕ} {u : Post}, j ≠ i → posts[j]? = some u → u.pc.block = some b' → b' ≠ b := by
    rintro j b' u hji hj hu rfl
    exact hji (hone hj hu)
  refine ⟨?_, ?_, ?_⟩
  · intro j b' u hj hu
    rcases List.get_set hj with ⟨-, rfl⟩ | ⟨hji, hj⟩
    · obtain ⟨rfl, rfl⟩ := hcopied b' hu
      exact Function.update_self ..
    · rw [Function.update_of_ne (hne hji hj (by rw [hu]; rfl))]
      exact h.copied hj hu
  · intro j b' u hj hu
    rcases List.get_set hj with ⟨-, rfl⟩ | ⟨hji, hj⟩
    · obtain ⟨rfl, rfl⟩ := hstamped b' hu
      exact Function.update_self ..
    · rw [Function.update_of_ne (hne hji hj (block_of_sealed hu))]
      exact h.stamped hj hu
  · rw [← h.queued]
    refine List.map_congr_left fun j hj => Function.update_of_ne ?_ ..
    rintro rfl
    exact hwait hj

/-- The worker's client code writes the worker's block. -/
theorem Kept.serve (h : Kept c memory posts waiting later) (ho : Owned n pool posts waiting (some b) ref) (e : Event) :
    Kept c (Function.update memory b e) posts waiting later := by
  obtain ⟨-, -, hwait, hposts⟩ := ho.worker
  have hne : ∀ {j b' : ℕ} {u : Post}, posts[j]? = some u → u.pc.block = some b' → b' ≠ b := by
    rintro j b' u hj hu rfl
    have := List.one_le_countP (p := fun p => p.pc.block == some b') hj (by simp [hu])
    omega
  refine ⟨?_, ?_, ?_⟩
  · intro j b' u hj hu
    rw [Function.update_of_ne (hne hj (by rw [hu]; rfl))]
    exact h.copied hj hu
  · intro j b' u hj hu
    rw [Function.update_of_ne (hne hj (block_of_sealed hu))]
    exact h.stamped hj hu
  · rw [← h.queued]
    refine List.map_congr_left fun j hj => Function.update_of_ne ?_ ..
    rintro rfl
    exact hwait hj

/-- A new post has no block. -/
theorem Kept.begin (h : Kept c memory posts waiting later) (hb : p.pc = .alloc) : Kept c memory (posts ++ [p]) waiting later := by
  refine ⟨?_, ?_, h.queued⟩
  · intro j b u hj hu
    rcases List.get_append_singleton hj with ⟨-, rfl⟩ | hj
    · rw [hb] at hu
      cases hu
    · exact h.copied hj hu
  · intro j b u hj hu
    rcases List.get_append_singleton hj with ⟨-, rfl⟩ | hj
    · rw [hb] at hu
      cases hu
    · exact h.stamped hj hu

end Kept

namespace Loop

variable {W : Type} {c : Config W} {s s' : Loop c} {a : Act} {b : ℕ}

/-- Client code runs on the event in block `b`, with a result and where the worker goes on. -/
inductive Runs (s : Loop c) (b : ℕ) : ExecPc c.numMachines → Option (Serving c) → Prop
  | preProc (hx : s.exec = .preProc b) : Runs s b (.machine b 0) (some (s.serving b).preProc)
  | handle {i : Fin c.numMachines} (hx : s.exec = .handle b i) :
      Runs s b (.transition b i) ((s.serving b).handleEvent i)
  | transition {i : Fin c.numMachines} (hx : s.exec = .transition b i) :
      Runs s b (.machine b (i + 1)) ((s.serving b).transition i)
  | notify (hx : s.exec = .notify b) : Runs s b (.release b) (s.serving b).postNotification

/-- Everything a step can do. -/
inductive Trans (s : Loop c) : Act → Loop c → Prop
  | post (category : UInt32) (evt : Event) (byAction : Bool) :
      Trans s (.post category evt byAction) { s with posts := s.posts ++ [⟨category, evt, byAction, .alloc⟩] }
  | alloc {i b : ℕ} {p : Post} {pool : Store} (hp : s.posts[i]? = some p) (hpc : p.pc = .alloc)
      (hq : s.pool.dequeue = some (b, pool)) : Trans s (.call i) { s.setPost i p (.add b) with pool := pool }
  | allocTrips {i : ℕ} {p : Post} (hp : s.posts[i]? = some p) (hpc : p.pc = .alloc) (hq : s.pool.dequeue = none) :
      Trans s (.call i) { s with tripped := true }
  | add {i b : ℕ} {p : Post} (hp : s.posts[i]? = some p) (hpc : p.pc = .add b) :
      Trans s (.call i) { s.setPost i p (.copy b) with pool := s.pool.fetchAdd b }
  | copy {i b : ℕ} {p : Post} (hp : s.posts[i]? = some p) (hpc : p.pc = .copy b) :
      Trans s (.call i) { s.setPost i p (.stamp b) with memory := Function.update s.memory b p.evt }
  | stamp {i b : ℕ} {p : Post} (hp : s.posts[i]? = some p) (hpc : p.pc = .stamp b) :
      Trans s (.call i) { s.setPost i p (.dispatch b) with
        memory := Function.update s.memory b
          { s.memory b with eventLoop := c.self, eventId := p.category, toString := p.evt.toString } }
  | dispatch {i b : ℕ} {p : Post} {q : Dispatch.Queue} (hp : s.posts[i]? = some p) (hpc : p.pc = .dispatch b)
      (hq : s.queue.step (.post ⟨stateEventLoopExecQueueF, b, 0⟩ p.byAction) = some q) :
      Trans s (.call i) { s.setPost i p (.wait b s.queue.calls.length) with queue := q }
  | pass {i b j : ℕ} {p : Post} {q : Dispatch.Queue} (hp : s.posts[i]? = some p) (hpc : p.pc = .wait b j)
      (hq : s.queue.step (.call j) = some q)
      (hr : ∀ retval, (q.calls[j]?).map Dispatch.Call.pc ≠ some (.returned retval)) :
      Trans s (.call i) { s with queue := q }
  | handOver {i b j : ℕ} {p : Post} {q : Dispatch.Queue} (hp : s.posts[i]? = some p) (hpc : p.pc = .wait b j)
      (hq : s.queue.step (.call j) = some q) (hr : (q.calls[j]?).map Dispatch.Call.pc = some (.returned true)) :
      Trans s (.call i) { s.setPost i p .returned with queue := q, posted := s.posted ++ [p.event c] }
  | refused {i b j : ℕ} {p : Post} {q : Dispatch.Queue} (hp : s.posts[i]? = some p) (hpc : p.pc = .wait b j)
      (hq : s.queue.step (.call j) = some q) (hr : (q.calls[j]?).map Dispatch.Call.pc = some (.returned false)) :
      Trans s (.call i) { s.setPost i p .returned with queue := q }
  | overwrite {i : ℕ} {p : Post} (evt : Event) (hp : s.posts[i]? = some p) (hpc : p.pc = .returned) :
      Trans s (.overwrite i evt) { s with posts := s.posts.set i { p with evt := evt } }
  | take {d : ℕ} {q : Dispatch.Queue} (hx : s.exec.block = none) (hq : s.queue.step .worker = some q)
      (hw : s.queue.worker = .call d) : Trans s .work { s with queue := q, exec := .load (s.queue.blocks d).2.arg1 }
  | turn {q : Dispatch.Queue} (hx : s.exec.block = none) (hq : s.queue.step .worker = some q)
      (hw : ∀ d, s.queue.worker ≠ .call d) : Trans s .work { s with queue := q, exec := .idle }
  | load {b : ℕ} (hx : s.exec = .load b) : Trans s .work { s with exec := .preProc b }
  | foreign {b : ℕ} (hx : s.exec = .load b) (hne : (s.memory b).eventLoop ≠ c.self) :
      Trans s .work { s with tripped := true }
  | run {b : ℕ} {exec : ExecPc c.numMachines} {r : Option (Serving c)} (hr : Runs s b exec r) :
      Trans s .work (s.served b exec r)
  | release {b : ℕ} (hx : s.exec = .release b) (h1 : s.pool.retainCount b = 1) :
      Trans s .work { s with pool := s.pool.fetchSub b, exec := .enqueue b }
  | releaseOdd {b : ℕ} {s' : Loop c} (hx : s.exec = .release b) (h1 : s.pool.retainCount b ≠ 1) : Trans s .work s'
  | enqueue {b : ℕ} (hx : s.exec = .enqueue b) : Trans s .work { s with pool := s.pool.enqueue b, exec := .done }

theorem call_trans {i : ℕ} {p : Post} (hp : s.posts[i]? = some p) (hs : s.callStep i p = some s') :
    Trans s (.call i) s' := by
  unfold callStep at hs
  cases hpc : p.pc with
  | alloc =>
    simp only [hpc] at hs
    split at hs
    · rename_i b pool hq
      obtain rfl := Option.some.inj hs
      exact .alloc hp hpc hq
    · rename_i hq
      obtain rfl := Option.some.inj hs
      exact .allocTrips hp hpc hq
  | add b =>
    simp only [hpc] at hs
    obtain rfl := Option.some.inj hs
    exact .add hp hpc
  | copy b =>
    simp only [hpc] at hs
    obtain rfl := Option.some.inj hs
    exact .copy hp hpc
  | stamp b =>
    simp only [hpc] at hs
    obtain rfl := Option.some.inj hs
    exact .stamp hp hpc
  | dispatch b =>
    simp only [hpc] at hs
    obtain ⟨q, hq, rfl⟩ := Option.map_eq_some_iff.1 hs
    exact .dispatch hp hpc hq
  | wait b j =>
    simp only [hpc] at hs
    obtain ⟨q, hq, rfl⟩ := Option.map_eq_some_iff.1 hs
    split
    · -- what `dispatch_async_f` came back with decides it
      exact .handOver hp hpc hq ‹_›
    · exact .refused hp hpc hq ‹_›
    · rename_i h1 h2
      refine .pass hp hpc hq fun retval heq => ?_
      cases retval with
      | true => exact h1 heq
      | false => exact h2 heq
  | returned =>
    simp only [hpc] at hs
    cases hs

theorem work_trans (hs : s.workStep = some s') : Trans s .work s' := by
  -- between two events the step is one of the dispatch worker
  have hqueue : s.exec.block = none →
      ((s.queue.step .worker).map fun q => { s with queue := q, exec := s.entry }) = some s' →
      Trans s .work s' := by
    intro hx hs
    obtain ⟨q, hq, rfl⟩ := Option.map_eq_some_iff.1 hs
    unfold entry
    cases hw : s.queue.worker with
    | call d => exact .take hx hq hw
    | _ => exact .turn hx hq (by rw [hw]; nofun)
  unfold workStep at hs
  cases hx : s.exec with
  | idle => exact hqueue (by rw [hx]; rfl) (by simpa only [hx] using hs)
  | done => exact hqueue (by rw [hx]; rfl) (by simpa only [hx] using hs)
  | load b =>
    simp only [hx] at hs
    split at hs
    · obtain rfl := Option.some.inj hs
      exact .load hx
    · -- an event of another loop, where the model stops; the invariant says that there is none
      rename_i hne
      obtain rfl := Option.some.inj hs
      rw [← hx]
      exact .foreign hx hne
  | preProc b =>
    simp only [hx] at hs
    obtain rfl := Option.some.inj hs
    exact .run (.preProc hx)
  | handle b i =>
    simp only [hx] at hs
    obtain rfl := Option.some.inj hs
    exact .run (.handle hx)
  | transition b i =>
    simp only [hx] at hs
    obtain rfl := Option.some.inj hs
    exact .run (.transition hx)
  | notify b =>
    simp only [hx] at hs
    obtain rfl := Option.some.inj hs
    exact .run (.notify hx)
  | release b =>
    simp only [hx] at hs
    split at hs
    · rename_i h0
      exact .releaseOdd hx (by omega)
    · split at hs
      · rename_i h1
        obtain rfl := Option.some.inj hs
        exact .release hx h1
      · rename_i h1
        exact .releaseOdd hx h1
  | enqueue b =>
    simp only [hx] at hs
    obtain rfl := Option.some.inj hs
    exact .enqueue hx

/-- **Every step is one of these.** -/
theorem step_trans (hs : s.step a = some s') : Trans s a s' := by
  unfold step at hs
  split at hs
  · cases hs
  cases a with
  | post category evt byAction =>
    dsimp only at hs
    split at hs
    · cases hs
    · obtain rfl := Option.some.inj hs
      exact .post category evt byAction
  | call i =>
    obtain ⟨p, hp, hs⟩ := Option.bind_eq_some_iff.1 hs
    exact call_trans hp hs
  | overwrite i evt =>
    dsimp only at hs
    split at hs
    · rename_i p hp
      split at hs
      · cases hs
      · rename_i hpc
        obtain rfl := Option.some.inj hs
        refine .overwrite evt hp ?_
        cases h : p.pc <;> rw [h] at hpc <;> first | rfl | exact absurd rfl hpc
    · cases hs
  | work =>
    dsimp only at hs
    split at hs
    · cases hs
    · exact work_trans hs

/-- The blocks at the dispatch queue, in the order in which the worker takes them. -/
def waiting (s : Loop c) : List ℕ := s.queue.pending.map (·.2.arg1)

/-- **What holds of the queue, the blocks and the bytes** in every run. -/
structure Held (s : Loop c) : Prop where
  tied : Tied c.queueSize s.queue s.posts
  working : s.exec = .idle ↔ s.queue.worker.inAction = false
  owned : Owned c.queueSize s.pool s.posts s.waiting s.exec.block s.exec.ref
  kept : Kept c s.memory s.posts s.waiting (s.posted.drop s.queue.executed.length)
  length : s.posted.length = s.queue.enqueued.length
  category : ∀ p ∈ s.posts, p.category < c.listeners.notifier.totalNotificationCategories
  posted : ∀ e ∈ s.posted, e.Valid c ∧ e.eventLoop = c.self
  count : s.posts.countP (fun p => p.pc == .returned) = s.posted.length

section Held

variable {i j : ℕ} {p : Post} {pc : PostPc} {q : Dispatch.Queue}

theorem Held.executed_le (h : Held s) : s.queue.executed.length ≤ s.posted.length := by
  rw [h.length, (Dispatch.Queue.reach_inv h.tied.queue).fifo, List.length_append]
  omega

/-- A post goes on that has not returned. -/
theorem Held.category_set (h : Held s) (hp : s.posts[i]? = some p) (pc : PostPc) :
    ∀ u ∈ s.posts.set i { p with pc := pc }, u.category < c.listeners.notifier.totalNotificationCategories := by
  intro u hu
  rcases List.mem_or_eq_of_mem_set hu with hu | rfl
  · exact h.category u hu
  · exact h.category p (List.mem_of_getElem? hp)

theorem Held.count_set (h : Held s) (hp : s.posts[i]? = some p) (hpc : p.pc ≠ .returned) (hpc' : pc ≠ .returned) :
    (s.posts.set i { p with pc := pc }).countP (fun p => p.pc == .returned) = s.posted.length := by
  have hset := List.countP_set_add (y := ({ p with pc := pc } : Post)) (fun p => p.pc == .returned) hp
  rw [h.count] at hset
  simpa [hpc, hpc'] using hset

/-- The worker goes on inside the action. -/
theorem Held.inside (h : Held s) (hx : s.exec ≠ .idle) {x : ExecPc c.numMachines} (hx' : x ≠ .idle) :
    x = .idle ↔ s.queue.worker.inAction = false :=
  ⟨fun heq => absurd heq hx', fun hw => absurd (h.working.2 hw) hx⟩

/-- The queue's own steps that neither enqueue nor execute. -/
theorem Held.waiting_eq (h : Held s) (hq : Sys.Reach (Dispatch.Queue.system c.queueSize) (fun _ a => a ≠ .destroy) q)
    (he : q.enqueued = s.queue.enqueued) (hx : q.executed = s.queue.executed) :
    q.pending.map (fun x => x.2.arg1) = s.waiting := by
  have hpend := Dispatch.Queue.pending_eq (Dispatch.Queue.reach_inv h.tied.queue) (Dispatch.Queue.reach_inv hq)
    [] (by rw [he, List.append_nil]) hx
  rw [hpend, List.append_nil]
  rfl

/-- A post calls `dispatch_async_f`. -/
theorem Held.dispatch (h : Held s) (hp : s.posts[i]? = some p) (hpc : p.pc = .dispatch b)
    (hq : s.queue.step (.post ⟨stateEventLoopExecQueueF, b, 0⟩ p.byAction) = some q) :
    Held { s.setPost i p (.wait b s.queue.calls.length) with queue := q } := by
  have htied := h.tied.dispatch hp hpc hq
  have hqq := Dispatch.Queue.step_post hq
  have hwait := h.waiting_eq htied.queue (by rw [hqq]) (by rw [hqq])
  have hmem := h.kept.stamped hp (b := b) (by rw [hpc]; rfl)
  refine ⟨htied, ?_, ?_, ?_, ?_, h.category_set hp _, h.posted, h.count_set hp (by rw [hpc]; simp) (by simp)⟩
  · rw [hqq]
    exact h.working
  · change Owned _ _ _ (q.pending.map fun x => x.2.arg1) _ _
    rw [hwait]
    exact h.owned.keep hp (by rw [hpc]; rfl) (by rw [hpc]; rfl)
  · change Kept _ _ _ (q.pending.map fun x => x.2.arg1) (s.posted.drop q.executed.length)
    rw [hwait, hqq]
    refine h.kept.set (by simp) ?_
    rintro b' ⟨⟩
    exact hmem
  · rw [hqq]
    exact h.length

/-- What a post at its call has been promised. -/
theorem room_call (hroom : Room s (.call i)) (hp : s.posts[i]? = some p) (hpc : p.pc = .wait b j) :
    (s.queue.calls[j]?).map Dispatch.Call.pc = some .alloc → s.queue.pool ≠ [] := by
  simpa only [Room, hp, Option.map_some, hpc] using hroom

/-- The call of a post goes on. -/
theorem Held.pass (h : Held s) (hroom : Room s (.call i)) (hp : s.posts[i]? = some p) (hpc : p.pc = .wait b j)
    (hq : s.queue.step (.call j) = some q)
    (hr : ∀ retval, (q.calls[j]?).map Dispatch.Call.pc ≠ some (.returned retval)) : Held { s with queue := q } := by
  have htied := h.tied.pass hp hpc (room_call hroom hp hpc) hq hr
  obtain ⟨k, pc, hk, -, hcalls, -, hexec, hworker, -, henq⟩ :=
    Dispatch.Queue.step_call h.tied.queue (room_call hroom hp hpc) hq
  have hnot : pc ≠ .returned true := by
    rintro rfl
    refine hr true ?_
    rw [hcalls, List.get_set_self hk]
    rfl
  rw [if_neg hnot, List.append_nil] at henq
  have hwait := h.waiting_eq htied.queue henq hexec
  refine ⟨htied, by rw [hworker]; exact h.working, ?_, ?_, by rw [henq]; exact h.length, h.category, h.posted, h.count⟩
  · change Owned _ _ _ (q.pending.map fun x => x.2.arg1) _ _
    rw [hwait]
    exact h.owned
  · change Kept _ _ _ (q.pending.map fun x => x.2.arg1) (s.posted.drop q.executed.length)
    rw [hwait, hexec]
    exact h.kept

/-- **A post hands its event over.** -/
theorem Held.handOver (h : Held s) (hroom : Room s (.call i)) (hp : s.posts[i]? = some p) (hpc : p.pc = .wait b j)
    (hq : s.queue.step (.call j) = some q) (hr : (q.calls[j]?).map Dispatch.Call.pc = some (.returned true)) :
    q.executed = s.queue.executed ∧
      Held { s.setPost i p .returned with queue := q, posted := s.posted ++ [p.event c] } := by
  have htied := h.tied.handOver hp hpc (room_call hroom hp hpc) hq hr
  obtain ⟨k, pc, hk, -, hcalls, -, hexec, hworker, -, henq⟩ :=
    Dispatch.Queue.step_call h.tied.queue (room_call hroom hp hpc) hq
  have hpc' : pc = .returned true := by
    rw [hcalls, List.get_set_self hk] at hr
    exact Option.some.inj hr
  rw [if_pos hpc'] at henq
  -- the call is that of this post, so what it enqueues is the post's block
  obtain ⟨pc₀, hk₀, -⟩ := h.tied.call hp hpc
  have hkeq := Option.some.inj (hk.symm.trans hk₀)
  have hwait : q.pending.map (fun x => x.2.arg1) = s.waiting ++ [b] := by
    rw [Dispatch.Queue.pending_eq (Dispatch.Queue.reach_inv h.tied.queue) (Dispatch.Queue.reach_inv htied.queue) _ henq
      hexec, List.map_append, hkeq]
    rfl
  have hmem := h.kept.stamped hp (b := b) (by rw [hpc]; rfl)
  have hle := h.executed_le
  refine ⟨hexec, htied, by rw [hworker]; exact h.working, ?_, ?_, ?_, h.category_set hp _, ?_, ?_⟩
  · change Owned _ _ _ (q.pending.map fun x => x.2.arg1) _ _
    rw [hwait]
    exact h.owned.handOver hp hpc
  · change Kept _ s.memory _ (q.pending.map fun x => x.2.arg1) ((s.posted ++ [p.event c]).drop q.executed.length)
    rw [hwait, hexec, List.drop_append_of_le_length hle, ← h.kept.queued]
    have hset : Kept c s.memory (s.posts.set i { p with pc := .returned }) s.waiting _ := h.kept.set (by simp) nofun
    exact ⟨hset.copied, hset.stamped, by rw [List.map_append, List.map_singleton, hmem]⟩
  · change (s.posted ++ [p.event c]).length = _
    rw [henq, List.length_append, List.length_append, h.length]
    rfl
  · intro e he
    rcases List.mem_append.1 he with he | he
    · exact h.posted e he
    · rw [List.mem_singleton.1 he]
      exact ⟨h.category p (List.mem_of_getElem? hp), rfl⟩
  · have hset := List.countP_set_add (y := ({ p with pc := .returned } : Post)) (fun p => p.pc == .returned) hp
    rw [h.count, hpc] at hset
    change (s.posts.set i _).countP _ = (s.posted ++ [p.event c]).length
    rw [List.length_append, List.length_singleton]
    simpa using hset

/-- **The worker takes the next event.** -/
theorem Held.take {d : ℕ} (h : Held s) (hx : s.exec.block = none) (hq : s.queue.step .worker = some q)
    (hw : s.queue.worker = .call d) :
    (∃ later, s.posted.drop s.queue.executed.length = s.memory (s.queue.blocks d).2.arg1 :: later) ∧
      q.executed.length = s.queue.executed.length + 1 ∧
      Held { s with queue := q, exec := .load (s.queue.blocks d).2.arg1 } := by
  have htied := h.tied.worker hq
  obtain ⟨hcalls, henq, -, hrun, -⟩ := Dispatch.Queue.step_worker hq
  obtain ⟨hexec, hrunning⟩ := hrun d hw
  have hpend := Dispatch.Queue.pending_run (Dispatch.Queue.reach_inv h.tied.queue) (Dispatch.Queue.reach_inv htied.queue)
    henq hexec
  have hwait : s.waiting = (s.queue.blocks d).2.arg1 :: q.pending.map (fun x => x.2.arg1) := by
    unfold waiting
    rw [hpend]
    rfl
  have hlater := h.kept.queued
  rw [hwait, List.map_cons] at hlater
  have hlen : q.executed.length = s.queue.executed.length + 1 := by rw [hexec, List.length_append]; rfl
  have ho := h.owned
  rw [hx, ExecPc.ref_none hx, hwait] at ho
  refine ⟨⟨_, hlater.symm⟩, hlen, htied, ?_, ho.take, ?_, by rw [henq]; exact h.length, h.category, h.posted, h.count⟩
  · rw [hrunning]
    simp [Dispatch.WorkerPc.inAction]
  · refine ⟨h.kept.copied, h.kept.stamped, ?_⟩
    change (q.pending.map fun x => x.2.arg1).map s.memory = s.posted.drop q.executed.length
    rw [hlen, ← List.tail_drop, ← hlater]
    rfl

/-- The worker goes on in `dispatch_queue_worker`. -/
theorem Held.turn (h : Held s) (hx : s.exec.block = none) (hq : s.queue.step .worker = some q)
    (hw : ∀ d, s.queue.worker ≠ .call d) :
    q.executed = s.queue.executed ∧ Held { s with queue := q, exec := .idle } := by
  have htied := h.tied.worker hq
  obtain ⟨hcalls, henq, -, -, hrest⟩ := Dispatch.Queue.step_worker hq
  obtain ⟨hexec, hout⟩ := hrest hw
  have hwait := h.waiting_eq htied.queue henq hexec
  have ho := h.owned
  rw [hx, ExecPc.ref_none hx] at ho
  refine ⟨hexec, htied, by simpa using hout, ?_, ?_, by rw [henq]; exact h.length, h.category, h.posted, h.count⟩
  · change Owned _ _ _ (q.pending.map fun x => x.2.arg1) _ _
    rw [hwait]
    exact ho
  · change Kept _ _ _ (q.pending.map fun x => x.2.arg1) (s.posted.drop q.executed.length)
    rw [hwait, hexec]
    exact h.kept

/-- Where client code runs, the worker has its block and the reference, before and after. -/
theorem Runs.refs {exec : ExecPc c.numMachines} {r : Option (Serving c)} (hr : Runs s b exec r) :
    s.exec.block = some b ∧ s.exec.ref = some b ∧ exec.block = some b ∧ exec.ref = some b := by
  cases hr with
  | preProc hx => rw [hx]; exact ⟨rfl, rfl, block_machine, ref_machine⟩
  | handle hx => rw [hx]; exact ⟨rfl, rfl, rfl, rfl⟩
  | transition hx => rw [hx]; exact ⟨rfl, rfl, block_machine, ref_machine⟩
  | notify hx => rw [hx]; exact ⟨rfl, rfl, rfl, rfl⟩

theorem Held.run (h : Held s) {exec : ExecPc c.numMachines} {x : Serving c} (hr : Runs s b exec (some x)) :
    Held (s.served b exec (some x)) := by
  obtain ⟨hb, href, hb', href'⟩ := hr.refs
  have ho := h.owned
  rw [hb, href] at ho
  have hne : ∀ {y : ExecPc c.numMachines}, y.block = some b → y ≠ .idle := by
    rintro y hy rfl
    cases hy
  refine { h with
    working := h.inside (hne hb) (hne hb')
    owned := ?_
    kept := h.kept.serve ho x.event }
  change Owned _ _ _ _ exec.block exec.ref
  rw [hb', href']
  exact ho

/-- **One step** keeps it. -/
theorem step_held (h : Held s) (hroom : Room s a) (hs : s.step a = some s') (hok : s'.tripped = false) : Held s' := by
  -- most steps of a post move its own entry; what its block holds goes with it
  cases step_trans hs with
  | post category evt byAction =>
    refine { h with
      tied := h.tied.post (by simp)
      owned := h.owned.begin rfl rfl
      kept := h.kept.begin rfl
      category := ?_
      count := ?_ }
    · intro p hp
      rcases List.mem_append.1 hp with hp | hp
      · exact h.category p hp
      · rw [List.mem_singleton.1 hp]
        exact hroom
    · rw [List.countP_append, h.count]
      rfl
  | @alloc i b p pool hp hpc hq =>
    exact { h with
      tied := h.tied.set hp (by rw [hpc]; simp) _ (by simp)
      owned := h.owned.alloc hp hpc hq
      kept := h.kept.set (by simp) nofun
      category := h.category_set hp _
      count := h.count_set hp (by rw [hpc]; simp) (by simp) }
  | allocTrips => cases hok
  | @add i b p hp hpc =>
    exact { h with
      tied := h.tied.set hp (by rw [hpc]; simp) _ (by simp)
      owned := h.owned.add hp hpc
      kept := h.kept.set (by simp) nofun
      category := h.category_set hp _
      count := h.count_set hp (by rw [hpc]; simp) (by simp) }
  | @copy i b p hp hpc =>
    exact { h with
      tied := h.tied.set hp (by rw [hpc]; simp) _ (by simp)
      owned := h.owned.keep hp (by rw [hpc]; rfl) (by rw [hpc]; rfl)
      kept := h.kept.write h.owned hp (by rw [hpc]; rfl) (by rintro b' ⟨⟩; exact ⟨rfl, rfl⟩) nofun
      category := h.category_set hp _
      count := h.count_set hp (by rw [hpc]; simp) (by simp) }
  | @stamp i b p hp hpc =>
    have hmem := h.kept.copied hp hpc
    refine { h with
      tied := h.tied.set hp (by rw [hpc]; simp) _ (by simp)
      owned := h.owned.keep hp (by rw [hpc]; rfl) (by rw [hpc]; rfl)
      kept := h.kept.write h.owned hp (by rw [hpc]; rfl) nofun ?_
      category := h.category_set hp _
      count := h.count_set hp (by rw [hpc]; simp) (by simp) }
    rintro b' ⟨⟩
    refine ⟨rfl, ?_⟩
    rw [hmem]
    rfl
  | dispatch hp hpc hq => exact h.dispatch hp hpc hq
  | pass hp hpc hq hr => exact h.pass hroom hp hpc hq hr
  | handOver hp hpc hq hr => exact (h.handOver hroom hp hpc hq hr).2
  | @refused i b j p q hp hpc hq hr =>
    obtain ⟨k, pc, hk, -, hcalls, hne, -⟩ := Dispatch.Queue.step_call h.tied.queue (room_call hroom hp hpc) hq
    rw [hcalls, List.get_set_self hk] at hr
    exact absurd (Option.some.inj hr) hne
  | @overwrite i p evt hp hpc =>
    refine { h with
      tied := h.tied.set hp (by rw [hpc]; simp) _ (by rw [hpc]; simp)
      owned := h.owned.keep hp rfl rfl
      kept := h.kept.set (by rw [hpc]; simp) (by rw [hpc]; nofun)
      category := ?_
      count := ?_ }
    · intro u hu
      rcases List.mem_or_eq_of_mem_set hu with hu | rfl
      · exact h.category u hu
      · exact h.category p (List.mem_of_getElem? hp)
    · have hset := List.countP_set_add (y := ({ p with evt := evt } : Post)) (fun p => p.pc == .returned) hp
      rw [h.count] at hset
      simpa using hset
  | take hx hq hw => exact (h.take hx hq hw).2.2
  | turn hx hq hw => exact (h.turn hx hq hw).2
  | @load b hx =>
    have ho := h.owned
    rw [hx] at ho
    exact { h with
      working := h.inside (by rw [hx]; simp) (by simp)
      owned := ho }
  | foreign => cases hok
  | @run b exec r hr =>
    cases r with
    | none => cases hok
    | some x => exact h.run hr
  | @release b hx h1 =>
    have ho := h.owned
    rw [hx] at ho
    exact { h with
      working := h.inside (by rw [hx]; simp) (by simp)
      owned := ho.release }
  | @releaseOdd b s' hx h1 =>
    have ho := h.owned
    rw [hx] at ho
    exact absurd ho.retainCount h1
  | @enqueue b hx =>
    have ho := h.owned
    rw [hx] at ho
    exact { h with
      working := h.inside (by rw [hx]; simp) (by simp)
      owned := ho.enqueue.2 }

end Held

end Loop

end Cutils.EventLoop
