import Cutils.Proof.EventLoopRun
import Cutils.Spec.EventLoopClosing
import Mathlib.Data.Finset.Card

/-!
# Posts to a state event loop that is shut down

Every block of the event pool is in the free queue, with a post, at the exec queue, or in use by the worker and by
clients that keep the event (`Accounted`), and its retain count is the number of its references. A post whose
`dispatch_async_f` call loads `destroying` after the shutdown has set it is refused there; it returns true all the same,
and its block is lost.

* `closing_posts`: as long as no post comes too late, a post that returned true has handed its event over, and the
  blocks in use are those of events; a post that comes too late breaks both.
-/

namespace Cutils.Dispatch.Queue

variable {q q' : Queue}

/-- The shutdown up to the teardown is not seen by calls, the worker, or the histories. -/
theorem step_shutdown {a : Act} (ha : a = .destroy ∨ a = .destroyer) (hs : q.step a = some q') :
    q'.calls = q.calls ∧ q'.enqueued = q.enqueued ∧ q'.executed = q.executed := by
  rcases ha with rfl | rfl
  · cases step_trans hs with
    | destroy => exact ⟨rfl, rfl, rfl⟩
  · cases step_trans hs with
    | kill | killTrips | joined | teardown => exact ⟨rfl, rfl, rfl⟩

/-- A call that finds `destroying` set is refused. -/
theorem step_refused {i : ℕ} {k : Call} (hk : q.calls[i]? = some k) (hpc : k.pc = .load) (hd : q.destroying = true)
    (hs : q.step (.call i) = some q') : q' = q.setCall i k (.returned false) := by
  unfold step at hs
  split at hs
  · cases hs
  · simpa [hk, callStep, hpc, hd] using hs.symm

end Cutils.Dispatch.Queue

namespace Cutils.EventLoop

open Blocks

/-- The block that the worker is about to put back in the free queue. -/
def ExecPc.giving {n : ℕ} : ExecPc n → Option ℕ
  | .enqueue b => some b
  | _ => none

theorem ExecPc.giving_none {n : ℕ} {pc : ExecPc n} (h : pc.block = none) : pc.giving = none := by
  cases pc <;> first | rfl | cases h

section Users

variable {n i b : ℕ} {pool : Store} {posts : List Post} {waiting users users' giving giving' : List ℕ}

/-- **Blocks in use**: `users` has an entry for each reference of the worker and of clients, `giving` the blocks that
have no reference any more and go back to the free queue. -/
abbrev Shared (n : ℕ) (pool : Store) (posts : List Post) (waiting users giving : List ℕ) : Prop :=
  Counted n pool posts waiting (fun j => min 1 (users.count j) + giving.count j) (users.count ·)

/-- A block that is in use is with no post and not at the exec queue: its references are those in `users`. -/
theorem Shared.user (h : Shared n pool posts waiting users giving) (hb : b ∈ users) :
    b < n ∧ pool.retainCount b = users.count b := by
  have honce := h.once b
  have hrange := count_range (n := n) b
  have hpos := List.count_pos_iff.2 hb
  have hlt : b < n := lt_of_count (by omega)
  have hle : posts.countP (fun p => p.pc.ref == some b) ≤ _ := countP_ref_le b
  have hrefs := h.refs b hlt
  exact ⟨hlt, by omega⟩

/-- A client keeps an event that is in use. -/
theorem Shared.retain (h : Shared n pool posts waiting users giving) (hb : b ∈ users) :
    Shared n (pool.fetchAdd b) posts waiting (users ++ [b]) giving := by
  have hpos := List.count_pos_iff.2 hb
  refine ⟨h.size, h.live, fun j => ?_, fun j hlt => ?_⟩
  · have honce := h.once j
    have hsame : min 1 ((users ++ [b]).count j) = min 1 (users.count j) := by
      rw [List.count_append]
      by_cases hj : b = j
      · subst hj
        omega
      · simp [hj]
    change pool.free.count j + _ + _ + (min 1 ((users ++ [b]).count j) + _) = _
    rw [hsame]
    exact honce
  · have hrefs := h.refs j hlt
    rw [fetchAdd_count, List.count_append]
    omega

/-- A reference is dropped; with the last one, the block is to go back. -/
theorem Shared.drop (h : Shared n pool posts waiting users giving) (husers : ∀ j, users'.count j + [b].count j = users.count j)
    (hgiving : ∀ j, giving'.count j = giving.count j + if pool.retainCount b = 1 then [b].count j else 0) :
    Shared n (pool.fetchSub b) posts waiting users' giving' := by
  have hb := husers b
  rw [List.count_singleton_self] at hb
  -- the retain count tells whether this is the last reference
  obtain ⟨hlt, hcount⟩ := h.user (b := b) (List.count_pos_iff.1 (by omega))
  refine h.release hlt husers fun j => ?_
  have hj := husers j
  have hg := hgiving j
  by_cases hbj : b = j
  · subst hbj
    rw [List.count_singleton_self] at hj hg
    split at hg <;> omega
  · have hzero : [b].count j = 0 := by simp [hbj]
    rw [hzero] at hj hg
    rw [ite_self] at hg
    omega

/-- The block goes back. -/
theorem Shared.giveBack (h : Shared n pool posts waiting users giving)
    (hgiving : ∀ j, giving'.count j + [b].count j = giving.count j) :
    Shared n (pool.enqueue b) posts waiting users giving' := by
  refine (h.enqueue fun j => ?_).2
  have hj := hgiving j
  omega

/-- The worker takes the first event that waits. -/
theorem Shared.take {rest : List ℕ} (h : Shared n pool posts (b :: rest) users giving) :
    Shared n pool posts rest (b :: users) giving := by
  -- it was at the exec queue, so nobody used it
  have hnone : users.count b = 0 := by
    have honce := h.once b
    have hrange := count_range (n := n) b
    rw [List.count_cons_self] at honce
    omega
  refine Counted.take h (fun j => ?_) fun j => by rw [List.count_head_add]; omega
  rw [List.count_head_add]
  by_cases hj : b = j
  · subst hj
    rw [List.count_singleton_self, hnone]
    omega
  · have hzero : [b].count j = 0 := by simp [hj]
    omega

end Users

namespace Loop

variable {W : Type} {c : Config W} {l l' : Loop c} {b : ℕ}

/-- The worker's release, with whatever references there are. -/
theorem step_release (hx : l.exec = .release b) (hs : l.step .work = some l') :
    l' = { l with tripped := true } ∨ l' = { l with
      pool := l.pool.fetchSub b
      exec := if l.pool.retainCount b = 1 then .enqueue b else .done } := by
  unfold step at hs
  split at hs
  · cases hs
  dsimp only at hs
  split at hs
  · cases hs
  simp only [workStep, hx] at hs
  split at hs
  · obtain rfl := Option.some.inj hs
    exact .inl (by rw [hx])
  · split at hs
    · rename_i h1
      obtain rfl := Option.some.inj hs
      exact .inr (by rw [if_pos h1])
    · rename_i h1
      obtain rfl := Option.some.inj hs
      exact .inr (by rw [if_neg h1])

end Loop

namespace Closing

variable {W : Type} {c : Config W} {s s' : Closing c} {l : Loop c} {b i j : ℕ} {p : Post}

/-- The references of the worker and of clients. -/
def users (s : Closing c) : List ℕ := s.loop.exec.ref.toList ++ s.retained

def giving (s : Closing c) : List ℕ := s.loop.exec.giving.toList ++ s.freeing

/-- **What holds while the loop is shut down.** -/
structure Accounted (s : Closing c) : Prop where
  queue : s.loop.queue.Inv
  calls : Calls s.loop.queue s.loop.posts
  blocks : Shared c.queueSize s.loop.pool s.loop.posts s.loop.waiting s.users s.giving
  handed : ∀ {i : ℕ} {p : Post}, s.loop.posts[i]? = some p → (p.pc = .returned ↔ i ∈ s.handed)
  known : ∀ i ∈ s.handed, i < s.loop.posts.length

/-- A step that leaves the queue, the posts, the pool and the worker's hold of its block alone. -/
theorem Accounted.aside (h : Accounted s) (hq : l.queue = s.loop.queue) (hposts : l.posts = s.loop.posts)
    (hpool : l.pool = s.loop.pool) (href : l.exec.ref = s.loop.exec.ref)
    (hgiving : l.exec.giving = s.loop.exec.giving) : Accounted { s with loop := l } := by
  have hb := h.blocks
  unfold users giving Loop.waiting at hb
  refine ⟨?_, ?_, ?_, ?_, ?_⟩
  · rw [hq]
    exact h.queue
  · rw [hq, hposts]
    exact h.calls
  · unfold users giving Loop.waiting
    dsimp only
    rw [hq, hposts, hpool, href, hgiving]
    exact hb
  · rw [hposts]
    exact h.handed
  · rw [hposts]
    exact h.known

/-- A post goes on outside of `dispatch_async_f`, and has not returned. -/
theorem Accounted.post (h : Accounted s) {pool : Store} {memory : ℕ → Event} {pc : PostPc} (hp : s.loop.posts[i]? = some p)
    (hpc : p.pc ≠ .returned) (hpc' : pc ≠ .returned) (hwait : ∀ b j, pc ≠ .wait b j)
    (hb : Shared c.queueSize pool (s.loop.posts.set i { p with pc := pc }) s.loop.waiting s.users s.giving) :
    Accounted { s with loop := { s.loop.setPost i p pc with pool := pool, memory := memory } } := by
  refine ⟨h.queue, h.calls.set _ hwait, hb, ?_, ?_⟩
  · intro j u hj
    rcases List.get_set hj with ⟨rfl, rfl⟩ | ⟨-, hj⟩
    · rw [← h.handed hp]
      exact ⟨fun heq => absurd heq hpc', fun heq => absurd heq hpc⟩
    · exact h.handed hj
  · intro j hj
    have hlt := h.known j hj
    simpa [Loop.setPost] using hlt

/-- What waits at the exec queue, after a step of it. -/
theorem Accounted.waiting_eq (h : Accounted s) {a : Dispatch.Act} {q : Dispatch.Queue} (hq : s.loop.queue.step a = some q)
    {more : List (ℕ × Dispatch.PostData)} (he : q.enqueued = s.loop.queue.enqueued ++ more)
    (hx : q.executed = s.loop.queue.executed) :
    q.pending.map (fun x => x.2.arg1) = s.loop.waiting ++ more.map fun x => x.2.arg1 := by
  rw [Dispatch.Queue.pending_eq h.queue (Dispatch.Queue.step_inv h.queue hq) more he hx, List.map_append]
  rfl

/-- A step of the exec queue that neither enqueues nor executes, nor moves a call. -/
theorem Accounted.setQueue (h : Accounted s) {a : Dispatch.Act} {q : Dispatch.Queue} (hq : s.loop.queue.step a = some q)
    (hcalls : Calls q s.loop.posts) (he : q.enqueued = s.loop.queue.enqueued)
    (hx : q.executed = s.loop.queue.executed) : Accounted (s.setQueue q) := by
  have hwait := h.waiting_eq hq (by rw [he, List.append_nil]) hx
  refine ⟨Dispatch.Queue.step_inv h.queue hq, hcalls, ?_, h.handed, h.known⟩
  change Shared _ _ _ (q.pending.map fun x => x.2.arg1) _ _
  rw [hwait, List.map_nil, List.append_nil]
  exact h.blocks

section Loop

variable {a : Act} {q : Dispatch.Queue}

/-- A step of the loop in which nothing is handed over. -/
theorem Accounted.quiet (h : Accounted { s with loop := l }) (hposted : l.posted = s.loop.posted) :
    Accounted { s with loop := l, handed := s.handed ++ s.handing a l } := by
  have hnone : s.handing a l = [] := by
    unfold handing
    rw [hposted]
    cases a <;> simp
  rw [hnone, List.append_nil]
  exact h

theorem Accounted.begin (h : Accounted s) (hpc : p.pc = .alloc) :
    Accounted { s with loop := { s.loop with posts := s.loop.posts ++ [p] } } := by
  refine ⟨h.queue, h.calls.post (by rw [hpc]; simp), ?_, ?_, ?_⟩
  · exact Counted.begin h.blocks (by rw [hpc]; rfl) (by rw [hpc]; rfl)
  · intro i u hi
    rcases List.get_append_singleton hi with ⟨rfl, rfl⟩ | hi
    · rw [hpc]
      refine ⟨nofun, fun hmem => ?_⟩
      exact absurd (h.known _ hmem) (Nat.lt_irrefl _)
    · exact h.handed hi
  · intro i hi
    have hlt := h.known i hi
    simp only [List.length_append, List.length_singleton]
    omega

/-- A post calls `dispatch_async_f`. -/
theorem Accounted.dispatch (h : Accounted s) (hp : s.loop.posts[i]? = some p) (hpc : p.pc = .dispatch b)
    (hq : s.loop.queue.step (.post ⟨stateEventLoopExecQueueF, b, 0⟩ p.byAction) = some q) :
    Accounted { s with loop := { s.loop.setPost i p (.wait b s.loop.queue.calls.length) with queue := q } } := by
  have heq := Dispatch.Queue.step_post hq
  have hwait := h.waiting_eq hq (show q.enqueued = s.loop.queue.enqueued ++ [] by rw [heq, List.append_nil]) (by rw [heq])
  refine ⟨Dispatch.Queue.step_inv h.queue hq, h.calls.dispatch hq, ?_, ?_, ?_⟩
  · change Shared _ _ _ (q.pending.map fun x => x.2.arg1) _ _
    rw [hwait, List.map_nil, List.append_nil]
    exact Counted.keep h.blocks hp (by rw [hpc]; rfl) (by rw [hpc]; rfl)
  · intro j u hj
    rcases List.get_set hj with ⟨rfl, rfl⟩ | ⟨-, hj⟩
    · rw [← h.handed hp, hpc]
      simp
    · exact h.handed hj
  · intro j hj
    simpa [Loop.setPost] using h.known j hj

/-- The call of a post goes on, or trips an assertion. -/
theorem Accounted.pass (h : Accounted s) (hp : s.loop.posts[i]? = some p) (hpc : p.pc = .wait b j)
    (hq : s.loop.queue.step (.call j) = some q)
    (hr : ∀ retval, (q.calls[j]?).map Dispatch.Call.pc ≠ some (.returned retval)) : Accounted (s.setQueue q) := by
  rcases Dispatch.Queue.step_call_any h.queue hq with ⟨heq, -⟩ | heq | ⟨k, pc, hk, hin, hcalls, -, hexec, -, -, henq⟩
  · exact h.setQueue hq (h.calls.keep (by rw [heq])) (by rw [heq]) (by rw [heq])
  · exact h.setQueue hq (h.calls.keep (by rw [heq])) (by rw [heq]) (by rw [heq])
  · have hself := List.get_set_self (x := ({ k with pc := pc } : Dispatch.Call)) hk
    have hne : ∀ retval, pc ≠ .returned retval := by
      rintro retval rfl
      refine hr retval ?_
      rw [hcalls, hself]
      rfl
    have hprog : pc.inProgress = true := by
      cases hpc' : pc with
      | returned retval => exact absurd hpc' (hne retval)
      | _ => rfl
    rw [if_neg (hne true), List.append_nil] at henq
    exact h.setQueue hq (h.calls.pass hp hpc hk hcalls hprog) henq hexec

/-- The call of a post returns. -/
theorem Accounted.returns (h : Accounted s) {retval : Bool} (hp : s.loop.posts[i]? = some p) (hpc : p.pc = .wait b j)
    (hq : s.loop.queue.step (.call j) = some q) (hr : (q.calls[j]?).map Dispatch.Call.pc = some (.returned retval)) :
    ∃ k, s.loop.queue.calls[j]? = some k ∧ k.post = ⟨stateEventLoopExecQueueF, b, 0⟩ ∧
      q.calls = s.loop.queue.calls.set j { k with pc := .returned retval } ∧
      (retval = false → k.pc = .load ∧ s.loop.queue.destroying = true) ∧ q.executed = s.loop.queue.executed ∧
      q.enqueued = s.loop.queue.enqueued ++ if retval then [(j, k.post)] else [] := by
  obtain ⟨pc₀, hk₀, hin₀⟩ := h.calls.call hp hpc
  -- a call that trips an assertion stays where it is
  have hstill : q.calls ≠ s.loop.queue.calls := by
    intro heq
    rw [heq, hk₀, Option.map_some, Option.some.injEq] at hr
    dsimp only at hr
    rw [hr] at hin₀
    cases hin₀
  rcases Dispatch.Queue.step_call_any h.queue hq with ⟨heq, -⟩ | heq | ⟨k, pc, hk, -, hcalls, hfalse, hexec, -, -, henq⟩
  · exact absurd (by rw [heq]) hstill
  · exact absurd (by rw [heq]) hstill
  · obtain rfl : pc = .returned retval := by
      rw [hcalls, List.get_set_self hk] at hr
      exact Option.some.inj hr
    have hkeq := Option.some.inj (hk.symm.trans hk₀)
    refine ⟨k, hk, by rw [hkeq], hcalls, fun hret => hfalse.1 (by rw [hret]), hexec, ?_⟩
    rw [henq]
    cases retval <;> simp

/-- **A post hands its event over.** -/
theorem Accounted.handOver (h : Accounted s) (hp : s.loop.posts[i]? = some p) (hpc : p.pc = .wait b j)
    (hq : s.loop.queue.step (.call j) = some q) (hr : (q.calls[j]?).map Dispatch.Call.pc = some (.returned true)) :
    Accounted { s with
      loop := { s.loop.setPost i p .returned with queue := q, posted := s.loop.posted ++ [p.event c] }
      handed := s.handed ++ [i] } := by
  obtain ⟨k, hk, hpost, hcalls, -, hexec, henq⟩ := h.returns hp hpc hq hr
  have hwait := h.waiting_eq hq henq hexec
  rw [if_pos rfl, List.map_singleton, hpost] at hwait
  refine ⟨Dispatch.Queue.step_inv h.queue hq, h.calls.leave hp hpc hcalls, ?_, ?_, ?_⟩
  · change Shared _ _ _ (q.pending.map fun x => x.2.arg1) _ _
    rw [hwait]
    exact Counted.handOver h.blocks hp hpc
  · intro i' u hi
    rw [List.mem_append, List.mem_singleton]
    rcases List.get_set hi with ⟨rfl, rfl⟩ | ⟨hne, hi⟩
    · simp
    · rw [h.handed hi]
      simp [hne]
  · intro i' hi
    rcases List.mem_append.1 hi with hi | hi
    · simpa [Loop.setPost] using h.known i' hi
    · rw [List.mem_singleton.1 hi]
      simpa [Loop.setPost] using (List.getElem?_eq_some_iff.1 hp).1

/-- The worker puts its block back in the free queue. -/
theorem Accounted.enqueue (h : Accounted s) (hx : s.loop.exec = .enqueue b) :
    Accounted { s with loop := { s.loop with pool := s.loop.pool.enqueue b, exec := .done } } := by
  have hb := h.blocks
  unfold users giving at hb
  rw [hx] at hb
  refine ⟨h.queue, h.calls, Shared.giveBack hb fun j => ?_, h.handed, h.known⟩
  unfold giving
  simp [ExecPc.giving, List.count_cons]

/-- The worker drops its reference. -/
theorem Accounted.release (h : Accounted s) (hx : s.loop.exec = .release b) :
    Accounted { s with loop := { s.loop with
      pool := s.loop.pool.fetchSub b
      exec := if s.loop.pool.retainCount b = 1 then .enqueue b else .done } } := by
  have hb := h.blocks
  unfold users giving at hb
  rw [hx] at hb
  refine ⟨h.queue, h.calls, Shared.drop hb (fun j => ?_) fun j => ?_, h.handed, h.known⟩
  · unfold users
    split <;> simp [ExecPc.ref, List.count_cons]
  · unfold giving
    split <;> simp [ExecPc.giving, List.count_cons]

/-- **The worker takes the next event.** -/
theorem Accounted.take {d : ℕ} (h : Accounted s) (hx : s.loop.exec.block = none) (hq : s.loop.queue.step .worker = some q)
    (hw : s.loop.queue.worker = .call d) :
    Accounted { s with loop := { s.loop with queue := q, exec := .load (s.loop.queue.blocks d).2.arg1 } } := by
  obtain ⟨hcalls, henq, -, hrun, -⟩ := Dispatch.Queue.step_worker hq
  have hpend := Dispatch.Queue.pending_run h.queue (Dispatch.Queue.step_inv h.queue hq) henq (hrun d hw).1
  have hwait : s.loop.waiting = (s.loop.queue.blocks d).2.arg1 :: q.pending.map (fun x => x.2.arg1) := by
    unfold Loop.waiting
    rw [hpend]
    rfl
  have hb := h.blocks
  unfold users giving at hb
  rw [ExecPc.ref_none hx, ExecPc.giving_none hx, hwait] at hb
  exact ⟨Dispatch.Queue.step_inv h.queue hq, h.calls.keep hcalls, hb.take, h.handed, h.known⟩

/-- The worker goes on in `dispatch_queue_worker`. -/
theorem Accounted.turn (h : Accounted s) (hx : s.loop.exec.block = none) (hq : s.loop.queue.step .worker = some q)
    (hw : ∀ d, s.loop.queue.worker ≠ .call d) :
    Accounted { s with loop := { s.loop with queue := q, exec := .idle } } := by
  obtain ⟨hcalls, henq, -, -, hrest⟩ := Dispatch.Queue.step_worker hq
  have hqueue := h.setQueue hq (h.calls.keep hcalls) henq (hrest hw).1
  exact hqueue.aside rfl rfl rfl (ExecPc.ref_none hx).symm (ExecPc.giving_none hx).symm

/-- Where client code runs, the worker keeps its reference. -/
theorem Accounted.run (h : Accounted s) {exec : ExecPc c.numMachines} {r : Option (Serving c)}
    (hr : Loop.Runs s.loop b exec r) : Accounted { s with loop := s.loop.served b exec r } := by
  obtain ⟨hb, href, hb', href'⟩ := hr.refs
  have hgiving : ∀ {x : ExecPc c.numMachines}, x.ref = some b → x.giving = none := by
    intro x hx
    cases x <;> first | rfl | cases hx
  cases r with
  | none => exact h.aside rfl rfl rfl rfl rfl
  | some x => exact h.aside rfl rfl rfl (by rw [href]; exact href') (by rw [hgiving href]; exact hgiving href')

theorem Accounted.overwrite (h : Accounted s) (hp : s.loop.posts[i]? = some p) (hpc : p.pc = .returned) (evt : Event) :
    Accounted { s with loop := { s.loop with posts := s.loop.posts.set i { p with evt := evt } } } := by
  refine ⟨h.queue, h.calls.set _ (by rw [hpc]; simp), Counted.keep h.blocks hp rfl rfl, ?_, ?_⟩
  · intro j u hj
    rcases List.get_set hj with ⟨rfl, rfl⟩ | ⟨-, hj⟩
    · exact (h.handed hp :)
    · exact h.handed hj
  · intro j hj
    simpa using h.known j hj

/-- A refused post has come too late. -/
theorem not_refused (h : Accounted s) (hok : s.InTime (.loop (.call i))) (hp : s.loop.posts[i]? = some p)
    (hpc : p.pc = .wait b j) (hq : s.loop.queue.step (.call j) = some q) :
    (q.calls[j]?).map Dispatch.Call.pc ≠ some (.returned false) := by
  intro hr
  obtain ⟨k, hk, -, -, hfalse, -⟩ := h.returns hp hpc hq hr
  obtain ⟨hload, hd⟩ := hfalse rfl
  simp only [InTime, late, hp, Option.map_some, hpc, hk, hload, hd] at hok
  cases hok

/-- **A step of the loop**, by posts that come in time. -/
theorem Accounted.step_loop (h : Accounted s) (hok : s.InTime (.loop a)) (hs : s.loop.step a = some l) :
    Accounted { s with loop := l, handed := s.handed ++ s.handing a l } := by
  have hb := h.blocks
  cases Loop.step_trans hs with
  | post category evt byAction => exact Accounted.quiet (h.begin rfl) rfl
  | alloc hp hpc hq =>
    exact Accounted.quiet (h.post hp (by rw [hpc]; simp) (by simp) (by simp) (Counted.alloc hb hp hpc hq)) rfl
  | allocTrips => exact Accounted.quiet (h.aside rfl rfl rfl rfl rfl) rfl
  | add hp hpc => exact Accounted.quiet (h.post hp (by rw [hpc]; simp) (by simp) (by simp) (Counted.add hb hp hpc)) rfl
  | copy hp hpc =>
    refine Accounted.quiet (h.post hp (by rw [hpc]; simp) (by simp) (by simp) ?_) rfl
    exact Counted.keep hb hp (by rw [hpc]; rfl) (by rw [hpc]; rfl)
  | stamp hp hpc =>
    refine Accounted.quiet (h.post hp (by rw [hpc]; simp) (by simp) (by simp) ?_) rfl
    exact Counted.keep hb hp (by rw [hpc]; rfl) (by rw [hpc]; rfl)
  | dispatch hp hpc hq => exact Accounted.quiet (h.dispatch hp hpc hq) rfl
  | pass hp hpc hq hr => exact Accounted.quiet (h.pass hp hpc hq hr) rfl
  | @handOver i b j p q hp hpc hq hr =>
    have hone : s.handing (.call i) { s.loop.setPost i p .returned with
        queue := q, posted := s.loop.posted ++ [p.event c] } = [i] := by
      simp [handing]
    rw [hone]
    exact h.handOver hp hpc hq hr
  | refused hp hpc hq hr => exact absurd hr (not_refused h hok hp hpc hq)
  | overwrite evt hp hpc => exact Accounted.quiet (h.overwrite hp hpc evt) rfl
  | take hx hq hw => exact Accounted.quiet (h.take hx hq hw) rfl
  | turn hx hq hw => exact Accounted.quiet (h.turn hx hq hw) rfl
  | load hx => exact Accounted.quiet (h.aside rfl rfl rfl (by rw [hx]; rfl) (by rw [hx]; rfl)) rfl
  | foreign => exact Accounted.quiet (h.aside rfl rfl rfl rfl rfl) rfl
  | @run b exec r hr => exact Accounted.quiet (h.run hr) (by cases r <;> rfl)
  | release hx h1 =>
    have hr := h.release hx
    rw [if_pos h1] at hr
    exact hr.quiet rfl
  | releaseOdd hx h1 =>
    -- clients keep the event, and the block stays with them
    rcases Loop.step_release hx hs with rfl | rfl
    · exact Accounted.quiet (h.aside rfl rfl rfl rfl rfl) rfl
    · exact Accounted.quiet (h.release hx) rfl
  | enqueue hx => exact Accounted.quiet (h.enqueue hx) rfl

end Loop

section Clients

theorem count_erase_add {l : List ℕ} (hb : b ∈ l) (j : ℕ) : (l.erase b).count j + [b].count j = l.count j := by
  rw [(List.perm_cons_erase hb).count_eq j, List.count_singleton, List.count_cons]

theorem ref_of_client {n : ℕ} {pc : ExecPc n} (h : pc.client = some b) : pc.ref = some b := by
  cases pc <;> first | exact h | cases h

/-- A client keeps an event. -/
theorem Accounted.retain (h : Accounted s) (hs : s.retainStep b = some s') : Accounted s' := by
  unfold retainStep at hs
  split at hs
  · rename_i hclient
    obtain rfl := Option.some.inj hs
    have hb : b ∈ s.users := by
      unfold users
      rcases hclient with hclient | hkept
      · rw [ref_of_client hclient]
        simp
      · exact List.mem_append_right _ hkept
    have hblocks := h.blocks.retain hb
    refine ⟨h.queue, h.calls, ?_, h.handed, h.known⟩
    unfold users at hblocks
    rw [List.append_assoc] at hblocks
    exact hblocks
  · cases hs

/-- A client gives up a reference. -/
theorem Accounted.giveUp (h : Accounted s) (hs : s.releaseStep b = some s') : Accounted s' := by
  unfold releaseStep at hs
  split at hs
  · rename_i hb
    have husers : ∀ j, (s.loop.exec.ref.toList ++ s.retained.erase b).count j + [b].count j = s.users.count j := by
      intro j
      have herase := count_erase_add hb j
      unfold users
      rw [List.count_append, List.count_append]
      omega
    split at hs
    · obtain rfl := Option.some.inj hs
      exact h.aside rfl rfl rfl rfl rfl
    · split at hs
      · rename_i h1
        obtain rfl := Option.some.inj hs
        refine ⟨h.queue, h.calls, h.blocks.drop husers fun j => ?_, h.handed, h.known⟩
        unfold giving setPool
        rw [if_pos h1]
        simp only [List.count_append]
        omega
      · rename_i h1
        obtain rfl := Option.some.inj hs
        refine ⟨h.queue, h.calls, h.blocks.drop husers fun j => ?_, h.handed, h.known⟩
        rw [if_neg h1]
        rfl
  · cases hs

/-- The block goes back to the free queue. -/
theorem Accounted.giveBack (h : Accounted s) (hs : s.giveBackStep b = some s') : Accounted s' := by
  unfold giveBackStep at hs
  split at hs
  · rename_i hb
    obtain rfl := Option.some.inj hs
    refine ⟨h.queue, h.calls, h.blocks.giveBack fun j => ?_, h.handed, h.known⟩
    have herase := count_erase_add hb j
    unfold giving setPool
    simp only [List.count_append]
    omega
  · cases hs

end Clients

/-- **Every step** keeps it, as long as no post comes too late. -/
theorem Accounted.step {a : CloseAct} (h : Accounted s) (hok : s.InTime a) (hs : s.step a = some s') : Accounted s' := by
  unfold Closing.step at hs
  split at hs
  · cases hs
  cases a with
  | loop a =>
    obtain ⟨l, hl, rfl⟩ := Option.map_eq_some_iff.1 hs
    exact h.step_loop hok hl
  | retain b => exact h.retain hs
  | release b => exact h.giveUp hs
  | giveBack b => exact h.giveBack hs
  | destroy =>
    obtain ⟨q, hq, rfl⟩ := Option.map_eq_some_iff.1 hs
    obtain ⟨hcalls, henq, hexec⟩ := Dispatch.Queue.step_shutdown (.inl rfl) hq
    exact h.setQueue hq (h.calls.keep hcalls) henq hexec
  | destroyer =>
    dsimp only at hs
    split at hs
    · cases hs
    · obtain ⟨q, hq, rfl⟩ := Option.map_eq_some_iff.1 hs
      obtain ⟨hcalls, henq, hexec⟩ := Dispatch.Queue.step_shutdown (.inr rfl) hq
      exact h.setQueue hq (h.calls.keep hcalls) henq hexec

theorem reach_accounted {w : W} {e : Event} (h : Sys.Reach (system c w e) InTime s) : Accounted s := by
  refine h.inv ?_ fun s a s' ih hok hs => ih.step hok hs
  rintro s ⟨l, ⟨x, blocks, memory, -, rfl⟩, rfl⟩
  refine ⟨Dispatch.Queue.Inv.create _ _, ⟨nofun, nofun⟩, ⟨rfl, rfl, ?_, ?_⟩, nofun, nofun⟩
  · intro b
    simp [Loop.create, Store.create, Store.free, Store.fresh, Loop.waiting, Dispatch.Queue.pending, Dispatch.Queue.create,
      users, giving, ExecPc.ref, ExecPc.giving]
  · intro b hlt
    simp [Loop.create, Store.create, Store.fresh, Loop.waiting, Dispatch.Queue.pending, Dispatch.Queue.create, users,
      ExecPc.ref, hlt]

section Events

/-- Block `b` has an event that is queued, being processed, retained (or about to be given back) or being posted. -/
def HasEvent (s : Closing c) (b : ℕ) : Prop :=
  b ∈ s.loop.waiting ∨ s.loop.exec.block = some b ∨ b ∈ s.retained ∨ b ∈ s.freeing ∨
    ∃ p ∈ s.loop.posts, p.pc.block = some b

instance (s : Closing c) : DecidablePred s.HasEvent := fun b =>
  inferInstanceAs (Decidable (b ∈ s.loop.waiting ∨ s.loop.exec.block = some b ∨ b ∈ s.retained ∨ b ∈ s.freeing ∨
    ∃ p ∈ s.loop.posts, p.pc.block = some b))

/-- The events that are queued, being processed, retained or being posted. -/
def events (s : Closing c) : Finset ℕ := {b ∈ Finset.range c.queueSize | s.HasEvent b}

/-- The blocks of the event pool that are not free. -/
def inUse (s : Closing c) : Finset ℕ := {b ∈ Finset.range c.queueSize | b ∉ s.loop.pool.free}

theorem Accounted.card_inUse (h : Accounted s) : s.inUse.card + s.loop.pool.free.length = c.queueSize := by
  have hnodup : s.loop.pool.free.Nodup := by
    refine List.nodup_iff_count_le_one.2 fun j => ?_
    have honce := h.blocks.once j
    have hrange := count_range (n := c.queueSize) j
    omega
  -- the free blocks are some of the numbers below the size, and those in use the others
  have hsub : s.loop.pool.free.toFinset ⊆ Finset.range c.queueSize := by
    intro j hj
    have honce := h.blocks.once j
    have hpos := List.count_pos_iff.2 (List.mem_toFinset.1 hj)
    exact Finset.mem_range.2 (lt_of_count (by omega))
  have hsdiff : s.inUse = Finset.range c.queueSize \ s.loop.pool.free.toFinset := by
    ext j
    simp [inUse]
  have hcard := Finset.card_sdiff_add_card_eq_card hsub
  rwa [← hsdiff, List.toFinset_card_of_nodup hnodup, Finset.card_range] at hcard

theorem mem_users : b ∈ s.users ↔ s.loop.exec.ref = some b ∨ b ∈ s.retained := by
  simp [users]

theorem mem_giving : b ∈ s.giving ↔ s.loop.exec.giving = some b ∨ b ∈ s.freeing := by
  simp [giving]

theorem block_iff {n : ℕ} {pc : ExecPc n} : pc.block = some b ↔ pc.ref = some b ∨ pc.giving = some b := by
  cases pc <;> simp [ExecPc.block, ExecPc.ref, ExecPc.giving]

theorem hasEvent_iff : s.HasEvent b ↔ b ∈ s.loop.waiting ∨ b ∈ s.users ∨ b ∈ s.giving ∨
    0 < s.loop.posts.countP fun p => p.pc.block == some b := by
  rw [HasEvent, mem_users, mem_giving, block_iff, List.countP_pos_iff]
  simp only [beq_iff_eq]
  tauto

/-- **A block is free or has an event**, and not both. -/
theorem Accounted.event_iff (h : Accounted s) (hlt : b < c.queueSize) : s.HasEvent b ↔ b ∉ s.loop.pool.free := by
  have honce := h.blocks.once b
  have hone : (List.range c.queueSize).count b = 1 :=
    List.count_eq_one_of_mem List.nodup_range (List.mem_range.2 hlt)
  rw [hasEvent_iff, ← List.count_pos_iff, ← List.count_pos_iff, ← List.count_pos_iff, ← List.count_eq_zero]
  omega

theorem Accounted.inUse_eq (h : Accounted s) : s.inUse = s.events := by
  ext b
  simp only [inUse, events, Finset.mem_filter, Finset.mem_range]
  constructor
  · rintro ⟨hlt, hfree⟩
    exact ⟨hlt, (h.event_iff hlt).2 hfree⟩
  · rintro ⟨hlt, hevent⟩
    exact ⟨hlt, (h.event_iff hlt).1 hevent⟩

end Events

section Late

/-- A post at its load of `destroying`, which is set. -/
theorem late_of_not_inTime {a : CloseAct} (hok : ¬ s.InTime a) : ∃ i p b j, a = .loop (.call i) ∧
    s.loop.posts[i]? = some p ∧ p.pc = .wait b j ∧ (s.loop.queue.calls[j]?).map Dispatch.Call.pc = some .load ∧
    s.loop.queue.destroying = true := by
  simp only [InTime, Bool.not_eq_false] at hok
  unfold late at hok
  split at hok
  · rename_i i
    split at hok
    · rename_i b j hp
      obtain ⟨p, hp, hpc⟩ := Option.map_eq_some_iff.1 hp
      simp only [Bool.and_eq_true, beq_iff_eq] at hok
      exact ⟨i, p, b, j, rfl, hp, hpc, hok⟩
    · cases hok
  · cases hok

/-- **A post that comes too late**: it is refused, and returns. -/
theorem step_late {b : ℕ} (hp : s.loop.posts[i]? = some p) (hpc : p.pc = .wait b j)
    (hload : (s.loop.queue.calls[j]?).map Dispatch.Call.pc = some .load) (hd : s.loop.queue.destroying = true)
    (hs : s.step (.loop (.call i)) = some s') :
    ∃ k, s' = { s with loop := { s.loop.setPost i p .returned with
      queue := s.loop.queue.setCall j k (.returned false) } } := by
  obtain ⟨k, hk, hkpc⟩ := Option.map_eq_some_iff.1 hload
  unfold Closing.step at hs
  split at hs
  · cases hs
  obtain ⟨l, hl, rfl⟩ := Option.map_eq_some_iff.1 hs
  unfold Loop.step at hl
  split at hl
  · cases hl
  simp only [hp, Option.bind_some, Loop.callStep, hpc] at hl
  obtain ⟨q, hq, hl⟩ := Option.map_eq_some_iff.1 hl
  obtain rfl := Dispatch.Queue.step_refused hk hkpc hd hq
  have hself : (s.loop.queue.setCall j k (.returned false)).calls[j]? = some { k with pc := .returned false } :=
    List.get_set_self hk
  simp only [hself, Option.map_some] at hl
  subst hl
  exact ⟨k, by simp [handing, Loop.setPost]⟩

/-- The state after that: block `b` has no event any more, and no other has a new one. -/
theorem Accounted.lost (h : Accounted s) (hp : s.loop.posts[i]? = some p) (hpc : p.pc = .wait b j)
    (hposts : s'.loop.posts = s.loop.posts.set i { p with pc := .returned }) (hwaiting : s'.loop.waiting = s.loop.waiting)
    (husers : s'.users = s.users) (hgiving : s'.giving = s.giving) : s'.events ⊂ s.inUse := by
  have hblock : p.pc.block = some b := by rw [hpc]; rfl
  have hset := count_set (·.pc.block) { p with pc := .returned } (some b) none hp hblock rfl
  simp only [Option.toList_some, Option.toList_none, List.count_nil, Nat.add_zero] at hset
  have hevent : ∀ j, s'.HasEvent j → s.HasEvent j := by
    intro j hj
    have hcount := hset j
    rw [hasEvent_iff, hposts, hwaiting, husers, hgiving] at hj
    rw [hasEvent_iff]
    refine hj.imp_right (Or.imp_right (Or.imp_right fun hpos => ?_))
    omega
  have honce := h.blocks.once b
  have hrange := count_range (n := c.queueSize) b
  have hcount := hset b
  have hone : 1 ≤ s.loop.posts.countP fun p => p.pc.block == some b := List.one_le_countP hp (by simp [hblock])
  rw [List.count_singleton_self] at hcount
  have hlt : b < c.queueSize := lt_of_count (by omega)
  -- the post was the only one to have it
  have hgone : ¬ s'.HasEvent b := by
    rw [hasEvent_iff, hposts, hwaiting, husers, hgiving, ← List.count_pos_iff, ← List.count_pos_iff, ← List.count_pos_iff]
    omega
  rw [h.inUse_eq, Finset.ssubset_iff_of_subset]
  · refine ⟨b, ?_, fun hmem => hgone (Finset.mem_filter.1 hmem).2⟩
    refine Finset.mem_filter.2 ⟨Finset.mem_range.2 hlt, ?_⟩
    rw [hasEvent_iff]
    exact .inr (.inr (.inr hone))
  · intro j hj
    obtain ⟨hj, hev⟩ := Finset.mem_filter.1 hj
    exact Finset.mem_filter.2 ⟨hj, hevent j hev⟩

/-- It has returned true and handed nothing over, and its block is neither free nor has it an event. -/
theorem late_post {a : CloseAct} (h : Accounted s) (hok : ¬ s.InTime a) (hs : s.step a = some s') :
    (∃ i p, s'.loop.posts[i]? = some p ∧ p.pc.retval = some true ∧ i ∉ s'.handed) ∧
      s'.events.card + s'.loop.pool.free.length < c.queueSize := by
  obtain ⟨i, p, b, j, rfl, hp, hpc, hload, hd⟩ := late_of_not_inTime hok
  obtain ⟨k, heq⟩ := step_late hp hpc hload hd hs
  have hlost : s'.events ⊂ s.inUse :=
    h.lost hp hpc (by rw [heq]; rfl) (by rw [heq]; rfl) (by rw [heq]; rfl) (by rw [heq]; rfl)
  have hlt := Finset.card_lt_card hlost
  have hcard := h.card_inUse
  subst heq
  refine ⟨⟨i, _, List.get_set_self hp, rfl, ?_⟩, ?_⟩
  · rw [← h.handed hp, hpc]
    simp
  · change _ + s.loop.pool.free.length < _
    omega

end Late

/-- Every post that returned true has handed its event over, and as many blocks of the event pool are in use as there
are events queued, being processed, retained or being posted. -/
def Honest (s : Closing c) : Prop :=
  (∀ (i : ℕ) (p : Post), s.loop.posts[i]? = some p → p.pc.retval = some true → i ∈ s.handed) ∧
    s.events.card + s.loop.pool.free.length = c.queueSize

end Closing

open Closing

/-- **Posts to a loop that is shut down.** For every loop and every interleaving of posts, the worker, clients that keep
events, and `state_event_loop_deinit` up to the teardown of the exec queue, in which no post loads `destroying` after
the shutdown has set it: every post that returned true has handed its event over, and the blocks in use are those of
events. A post that loads `destroying` after that has returned true with nothing handed over, and its block is lost. -/
theorem closing_posts {W : Type} (c : Config W) (w : W) (e : Event) :
    (∀ s, Sys.Reach (system c w e) InTime s → s.Honest) ∧
      ∀ s a s', Sys.Reach (system c w e) InTime s → ¬ s.InTime a → s.step a = some s' →
        (∃ i p, s'.loop.posts[i]? = some p ∧ p.pc.retval = some true ∧ i ∉ s'.handed) ∧
          s'.events.card + s'.loop.pool.free.length < c.queueSize := by
  refine ⟨fun s hs => ?_, fun s a s' hs hok hstep => late_post (reach_accounted hs) hok hstep⟩
  have h := reach_accounted hs
  refine ⟨fun i p hp hret => ?_, ?_⟩
  · rw [← h.handed hp]
    cases hpc : p.pc with
    | returned => rfl
    | _ => rw [hpc] at hret; cases hret
  · rw [← h.inUse_eq]
    exact h.card_inUse

/-- A loop for two events, without machines, pre-processor and listeners. -/
def bare : Config ℕ where
  self := 7
  queueSize := 2
  machines := []
  eventPreProcF := none
  listeners := ⟨.init 1 1 ⟨fun _ => none, fun _ => none⟩ (fun _ => 0), none, [], fun _ => [], []⟩
  executeF := fun _ w => w

/-- The loop `bare` as it is started. -/
def bareLoop : Closing bare :=
  ⟨Loop.create (fresh bare 0 ⟨0, 0, 0, []⟩) (fun _ => (0, ⟨0, 0, 0⟩)) fun _ => ⟨0, 0, 0, []⟩, [], [], []⟩

theorem bareLoop_reach {ok : Closing bare → CloseAct → Prop} :
    Sys.Reach (system bare 0 ⟨0, 0, 0, []⟩) ok bareLoop :=
  .init ⟨_, ⟨_, _, _, rfl, rfl⟩, rfl⟩

/-- A post up to its `dispatch_async_f` call. -/
def latePost : List CloseAct :=
  .loop (.post 0 ⟨5, 0, 0, [1]⟩ false) :: List.replicate 5 (.loop (.call 0)) ++ [.destroy]

/-- A post that the shutdown overtakes after its load; the event is processed and kept. -/
def timelyPost : List CloseAct :=
  .loop (.post 0 ⟨5, 0, 0, [1]⟩ false) :: List.replicate 9 (.loop (.call 0)) ++ [.destroy, .destroyer] ++
    List.replicate 4 (.loop .work) ++ [.retain 0] ++ List.replicate 2 (.loop .work)

/-- Both posts of these runs. -/
theorem closing_posts_bare :
    (∃ s, Sys.Reach (system bare 0 ⟨0, 0, 0, []⟩) InTime s ∧ s.handed = [0] ∧ s.retained = [0] ∧ s.Honest) ∧
      ∃ s a s', Sys.Reach (system bare 0 ⟨0, 0, 0, []⟩) InTime s ∧ ¬ s.InTime a ∧ s.step a = some s' ∧
        (∃ i p, s'.loop.posts[i]? = some p ∧ p.pc.retval = some true ∧ i ∉ s'.handed) ∧
          s'.events.card + s'.loop.pool.free.length < 2 := by
  refine ⟨?_, ?_⟩
  · have htrace : (Sys.exec (system bare 0 ⟨0, 0, 0, []⟩) InTime bareLoop timelyPost).map
        (fun s => s.handed == [0] && s.retained == [0]) = some true := by decide
    obtain ⟨s, hs, hp⟩ := bareLoop_reach.of_trace htrace
    simp only [Bool.and_eq_true, beq_iff_eq] at hp
    exact ⟨s, hs, hp.1, hp.2, (closing_posts bare 0 ⟨0, 0, 0, []⟩).1 s hs⟩
  · have htrace : (Sys.exec (system bare 0 ⟨0, 0, 0, []⟩) InTime bareLoop latePost).map
        (fun s => s.late (.loop (.call 0)) && (s.step (.loop (.call 0))).isSome) = some true := by decide
    obtain ⟨s, hs, hp⟩ := bareLoop_reach.of_trace htrace
    simp only [Bool.and_eq_true] at hp
    obtain ⟨s', hs'⟩ := Option.isSome_iff_exists.1 hp.2
    have hlate : ¬ s.InTime (.loop (.call 0)) := by simp [InTime, hp.1]
    exact ⟨s, _, s', hs, hlate, hs', (closing_posts bare 0 ⟨0, 0, 0, []⟩).2 s _ s' hs hlate hs'⟩

/-- **A post between the shutdown's test-and-set and its teardown**: it has returned true, nothing is handed over, and
of the two blocks one is free and the other has no event. -/
theorem closing_post_lost :
    ∃ s, Sys.Reach (system bare 0 ⟨0, 0, 0, []⟩) Sys.Always s ∧ (s.loop.posts.map (·.pc)) = [.returned] ∧
      s.handed = [] ∧ s.loop.queue.enqueued = [] ∧ s.loop.pool.free = [1] ∧ s.events = ∅ ∧
      s.loop.queue.destroyer = .kill ∧ ¬ s.Honest := by
  have htrace : (Sys.exec (system bare 0 ⟨0, 0, 0, []⟩) Sys.Always bareLoop
      (latePost ++ [.loop (.call 0)])).map (fun s => s.loop.posts.map (·.pc) == [.returned] && s.handed == [] &&
        s.loop.queue.enqueued == [] && s.loop.pool.free == [1] && decide (s.events = ∅) &&
        s.loop.queue.destroyer == .kill) = some true := by decide
  obtain ⟨s, hs, hp⟩ := bareLoop_reach.of_trace htrace
  simp only [Bool.and_eq_true, beq_iff_eq, decide_eq_true_eq] at hp
  obtain ⟨⟨⟨⟨⟨hpcs, hhanded⟩, henq⟩, hfree⟩, hevents⟩, hkill⟩ := hp
  refine ⟨s, hs, hpcs, hhanded, henq, hfree, hevents, hkill, fun h => ?_⟩
  have hcard := h.2
  rw [hevents, hfree] at hcard
  revert hcard
  decide

end Cutils.EventLoop
