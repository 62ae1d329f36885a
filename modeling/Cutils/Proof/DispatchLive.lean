import Cutils.Lib.Fair
import Cutils.Proof.DispatchShutdown
import Mathlib.Data.Prod.Lex

/-!
# Liveness of the dispatch queue

A fair run: no call and no destroy that can go on rests for ever, and neither does the worker, whose actions come back.
The worker's variant counts the actions to be executed and where it is with the one it has (`toExecute`); the destroy's,
its own stages and, while it waits, what is left in the queue (`toReturn`).

* `dispatch_live`: calls return, accepted actions are executed and the destroy returns, unless an assertion trips.
-/

namespace Cutils.Dispatch

inductive Thread
  | call (i : ℕ)
  | worker
  | destroyer
  deriving DecidableEq, Repr

/-- The steps of a thread. -/
def Thread.act : Thread → Act
  | .call i => .call i
  | .worker => .worker
  | .destroyer => .destroyer

def Thread.takes (p : Thread) (a : Option Act) : Prop := a = some p.act

/-- The thread has something to do: a call that has not returned, a worker that does not wait at an empty queue, a
destroy that does not wait for the worker. -/
def Thread.ready : Thread → Queue → Prop
  | .call i, q => ∃ c, q.calls[i]? = some c ∧ c.pc.inProgress = true
  | .worker, q => q.worker ≠ .exited ∧ (q.worker = .dequeue → q.queue ≠ [])
  | .destroyer, q => q.destroyer = .kill ∨ q.destroyer = .teardown ∨ q.destroyer = .wait ∧ q.worker = .exited

namespace Queue

variable {q q' : Queue} {capacity : ℕ}

/-- Invariants of a run without stragglers. -/
structure Sound (q : Queue) : Prop where
  inv : Inv q
  phase : Phase q

theorem reach_sound (h : Sys.Reach (system capacity) PostsBeforeKill q) : Sound q := ⟨reach_inv h, reach_phase h⟩

/-- The worker's steps until the next execution. -/
def untilNext : WorkerPc → ℕ
  | .call _ => 0
  | .dequeue => 1
  | .free _ => 2
  | .running _ => 3
  | .signal | .exited => 4

/-- The worker's steps until `n` actions have been executed. -/
def toExecute (n : ℕ) (q : Queue) : ℕ := 4 * (n - q.executed.length) + untilNext q.worker

/-- Fewer than `n` actions have been executed, of `n` enqueued. -/
def Behind (n : ℕ) (q : Queue) : Prop := q.executed.length < n ∧ n ≤ q.enqueued.length

theorem Sound.pending (h : Sound q) {n : ℕ} (hn : Behind n q) : q.pending ≠ [] := by
  intro hnil
  have hlen := congrArg List.length h.inv.fifo
  rw [hnil, List.append_nil] at hlen
  have h1 := hn.1
  have h2 := hn.2
  omega

/-- A worker that is behind has something to do. -/
theorem Sound.worker_ready (h : Sound q) {n : ℕ} (hn : Behind n q) : q.worker.alive = true ∧ Thread.ready .worker q := by
  have hpend := h.pending hn
  have hqueue : (∀ b, q.worker ≠ .call b) → q.queue ≠ [] := by
    intro hw hnil
    refine hpend ?_
    unfold Queue.pending
    rw [hnil]
    cases hpc : q.worker with
    | call b => exact absurd hpc (hw b)
    | _ => rfl
  have halive : q.worker.alive = true := by
    by_contra hdead
    have hdead : q.worker.alive = false := by simpa using hdead
    refine hqueue ?_ (h.phase.queue_of_dead hdead)
    intro b hb
    rw [hb] at hdead
    cases hdead
  refine ⟨halive, ?_, ?_⟩
  · intro hw
    rw [hw] at halive
    cases halive
  · intro hw
    exact hqueue (by rw [hw]; nofun)

/-- **What a step does to a worker that is behind.** -/
theorem step_behind {n : ℕ} {a : Act} (h : Sound q) (hn : Behind n q) (hs : q.step a = some q') :
    n ≤ q'.executed.length ∨ Behind n q' ∧ (toExecute n q' < toExecute n q ∨
      toExecute n q' ≤ toExecute n q ∧ a ≠ .worker) := by
  have hwork : a = .worker → (Thread.ready .worker q) := fun _ => (h.worker_ready hn).2
  have halive := (h.worker_ready hn).1
  have hlt := hn.1
  cases step_trans hs with
  | run b hw =>
    by_cases hlast : n ≤ q.executed.length + 1
    · left
      rw [List.length_append, List.length_singleton]
      exact hlast
    · right
      refine ⟨⟨?_, hn.2⟩, .inl ?_⟩
      · rw [List.length_append, List.length_singleton]
        omega
      · show 4 * (n - (q.executed ++ [q.blocks b]).length) + 3 < 4 * (n - q.executed.length) + _
        rw [List.length_append, List.length_singleton]
        omega
  | take b rest hw hq | finish b hw hact | free b hw =>
    right
    refine ⟨hn, .inl ?_⟩
    show 4 * (n - q.executed.length) + _ < 4 * (n - q.executed.length) + untilNext q.worker
    rw [hw]
    simp only [untilNext]
    omega
  | takeKill rest hw hq =>
    -- the kill request is the last in the queue
    have hrest : rest = [] := (h.phase.takeKill hw hq).queue_of_dead rfl
    refine absurd ?_ (h.pending hn)
    unfold Queue.pending
    rw [hw, hq, hrest]
    rfl
  | exit hw => rw [hw] at halive; cases halive
  | enqueue i c b hc hpc ht hroom =>
    right
    refine ⟨⟨hlt, ?_⟩, .inr ⟨Nat.le_refl _, nofun⟩⟩
    rw [List.length_append]
    exact Nat.le_add_right_of_le hn.2
  | _ => exact .inr ⟨hn, .inr ⟨Nat.le_refl _, nofun⟩⟩

/-- The destroy is under way. -/
def Destroying (q : Queue) : Prop := q.destroyer = .kill ∨ q.destroyer = .wait ∨ q.destroyer = .teardown

/-- The destroy's stages to go. -/
def stagesLeft : DestroyPc → ℕ
  | .kill => 3
  | .wait => 2
  | .teardown => 1
  | .idle | .returned => 0

/-- The worker's steps until it comes back to the queue, or is gone. -/
def untilBack : WorkerPc → ℕ
  | .call _ => 4
  | .running _ => 3
  | .free _ => 2
  | .dequeue | .signal => 1
  | .exited => 0

/-- The worker's steps until it is gone. -/
def toExit (q : Queue) : ℕ := if q.destroyer = .wait then 5 * q.queue.length + untilBack q.worker else 0

/-- What is to be done until the destroy returns. -/
def toReturn (q : Queue) : ℕ ×ₗ ℕ := toLex (stagesLeft q.destroyer, q.toExit)

/-- The threads that bring the destroy closer to its return. -/
def Helps : Thread → Queue → Prop
  | .call _, _ => False
  | .worker, q => q.destroyer = .wait ∧ q.worker ≠ .exited
  | .destroyer, q => Thread.ready .destroyer q

theorem Destroying.helper (h : Destroying q) : ∃ p, Helps p q := by
  rcases h with hd | hd | hd
  · exact ⟨.destroyer, .inl hd⟩
  · by_cases hw : q.worker = .exited
    · exact ⟨.destroyer, .inr (.inr ⟨hd, hw⟩)⟩
    · exact ⟨.worker, hd, hw⟩
  · exact ⟨.destroyer, .inr (.inl hd)⟩

/-- The kill request is in the queue while the destroy waits for the worker. -/
theorem Sound.helper_ready (h : Sound q) {p : Thread} (hp : Helps p q) : p.ready q := by
  cases p with
  | call i => exact hp.elim
  | worker =>
    obtain ⟨hd, hw⟩ := hp
    refine ⟨hw, ?_⟩
    intro hdeq hnil
    rcases h.phase with ⟨h1, -, -⟩ | ⟨pre, -, h2, -, -⟩ | ⟨-, -, h3⟩ | ⟨-, -, h3⟩
    · rw [hd] at h1
      rcases h1 with h1 | h1 <;> cases h1
    · rw [hnil] at h2
      exact absurd h2.symm (by simp)
    · rw [hdeq] at h3; cases h3
    · rw [hdeq] at h3; cases h3
  | destroyer => exact hp

/-- The destroy, its queue and the worker stay. -/
theorem Destroying.still {a : Act} (h : Destroying q) (hd : q'.destroyer = q.destroyer)
    (hwork : q.destroyer = .wait → q'.queue = q.queue ∧ q'.worker = q.worker) (ha : ∀ p, Helps p q → a ≠ p.act) :
    Destroying q' ∧ (q'.toReturn < q.toReturn ∨ q'.toReturn ≤ q.toReturn ∧ ∀ p, Helps p q → a ≠ p.act ∧ Helps p q') := by
  refine ⟨by unfold Destroying; rw [hd]; exact h, .inr ⟨le_of_eq ?_, fun p hp => ⟨ha p hp, ?_⟩⟩⟩
  · unfold toReturn toExit
    rw [hd]
    split
    · rename_i hwait
      rw [(hwork hwait).1, (hwork hwait).2]
    · rfl
  · cases p with
    | call i => exact hp
    | worker =>
      obtain ⟨hwait, hw⟩ := hp
      exact ⟨hd.trans hwait, (hwork hwait).2 ▸ hw⟩
    | destroyer =>
      rcases hp with hp | hp | ⟨hwait, hw⟩
      · exact .inl (hd.trans hp)
      · exact .inr (.inl (hd.trans hp))
      · exact .inr (.inr ⟨hd.trans hwait, (hwork hwait).2.trans hw⟩)

/-- The worker makes a step. -/
theorem Destroying.work (h : Destroying q) (hd : q'.destroyer = q.destroyer)
    (hlt : 5 * q'.queue.length + untilBack q'.worker < 5 * q.queue.length + untilBack q.worker) :
    Destroying q' ∧ (q'.toReturn < q.toReturn ∨ q'.toReturn ≤ q.toReturn ∧
      ∀ p, Helps p q → Act.worker ≠ p.act ∧ Helps p q') := by
  by_cases hwait : q.destroyer = .wait
  · refine ⟨by unfold Destroying; rw [hd]; exact h, .inl ?_⟩
    unfold toReturn toExit
    rw [hd, if_pos hwait, if_pos hwait]
    exact Prod.Lex.right _ hlt
  · refine h.still hd (fun hwait' => absurd hwait' hwait) ?_
    rintro (i | _ | _) hp
    · exact hp.elim
    · exact absurd hp.1 hwait
    · nofun

/-- **What a step does while the destroy is under way.** -/
theorem step_destroying {a : Act} (h : Destroying q) (hok : q.PostsBeforeKill a) (hs : q.step a = some q') :
    (q'.destroyer = .returned ∨ q'.tripped.isSome = true) ∨ Destroying q' ∧ (q'.toReturn < q.toReturn ∨
      q'.toReturn ≤ q.toReturn ∧ ∀ p, Helps p q → a ≠ p.act ∧ Helps p q') := by
  have hcall : ∀ i p, Helps p q → Act.call i ≠ p.act := by
    rintro i (j | _ | _) hp
    · exact hp.elim
    · nofun
    · nofun
  cases step_trans hs with
  | allocTrips | enqueueTrips | killTrips => exact .inl (.inr rfl)
  | post data byAction hact =>
    refine .inr (h.still rfl (fun _ => ⟨rfl, rfl⟩) ?_)
    rintro (i | _ | _) hp
    · exact hp.elim
    · nofun
    · nofun
  | refuse i c hc hpc | pass i c hc hpc | alloc i c b rest hc hpc | fill i c b hc hpc =>
    exact .inr (h.still rfl (fun _ => ⟨rfl, rfl⟩) (hcall i))
  | enqueue i c b hc hpc =>
    -- the kill request is not in the queue yet
    have hk := hok i c rfl hc
    rw [hpc, postOk, Bool.not_eq_true'] at hk
    refine .inr (h.still rfl (fun hwait => ?_) (hcall i))
    simp [killed, hwait] at hk
  | take b rest hw hq =>
    refine .inr (h.work rfl ?_)
    rw [hw, hq]
    simp only [untilBack, List.length_cons]
    omega
  | takeKill rest hw hq =>
    refine .inr (h.work rfl ?_)
    rw [hw, hq]
    simp only [untilBack, List.length_cons]
    omega
  | run b hw | finish b hw hact | free b hw | exit hw =>
    refine .inr (h.work rfl ?_)
    rw [hw]
    simp only [untilBack]
    omega
  | destroy hd =>
    unfold Destroying at h
    rw [hd] at h
    rcases h with h | h | h <;> cases h
  | kill hd hroom =>
    refine .inr ⟨.inr (.inl rfl), .inl ?_⟩
    unfold toReturn
    rw [hd]
    exact Prod.Lex.left _ _ (Nat.lt_succ_self _)
  | joined hd hw =>
    refine .inr ⟨.inr (.inr rfl), .inl ?_⟩
    unfold toReturn
    rw [hd]
    exact Prod.Lex.left _ _ (Nat.lt_succ_self _)
  | teardown hd => exact .inl (.inl rfl)

/-- A call stays where it is while others make their steps. -/
theorem step_calls {a : Act} {i : ℕ} {c : Call} (hc : q.calls[i]? = some c) (ha : a ≠ .call i)
    (hs : q.step a = some q') : q'.calls[i]? = some c := by
  have hmove : ∀ j d pc, q.calls[j]? = some d → Act.call j ≠ .call i → (q.setCall j d pc).calls[i]? = some c := by
    intro j d pc hd hij
    rw [calls_setCall, List.getElem?_set_of_some hd, if_neg (by rintro rfl; exact hij rfl)]
    exact hc
  cases step_trans hs with
  | post data byAction hact =>
    rw [List.getElem?_append_left (List.getElem?_eq_some_iff.1 hc).1]
    exact hc
  | refuse j d hd | pass j d hd | alloc j d b rest hd | fill j d b hd | enqueue j d b hd => exact hmove j d _ hd ha
  | _ => exact hc

/-- The steps that call `i` has left. -/
def callLeft (i : ℕ) (q : Queue) : ℕ := ((q.calls[i]?).map (·.pc.stepsLeft)).getD 0

/-- Call `i` has not returned. -/
def Unfinished (i : ℕ) (q : Queue) : Prop := ∃ c, q.calls[i]? = some c ∧ c.pc.inProgress = true

/-- Call `i` has returned. -/
def Returned (i : ℕ) (q : Queue) : Prop := ∃ retval, (q.calls[i]?).map (·.pc) = some (.returned retval)

/-- **What a step does to a call.** -/
theorem step_unfinished {i : ℕ} {a : Act} (h : Unfinished i q) (hs : q.step a = some q') :
    (Returned i q' ∨ q'.tripped.isSome = true) ∨ Unfinished i q' ∧ (callLeft i q' < callLeft i q ∨
      callLeft i q' ≤ callLeft i q ∧ a ≠ .call i) := by
  obtain ⟨c, hc, hpc⟩ := h
  by_cases ha : a = .call i
  · subst ha
    cases ht : q'.tripped with
    | some site => exact .inl (.inr rfl)
    | none =>
      obtain ⟨c', hc', hlt⟩ := call_progress hc hs ht
      cases hpc' : c'.pc with
      | returned retval => exact .inl (.inl ⟨retval, by rw [hc', Option.map_some, hpc']⟩)
      | _ =>
        refine .inr ⟨⟨c', hc', by rw [hpc']; rfl⟩, .inl ?_⟩
        unfold callLeft
        rw [hc, hc']
        exact hlt
  · have hc' := step_calls hc ha hs
    refine .inr ⟨⟨c, hc', hpc⟩, .inr ⟨le_of_eq ?_, ha⟩⟩
    unfold callLeft
    rw [hc, hc']

/-- Call `i` has returned true, and `enqueued` was enqueued first. -/
structure Past (i : ℕ) (c : Call) (enqueued : List (ℕ × PostData)) (q : Queue) : Prop where
  call : q.calls[i]? = some c
  accepted : c.pc = .returned true
  enqueued : enqueued <+: q.enqueued

section Past

variable {i : ℕ} {c : Call} {enqueued : List (ℕ × PostData)}

theorem past_refl (hc : q.calls[i]? = some c) (hpc : c.pc = .returned true) : Past i c q.enqueued q :=
  ⟨hc, hpc, List.prefix_refl _⟩

theorem Past.step {a : Act} (h : Past i c enqueued q) (hs : q.step a = some q') : Past i c enqueued q' := by
  have ha : a ≠ .call i := by
    rintro rfl
    unfold Queue.step at hs
    split at hs
    · cases hs
    · simp [h.call, callStep, h.accepted] at hs
  refine ⟨step_calls h.call ha hs, h.accepted, h.enqueued.trans ?_⟩
  cases step_trans hs with
  | enqueue => exact List.prefix_append ..
  | _ => exact List.prefix_refl _

/-- An accepted action is executed once as many are as were enqueued. -/
theorem Sound.executed_of_past (h : Sound q) (hp : Past i c enqueued q) (hmem : (i, c.post) ∈ enqueued)
    (hn : enqueued.length ≤ q.executed.length) : q.executed.filter (·.1 == i) = [(i, c.post)] := by
  have hfifo : q.executed <+: q.enqueued := ⟨q.pending, h.inv.fifo.symm⟩
  have hpre : enqueued <+: q.executed := List.prefix_of_prefix_length_le hp.enqueued hfifo hn
  have hin : (i, c.post) ∈ q.executed.filter (·.1 == i) :=
    List.mem_filter.2 ⟨hpre.subset hmem, beq_self_eq_true i⟩
  have hsub := (hfifo.filter (·.1 == i)).sublist
  rw [h.inv.enqueued_of_accepted hp.call hp.accepted] at hsub
  rcases List.sublist_singleton.1 hsub with hnil | hone
  · rw [hnil] at hin
    cases hin
  · exact hone

end Past

/-- A run in which an assertion has tripped has come to an end. -/
theorem tripped_stays (r : Sys.Run (system capacity).resting (Sys.awake PostsBeforeKill)) {t : ℕ}
    (ht : (r.state t).tripped.isSome = true) (d : ℕ) : r.state (t + d) = r.state t := by
  induction d with
  | zero => rfl
  | succ d ih =>
    have hs := r.step (t + d)
    rw [ih] at hs
    cases ha : r.act (t + d) with
    | none =>
      rw [ha] at hs
      exact (Option.some.inj hs).symm
    | some a =>
      rw [ha] at hs
      have hs : (r.state t).step a = some (r.state (t + d + 1)) := hs
      unfold Queue.step at hs
      rw [if_pos ht] at hs
      cases hs

end Queue

open Queue

/-- **Liveness.** In every fair run, finite or infinite, of any calls with a destroy at any time, none of which straggles
behind the shutdown: unless an assertion trips, every call of `dispatch_async_f` returns, every one that has returned
true has its function executed, and the destroy returns. -/
theorem dispatch_live (capacity : ℕ) (r : Sys.Run (system capacity).resting (Sys.awake PostsBeforeKill))
    (hfair : r.Fair Thread.ready Thread.takes) : (∃ t, (r.state t).tripped.isSome = true) ∨
      (∀ t i c, (r.state t).calls[i]? = some c → ∃ t' ≥ t, Returned i (r.state t')) ∧
      (∀ t i c, (r.state t).calls[i]? = some c → c.pc = .returned true →
        ∃ t' ≥ t, (r.state t').executed.filter (·.1 == i) = [(i, c.post)]) ∧
      ∀ t, (r.state t).destroyer ≠ .idle → ∃ t' ≥ t, (r.state t').destroyer = .returned := by
  by_cases htrip : ∃ t, (r.state t).tripped.isSome = true
  · exact .inl htrip
  have hnone : ∀ t, ¬ (r.state t).tripped.isSome = true := fun t ht => htrip ⟨t, ht⟩
  -- what happens or trips an assertion happens
  have happens : ∀ {P : Queue → Prop} {t : ℕ}, (∃ t' ≥ t, P (r.state t') ∨ (r.state t').tripped.isSome = true) →
      ∃ t' ≥ t, P (r.state t') := by
    rintro P t ⟨t', hle, hP | hbad⟩
    · exact ⟨t', hle, hP⟩
    · exact absurd hbad (hnone t')
  have hreach : ∀ t, Sys.Reach (system capacity) PostsBeforeKill (r.state t) := fun t => (r.reach t).of_resting
  refine .inr ⟨?_, ?_, ?_⟩
  · intro t i c hc
    by_cases hpc : c.pc.inProgress = true
    · refine happens (r.leads Thread.act hfair (Unfinished i)
        (fun q => Returned i q ∨ q.tripped.isSome = true) (callLeft i) (fun p _ => p = .call i) ?_ ?_ ?_ ⟨c, hc, hpc⟩)
      · exact fun q _ _ => ⟨_, rfl⟩
      · rintro q p - hW rfl
        exact hW
      · intro q a q' _ hW _ hs
        refine (step_unfinished hW hs).imp_right fun ⟨hW', hm⟩ => ⟨hW', hm.imp_right fun ⟨hle, ha⟩ => ⟨hle, ?_⟩⟩
        rintro p rfl
        exact ⟨ha, rfl⟩
    · refine ⟨t, Nat.le_refl t, ?_⟩
      cases hret : c.pc with
      | returned retval => exact ⟨retval, by rw [hc, Option.map_some, hret]⟩
      | _ => rw [hret] at hpc; exact absurd rfl hpc
  · intro t i c hc hpc
    have hmem : (i, c.post) ∈ (r.state t).enqueued := by
      have hone := (reach_sound (hreach t)).inv.enqueued_of_accepted hc hpc
      exact List.mem_of_mem_filter (by rw [hone]; exact List.mem_singleton_self _)
    have hpast := past_refl hc hpc
    suffices hdone : ∃ t' ≥ t, Past i c (r.state t).enqueued (r.state t') ∧
        (r.state t).enqueued.length ≤ (r.state t').executed.length by
      obtain ⟨t', hle, hpast', hn⟩ := hdone
      exact ⟨t', hle, (reach_sound (hreach t')).executed_of_past hpast' hmem hn⟩
    by_cases hn : (r.state t).enqueued.length ≤ (r.state t).executed.length
    · exact ⟨t, Nat.le_refl t, hpast, hn⟩
    · refine r.leads Thread.act hfair
        (fun q => Past i c (r.state t).enqueued q ∧ Behind (r.state t).enqueued.length q)
        (fun q => Past i c (r.state t).enqueued q ∧ (r.state t).enqueued.length ≤ q.executed.length)
        (toExecute (r.state t).enqueued.length) (fun p _ => p = .worker) ?_ ?_ ?_
        ⟨hpast, Nat.lt_of_not_le hn, Nat.le_refl _⟩
      · exact fun q _ _ => ⟨_, rfl⟩
      · rintro q p hq hW rfl
        exact ((reach_sound hq).worker_ready hW.2).2
      · intro q a q' hq hW _ hs
        have hpast' := hW.1.step hs
        rcases step_behind (reach_sound hq) hW.2 hs with hdone | ⟨hW', hm⟩
        · exact .inl ⟨hpast', hdone⟩
        · refine .inr ⟨⟨hpast', hW'⟩, hm.imp_right fun ⟨hle, ha⟩ => ⟨hle, ?_⟩⟩
          rintro p rfl
          exact ⟨ha, rfl⟩
  · intro t hd
    by_cases hret : (r.state t).destroyer = .returned
    · exact ⟨t, Nat.le_refl t, hret⟩
    · have hW : Destroying (r.state t) := by
        unfold Destroying
        cases hdest : (r.state t).destroyer with
        | idle => exact absurd hdest hd
        | returned => exact absurd hdest hret
        | kill => exact .inl rfl
        | wait => exact .inr (.inl rfl)
        | teardown => exact .inr (.inr rfl)
      refine happens (P := fun q => q.destroyer = .returned) (r.leads Thread.act hfair Destroying
        (fun q => q.destroyer = .returned ∨ q.tripped.isSome = true) toReturn Helps ?_ ?_ ?_ hW)
      · exact fun q _ hW => hW.helper
      · exact fun q p hq _ hp => (reach_sound hq).helper_ready hp
      · exact fun q a q' _ hW hok hs => step_destroying hW hok hs

/-- A queue of capacity 2: a post and a destroy, and a post that is refused. -/
theorem dispatch_live_one : ∃ r : Sys.Run (system 2).resting (Sys.awake PostsBeforeKill),
    r.Fair Thread.ready Thread.takes ∧ (∃ t, Returned 1 (r.state t)) ∧
      (∃ t, (r.state t).executed.filter (·.1 == 0) = [(0, ⟨7, 8, 9⟩)]) ∧ ∃ t, (r.state t).destroyer = .returned := by
  have htrace : (Sys.exec (system 2) PostsBeforeKill (create 2 fun _ => (0, ⟨0, 0, 0⟩))
      [.post ⟨7, 8, 9⟩ false, .call 0, .call 0, .call 0, .call 0, .destroy, .destroyer, .worker, .worker,
        .worker, .worker, .worker, .worker, .destroyer, .destroyer, .post ⟨1, 2, 3⟩ false, .call 1]).map
      (fun q => q.destroyer == .returned && q.worker == .exited && q.tripped == none &&
        q.calls == [⟨⟨7, 8, 9⟩, false, .returned true⟩, ⟨⟨1, 2, 3⟩, false, .returned false⟩]) =
      some true := by decide
  obtain ⟨q, hq, hp⟩ := (create_reach 2 _).of_trace htrace
  simp only [Bool.and_eq_true, beq_iff_eq] at hp
  obtain ⟨⟨⟨hd, hw⟩, ht⟩, hcalls⟩ := hp
  obtain ⟨r, t, hr⟩ := hq.rest
  have hfair : r.Fair Thread.ready Thread.takes := by
    refine r.fair_of_rest (fun t' ht' => (hr t' ht').1) ?_
    rintro (i | _ | _)
    · rintro ⟨c, hc, hpc⟩
      have hmem := List.mem_of_getElem? hc
      simp only [hcalls, List.mem_cons, List.not_mem_nil, or_false] at hmem
      rcases hmem with rfl | rfl <;> cases hpc
    · rintro ⟨hne, -⟩
      exact hne hw
    · unfold Thread.ready
      simp [hd]
  have hstate := (hr t (Nat.le_refl t)).1
  rcases dispatch_live 2 r hfair with ⟨u, hu⟩ | ⟨hret, hexec, hdestroy⟩
  · -- the run does not end with an assertion
    have hend := tripped_stays r hu t
    rw [(hr (u + t) (Nat.le_add_left t u)).1] at hend
    rw [← hend, ht] at hu
    cases hu
  · obtain ⟨t₁, -, h₁⟩ := hret t 1 ⟨⟨1, 2, 3⟩, false, .returned false⟩ (by rw [hstate, hcalls]; rfl)
    obtain ⟨t₂, -, h₂⟩ := hexec t 0 ⟨⟨7, 8, 9⟩, false, .returned true⟩ (by rw [hstate, hcalls]; rfl) rfl
    obtain ⟨t₃, -, h₃⟩ := hdestroy t (by rw [hstate, hd]; nofun)
    exact ⟨r, hfair, ⟨t₁, h₁⟩, ⟨t₂, h₂⟩, ⟨t₃, h₃⟩⟩

end Cutils.Dispatch
