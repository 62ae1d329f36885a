import Cutils.Proof.DispatchShutdown
import Cutils.Proof.TsQueueNoSleep
import Cutils.Spec.DispatchAssembly

/-!
# The dispatch queue over its thread-safe queues

`Stands` relates the dispatch queue that is assembled from two `ts_queue_t` to the abstract one. As long as no full
test wraps, every step of the one is a step of the other (`step_stands`), so that whatever holds of the abstract
queue holds of this one.

* `dispatch_over_ts_queues`: the two agree up to the first enqueue whose full test wraps, and that enqueue trips an
  assertion, or loses the block that it should give back to the pool, in a queue with room.
-/

namespace Cutils.Dispatch

namespace Assembly

open TsQueue

variable {w n : ℕ} {s s' : Assembly w} {q : Queue}

/-- The two queues hold these blocks and these items. -/
structure Stands (n : ℕ) (s : Assembly w) (P : List ℕ) (Q : List Item) : Prop where
  pool : ∃ f : Fifo ℕ n, Refines s.pool f ∧ f.items = P
  queue : ∃ f : Fifo Item n, Refines s.queue f ∧ f.items = Q

variable {P : List ℕ} {Q : List Item} {i : ℕ} {c : Call}

/-- A step of a `dispatch_async_f` call. -/
theorem Stands.call (h : Stands n s P Q) (hc : s.calls[i]? = some c) (hfit : s.TestsFit (.call i))
    (hs : s.callStep i c = some s') :
    ∃ P' Q', (s.view n P Q).callStep i c = some (s'.view n P' Q') ∧ Stands n s' P' Q' := by
  obtain ⟨⟨fp, hp, hP⟩, fq, hq, hQ⟩ := h
  have htorn : (s.view n P Q).torn = s.torn := rfl
  have hdestroying : (s.view n P Q).destroying = s.destroying := rfl
  cases hpc : c.pc with
  | load =>
    simp only [callStep, hpc, Option.some.injEq] at hs
    subst hs
    exact ⟨P, Q, by simp only [Queue.callStep, hpc, hdestroying]; rfl, ⟨fp, hp, hP⟩, fq, hq, hQ⟩
  | alloc =>
    simp only [callStep, hpc] at hs
    simp only [Queue.callStep, hpc, htorn]
    cases ht : s.torn with
    | true =>
      simp only [ht, Option.some.injEq] at hs
      subst hs
      exact ⟨P, Q, rfl, ⟨fp, hp, hP⟩, fq, hq, hQ⟩
    | false =>
      cases hpool : fp.items with
      | nil =>
        simp only [ht, (hp.dequeue_nil hpool).2, Option.some.injEq] at hs
        subst hs
        obtain rfl : P = [] := by rw [← hP, hpool]
        exact ⟨[], Q, rfl, ⟨fp, hp, hP⟩, fq, hq, hQ⟩
      | cons b rest =>
        obtain ⟨-, p', -, hdeq, hp'⟩ := hp.dequeue_cons hpool
        simp only [ht, hdeq, Option.some.injEq] at hs
        subst hs
        obtain rfl : P = b :: rest := by rw [← hP, hpool]
        exact ⟨rest, Q, rfl, ⟨fp.discard 1, hp', Fifo.items_discard_one hpool⟩, fq, hq, hQ⟩
  | fill b =>
    simp only [callStep, hpc, Option.some.injEq] at hs
    subst hs
    exact ⟨P, Q, by simp only [Queue.callStep, hpc]; rfl, ⟨fp, hp, hP⟩, fq, hq, hQ⟩
  | enqueue b =>
    have hfit := hfit c b hc hpc
    have hlen : (s.view n P Q).queue.length = fq.count := by rw [Fifo.count, hQ]; rfl
    have hcap : (s.view n P Q).capacity = n := rfl
    simp only [callStep, hpc] at hs
    simp only [Queue.callStep, hpc, htorn, hlen, hcap]
    cases ht : s.torn with
    | true =>
      simp only [ht, Option.some.injEq] at hs
      subst hs
      exact ⟨P, Q, by simp; rfl, ⟨fp, hp, hP⟩, fq, hq, hQ⟩
    | false =>
      by_cases hroom : fq.count < n
      · obtain ⟨q', henq, hq', -⟩ := hq.enqueue_room hfit hroom (.data b)
        simp only [ht, henq, Option.some.injEq] at hs
        subst hs
        refine ⟨P, Q ++ [.data b], ?_, ⟨fp, hp, hP⟩, fq.append [.data b], hq', ?_⟩
        · simp only [hroom, Bool.not_false, Bool.true_and, decide_true, if_true]
          rfl
        · rw [Fifo.items_append_one hroom, hQ]
      · simp only [ht, hq.enqueue_full hfit hroom, Option.some.injEq] at hs
        subst hs
        refine ⟨P, Q, ?_, ⟨fp, hp, hP⟩, fq, hq, hQ⟩
        simp only [hroom, Bool.not_false, Bool.true_and, decide_false, Bool.false_eq_true, if_false]
        rfl
  | returned r => simp [callStep, hpc] at hs

/-- A step of the worker. -/
theorem Stands.worker (h : Stands n s P Q) (hfit : s.TestsFit .worker) (hs : s.workerStep = some s') :
    ∃ P' Q', (s.view n P Q).workerStep = some (s'.view n P' Q') ∧ Stands n s' P' Q' := by
  obtain ⟨⟨fp, hp, hP⟩, fq, hq, hQ⟩ := h
  have hworker : (s.view n P Q).worker = s.worker := rfl
  cases hw : s.worker with
  | dequeue =>
    simp only [workerStep, hw] at hs
    simp only [Queue.workerStep, hworker, hw]
    cases hqueue : fq.items with
    | nil =>
      simp only [(hq.dequeue_nil hqueue).1, if_true] at hs
      cases hs
    | cons x rest =>
      obtain ⟨hempty, q', htake, -, hq'⟩ := hq.dequeue_cons hqueue
      obtain rfl : Q = x :: rest := by rw [← hQ, hqueue]
      simp only [hempty, htake, Bool.false_eq_true, if_false] at hs
      cases x with
      | kill | data b =>
        simp only [Option.some.injEq] at hs
        subst hs
        exact ⟨P, rest, rfl, ⟨fp, hp, hP⟩, fq.discard 1, hq', Fifo.items_discard_one hqueue⟩
  | call b =>
    simp only [workerStep, hw, Option.some.injEq] at hs
    subst hs
    exact ⟨P, Q, by simp only [Queue.workerStep, hworker, hw]; rfl, ⟨fp, hp, hP⟩, fq, hq, hQ⟩
  | running b =>
    have hposting : (s.view n P Q).actionPosting = s.actionPosting := rfl
    simp only [workerStep, hw] at hs
    split at hs
    · cases hs
    · rename_i hno
      simp only [Option.some.injEq] at hs
      subst hs
      refine ⟨P, Q, ?_, ⟨fp, hp, hP⟩, fq, hq, hQ⟩
      simp only [Queue.workerStep, hworker, hw, hposting, hno]
      rfl
  | free b =>
    have hfit := hfit b hw
    have hlen : (s.view n P Q).pool.length = fp.count := by rw [Fifo.count, hP]; rfl
    have hcap : (s.view n P Q).capacity = n := rfl
    simp only [workerStep, hw, Option.some.injEq] at hs
    subst hs
    simp only [Queue.workerStep, hworker, hw, hlen, hcap]
    by_cases hroom : fp.count < n
    · obtain ⟨p', henq, hp', -⟩ := hp.enqueue_room hfit hroom b
      refine ⟨P ++ [b], Q, ?_, ⟨fp.append [b], by simpa only [henq] using hp', ?_⟩, fq, hq, hQ⟩
      · simp only [hroom, if_true]
        rfl
      · rw [Fifo.items_append_one hroom, hP]
    · have henq := hp.enqueue_full hfit hroom b
      refine ⟨P, Q, ?_, ⟨fp, by simpa only [henq] using hp, hP⟩, fq, hq, hQ⟩
      simp only [hroom, if_false]
      rfl
  | signal =>
    simp only [workerStep, hw, Option.some.injEq] at hs
    subst hs
    exact ⟨P, Q, by simp only [Queue.workerStep, hworker, hw]; rfl, ⟨fp, hp, hP⟩, fq, hq, hQ⟩
  | exited => simp [workerStep, hw] at hs

/-- A step of the destroyer. -/
theorem Stands.destroyer (h : Stands n s P Q) (hfit : s.TestsFit .destroyer) (hs : s.destroyerStep = some s') :
    ∃ P' Q', (s.view n P Q).destroyerStep = some (s'.view n P' Q') ∧ Stands n s' P' Q' := by
  obtain ⟨⟨fp, hp, hP⟩, fq, hq, hQ⟩ := h
  have hdestroyer : (s.view n P Q).destroyer = s.destroyer := rfl
  cases hd : s.destroyer with
  | kill =>
    have hfit := hfit hd
    have hlen : (s.view n P Q).queue.length = fq.count := by rw [Fifo.count, hQ]; rfl
    have hcap : (s.view n P Q).capacity = n := rfl
    simp only [destroyerStep, hd] at hs
    simp only [Queue.destroyerStep, hdestroyer, hd, hlen, hcap]
    by_cases hroom : fq.count < n
    · obtain ⟨q', henq, hq', -⟩ := hq.enqueue_room hfit hroom .kill
      simp only [henq, Option.some.injEq] at hs
      subst hs
      refine ⟨P, Q ++ [.kill], ?_, ⟨fp, hp, hP⟩, fq.append [.kill], hq', ?_⟩
      · simp only [hroom, if_true]
        rfl
      · rw [Fifo.items_append_one hroom, hQ]
    · simp only [hq.enqueue_full hfit hroom, Option.some.injEq] at hs
      subst hs
      refine ⟨P, Q, ?_, ⟨fp, hp, hP⟩, fq, hq, hQ⟩
      simp only [hroom, if_false]
      rfl
  | wait =>
    simp only [destroyerStep, hd] at hs
    split at hs
    · rename_i hw
      simp only [Option.some.injEq] at hs
      subst hs
      refine ⟨P, Q, ?_, ⟨fp, hp, hP⟩, fq, hq, hQ⟩
      have hworker : (s.view n P Q).worker = s.worker := rfl
      simp only [Queue.destroyerStep, hdestroyer, hd, hworker, hw]
      rfl
    · cases hs
  | teardown =>
    simp only [destroyerStep, hd, Option.some.injEq] at hs
    subst hs
    exact ⟨P, Q, by simp only [Queue.destroyerStep, hdestroyer, hd]; rfl, ⟨fp, hp, hP⟩, fq, hq, hQ⟩
  | _ => simp [destroyerStep, hd] at hs

/-- **Every step** whose enqueue fits is the abstract queue's. -/
theorem Stands.step {a : Act} (h : Stands n s P Q) (hfit : s.TestsFit a) (hs : s.step a = some s') :
    ∃ P' Q', (s.view n P Q).step a = some (s'.view n P' Q') ∧ Stands n s' P' Q' := by
  have htripped : (s.view n P Q).tripped = s.tripped := rfl
  unfold Assembly.step at hs
  split at hs
  · cases hs
  rename_i ht
  unfold Queue.step
  rw [htripped, if_neg ht]
  cases a with
  | post data byAction =>
    simp only at hs
    split at hs
    · cases hs
    · rename_i hact
      simp only [Option.some.injEq] at hs
      subst hs
      exact ⟨P, Q, if_neg hact, h.pool, h.queue⟩
  | call i =>
    obtain ⟨c, hc, hs⟩ := Option.bind_eq_some_iff.1 hs
    obtain ⟨P', Q', hs', h'⟩ := h.call hc hfit hs
    refine ⟨P', Q', ?_, h'⟩
    simp only [show (s.view n P Q).calls[i]? = some c from hc, Option.bind_some]
    exact hs'
  | worker => exact h.worker hfit hs
  | destroy =>
    simp only at hs
    split at hs
    · rename_i hd
      simp only [Option.some.injEq] at hs
      subst hs
      exact ⟨P, Q, if_pos hd, h.pool, h.queue⟩
    · cases hs
  | destroyer => exact h.destroyer hfit hs

/-- `pool_create` fills the free queue. -/
theorem poolCreate_refines (ptrArray : ℕ → ℕ) {size : BitVec w} (hpow : size.toNat.isPowerOfTwo) :
    ∃ pool, poolCreate ptrArray size = some pool ∧
      ∃ f : Fifo ℕ size.toNat, Refines pool f ∧ f.items = List.range size.toNat := by
  obtain ⟨q₀, hinit, hhead, hR⟩ := init_refines ptrArray hpow
  have htail : q₀.tail.toNat = 0 := by
    have h := hR.counters
    omega
  -- the first `k` blocks
  have hfill : ∀ k ≤ size.toNat, ∃ f : Fifo ℕ size.toNat,
      Refines ((List.range k).foldl (fun q b => (q.enqueue (some b)).1) q₀) f ∧ f.items = List.range k ∧
        ((List.range k).foldl (fun q b => (q.enqueue (some b)).1) q₀).tail.toNat = 0 := by
    intro k
    induction k with
    | zero => exact fun _ => ⟨Fifo.empty, hR, rfl, htail⟩
    | succ k ih =>
      intro hk
      obtain ⟨f, hf, hitems, htail⟩ := ih (by omega)
      have hroom : f.count < size.toNat := by
        rw [Fifo.count, hitems, List.length_range]
        omega
      have hfit : ((List.range k).foldl (fun q b => (q.enqueue (some b)).1) q₀).tail.toNat +
          ((List.range k).foldl (fun q b => (q.enqueue (some b)).1) q₀).size.toNat < 2 ^ w := by
        rw [htail, hf.size, Nat.zero_add]
        exact size.isLt
      obtain ⟨q', henq, hq', htail'⟩ := hf.enqueue_room hfit hroom k
      rw [List.range_succ, List.foldl_append, List.foldl_cons, List.foldl_nil, henq]
      exact ⟨f.append [k], hq', by rw [Fifo.items_append_one hroom, hitems], by rw [htail', htail]⟩
  obtain ⟨f, hf, hitems, -⟩ := hfill size.toNat (Nat.le_refl _)
  refine ⟨_, ?_, f, hf, hitems⟩
  unfold poolCreate
  rw [hinit]
  rfl

/-- A dispatch queue that was just created is the abstract one. -/
theorem create_stands {size : BitVec w} (hs : (system w size).init s) : size.toNat.isPowerOfTwo ∧
    ∃ P Q, Stands size.toNat s P Q ∧ (Queue.system size.toNat).init (s.view size.toNat P Q) := by
  obtain ⟨ptrArray, items, blocks, hcreate⟩ := hs
  have hpow : size.toNat.isPowerOfTwo := by
    obtain ⟨queue, hqueue, -⟩ := Option.bind_eq_some_iff.1 hcreate
    exact isPowerOfTwo_of_init hqueue
  obtain ⟨q₀, hinit, -, hq⟩ := init_refines items hpow
  obtain ⟨pool, hpool, f, hf, hitems⟩ := poolCreate_refines ptrArray hpow
  unfold create at hcreate
  rw [hinit, Option.bind_some, hpool, Option.map_some, Option.some.injEq] at hcreate
  subst hcreate
  exact ⟨hpow, List.range size.toNat, [], ⟨⟨f, hf, hitems⟩, Fifo.empty, hq, rfl⟩, blocks, rfl⟩

/-- An enqueue whose full test wraps: it is refused by a queue with room. -/
theorem Stands.wraps {a : Act} (h : Stands n s P Q) (hbad : ¬ s.TestsFit a) (hs : s.step a = some s') :
    (s'.tripped.isSome = true ∧ Q.length < n) ∨
      (∃ b, s.worker = .free b ∧ s' = { s with worker := .dequeue } ∧ P.length < n) := by
  obtain ⟨⟨fp, hp, hP⟩, fq, hq, hQ⟩ := h
  unfold Assembly.step at hs
  split at hs
  · cases hs
  cases a with
  | call i =>
    simp only [TestsFit, not_forall] at hbad
    obtain ⟨c, b, hc, hpc, hwrap⟩ := hbad
    obtain ⟨henq, hroom⟩ := hq.enqueue_wrap hwrap (.data b)
    simp only [hc, Option.bind_some, callStep, hpc, henq] at hs
    left
    cases ht : s.torn with
    | _ =>
      simp only [ht, Option.some.injEq] at hs
      subst hs
      exact ⟨rfl, hQ ▸ hroom⟩
  | worker =>
    simp only [TestsFit, not_forall] at hbad
    obtain ⟨b, hw, hwrap⟩ := hbad
    obtain ⟨henq, hroom⟩ := hp.enqueue_wrap hwrap b
    simp only [workerStep, hw, henq, Option.some.injEq] at hs
    exact .inr ⟨b, hw, hs.symm, hP ▸ hroom⟩
  | destroyer =>
    simp only [TestsFit, Classical.not_imp] at hbad
    obtain ⟨hd, hwrap⟩ := hbad
    obtain ⟨henq, hroom⟩ := hq.enqueue_wrap hwrap .kill
    simp only [destroyerStep, hd, henq, Option.some.injEq] at hs
    subst hs
    exact .inl ⟨rfl, hQ ▸ hroom⟩
  | _ => exact absurd trivial hbad

/-- A condition on the steps of the abstract queue, met whatever the two queues hold. -/
def Under (n : ℕ) (ok : Queue → Act → Prop) (s : Assembly w) (a : Act) : Prop :=
  s.TestsFit a ∧ ∀ P Q, Stands n s P Q → ok (s.view n P Q) a

end Assembly

open Assembly

instance {w : ℕ} {α : Type} (q : TsQueue.Queue w α) : Decidable (Fits q) :=
  inferInstanceAs (Decidable (q.tail.toNat + q.size.toNat < 2 ^ w))

/-- **The dispatch queue over its thread-safe queues.** For counters of any width, every size and every interleaving
of posts, the worker and a destroy: `dispatch_queue_create` succeeds for powers of two only; and as long as no enqueue
is made whose full test wraps, every run of the two thread-safe queues is a run of the abstract queue, under the same
conditions `ok`. The first enqueue whose full test wraps trips an assertion although the action queue has room, or
silently loses the block that the worker frees. -/
theorem dispatch_over_ts_queues (w : ℕ) (size : BitVec w) (ok : Queue → Act → Prop) (s : Assembly w)
    (h : Sys.Reach (system w size) (Under size.toNat ok) s) :
    size.toNat.isPowerOfTwo ∧ ∃ P Q, Stands size.toNat s P Q ∧
      Sys.Reach (Queue.system size.toNat) ok (s.view size.toNat P Q) ∧
      ∀ a s', s.step a = some s' → ¬ s.TestsFit a →
        (s'.tripped.isSome = true ∧ Q.length < size.toNat) ∨
          (∃ b, s.worker = .free b ∧ s' = { s with worker := .dequeue } ∧ P.length < size.toNat) := by
  suffices hsim : ∃ q, Sys.Reach (Queue.system size.toNat) ok q ∧
      size.toNat.isPowerOfTwo ∧ ∃ P Q, Stands size.toNat s P Q ∧ q = s.view size.toNat P Q by
    obtain ⟨q, hreach, hpow, P, Q, hS, rfl⟩ := hsim
    exact ⟨hpow, P, Q, hS, hreach, fun a s' hs hbad => hS.wraps hbad hs⟩
  refine h.simulates
    (R := fun s q => size.toNat.isPowerOfTwo ∧ ∃ P Q, Stands size.toNat s P Q ∧ q = s.view size.toNat P Q) ?_ ?_
  · intro s hs
    obtain ⟨hpow, P, Q, hS, hinit⟩ := create_stands hs
    exact ⟨_, hinit, hpow, P, Q, hS, rfl⟩
  · rintro s q a s' - ⟨hpow, P, Q, hS, rfl⟩ ⟨hfit, hok⟩ hs
    obtain ⟨P', Q', hs', hS'⟩ := hS.step hfit hs
    exact .inr ⟨a, _, hok P Q hS, hs', hpow, P', Q', hS', rfl⟩

/-- A dispatch queue of two. -/
def two : Assembly 32 :=
  (create (fun _ => 0) (fun _ => .kill) (fun _ => (0, ⟨0, 0, 0⟩)) 2).get (by decide)

/-- An action that was posted to a queue of two and is running, and a second one that waits. -/
theorem dispatch_over_ts_queues_two : ∃ s : Assembly 32, s.worker = .running 0 ∧
    s.executed = [(0, ⟨1, 2, 3⟩)] ∧ ∃ P Q, Stands 2 s P Q ∧
      Sys.Reach (Queue.system 2) Sys.Always (s.view 2 P Q) := by
  have h0 : Sys.Reach (system 32 2) (fun s _ => Fits s.queue ∧ Fits s.pool) two :=
    .init ⟨_, _, _, (Option.some_get _).symm⟩
  have htrace : (Sys.exec (system 32 2) (fun s _ => Fits s.queue ∧ Fits s.pool) two
      [.post ⟨1, 2, 3⟩ false, .call 0, .call 0, .call 0, .call 0, .worker, .worker, .post ⟨4, 5, 6⟩ true, .call 1,
        .call 1, .call 1, .call 1]).map
      (fun s => s.worker == .running 0 && s.executed == [(0, ⟨1, 2, 3⟩)]) = some true := by decide +kernel
  obtain ⟨s, hs, hp⟩ := h0.of_trace htrace
  simp only [Bool.and_eq_true, beq_iff_eq] at hp
  have hunder : Sys.Reach (system 32 2) (Under 2 Sys.Always) s := by
    refine hs.mono ?_
    rintro s a ⟨hq, hp⟩
    refine ⟨?_, fun _ _ _ => trivial⟩
    cases a with
    | call i => exact fun _ _ _ _ => hq
    | worker => exact fun _ _ => hp
    | destroyer => exact fun _ => hq
    | _ => exact trivial
  obtain ⟨-, P, Q, hS, hreach, -⟩ := dispatch_over_ts_queues 32 2 Sys.Always s hunder
  exact ⟨s, hp.1, hp.2, P, Q, hS, hreach⟩

end Cutils.Dispatch
