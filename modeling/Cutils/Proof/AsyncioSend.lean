import Cutils.Lib.Fifo
import Cutils.Proof.AsyncioPost

/-!
# Which sends are accepted

The size is compared with `<`, where `asyncio_tx_token_get_max_data_size` and the storage macro have the maximum itself as a
size; and a post needs a block of the worker's queue.

A send that is refused may have written the fields of its request (`Agree`), which nobody reads before they are
written again, unless the request is pending. As long as every new pool finds no token with a client, what the clients
hold, what is free and what is pending at the worker are different blocks (`Inv`).

* `run_worker`: in every run the worker stands for a queue of `Spec/DispatchQueue.lean`.
* `asyncio_send`: when a send of a running stream is accepted as it should be, and when a refused one leaves no trace.
* `asyncio_send_stale`: a token that outlived its pool overwrites the request of another client.
-/

namespace Cutils.Asyncio.Send

open Blocks

section Owners

variable {s s' : State} {op : Op} {o : Obs} {b c : ℕ}

/-- How often a block is free, with a client, or pending at the worker. -/
def State.owners (s : State) (b : ℕ) : ℕ := s.bufferPool.free.count b + s.held.count b + s.pending.count b

/-- A block is at one place at most. -/
def Inv (s : State) : Prop := ∀ b, s.owners b ≤ 1

/-- A new pool is created only while no client holds a token. -/
def State.Fresh (s : State) (op : Op) : Prop := op = .set .poolCreate → s.held = []

instance (s : State) (op : Op) : Decidable (s.Fresh op) := inferInstanceAs (Decidable (_ → _))

theorem Inv.not_pending (h : Inv s) (hb : b ∈ s.held) : b ∉ s.pending := by
  intro hpending
  have hone := h b
  have h1 := List.count_pos_iff.2 hb
  have h2 := List.count_pos_iff.2 hpending
  unfold State.owners at hone
  omega

theorem Inv.of_le (h : Inv s) (hle : ∀ b, s'.owners b ≤ s.owners b) : Inv s' := fun b => (hle b).trans (h b)

theorem free_alloc {p p' : Store} (h : p.alloc = (some b, p')) : p.free = b :: p'.free := by
  unfold Store.alloc Store.dequeue at h
  split at h
  · rename_i x hx
    split at hx
    · rename_i hq
      cases hx
      cases h
      simp only [Store.free, Store.fetchAdd, hq, Option.getD_some]
    · cases hx
  · cases h

theorem count_enqueue (p : Store) (b c : ℕ) : (p.enqueue b).free.count c ≤ p.free.count c + [b].count c := by
  unfold Store.enqueue
  split
  · rename_i q hq
    split
    · simp only [Store.free, hq, Option.getD_some, List.count_append, le_refl]
    · exact Nat.le_add_right _ _
  · exact Nat.le_add_right _ _

/-- `pool_free` puts the block into the free queue, or does not. -/
theorem count_release {p p' : Store} (h : p.release b = some p') (c : ℕ) :
    p'.free.count c ≤ p.free.count c + [b].count c := by
  unfold Store.release at h
  split at h
  · cases h
  split at h
  · cases h
    exact count_enqueue (p.fetchSub b) b c
  · cases h
    exact Nat.le_add_right _ _

theorem count_erase_held {l : List ℕ} (hb : b ∈ l) (c : ℕ) : (l.erase b).count c + [b].count c = l.count c := by
  have hperm : l.count c = ([b] ++ l.erase b).count c := (List.perm_cons_erase hb).count_eq c
  rw [hperm, List.count_append, Nat.add_comm]

/-- **Sending**: refused, with at most the fields of the request written; or the block goes from the client to the
worker's queue. -/
inductive Sent (s : State) (token : Option ℕ) : State → Bool → Prop
  | unchanged : Sent s token s false
  | refused (b : ℕ) (size : UInt32) (fn : Option ℕ) (priv : ℕ) : token = some b →
      Sent s token
        { s with request := Function.update s.request b { s.request b with size := size, fn := fn, priv := priv } } false
  | accepted (b : ℕ) (request : ℕ → Request) (w w' : Worker) : token = some b → s.worker = some w →
      w.dispatchAsyncF (.txF b) = some (w', true) →
      Sent s token { s with request := request, worker := some w', held := s.held.erase b } true

theorem sendBuffer_sent {hAsyncio r : Bool} {token fn : Option ℕ} {size : UInt32} {priv : ℕ}
    (h : s.sendBuffer hAsyncio token size fn priv = some (s', r)) : Sent s token s' r := by
  unfold State.sendBuffer at h
  split at h
  · rename_i b
    split at h
    · obtain ⟨x, hpost, hx⟩ := Option.map_eq_some_iff.1 h
      unfold State.post at hpost
      split at hpost
      · rename_i w hw
        obtain ⟨⟨w', r'⟩, hdispatch, rfl⟩ := Option.map_eq_some_iff.1 hpost
        cases hx
        cases r' with
        | true => exact .accepted b _ w w' rfl hw hdispatch
        | false =>
          obtain ⟨-, -, rfl⟩ | ⟨hr, -⟩ := Worker.dispatchAsyncF_pending hdispatch
          · simp only [Bool.false_eq_true, if_false, ← hw]
            exact .refused b size fn priv rfl
          · cases hr
      · cases hpost
        cases hx
        exact .refused b size fn priv rfl
    · cases h
      exact .unchanged
  · cases h
    exact .unchanged

theorem pending_some {w : Worker} (h : s.worker = some w) : s.pending = w.pending := by
  rw [State.pending, h, Option.elim_some]

theorem allocateTxToken_owners (s : State) (c : ℕ) : s.allocateTxToken.1.owners c ≤ s.owners c := by
  unfold State.allocateTxToken
  split
  · split
    · rename_i b pool halloc
      show pool.free.count c + (b :: s.held).count c + s.pending.count c ≤ s.owners c
      rw [State.owners, free_alloc halloc, List.count_cons, List.count_cons]
      omega
    · exact le_rfl
  · exact le_rfl

theorem Sent.owners {token : Option ℕ} {r : Bool} (h : Sent s token s' r) (hheld : ∀ b ∈ token, b ∈ s.held) (c : ℕ) :
    s'.owners c ≤ s.owners c := by
  cases h with
  | unchanged => exact le_rfl
  | refused b size fn priv => exact le_rfl
  | accepted b request w w' htoken hw hdispatch =>
    have hcount := count_erase_held (hheld b (by rw [htoken]; rfl)) c
    obtain ⟨hr, -⟩ | ⟨-, -, hpending⟩ := Worker.dispatchAsyncF_pending hdispatch
    · cases hr
    · show s.bufferPool.free.count c + (s.held.erase b).count c + w'.pending.count c ≤ s.owners c
      rw [State.owners, pending_some hw, hpending, List.count_append]
      change _ + _ + (_ + [b].count c) ≤ _
      omega

theorem releaseTxToken_owners {hAsyncio : Bool} {token : Option ℕ} (hheld : ∀ b ∈ token, b ∈ s.held)
    (h : s.releaseTxToken hAsyncio token = some s') (c : ℕ) : s'.owners c ≤ s.owners c := by
  -- the client gives the token up; the free queue gets it or not
  have hgiven : ∀ b pool, token = some b → pool.free.count c ≤ s.bufferPool.free.count c + [b].count c →
      State.owners { s with bufferPool := pool, held := s.held.erase b } c ≤ s.owners c := by
    intro b pool htoken hle
    have hcount := count_erase_held (hheld b (by rw [htoken]; rfl)) c
    show pool.free.count c + (s.held.erase b).count c + s.pending.count c ≤ s.owners c
    unfold State.owners
    omega
  unfold State.releaseTxToken at h
  split at h
  · rename_i b
    split at h
    · obtain ⟨pool, hpool, rfl⟩ := Option.map_eq_some_iff.1 h
      exact hgiven b pool rfl (count_release hpool c)
    · cases h
      exact hgiven b s.bufferPool rfl (Nat.le_add_right _ _)
  · rename_i b
    cases h
    exact hgiven b s.bufferPool rfl (Nat.le_add_right _ _)
  · cases h
    exact le_rfl

theorem post_owners {id : ℕ} {r : Bool} (h : s.post (.other id) = some (s', r)) (c : ℕ) : s'.owners c ≤ s.owners c := by
  unfold State.post at h
  split at h
  · rename_i w hw
    obtain ⟨⟨w', r'⟩, hdispatch, ht⟩ := Option.map_eq_some_iff.1 h
    cases ht
    have hpending : w'.pending = w.pending := by
      obtain ⟨-, -, rfl⟩ | ⟨-, -, hpending⟩ := Worker.dispatchAsyncF_pending hdispatch
      · rfl
      · exact hpending.trans (List.append_nil _)
    show s.bufferPool.free.count c + s.held.count c + w'.pending.count c ≤ s.owners c
    rw [hpending, ← pending_some hw]
    exact le_rfl
  · cases h
    exact le_rfl

theorem run_owners {n : ℕ} {es : List Event} (h : s.run n = some (s', es)) (c : ℕ) : s'.owners c ≤ s.owners c := by
  unfold State.run at h
  split at h
  · rename_i w hw
    split at h
    · rename_i block b hrunning
      obtain ⟨pool, hpool, ht⟩ := Option.map_eq_some_iff.1 h
      cases ht
      have hcount := count_release hpool c
      show pool.free.count c + s.held.count c + w.finish.pending.count c ≤ s.owners c
      rw [State.owners, pending_some hw, Worker.pending_finish hrunning, List.count_append]
      change _ ≤ _ + _ + ([b].count c + _)
      omega
    · rename_i block id hrunning
      cases h
      show s.bufferPool.free.count c + s.held.count c + w.finish.pending.count c ≤ s.owners c
      rw [State.owners, pending_some hw, Worker.pending_finish hrunning]
      exact le_rfl
    · cases h
      exact le_rfl
  · cases h
    exact le_rfl

/-- **What a call does to the places of blocks**: none is at one more, or there is a new pool. -/
theorem call_owners (hcall : s.call op = some (s', o)) :
    (∀ c, s'.owners c ≤ s.owners c) ∨
      (op = .set .poolCreate ∧ s'.bufferPool = s.bufferPool.create ∧ s'.held = s.held ∧ s'.pending = []) := by
  -- a block only goes from one place to the next, or is lost
  cases op with
  | allocate =>
    cases hcall
    exact .inl (allocateTxToken_owners s)
  | fill b payload =>
    simp only [State.call] at hcall
    split at hcall
    all_goals
      cases hcall
      exact .inl fun c => le_rfl
  | send hAsyncio token size fn priv =>
    simp only [State.call] at hcall
    split at hcall
    · rename_i hheld
      obtain ⟨⟨t, r⟩, hsend, ht⟩ := Option.map_eq_some_iff.1 hcall
      cases ht
      exact .inl ((sendBuffer_sent hsend).owners hheld)
    · cases hcall
      exact .inl fun c => le_rfl
  | release hAsyncio token =>
    simp only [State.call] at hcall
    split at hcall
    · rename_i hheld
      obtain ⟨t, hrelease, ht⟩ := Option.map_eq_some_iff.1 hcall
      cases ht
      exact .inl (releaseTxToken_owners hheld hrelease)
    · cases hcall
      exact .inl fun c => le_rfl
  | getMaxDataSize =>
    cases hcall
    exact .inl fun c => le_rfl
  | post id =>
    obtain ⟨⟨t, r⟩, hpost, ht⟩ := Option.map_eq_some_iff.1 hcall
    cases ht
    exact .inl (post_owners hpost)
  | take =>
    cases hcall
    refine .inl fun c => ?_
    cases hw : s.worker with
    | none => simp only [State.owners, State.pending, hw, Option.map_none, le_refl]
    | some w => simp only [State.owners, State.pending, hw, Option.map_some, Option.elim_some, Worker.pending_take, le_refl]
  | run n =>
    obtain ⟨⟨t, es⟩, hrun, ht⟩ := Option.map_eq_some_iff.1 hcall
    cases ht
    exact .inl (run_owners hrun)
  | set x =>
    cases hcall
    cases x with
    | workerDestroying =>
      refine .inl fun c => ?_
      simp only [State.set, State.owners, State.pending]
      cases s.worker with
      | none => exact le_rfl
      | some w => exact le_rfl
    | poolCreate =>
      simp only [State.set]
      split
      · rename_i hpending
        exact .inr ⟨trivial, rfl, rfl, hpending⟩
      · exact .inl fun c => le_rfl
    | poolDestroy =>
      refine .inl fun c => ?_
      simp only [State.set, State.owners, Store.free, Store.destroy, Option.getD_none, List.count_nil, State.pending]
      omega
    | initState x => exact .inl fun c => le_rfl
    | txInitState x => exact .inl fun c => le_rfl
    | streamStopped x => exact .inl fun c => le_rfl
    | isInError x => exact .inl fun c => le_rfl

theorem Inv.call (h : Inv s) (hok : s.Fresh op) (hcall : s.call op = some (s', o)) : Inv s' := by
  rcases call_owners hcall with hle | ⟨hop, hpool, hheld, hpending⟩
  · exact h.of_le hle
  · intro c
    rw [State.owners, hpool, hheld, hok hop, hpending]
    exact List.nodup_iff_count.1 List.nodup_range c

theorem Inv.create (max : UInt32) (n : ℕ) (queueSize : Option ℕ) : Inv (State.create max n queueSize) := by
  intro c
  cases queueSize with
  | none => exact Nat.zero_le _
  | some k => exact Nat.zero_le _

/-- **In every run a block is at one place**, if no token is with a client when a new pool is created. -/
theorem Inv.run {max : UInt32} {n : ℕ} {queueSize : Option ℕ} {ops : List Op} {os : List Obs}
    (h : Device.run State.call (State.create max n queueSize) ops = some (s, os))
    (hok : Device.Along State.call State.Fresh (State.create max n queueSize) ops) : Inv s :=
  Device.keeps_run (fun _ _ _ _ hI hok hcall => Inv.call hI hok hcall) ops _ s os (Inv.create max n queueSize) hok h

end Owners

section Workers

variable {s s' : State} {op : Op} {o : Obs}

theorem post_worker {j : Job} {r : Bool} (h : s.post j = some (s', r)) :
    s'.worker = s.worker ∨ ∃ w w', s.worker = some w ∧ s'.worker = some w' ∧ w.Moves w' := by
  unfold State.post at h
  split at h
  · rename_i w hw
    obtain ⟨⟨w', r'⟩, hdispatch, ht⟩ := Option.map_eq_some_iff.1 h
    cases ht
    exact .inr ⟨w, w', hw, rfl, .post j hdispatch⟩
  · cases h
    exact .inl rfl

/-- **What a call does to the worker.** -/
theorem call_worker (hcall : s.call op = some (s', o)) :
    s'.worker = s.worker ∨ ∃ w w', s.worker = some w ∧ s'.worker = some w' ∧ w.Moves w' := by
  cases op with
  | allocate =>
    cases hcall
    unfold State.allocateTxToken
    split
    · split
      all_goals exact .inl rfl
    · exact .inl rfl
  | fill b payload =>
    simp only [State.call] at hcall
    split at hcall
    all_goals
      cases hcall
      exact .inl rfl
  | send hAsyncio token size fn priv =>
    simp only [State.call] at hcall
    split at hcall
    · obtain ⟨⟨t, r⟩, hsend, ht⟩ := Option.map_eq_some_iff.1 hcall
      cases ht
      cases sendBuffer_sent hsend with
      | unchanged => exact .inl rfl
      | refused b size fn priv => exact .inl rfl
      -- only an accepted send reaches the worker
      | accepted b request w w' htoken hw hdispatch => exact .inr ⟨w, w', hw, rfl, .post (.txF b) hdispatch⟩
    · cases hcall
      exact .inl rfl
  | release hAsyncio token =>
    simp only [State.call] at hcall
    split at hcall
    · obtain ⟨t, hrelease, ht⟩ := Option.map_eq_some_iff.1 hcall
      cases ht
      unfold State.releaseTxToken at hrelease
      split at hrelease
      · split at hrelease
        · obtain ⟨pool, -, rfl⟩ := Option.map_eq_some_iff.1 hrelease
          exact .inl rfl
        · cases hrelease
          exact .inl rfl
      · cases hrelease
        exact .inl rfl
      · cases hrelease
        exact .inl rfl
    · cases hcall
      exact .inl rfl
  | getMaxDataSize =>
    cases hcall
    exact .inl rfl
  | post id =>
    obtain ⟨⟨t, r⟩, hpost, ht⟩ := Option.map_eq_some_iff.1 hcall
    cases ht
    exact post_worker hpost
  | take =>
    cases hcall
    cases hw : s.worker with
    | none => exact .inl rfl
    | some w => exact .inr ⟨w, w.take, rfl, rfl, .take⟩
  -- the worker finishes the message in its hand, whatever it is
  | run n =>
    obtain ⟨⟨t, es⟩, hrun, ht⟩ := Option.map_eq_some_iff.1 hcall
    cases ht
    unfold State.run at hrun
    split at hrun
    · rename_i w hw
      split at hrun
      · obtain ⟨pool, -, ht⟩ := Option.map_eq_some_iff.1 hrun
        cases ht
        exact .inr ⟨w, w.finish, hw, rfl, .finish⟩
      · cases hrun
        exact .inr ⟨w, w.finish, hw, rfl, .finish⟩
      · cases hrun
        exact .inl rfl
    · cases hrun
      exact .inl rfl
  | set x =>
    cases hcall
    cases x with
    | workerDestroying =>
      cases hw : s.worker with
      | none => exact .inl (by simp [State.set, hw])
      | some w => exact .inr ⟨w, w.destroy, rfl, by simp [State.set, hw], .destroy⟩
    | poolCreate =>
      unfold State.set
      dsimp only
      split
      all_goals exact .inl rfl
    | initState x => exact .inl rfl
    | txInitState x => exact .inl rfl
    | streamStopped x => exact .inl rfl
    | isInError x => exact .inl rfl
    | poolDestroy => exact .inl rfl

/-- **In every run, until a destroy, the worker stands for a dispatch queue** that a run of its steps leads to. -/
theorem run_worker {max : UInt32} {n capacity : ℕ} {ops : List Op} {os : List Obs}
    (h : Device.run State.call (State.create max n (some capacity)) ops = some (s, os)) (w : Worker)
    (hw : s.worker = some w) (hd : w.destroying = false) :
    ∃ q, Sys.Reach (Dispatch.Queue.system capacity) Sys.Always q ∧ w.Stands q := by
  have hreached : ∀ w ∈ s.worker, w.Reached capacity := by
    refine Device.keeps_run (I := fun s : State => ∀ w ∈ s.worker, w.Reached capacity) ?_ ops _ s os ?_
      (.trivial State.call ops _) h
    · intro s op s' o hI _ hcall w' hw'
      obtain heq | ⟨w, w₁, hw, hw₁, hmove⟩ := call_worker hcall
      · exact hI w' (by rwa [heq] at hw')
      · obtain rfl := Option.some.inj (hw₁.symm.trans hw')
        exact .move (hI w hw) hmove
    · intro w hw
      obtain rfl := Option.some.inj hw
      exact .create
  exact (hreached w hw).stands hd

end Workers

section Agree

variable {s t s' : State} {β γ : Type*}

/-- The states differ in what no call looks at: fields of requests that are not pending, but not their payload. -/
def Agree (s t : State) : Prop :=
  ∃ f, t = { s with request := f } ∧ (∀ b, (f b).payload = (s.request b).payload) ∧ ∀ b ∈ s.pending, f b = s.request b

/-- Both fail, or both answer alike in states that agree. -/
def Answers (x y : Option (State × β)) : Prop :=
  (x = none ∧ y = none) ∨ ∃ s t r, x = some (s, r) ∧ y = some (t, r) ∧ Agree s t

theorem Agree.refl (s : State) : Agree s s := ⟨s.request, rfl, fun _ => rfl, fun _ _ => rfl⟩

theorem Agree.answers (h : Agree s t) (r : β) : Answers (some (s, r)) (some (t, r)) := .inr ⟨s, t, r, rfl, rfl, h⟩

theorem Answers.map {x y : Option (State × β)} (h : Answers x y) (g : State → β → State × γ)
    (hg : ∀ s t r, Agree s t → (g s r).2 = (g t r).2 ∧ Agree (g s r).1 (g t r).1) :
    Answers (x.map fun r => g r.1 r.2) (y.map fun r => g r.1 r.2) := by
  rcases h with ⟨rfl, rfl⟩ | ⟨s, t, r, rfl, rfl, h⟩
  · exact .inl ⟨rfl, rfl⟩
  · obtain ⟨hanswer, hagree⟩ := hg s t r h
    refine .inr ⟨(g s r).1, (g t r).1, (g s r).2, rfl, ?_, hagree⟩
    rw [hanswer]
    rfl

/-- A change that does not look at requests. -/
theorem Agree.frame (h : Agree s t) (g : State → State)
    (hg : ∀ (s : State) f, g { s with request := f } = { g s with request := f })
    (hrequest : (g s).request = s.request) (hpending : ∀ b ∈ (g s).pending, b ∈ s.pending) : Agree (g s) (g t) := by
  obtain ⟨f, rfl, hpayload, hsame⟩ := h
  refine ⟨f, hg s f, ?_, ?_⟩
  · rw [hrequest]
    exact hpayload
  · intro b hb
    rw [hrequest]
    exact hsame b (hpending b hb)

/-- Fields of a request that is not pending. -/
theorem Agree.fields {b : ℕ} (hb : b ∉ s.pending) (r : Request) (hr : r.payload = (s.request b).payload) :
    Agree s { s with request := Function.update s.request b r } := by
  refine ⟨Function.update s.request b r, rfl, ?_, ?_⟩
  · intro c
    by_cases hc : c = b
    · subst hc
      rw [Function.update_self, hr]
    · rw [Function.update_of_ne hc]
  · intro c hpending
    have hc : c ≠ b := by
      rintro rfl
      exact hb hpending
    exact Function.update_of_ne hc _ _

/-- The same change of the fields of one request; where it is pending it agrees already. -/
theorem Agree.update (h : Agree s t) (b : ℕ) (g : Request → Request)
    (hg : ∀ r r' : Request, r.payload = r'.payload → (g r).payload = (g r').payload) :
    Agree { s with request := Function.update s.request b (g (s.request b)) }
      { t with request := Function.update t.request b (g (t.request b)) } := by
  obtain ⟨f, rfl, hpayload, hsame⟩ := h
  refine ⟨Function.update f b (g (f b)), rfl, ?_, ?_⟩
  · intro c
    by_cases hc : c = b
    · subst hc
      simp only [Function.update_self]
      exact hg _ _ (hpayload c)
    · simp only [Function.update_of_ne hc]
      exact hpayload c
  · intro c hpending
    by_cases hc : c = b
    · subst hc
      simp only [Function.update_self]
      rw [hsame c hpending]
    · simp only [Function.update_of_ne hc]
      exact hsame c hpending

theorem Agree.allocateTxToken (h : Agree s t) :
    s.allocateTxToken.2 = t.allocateTxToken.2 ∧ Agree s.allocateTxToken.1 t.allocateTxToken.1 := by
  obtain ⟨f, rfl, -⟩ := id h
  unfold State.allocateTxToken
  dsimp only
  split
  · cases halloc : s.bufferPool.alloc with
    | mk token pool =>
      cases token with
      | none => exact ⟨rfl, h⟩
      | some b =>
        -- the fields are written, so that it does not matter what they were
        have hreset := h.update b (fun r => { r with size := 0, fn := none, priv := 0 }) fun r r' hr => hr
        have hgiven := hreset.frame (fun s => { s with bufferPool := pool, held := b :: s.held }) (fun _ _ => rfl) rfl fun _ hc => hc
        exact ⟨rfl, hgiven⟩
  · exact ⟨rfl, h⟩

theorem post_none (h : s.worker = none) (j : Job) : s.post j = some (s, false) := by
  unfold State.post
  rw [h]

theorem post_some {w : Worker} (h : s.worker = some w) (j : Job) :
    s.post j = (w.dispatchAsyncF j).map fun r => ({ s with worker := some r.1 }, r.2) := by
  unfold State.post
  rw [h]

theorem Agree.worker (h : Agree s t) : t.worker = s.worker := by
  obtain ⟨f, rfl, -⟩ := h
  rfl

theorem Agree.post {j : Job} (h : Agree s t) (hj : ∀ b ∈ j.request, t.request b = s.request b) :
    Answers (s.post j) (t.post j) := by
  cases hw : s.worker with
  | none =>
    rw [post_none hw, post_none (h.worker.trans hw)]
    exact h.answers false
  | some w =>
    rw [post_some hw, post_some (h.worker.trans hw)]
    cases hdispatch : w.dispatchAsyncF j with
    | none => exact .inl ⟨rfl, rfl⟩
    | some x =>
      obtain ⟨w', r⟩ := x
      obtain ⟨f, rfl, hpayload, hsame⟩ := h
      refine .inr ⟨_, _, r, rfl, rfl, f, rfl, hpayload, ?_⟩
      intro b hb
      change b ∈ w'.pending at hb
      rw [pending_some hw] at hsame
      obtain ⟨-, -, rfl⟩ | ⟨-, -, hpending⟩ := Worker.dispatchAsyncF_pending hdispatch
      · exact hsame b hb
      · rw [hpending, List.mem_append] at hb
        rcases hb with hb | hb
        · exact hsame b hb
        · exact hj b (Option.mem_toList.1 hb)

theorem Agree.sendBuffer (h : Agree s t) (hAsyncio : Bool) (token : Option ℕ) (size : UInt32) (fn : Option ℕ) (priv : ℕ) :
    Answers (s.sendBuffer hAsyncio token size fn priv) (t.sendBuffer hAsyncio token size fn priv) := by
  obtain ⟨f, rfl, hpayload, -⟩ := id h
  unfold State.sendBuffer
  split
  · rename_i b
    dsimp only
    split
    · have hfields := h.update b (fun r => { r with size := size, fn := fn, priv := priv }) fun r r' hr => hr
      -- the request that is posted has the same fields now, and it had the same payload
      have hpost := hfields.post (j := .txF b) (by
        intro c hc
        obtain rfl := Option.some.inj hc
        simp only [Function.update_self, hpayload])
      refine hpost.map (fun x r => (if r then { x with held := s.held.erase b } else x, r)) ?_
      intro x y r hagree
      refine ⟨rfl, ?_⟩
      cases r with
      | false => exact hagree
      | true => exact hagree.frame (fun x => { x with held := s.held.erase b }) (fun _ _ => rfl) rfl fun _ hc => hc
    · exact h.answers false
  · exact h.answers false

theorem Agree.releaseTxToken (h : Agree s t) (hAsyncio : Bool) (token : Option ℕ) :
    Answers ((s.releaseTxToken hAsyncio token).map (·, Obs.done)) ((t.releaseTxToken hAsyncio token).map (·, Obs.done)) := by
  obtain ⟨f, rfl, -⟩ := id h
  have hgiven : ∀ b pool, Agree { s with bufferPool := pool, held := s.held.erase b }
      { s with request := f, bufferPool := pool, held := s.held.erase b } := fun b pool =>
    h.frame (fun s => { s with bufferPool := pool, held := s.held.erase b }) (fun _ _ => rfl) rfl fun _ hc => hc
  unfold State.releaseTxToken
  split
  · rename_i b
    dsimp only
    split
    · cases s.bufferPool.release b with
      | none => exact .inl ⟨rfl, rfl⟩
      | some pool => exact (hgiven b pool).answers Obs.done
    · exact (hgiven b s.bufferPool).answers Obs.done
  · rename_i b
    exact (hgiven b s.bufferPool).answers Obs.done
  · exact h.answers Obs.done

/-- What the worker is in the middle of agrees. -/
theorem txEvents_of_running {w : Worker} {block b : ℕ} (h : Agree s t) (hw : s.worker = some w)
    (hrunning : w.running = some (block, .txF b)) (n : ℕ) : s.txEvents b n = t.txEvents b n := by
  obtain ⟨f, rfl, -, hsame⟩ := h
  have hpending : b ∈ s.pending := by
    rw [pending_some hw, Worker.pending_finish hrunning]
    exact List.mem_append_left _ (List.mem_singleton_self b)
  unfold State.txEvents
  dsimp only
  rw [hsame b hpending]

theorem Agree.finish {w : Worker} {block : ℕ} {j : Job} (h : Agree s t) (hw : s.worker = some w)
    (hrunning : w.running = some (block, j)) (pool : Store) :
    Agree { s with bufferPool := pool, worker := some w.finish } { t with bufferPool := pool, worker := some w.finish } := by
  refine h.frame (fun s => { s with bufferPool := pool, worker := some w.finish }) (fun _ _ => rfl) rfl fun b hb => ?_
  change b ∈ w.finish.pending at hb
  rw [pending_some hw, Worker.pending_finish hrunning]
  exact List.mem_append_right _ hb

theorem Agree.run (h : Agree s t) (n : ℕ) : Answers (s.run n) (t.run n) := by
  unfold State.run
  rw [h.worker]
  split
  · rename_i w hw
    split
    · rename_i block b hrunning
      -- `tx_f` reads a request that is pending
      have hevents := txEvents_of_running h hw hrunning n
      have hfinish := h.finish hw hrunning
      obtain ⟨f, rfl, -⟩ := h
      dsimp only
      rw [← hevents]
      cases s.bufferPool.release b with
      | none => exact .inl ⟨rfl, rfl⟩
      | some pool => exact (hfinish pool).answers _
    · rename_i block id hrunning
      have hfinish := h.finish hw hrunning s.bufferPool
      obtain ⟨f, rfl, -⟩ := h
      exact hfinish.answers []
    · exact h.answers []
  · exact h.answers []

theorem Agree.take (h : Agree s t) :
    Agree { s with worker := s.worker.map Worker.take } { t with worker := t.worker.map Worker.take } := by
  refine h.frame (fun s => { s with worker := s.worker.map Worker.take }) (fun _ _ => rfl) rfl fun b hb => ?_
  cases hw : s.worker with
  | none => simp only [State.pending, hw, Option.map_none, Option.elim_none, List.not_mem_nil] at hb
  | some w =>
    simp only [State.pending, hw, Option.map_some, Option.elim_some, Worker.pending_take] at hb
    rw [pending_some hw]
    exact hb

theorem Agree.pending (h : Agree s t) : t.pending = s.pending := by
  rw [State.pending, State.pending, h.worker]

theorem Agree.set (h : Agree s t) (x : Setting) : Agree (s.set x) (t.set x) := by
  cases x with
  | initState x => exact h.frame (·.set (.initState x)) (fun _ _ => rfl) rfl fun _ hb => hb
  | txInitState x => exact h.frame (·.set (.txInitState x)) (fun _ _ => rfl) rfl fun _ hb => hb
  | streamStopped x => exact h.frame (·.set (.streamStopped x)) (fun _ _ => rfl) rfl fun _ hb => hb
  | isInError x => exact h.frame (·.set (.isInError x)) (fun _ _ => rfl) rfl fun _ hb => hb
  | workerDestroying =>
    refine h.frame (·.set .workerDestroying) (fun _ _ => rfl) rfl fun b hb => ?_
    cases hw : s.worker with
    | none => simp only [State.set, State.pending, hw, Option.map_none, Option.elim_none, List.not_mem_nil] at hb
    | some w =>
      simp only [State.set, State.pending, hw, Option.map_some, Option.elim_some] at hb
      rw [pending_some hw]
      exact hb
  | poolCreate =>
    unfold State.set
    dsimp only
    rw [h.pending]
    split
    · exact h.frame (fun s => { s with bufferPool := s.bufferPool.create }) (fun _ _ => rfl) rfl fun _ hb => hb
    · exact h
  | poolDestroy => exact h.frame (·.set .poolDestroy) (fun _ _ => rfl) rfl fun _ hb => hb

/-- **A call answers alike in states that agree, and leaves states that agree.** -/
theorem Agree.call (h : Agree s t) (op : Op) : Answers (s.call op) (t.call op) := by
  obtain ⟨f, rfl, hpayload, hsame⟩ := id h
  cases op with
  | allocate =>
    obtain ⟨htoken, hagree⟩ := h.allocateTxToken
    refine .inr ⟨_, _, .token s.allocateTxToken.2, rfl, ?_, hagree⟩
    rw [htoken]
    rfl
  | fill b payload =>
    unfold State.call
    dsimp only
    split
    · exact (h.update b (fun r => { r with payload := payload }) fun _ _ _ => rfl).answers Obs.done
    · exact h.answers Obs.refused
  | send hAsyncio token size fn priv =>
    unfold State.call
    dsimp only
    split
    · exact (h.sendBuffer hAsyncio token size fn priv).map (fun s r => (s, Obs.sent r)) fun _ _ _ hr => ⟨rfl, hr⟩
    · exact h.answers Obs.refused
  | release hAsyncio token =>
    unfold State.call
    dsimp only
    split
    · exact h.releaseTxToken hAsyncio token
    · exact h.answers Obs.refused
  | getMaxDataSize => exact h.answers (Obs.size s.maxTxDataChunkSize)
  | post id =>
    have hpost := h.post (j := .other id) (by rintro _ ⟨⟩)
    exact hpost.map (fun s r => (s, Obs.posted r)) fun _ _ _ hr => ⟨rfl, hr⟩
  | take => exact h.take.answers Obs.done
  | run n => exact (h.run n).map (fun s r => (s, Obs.ran r)) fun _ _ _ hr => ⟨rfl, hr⟩
  | set x => exact (h.set x).answers Obs.done

/-- **States that agree are alike**: no sequence of calls tells them apart. -/
theorem Agree.alike (h : Agree s t) : Device.Alike State.call s t := by
  have hstep : ∀ s t op, Agree s t → True → True → (s.call op = none ∧ t.call op = none) ∨
      ∃ s' t' o, s.call op = some (s', o) ∧ t.call op = some (t', o) ∧ Agree s' t' := fun s t op h _ _ => h.call op
  exact fun ops => Device.same_run hstep ops s t h (.trivial State.call ops s) (.trivial State.call ops t)

end Agree

section Accept

variable {s s' : State} {w : Worker}

/-- A running stream: `asyncio_start` has returned, `asyncio_stop` was not called, and nobody destroys the worker. -/
structure State.Running (s : State) (w : Worker) : Prop where
  initialized : s.initState = .initialized
  txInitialized : s.txInitState = .initialized
  notStopped : s.streamStopped = false
  worker : s.worker = some w
  notDestroying : w.destroying = false

theorem dispatchAsyncF_true (h : w.destroying = false) (j : Job) :
    (∃ w', w.dispatchAsyncF j = some (w', true)) ↔ w.pool ≠ [] := by
  cases hpool : w.pool with
  | nil =>
    rw [Worker.dispatchAsyncF_nil h hpool]
    simp
  | cons block rest =>
    rw [Worker.dispatchAsyncF_cons h hpool]
    simp

/-- **What a running stream accepts**: a size below the maximum, when the worker has a block for the post. -/
theorem sendBuffer_true (h : s.Running w) (b : ℕ) (size : UInt32) (fn : Option ℕ) (priv : ℕ) :
    (∃ s', s.sendBuffer true (some b) size fn priv = some (s', true)) ↔
      0 < size ∧ size < s.maxTxDataChunkSize ∧ w.pool ≠ [] := by
  have hcond : (!s.streamStopped ∧ s.txInitState = .initialized ∧ 0 < size ∧ size < s.maxTxDataChunkSize) ↔
      0 < size ∧ size < s.maxTxDataChunkSize := by
    rw [h.notStopped, h.txInitialized]
    simp only [Bool.not_false, true_and]
  unfold State.sendBuffer
  dsimp only
  split
  · rename_i hsize
    obtain ⟨hpos, hlt⟩ := hcond.1 hsize
    rw [← dispatchAsyncF_true h.notDestroying (.txF b)]
    unfold State.post
    dsimp only
    rw [h.worker]
    constructor
    · rintro ⟨s', hs'⟩
      obtain ⟨x, hx, hr⟩ := Option.map_eq_some_iff.1 hs'
      obtain ⟨⟨w', r⟩, hdispatch, rfl⟩ := Option.map_eq_some_iff.1 hx
      obtain rfl : r = true := congrArg Prod.snd hr
      exact ⟨hpos, hlt, w', hdispatch⟩
    · rintro ⟨-, -, w', hdispatch⟩
      dsimp only
      rw [hdispatch]
      exact ⟨_, rfl⟩
  · rename_i hsize
    constructor
    · rintro ⟨s', hs'⟩
      cases hs'
    · rintro ⟨hpos, hlt, -⟩
      exact (hsize (hcond.2 ⟨hpos, hlt⟩)).elim

/-- Where acceptance is as it should be: at the maximum, and without a block, it is not. -/
theorem accept_iff {size max : UInt32} {P : Prop} :
    ((0 < size ∧ size < max ∧ P) ↔ 0 < size ∧ size ≤ max) ↔ (size = max → size = 0) ∧ (0 < size → size < max → P) := by
  simp only [UInt32.lt_iff_toNat_lt, UInt32.le_iff_toNat_le, ← UInt32.toNat_inj, UInt32.toNat_zero]
  constructor
  · intro h
    refine ⟨fun heq => ?_, fun hpos hlt => (h.2 ⟨hpos, hlt.le⟩).2.2⟩
    by_contra hne
    have := (h.2 ⟨Nat.pos_of_ne_zero hne, heq.le⟩).2.1
    omega
  · rintro ⟨hmax, hblock⟩
    constructor
    · rintro ⟨hpos, hlt, -⟩
      exact ⟨hpos, hlt.le⟩
    · rintro ⟨hpos, hle⟩
      have hlt : size.toNat < max.toNat := by omega
      exact ⟨hpos, hlt, hblock hpos hlt⟩

/-- A send of token `token` that was refused has left no trace: the token is with the client and not pending, its retain
count and the worker's queue are as they were, and no call later on tells that the send was made. -/
structure Untouched (token : Option ℕ) (s s' : State) : Prop where
  held : s'.held = s.held
  bufferPool : s'.bufferPool = s.bufferPool
  worker : s'.worker = s.worker
  pending : ∀ b ∈ token, b ∉ s'.pending
  alike : Device.Alike State.call s s'

/-- **A refused send leaves no trace** if and only if its request is not pending already. -/
theorem Sent.untouched_iff {token : Option ℕ} (h : Sent s token s' false) :
    Untouched token s s' ↔ ∀ b ∈ token, b ∉ s.pending := by
  cases h with
  | unchanged => exact ⟨fun h => h.pending, fun hno => ⟨rfl, rfl, rfl, hno, (Agree.refl s).alike⟩⟩
  | refused b size fn priv htoken =>
    refine ⟨fun h => h.pending, fun hno => ?_⟩
    have hagree := Agree.fields (hno b htoken) { s.request b with size := size, fn := fn, priv := priv } rfl
    exact ⟨rfl, rfl, rfl, hno, hagree.alike⟩

/-- **Which sends are accepted.** Between the bounds of a size, a running stream accepts what it should, unless the size is the
maximum or the worker has no block for the post. A send that is refused leaves no trace, unless the token's request is
pending at the worker; and that of a token with a client is not, if no pool was created while a client held a token. -/
theorem asyncio_send {max : UInt32} {n : ℕ} {queueSize : Option ℕ} {ops : List Op} {os : List Obs}
    (hrun : Device.run State.call (State.create max n queueSize) ops = some (s, os)) :
    (∀ w b size fn priv, s.Running w → b ∈ s.held →
      (((∃ s', s.sendBuffer true (some b) size fn priv = some (s', true)) ↔ 0 < size ∧ size ≤ s.getMaxDataSize) ↔
        (size = s.getMaxDataSize → size = 0) ∧ (0 < size → size < s.getMaxDataSize → w.pool ≠ []))) ∧
    (∀ hAsyncio token size fn priv s', (∀ b ∈ token, b ∈ s.held) →
      s.sendBuffer hAsyncio token size fn priv = some (s', false) →
      (Untouched token s s' ↔ ∀ b ∈ token, b ∉ s.pending)) ∧
    (Device.Along State.call State.Fresh (State.create max n queueSize) ops → ∀ b ∈ s.held, b ∉ s.pending) := by
  refine ⟨?_, ?_, ?_⟩
  · intro w b size fn priv hrunning _
    rw [sendBuffer_true hrunning]
    exact accept_iff
  · intro hAsyncio token size fn priv s' _ hsend
    exact (sendBuffer_sent hsend).untouched_iff
  · intro hok b hb
    exact (Inv.run hrun hok).not_pending hb

/-- A started stream that has given its first token away. -/
def startedOps : List Op :=
  [.set .poolCreate, .set (.txInitState .initialized), .set (.initState .initialized), .set (.streamStopped false), .allocate]

/-- A maximum of 16 bytes: 15 are accepted, and a refused send of 17 leaves no trace. -/
theorem asyncio_send_sixteen : ∃ s os s', Device.run State.call (State.create 16 2 (some 2)) startedOps = some (s, os) ∧
    s.held = [0] ∧ (∃ s₁, s.sendBuffer true (some 0) 15 none 0 = some (s₁, true)) ∧
    s.sendBuffer true (some 0) 17 none 0 = some (s', false) ∧ Untouched (some 0) s s' := by
  have hrun : Device.run State.call (State.create 16 2 (some 2)) startedOps = some (_, _) := rfl
  obtain ⟨haccept, hrefuse, hfresh⟩ := asyncio_send hrun
  refine ⟨_, _, _, hrun, rfl, ?_, rfl, ?_⟩
  · exact ((haccept _ 0 15 none 0 ⟨rfl, rfl, rfl, rfl, rfl⟩ (by decide)).2
      ⟨by decide, fun _ _ => by decide⟩).2 ⟨by decide, by decide⟩
  · refine (hrefuse true (some 0) 17 none 0 _ (by decide) rfl).2 fun b hb => ?_
    obtain rfl := Option.some.inj hb
    exact hfresh (by decide) 0 (by decide)

/-- **The maximum itself is refused**: a running stream, a token the client holds, and a size that
`asyncio_tx_token_get_max_data_size` names. -/
theorem asyncio_send_max : ∃ s os w, Device.run State.call (State.create 16 2 (some 2)) startedOps = some (s, os) ∧
    s.Running w ∧ 0 ∈ s.held ∧ 0 < (16 : UInt32) ∧ 16 ≤ s.getMaxDataSize ∧
    ¬ ∃ s', s.sendBuffer true (some 0) 16 none 0 = some (s', true) := by
  refine ⟨_, _, _, rfl, ⟨rfl, rfl, rfl, rfl, rfl⟩, by decide, by decide, by decide, ?_⟩
  rintro ⟨s', hs'⟩
  cases hs'

/-- The stream is stopped and started again while the client holds its token, the token is given out once more and sent, and
the worker is destroyed. -/
def staleOps : List Op :=
  startedOps ++ [.set (.initState .uninitializing), .set (.streamStopped true), .set (.txInitState .uninitializing),
    .set (.txInitState .uninitialized), .set .poolDestroy, .set (.initState .uninitialized),
    .set (.initState .initializing), .set (.txInitState .initializing), .set (.streamStopped false), .set .poolCreate,
    .set (.txInitState .initialized), .set (.initState .initialized), .allocate, .send true (some 0) 5 (some 1) 7,
    .set .workerDestroying]

/-- **A stale token overwrites a request**: the worker writes 9 bytes and tells another callback, where the send that was
accepted has 5. -/
theorem asyncio_send_stale : ∃ s os s', Device.run State.call (State.create 16 2 (some 2)) staleOps = some (s, os) ∧
    s.held = [0] ∧ s.sendBuffer true (some 0) 9 (some 2) 8 = some (s', false) ∧ 0 ∈ s'.pending ∧
    ¬ Device.Alike State.call s s' := by
  refine ⟨_, _, _, rfl, rfl, rfl, by decide, fun halike => ?_⟩
  have hruns := halike [.take, .run 5]
  exact absurd hruns (by decide)

end Accept

end Cutils.Asyncio.Send
