import Cutils.Lib.Count
import Cutils.Proof.EventFlagPorts
import Cutils.Proof.TsQueueTimeout
import Cutils.Spec.EventFlagThreads

/-!
# Waits on an event flag: for ever, and until a deadline

`Next` lists what a step can do to a call (`step_next`). A wait that is to last for ever locks the mutex with a deadline
of zero, so it fails on a held one. A wait with a finite `wait_ms` reads the clock again each time round its loop, so
each wake-up moves its deadline (`flagDeadline_ns`).

* `event_flag_waits_forever`: without that contention no wait for ever fails, and with it one does.
* `event_flag_deadlines_iff`: the deadlines of a finite wait stay where they were if and only if no time passes before
  the last one.
-/

namespace Cutils.EventFlag

open TsQueue (Timespec WAIT_FOREVER Rval)

namespace Threads

variable {s s' : Threads} {a : Act} {i j : ℕ} {c c' : Call} {now ts : Timespec}

/-- Everything a step can do to call `c`: where it is afterwards. -/
inductive Next (s : Threads) (a : Act) (j : ℕ) (c : Call) : Pc → Prop
  | stays : Next s a j c c.pc
  | lockFree (hpc : c.pc = .lock) (ho : s.owner = none) : Next s a j c .critical
  | lockWaits (now : Timespec) (ha : a = .lock j now) (hpc : c.pc = .lock) (ho : s.owner ≠ none) : Next s a j c .locking
  | lockFails (now : Timespec) (ha : a = .lock j now) (hpc : c.pc = .lock) (ho : s.owner ≠ none) :
      Next s a j c (.returned false)
  | lockTimeout (hpc : c.pc = .locking) : Next s a j c (.returned false)
  | acquires (hpc : c.pc = .locking ∨ c.pc = .waking .zero) : Next s a j c .critical
  | expired (rval : Rval) (hpc : c.pc = .waking rval) (hr : rval ≠ .zero) : Next s a j c (.unlock false)
  | done (hpc : c.pc = .critical) : Next s a j c (.unlock true)
  | waits (abstime : Option Timespec) (hpc : c.pc = .critical)
      (hf : c.request.waitsForever = true → abstime = none) : Next s a j c (.waiting abstime)
  | inval (hpc : c.pc = .critical) (hf : c.request.waitsForever = false) : Next s a j c (.unlock false)
  | unlocks (retval : Bool) (hpc : c.pc = .unlock retval) : Next s a j c (.returned retval)
  | wakes (abstime : Option Timespec) (hpc : c.pc = .waiting abstime) : Next s a j c (.waking .zero)
  | times (abstime : Timespec) (hpc : c.pc = .waiting (some abstime)) : Next s a j c (.waking .timedOut)

/-- The call is for what `c` is for. -/
def Alike (c c' : Call) : Prop := c'.request = c.request ∧ c'.ts = c.ts

/-- The calls after a step: the old ones, each with where it is now, and perhaps a new one that has not locked yet. -/
def Follows (s : Threads) (a : Act) (s' : Threads) : Prop :=
  ∀ j c', s'.calls[j]? = some c' → (c'.pc = .lock ∧ (c'.request.waitsForever = true → c'.ts = ⟨0, 0⟩)) ∨
    ∃ c, s.calls[j]? = some c ∧ Alike c c' ∧ Next s a j c c'.pc

theorem wakeUp_alike (c : Call) : Alike c c.wakeUp := by
  unfold Call.wakeUp
  split <;> exact ⟨rfl, rfl⟩

/-- A step of call `i`. -/
theorem follows_set (hc : s.calls[i]? = some c) {d : Call} (hs : s'.calls = s.calls.set i d)
    (hd : Alike c d) (hnext : Next s a i c d.pc) : Follows s a s' := by
  intro j c' hc'
  rw [hs] at hc'
  rcases List.get_set hc' with ⟨rfl, rfl⟩ | ⟨-, hc'⟩
  · exact .inr ⟨c, hc, hd, hnext⟩
  · exact .inr ⟨c', hc', ⟨rfl, rfl⟩, .stays⟩

/-- A send: call `i` goes on, and the broadcast wakes the others. -/
theorem follows_broadcast (hc : s.calls[i]? = some c) {d : Call} (hs : s'.calls = s.calls.set i d)
    (hd : Alike c d) (hpc : d.pc = .unlock true) (hnext : Next s a i c d.pc) :
    Follows s a s'.broadcast := by
  intro j c' hc'
  simp only [broadcast, List.getElem?_map, Option.map_eq_some_iff] at hc'
  obtain ⟨e, he, rfl⟩ := hc'
  rw [hs] at he
  rcases List.get_set he with ⟨rfl, rfl⟩ | ⟨-, he⟩
  · have hsame : e.wakeUp = e := by simp [Call.wakeUp, hpc]
    rw [hsame]
    exact .inr ⟨c, hc, hd, hnext⟩
  · refine .inr ⟨e, he, wakeUp_alike e, ?_⟩
    cases hpc : e.pc with
    | waiting abstime =>
      simp only [Call.wakeUp, hpc]
      exact .wakes abstime hpc
    | _ =>
      have hsame : e.wakeUp = e := by simp [Call.wakeUp, hpc]
      rw [hsame]
      exact .stays

theorem lock_follows (hc : s.calls[i]? = some c) (hs : s.lockStep i c now = some s') :
    Follows s (.lock i now) s' := by
  unfold lockStep at hs
  cases hpc : c.pc with
  | lock =>
    simp only [hpc] at hs
    split at hs
    · rename_i ho
      simp only [Option.some.injEq] at hs; subst hs
      exact follows_set hc rfl ⟨rfl, rfl⟩ (.lockFree hpc ho)
    · rename_i ho
      simp only [Option.some.injEq] at hs; subst hs
      unfold lockHeld
      split
      · exact follows_set hc rfl ⟨rfl, rfl⟩ (.lockWaits now rfl hpc ho)
      · exact follows_set hc rfl ⟨rfl, rfl⟩ (.lockWaits now rfl hpc ho)
      · split
        · exact follows_set hc rfl ⟨rfl, rfl⟩ (.lockFails now rfl hpc ho)
        · split
          · exact follows_set hc rfl ⟨rfl, rfl⟩ (.lockFails now rfl hpc ho)
          · exact follows_set hc rfl ⟨rfl, rfl⟩ (.lockWaits now rfl hpc ho)
  | _ => simp [hpc] at hs

theorem acquire_follows (hc : s.calls[i]? = some c) (hs : s.acquireStep i c = some s') :
    Follows s (.acquire i) s' := by
  unfold acquireStep at hs
  split at hs
  · split at hs
    · rename_i hpc
      simp only [Option.some.injEq] at hs; subst hs
      exact follows_set hc rfl ⟨rfl, rfl⟩ (.acquires (.inl hpc))
    · rename_i hpc
      simp only [Option.some.injEq] at hs; subst hs
      exact follows_set hc rfl ⟨rfl, rfl⟩ (.acquires (.inr hpc))
    · rename_i rval hr hpc
      simp only [Option.some.injEq] at hs; subst hs
      exact follows_set hc rfl ⟨rfl, rfl⟩ (.expired rval hpc (by rintro rfl; exact hr rfl))
    · cases hs
  · cases hs

theorem loop_follows (hc : s.calls[i]? = some c) (hpc : c.pc = .critical) {requiredFlags waitMs : UInt32}
    {waitType : WaitType} (hr : c.request = .wait requiredFlags waitType waitMs) :
    Follows s a (s.loopStep i c requiredFlags waitType waitMs ts) := by
  unfold loopStep
  dsimp only
  split
  · exact follows_set hc rfl ⟨rfl, rfl⟩ (.done hpc)
  · split
    · rename_i hms
      have hf : c.request.waitsForever = false := by simpa [hr, Request.waitsForever] using hms
      split
      · exact follows_set hc rfl ⟨rfl, rfl⟩ (.waits _ hpc (by simp [hf]))
      · exact follows_set hc rfl ⟨rfl, rfl⟩ (.inval hpc hf)
    · exact follows_set hc rfl ⟨rfl, rfl⟩ (.waits _ hpc fun _ => rfl)

theorem run_follows (hc : s.calls[i]? = some c) (hs : s.runStep i c ts = some s') : Follows s (.run i ts) s' := by
  unfold runStep at hs
  cases hpc : c.pc with
  | critical =>
    simp only [hpc] at hs
    split at hs
    · simp only [Option.some.injEq] at hs; subst hs
      exact follows_broadcast hc rfl ⟨rfl, rfl⟩ rfl (.done hpc)
    · simp only [Option.some.injEq] at hs; subst hs
      exact follows_set hc rfl ⟨rfl, rfl⟩ (.done hpc)
    · rename_i hr
      simp only [Option.some.injEq] at hs; subst hs
      exact loop_follows hc hpc hr
  | unlock retval =>
    simp only [hpc, Option.some.injEq] at hs; subst hs
    exact follows_set hc rfl ⟨rfl, rfl⟩ (.unlocks retval hpc)
  | _ => simp [hpc] at hs

/-- **What a step does to the calls.** -/
theorem step_follows (hs : s.step a = some s') : Follows s a s' := by
  cases a with
  | call request actual ts =>
    simp only [step] at hs
    split at hs
    · simp only [Option.some.injEq] at hs; subst hs
      intro j c' hc'
      rcases List.get_append_singleton hc' with ⟨-, rfl⟩ | hc'
      · refine .inl ⟨rfl, fun hf => ?_⟩
        cases request with
        | send | clear => rfl
        | wait requiredFlags waitType waitMs =>
          -- a wait forever takes no time stamp at its entry
          have hms : waitMs = WAIT_FOREVER := by simpa [Request.waitsForever] using hf
          simp [entryTs, lockDeadline, hms]
      · exact .inr ⟨c', hc', ⟨rfl, rfl⟩, .stays⟩
    · cases hs
  | lock i now =>
    simp only [step] at hs
    split at hs
    · obtain ⟨c, hc, hs⟩ := Option.bind_eq_some_iff.1 hs
      exact lock_follows hc hs
    · cases hs
  | lockTimeout i now =>
    simp only [step] at hs
    split at hs
    · obtain ⟨c, hc, hs⟩ := Option.bind_eq_some_iff.1 hs
      unfold lockTimeoutStep at hs
      split at hs
      · rename_i hpc hr
        split at hs
        · simp only [Option.some.injEq] at hs; subst hs
          exact follows_set hc rfl ⟨rfl, rfl⟩ (.lockTimeout hpc)
        · cases hs
      · cases hs
    · cases hs
  | acquire i =>
    obtain ⟨c, hc, hs⟩ := Option.bind_eq_some_iff.1 hs
    exact acquire_follows hc hs
  | run i ts =>
    simp only [step] at hs
    split at hs
    · obtain ⟨c, hc, hs⟩ := Option.bind_eq_some_iff.1 hs
      exact run_follows hc hs
    · cases hs
  | wake i =>
    obtain ⟨c, hc, hs⟩ := Option.bind_eq_some_iff.1 hs
    unfold wakeStep at hs
    split at hs
    · rename_i abstime hpc
      simp only [Option.some.injEq] at hs; subst hs
      exact follows_set hc rfl ⟨rfl, rfl⟩ (.wakes abstime hpc)
    · cases hs
  | timeout i now =>
    simp only [step] at hs
    split at hs
    · obtain ⟨c, hc, hs⟩ := Option.bind_eq_some_iff.1 hs
      unfold timeoutStep at hs
      split at hs
      · rename_i abstime hpc
        split at hs
        · simp only [Option.some.injEq] at hs; subst hs
          exact follows_set hc rfl ⟨rfl, rfl⟩ (.times abstime hpc)
        · cases hs
      · cases hs
    · cases hs

section Forever

/-- Where a wait that does not fail can be. -/
def Pc.fine : Pc → Bool
  | .lock | .critical | .waiting none | .waking .zero | .unlock true | .returned true => true
  | _ => false

/-- No wait that is to last for ever has failed. -/
def Lasts (s : Threads) : Prop := ∀ c ∈ s.calls, c.request.waitsForever = true → Pc.fine c.pc = true

theorem Lasts.step (h : Lasts s) (hok : s.Uncontended a) (hs : s.step a = some s') : Lasts s' := by
  intro c' hmem hf
  obtain ⟨j, hj⟩ := List.mem_iff_getElem?.1 hmem
  rcases step_follows hs j c' hj with ⟨hpc, -⟩ | ⟨c, hc, ⟨hr, -⟩, hnext⟩
  · rw [hpc]
    rfl
  · rw [hr] at hf
    have hfine := h c (List.mem_of_getElem? hc) hf
    -- the mutex is free for `c`
    have hfree : ∀ now, a = .lock j now → c.pc = .lock → s.owner = none := by
      rintro now rfl hpc
      exact hok c hc hf hpc
    generalize c'.pc = pc at hnext
    cases hnext with
    | stays => exact hfine
    | lockFree | acquires | done => rfl
    | lockWaits now ha hpc ho => exact absurd (hfree now ha hpc) ho
    | lockFails now ha hpc ho => exact absurd (hfree now ha hpc) ho
    -- the ways to fail that are left start where such a wait never is
    | lockTimeout hpc => rw [hpc] at hfine; cases hfine
    | expired rval hpc hr =>
      rw [hpc] at hfine
      cases rval <;> simp_all [Pc.fine]
    | waits abstime hpc hnone => rw [hnone hf]; rfl
    | inval hpc hfin => rw [hf] at hfin; cases hfin
    | unlocks retval hpc =>
      rw [hpc] at hfine
      cases retval <;> simp_all [Pc.fine]
    | wakes => rfl
    | times abstime hpc => rw [hpc] at hfine; cases hfine

/-- The deadline of a wait that is to last for ever is zero. -/
def ZeroTs (s : Threads) : Prop := ∀ c ∈ s.calls, c.request.waitsForever = true → c.ts = ⟨0, 0⟩

theorem reach_zeroTs (h : Sys.Reach system Sys.Always s) : ZeroTs s := by
  refine h.inv ?_ ?_
  · rintro s rfl c hc
    cases hc
  · intro s a s' ih _ hs c' hmem hf
    obtain ⟨j, hj⟩ := List.mem_iff_getElem?.1 hmem
    rcases step_follows hs j c' hj with ⟨-, hts⟩ | ⟨c, hc, ⟨hr, hts⟩, -⟩
    · exact hts hf
    · rw [hts]
      rw [hr] at hf
      exact ih c (List.mem_of_getElem? hc) hf

/-- **Contention**: the wait fails. -/
theorem contended_fails (hz : ZeroTs s) (hok : ¬ s.Uncontended a) (hs : s.step a = some s') :
    ∃ c ∈ s'.calls, c.request.waitsForever = true ∧ c.pc = .returned false := by
  cases a with
  | lock i now =>
    simp only [Uncontended, not_forall] at hok
    obtain ⟨c, hc, hf, hpc, ho⟩ := hok
    have hc : s.calls[i]? = some c := hc
    simp only [step, hc, Option.bind_some, lockStep, hpc, if_neg ho] at hs
    split at hs
    · rename_i hnow
      simp only [Option.some.injEq] at hs; subst hs
      have hzero : c.ts = ⟨0, 0⟩ := hz c (List.mem_of_getElem? hc) hf
      -- the clock is past the Epoch
      have hreached : c.ts.reached now = true := by
        rw [hzero]
        simp only [reading, Timespec.valid, Bool.and_eq_true, decide_eq_true_eq] at hnow
        simp only [Timespec.reached, Bool.or_eq_true, Bool.and_eq_true, decide_eq_true_eq, beq_iff_eq]
        omega
      have hfails : s.lockHeld i c now = s.setCall i c (.returned false) := by
        unfold lockHeld
        split <;> simp_all [Request.waitsForever]
      rw [hfails]
      have hset := List.get_set_self (x := { c with pc := .returned false }) hc
      exact ⟨_, List.mem_of_getElem? hset, hf, rfl⟩
    · cases hs
  | _ => exact absurd trivial hok

end Forever

/-- **Waiting for ever.** In every run of any number of sends, clears and waits in which each wait that is to last for
ever finds the mutex free, none of these fails, nor does the exit handshake of a dispatch queue's destruction. In any
run, a wait that is to last for ever and finds the mutex held fails. -/
theorem event_flag_waits_forever (s : Threads) :
    (Sys.Reach system Uncontended s → ∀ c ∈ s.calls,
      (c.request.waitsForever = true → c.pc ≠ .returned false) ∧ c.handshakeFails = false) ∧
      (Sys.Reach system Sys.Always s → ∀ a s', ¬ s.Uncontended a → s.step a = some s' →
        ∃ c ∈ s'.calls, c.request.waitsForever = true ∧ c.pc = .returned false) := by
  refine ⟨fun h c hc => ?_, fun h a s' hok hs => contended_fails (reach_zeroTs h) hok hs⟩
  have hlasts : Lasts s := by
    refine h.inv ?_ fun s a s' ih hok hs => ih.step hok hs
    rintro s rfl c hc
    cases hc
  have hne : c.request.waitsForever = true → c.pc ≠ .returned false := by
    intro hf hpc
    have hfine := hlasts c hc hf
    rw [hpc] at hfine
    cases hfine
  refine ⟨hne, ?_⟩
  by_contra hfails
  simp only [Bool.not_eq_false, Call.handshakeFails, Bool.and_eq_true, beq_iff_eq] at hfails
  exact hne (by rw [hfails.1]; rfl) hfails.2

instance (s : Threads) : DecidablePred s.Uncontended
  | .lock i _ => inferInstanceAs (Decidable (∀ c ∈ s.calls[i]?, _))
  | .call .. | .lockTimeout .. | .acquire _ | .run .. | .wake _ | .timeout .. => instDecidableTrue

/-- A `signal_wait` comes while a `signal_send` has the mutex. -/
def contended : Threads :=
  ⟨0, some 0, [⟨signalSend, ⟨0, 0⟩, none, .critical⟩, ⟨signalWait, ⟨0, 0⟩, none, .lock⟩]⟩

theorem contended_reach : Sys.Reach system Sys.Always contended :=
  (Sys.Reach.init rfl).of_exec (show Sys.exec system Sys.Always ⟨0, none, []⟩
    [.call signalSend none ⟨9, 0⟩, .lock 0 ⟨9, 0⟩, .call signalWait none ⟨9, 0⟩] = some contended by decide)

/-- A `signal_wait` before its `signal_send` sleeps, is woken, and has its flag; one that comes while a `signal_send` has
the mutex fails. -/
theorem event_flag_waits_forever_signal :
    (∃ s, Sys.Reach system Uncontended s ∧ s.calls.map (·.pc) = [.returned true, .returned true] ∧
      ∀ c ∈ s.calls, (c.request.waitsForever = true → c.pc ≠ .returned false) ∧ c.handshakeFails = false) ∧
      ∃ s', contended.step (.lock 1 ⟨9, 0⟩) = some s' ∧
        ∃ c ∈ s'.calls, c.request.waitsForever = true ∧ c.pc = .returned false := by
  refine ⟨?_, ?_⟩
  · have htrace : (Sys.exec system Uncontended ⟨0, none, []⟩
        [.call signalWait none ⟨9, 0⟩, .lock 0 ⟨9, 0⟩, .run 0 ⟨9, 0⟩, .call signalSend none ⟨9, 0⟩, .lock 1 ⟨9, 0⟩,
          .run 1 ⟨9, 0⟩, .run 1 ⟨9, 0⟩, .acquire 0, .run 0 ⟨9, 0⟩, .run 0 ⟨9, 0⟩]).map
        (fun s => s.calls.map (·.pc) == [.returned true, .returned true]) = some true := by decide
    obtain ⟨s, hs, hp⟩ := (Sys.Reach.init rfl).of_trace htrace
    exact ⟨s, hs, by simpa using hp, (event_flag_waits_forever s).1 hs⟩
  · obtain ⟨s', hs'⟩ := Option.isSome_iff_exists.1 (show (contended.step (.lock 1 ⟨9, 0⟩)).isSome by decide)
    exact ⟨s', hs', (event_flag_waits_forever contended).2 contended_reach _ s' (by decide) hs'⟩

/-- The worker of a dispatch queue is in `signal_send`, with the mutex, when `dispatch_queue_destroy` comes to its
`signal_wait`: the handshake fails. -/
theorem event_flag_handshake_fails :
    ∃ s, Sys.Reach system Sys.Always s ∧ s.calls.map (·.pc) = [.critical, .returned false] ∧
      ¬ ∀ c ∈ s.calls, (c.request.waitsForever = true → c.pc ≠ .returned false) ∧ c.handshakeFails = false := by
  have htrace : (Sys.exec system Sys.Always contended [.lock 1 ⟨9, 0⟩]).map
      (fun s => s.calls.map (·.pc) == [.critical, .returned false] && s.calls.any (·.handshakeFails)) =
      some true := by decide
  obtain ⟨s, hs, hp⟩ := contended_reach.of_trace htrace
  simp only [Bool.and_eq_true, beq_iff_eq, List.any_eq_true] at hp
  obtain ⟨hpcs, c, hc, hfails⟩ := hp
  refine ⟨s, hs, hpcs, fun hnone => ?_⟩
  rw [(hnone c hc).2] at hfails
  cases hfails

end Threads

section Deadline

variable {requiredFlags waitMs : UInt32} {waitType : WaitType} {entry : Timespec}

/-- **A deadline** is the reading it is computed from, and `wait_ms`. -/
theorem flagDeadline_ns (ts : Timespec) (waitMs : UInt32) :
    (flagDeadline ts waitMs).ns = ts.ns + waitMs.toNat * 1000000 := by
  have hlt : waitMs.toNat % 1000 * 1000000 < 2 ^ 32 := by
    have := Nat.mod_lt waitMs.toNat (show 1000 > 0 by decide)
    omega
  unfold flagDeadline Timespec.ns
  rw [UInt32.toNat_mul, UInt32.toNat_div, UInt32.toNat_mod, show (1000 : UInt32).toNat = 1000 from rfl,
    show (1000000 : UInt32).toNat = 1000000 from rfl, Nat.mod_eq_of_lt hlt]
  dsimp only
  omega

theorem eq_of_ns {t u : Timespec} (ht : t.valid = true) (hu : u.valid = true) (h : t.ns = u.ns) : t = u := by
  simp only [Timespec.valid, Bool.and_eq_true, decide_eq_true_eq] at ht hu
  unfold Timespec.ns at h
  have hsec : t.sec = u.sec := by omega
  have hnsec : t.nsec = u.nsec := by omega
  cases t
  cases u
  simp_all

/-- The clock reading at entry, and `wait_ms`. -/
def limit (entry : Timespec) (waitMs : UInt32) : ℤ := entry.ns + waitMs.toNat * 1000000

/-- A clock that does not go back, from `ts` on. -/
def Clocks (ts : Timespec) : List Waited → Prop
  | [] => True
  | e :: es => e.ts.valid = true ∧ ts.ns ≤ e.ts.ns ∧ (∀ t ∈ e.wakeup, t.valid = true ∧ e.ts.ns ≤ t.ns) ∧
    Clocks (e.wakeup.getD e.ts) es

/-- **No time passes**: the clock reads the same before each wait that is made as it did at entry. -/
def Prompt (entry : Timespec) (waitMs : UInt32) : List Waited → Prop
  | [] => True
  | e :: es => e.ts = entry ∧ (condTimedwait (flagDeadline e.ts waitMs) e = .zero → Prompt entry waitMs es)

/-- The clock passes the limit: a wait is not woken before. -/
def Passed (entry : Timespec) (waitMs : UInt32) (es : List Waited) : Prop :=
  ∃ e ∈ es, ∀ t ∈ e.wakeup, limit entry waitMs ≤ t.ns

/-- The flags never meet the request. -/
def Unmet (requiredFlags : UInt32) (waitType : WaitType) (val : UInt32) : Prop :=
  satisfied val requiredFlags waitType = false

theorem checkFlags_unmet {val : UInt32} (h : Unmet requiredFlags waitType val) (actual : Option UInt32) :
    checkFlags val requiredFlags waitType actual = ⟨false, val, actual⟩ := by
  unfold Unmet at h
  rw [checkFlags_eq]
  unfold waited
  rw [if_neg (by simp [h])]

section Loop

variable {val : UInt32} {actual : Option UInt32} {es : List Waited} {ts : Timespec}

/-- A wake-up: the loop goes round. -/
theorem waitLoop_woken (hms : waitMs ≠ WAIT_FOREVER) (h : Unmet requiredFlags waitType val) {e : Waited}
    (hzero : condTimedwait (flagDeadline e.ts waitMs) e = .zero) (es : List Waited) :
    waitLoop requiredFlags waitType waitMs val actual (e :: es) =
      ((waitLoop requiredFlags waitType waitMs e.val actual es).1,
        flagDeadline e.ts waitMs :: (waitLoop requiredFlags waitType waitMs e.val actual es).2) := by
  simp [waitLoop, checkFlags_unmet h, hms, hzero]

/-- Anything else ends it. -/
theorem waitLoop_fails (hms : waitMs ≠ WAIT_FOREVER) (h : Unmet requiredFlags waitType val) {e : Waited}
    (hne : condTimedwait (flagDeadline e.ts waitMs) e ≠ .zero) (es : List Waited) :
    ∃ v, waitLoop requiredFlags waitType waitMs val actual (e :: es) =
      (some ⟨false, v, actual⟩, [flagDeadline e.ts waitMs]) := by
  cases hr : condTimedwait (flagDeadline e.ts waitMs) e with
  | zero => exact absurd hr hne
  | timedOut => exact ⟨e.val, by simp [waitLoop, checkFlags_unmet h, hms, hr]⟩
  | inval => exact ⟨val, by simp [waitLoop, checkFlags_unmet h, hms, hr]⟩

/-- In any case the first deadline is handed over. -/
theorem waitLoop_first (hms : waitMs ≠ WAIT_FOREVER) (h : Unmet requiredFlags waitType val) (e : Waited)
    (es : List Waited) :
    flagDeadline e.ts waitMs ∈ (waitLoop requiredFlags waitType waitMs val actual (e :: es)).2 := by
  by_cases hzero : condTimedwait (flagDeadline e.ts waitMs) e = .zero
  · rw [waitLoop_woken hms h hzero]
    exact List.mem_cons_self
  · obtain ⟨v, hend⟩ := waitLoop_fails hms h hzero es
    rw [hend]
    exact List.mem_singleton_self _

/-- A wait that is woken is woken before its deadline. -/
theorem condTimedwait_zero {e : Waited} {d : Timespec} (h : condTimedwait d e = .zero) :
    ∃ t, e.wakeup = some t ∧ d.valid = true ∧ d.reached t = false := by
  unfold condTimedwait at h
  split at h
  · cases h
  · rename_i hd
    split at h
    · cases h
    · rename_i t ht
      split at h
      · cases h
      · rename_i hreached
        exact ⟨t, ht, by simpa using hd, by simpa using hreached⟩

/-- **Deadlines within the limit** are those of a clock that has not moved. -/
theorem prompt_of_deadlines (hms : waitMs ≠ WAIT_FOREVER) (hentry : entry.valid = true) (hclocks : Clocks ts es)
    (hts : entry.ns ≤ ts.ns) (hval : Unmet requiredFlags waitType val)
    (hes : ∀ e ∈ es, Unmet requiredFlags waitType e.val)
    (hle : ∀ d ∈ (waitLoop requiredFlags waitType waitMs val actual es).2, d.ns ≤ limit entry waitMs) :
    Prompt entry waitMs es := by
  -- over the waits; `ts` is the clock at the end of the one before, never earlier than `entry`
  induction es generalizing ts val with
  | nil => trivial
  | cons e es ih =>
    obtain ⟨hvalid, hge, hwake, hrest⟩ := hclocks
    have hfirst := hle _ (waitLoop_first hms hval e es)
    rw [flagDeadline_ns] at hfirst
    unfold limit at hfirst
    refine ⟨eq_of_ns hvalid hentry (by omega), fun hzero => ?_⟩
    obtain ⟨t, ht, -, -⟩ := condTimedwait_zero hzero
    rw [waitLoop_woken hms hval hzero] at hle
    rw [ht, Option.getD_some] at hrest
    have hnow := (hwake t ht).2
    exact ih hrest (by omega) (hes e List.mem_cons_self) (fun e he => hes e (List.mem_cons_of_mem _ he))
      fun d hd => hle d (List.mem_cons_of_mem _ hd)

/-- A clock that has not moved gives deadlines within the limit. -/
theorem deadlines_of_prompt (hms : waitMs ≠ WAIT_FOREVER) (hval : Unmet requiredFlags waitType val)
    (hes : ∀ e ∈ es, Unmet requiredFlags waitType e.val) (h : Prompt entry waitMs es) :
    ∀ d ∈ (waitLoop requiredFlags waitType waitMs val actual es).2, d.ns ≤ limit entry waitMs := by
  induction es generalizing val with
  | nil => simp [waitLoop]
  | cons e es ih =>
    obtain ⟨hts, hrest⟩ := h
    have hfirst : (flagDeadline e.ts waitMs).ns ≤ limit entry waitMs := by
      rw [flagDeadline_ns, hts]
      rfl
    intro d hd
    by_cases hzero : condTimedwait (flagDeadline e.ts waitMs) e = .zero
    · rw [waitLoop_woken hms hval hzero] at hd
      rcases List.mem_cons.1 hd with rfl | hd
      · exact hfirst
      · exact ih (hes e List.mem_cons_self) (fun e he => hes e (List.mem_cons_of_mem _ he)) (hrest hzero) d hd
    · obtain ⟨v, hend⟩ := waitLoop_fails hms hval hzero es
      rw [hend] at hd
      rw [List.mem_singleton.1 hd]
      exact hfirst

/-- Then the wait that the clock passes the limit in is the last. -/
theorem returns_of_prompt (hms : waitMs ≠ WAIT_FOREVER) (hclocks : Clocks ts es) (hval : Unmet requiredFlags waitType val)
    (hes : ∀ e ∈ es, Unmet requiredFlags waitType e.val) (h : Prompt entry waitMs es)
    (hpass : Passed entry waitMs es) :
    ∃ v, (waitLoop requiredFlags waitType waitMs val actual es).1 = some ⟨false, v, actual⟩ := by
  induction es generalizing ts val with
  | nil =>
    obtain ⟨e, he, -⟩ := hpass
    cases he
  | cons e es ih =>
    obtain ⟨-, -, hwake, hclocks⟩ := hclocks
    obtain ⟨hts, hrest⟩ := h
    by_cases hzero : condTimedwait (flagDeadline e.ts waitMs) e = .zero
    · rw [waitLoop_woken hms hval hzero]
      obtain ⟨t, ht, hd, hearly⟩ := condTimedwait_zero hzero
      have hlt : t.ns < limit entry waitMs := by
        by_contra hge
        have hreached := (TsQueue.Timespec.reached_iff hd (hwake t ht).1).2
          (by rw [flagDeadline_ns, hts]; exact not_lt.1 hge)
        rw [hearly] at hreached
        cases hreached
      obtain ⟨e', he', hlate⟩ := hpass
      -- this wait was woken before the limit, so the one that passes it is still to come
      have hin : e' ∈ es := by
        rcases List.mem_cons.1 he' with rfl | he'
        · exact absurd (hlate t ht) (not_le.2 hlt)
        · exact he'
      exact ih hclocks (hes e List.mem_cons_self) (fun e he => hes e (List.mem_cons_of_mem _ he)) (hrest hzero)
        ⟨e', hin, hlate⟩
    · obtain ⟨v, hend⟩ := waitLoop_fails hms hval hzero es
      exact ⟨v, by rw [hend]⟩

end Loop

/-- **The deadlines stay**: each one handed to `pthread_cond_timedwait` is within the limit, and once the clock passes
that, the call has returned false. -/
def DeadlinesStay (entry : Timespec) (requiredFlags : UInt32) (waitType : WaitType) (waitMs : UInt32) (val : UInt32) (actual : Option UInt32)
    (locked : Bool) (es : List Waited) : Prop :=
  (∀ d ∈ (waitTimed requiredFlags waitType waitMs val actual locked es).2, d.ns ≤ limit entry waitMs) ∧
    (Passed entry waitMs es →
      ∃ v, (waitTimed requiredFlags waitType waitMs val actual locked es).1 = some ⟨false, v, actual⟩)

/-- **Deadlines of an event flag.** For every finite wait, every clock that does not go back and every sequence of
wake-ups by sends that never meet the request: the deadlines stay if and only if the wait does not get the mutex, or
the clock has not moved from entry when it makes its waits. -/
theorem event_flag_deadlines_iff (entry : Timespec) (hentry : entry.valid = true) (requiredFlags : UInt32)
    (waitType : WaitType) (waitMs : UInt32) (hms : waitMs ≠ WAIT_FOREVER) (val : UInt32) (actual : Option UInt32)
    (locked : Bool) (es : List Waited) (hclocks : Clocks entry es) (hval : Unmet requiredFlags waitType val)
    (hes : ∀ e ∈ es, Unmet requiredFlags waitType e.val) :
    DeadlinesStay entry requiredFlags waitType waitMs val actual locked es ↔
      (locked = true → Prompt entry waitMs es) := by
  unfold DeadlinesStay waitTimed
  cases locked with
  | false => simp
  | true =>
    simp only [if_true, forall_const]
    refine ⟨fun h => prompt_of_deadlines hms hentry hclocks le_rfl hval hes h.1, fun h => ?_⟩
    exact ⟨deadlines_of_prompt hms hval hes h, returns_of_prompt hms hclocks hval hes h⟩

/-- A second at 5 s: it is woken at once for another flag, and then sleeps until its deadline. -/
theorem event_flag_deadlines_iff_prompt :
    DeadlinesStay ⟨5, 0⟩ 1 .waitOr 1000 0 none true [⟨⟨5, 0⟩, some ⟨5, 0⟩, 2⟩, ⟨⟨5, 0⟩, some ⟨7, 0⟩, 2⟩] := by
  have hclocks : Clocks ⟨5, 0⟩ [⟨⟨5, 0⟩, some ⟨5, 0⟩, 2⟩, ⟨⟨5, 0⟩, some ⟨7, 0⟩, 2⟩] := by
    simp [Clocks, Timespec.valid, Timespec.ns]
  exact (event_flag_deadlines_iff ⟨5, 0⟩ rfl 1 .waitOr 1000 (by decide) 0 none true _ hclocks rfl
    (by simp [Unmet, satisfied]; rfl)).2 fun _ => ⟨rfl, fun _ => ⟨rfl, fun _ => trivial⟩⟩

/-- A second at 5 s: it is woken at 5.5 s for another flag, and at 6.2 s. Its second deadline is 6.5 s, and it has not
returned. -/
theorem event_flag_deadline_moves :
    waitTimed 1 .waitOr 1000 0 none true
        [⟨⟨5, 0⟩, some ⟨5, 500000000⟩, 2⟩, ⟨⟨5, 500000000⟩, some ⟨6, 200000000⟩, 2⟩] =
      (none, [⟨6, 0⟩, ⟨6, 500000000⟩]) ∧
    ¬ DeadlinesStay ⟨5, 0⟩ 1 .waitOr 1000 0 none true
      [⟨⟨5, 0⟩, some ⟨5, 500000000⟩, 2⟩, ⟨⟨5, 500000000⟩, some ⟨6, 200000000⟩, 2⟩] := by
  have hrun : waitTimed 1 .waitOr 1000 0 none true
      [⟨⟨5, 0⟩, some ⟨5, 500000000⟩, 2⟩, ⟨⟨5, 500000000⟩, some ⟨6, 200000000⟩, 2⟩] =
      (none, [⟨6, 0⟩, ⟨6, 500000000⟩]) := by decide
  refine ⟨hrun, fun h => ?_⟩
  have hle := h.1 ⟨6, 500000000⟩ (by rw [hrun]; simp)
  revert hle
  decide

end Deadline

end Cutils.EventFlag
