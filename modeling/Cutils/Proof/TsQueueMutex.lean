import Cutils.Lib.Count
import Cutils.Spec.TsQueueThreads

/-!
# Mutual exclusion at a thread-safe queue

`Trans` lists what a step can do, once for all invariants (`step_trans`). The deadline of
`mutex_lock(.., WAIT_FOREVER)` adds 295000000 ns to the clock's nanoseconds and does not carry,
so it is out of range for readings from 705000000 ns on; the lock of a held mutex then fails,
and its callers do not look at the result.

* `lock_excludes`: as long as the lock works, at most one call is between lock and unlock, and
  a lock that does not work puts a second one there.
* `two_in_critical_section`: the run that does.
-/

namespace Cutils.TsQueue

namespace Threads

variable {w : ℕ} {α : Type}

/-- Everything a step can do. -/
inductive Trans (s : Threads w α) : Act α → Threads w α → Prop
  | call (request : Request α) (waitMs : UInt32) (ts : Timespec) (hts : ts.valid = true) :
      Trans s (.call request waitMs ts)
        { s with calls := s.calls ++ [⟨request, waitMs, queueDeadline w ts waitMs, .lock⟩] }
  | lockFree (i : ℕ) (c : Call α) (tm : Timespec) (hc : s.calls[i]? = some c) (hpc : c.pc = .lock)
      (ho : s.owner = none) : Trans s (.lock i tm) { s.setCall i c (.loop .zero) with owner := some i }
  | lockWait (i : ℕ) (c : Call α) (tm : Timespec) (hc : s.calls[i]? = some c) (hpc : c.pc = .lock)
      (ho : s.owner ≠ none) (htm : tm.valid = true) (hd : (mutexDeadline tm WAIT_FOREVER).valid = true) :
      Trans s (.lock i tm) (s.setCall i c (.locking (mutexDeadline tm WAIT_FOREVER)))
  | lockInvalid (i : ℕ) (c : Call α) (tm : Timespec) (hc : s.calls[i]? = some c) (hpc : c.pc = .lock)
      (ho : s.owner ≠ none) (htm : tm.valid = true) (hd : (mutexDeadline tm WAIT_FOREVER).valid = false) :
      Trans s (.lock i tm) (s.setCall i c (.loop .zero))
  | lockTimeout (i : ℕ) (c : Call α) (now deadline : Timespec) (hc : s.calls[i]? = some c)
      (hpc : c.pc = .locking deadline) (ho : s.owner ≠ none) :
      Trans s (.lockTimeout i now) (s.setCall i c (.loop .zero))
  | acquireLock (i : ℕ) (c : Call α) (deadline : Timespec) (hc : s.calls[i]? = some c)
      (hpc : c.pc = .locking deadline) (ho : s.owner = none) :
      Trans s (.acquire i) { s.setCall i c (.loop .zero) with owner := some i }
  | acquireSignalled (i : ℕ) (c : Call α) (hc : s.calls[i]? = some c) (hpc : c.pc = .signalled)
      (ho : s.owner = none) : Trans s (.acquire i) { s.setCall i c (.loop .zero) with owner := some i }
  | acquireWoken (i : ℕ) (c : Call α) (rval : Rval) (hc : s.calls[i]? = some c) (hpc : c.pc = .waking rval)
      (ho : s.owner = none) : Trans s (.acquire i) { s.setCall i c (.loop rval) with owner := some i }
  | wait (i : ℕ) (c : Call α) (rval : Rval) (woken : Option ℕ) (hc : s.calls[i]? = some c)
      (hpc : c.pc = .loop rval) (hb : s.blocked c.request.side = true) :
      Trans s (.run i woken) { s.setCall i c .waiting with owner := none }
  | spin (i : ℕ) (c : Call α) (rval : Rval) (woken : Option ℕ) (hc : s.calls[i]? = some c)
      (hpc : c.pc = .loop rval) (hd : c.waitMs ≠ WAIT_FOREVER ∧ c.deadline.valid = false) :
      Trans s (.run i woken) (s.setCall i c (.loop .inval))
  | put (i : ℕ) (c : Call α) (rval : Rval) (woken : Option ℕ) (x : α) (s' : Threads w α)
      (hc : s.calls[i]? = some c) (hpc : c.pc = .loop rval) (hr : c.request = .enqueue x)
      (hb : s.blocked .producer = false)
      (hs : signal { s.setCall i c (.unlock (.enqueued true)) with q := s.q.put x } .consumer woken = some s') :
      Trans s (.run i woken) s'
  | take (i : ℕ) (c : Call α) (woken : Option ℕ) (s' : Threads w α) (hc : s.calls[i]? = some c)
      (hpc : c.pc = .loop .zero) (hr : c.request = .dequeue) (hb : s.blocked .consumer = false)
      (hs : signal { s.setCall i c (.unlock (.dequeued (some s.q.take.2))) with q := s.q.take.1 } .producer
        woken = some s') : Trans s (.run i woken) s'
  | giveUp (i : ℕ) (c : Call α) (rval : Rval) (woken : Option ℕ) (retval : Obs α) (hc : s.calls[i]? = some c)
      (hpc : c.pc = .loop rval) (hr : rval ≠ .zero) : Trans s (.run i woken) (s.setCall i c (.unlock retval))
  | unlock (i : ℕ) (c : Call α) (woken : Option ℕ) (retval : Obs α) (hc : s.calls[i]? = some c)
      (hpc : c.pc = .unlock retval) :
      Trans s (.run i woken) { s.setCall i c (.returned retval) with owner := none }
  | wake (i : ℕ) (c : Call α) (hc : s.calls[i]? = some c) (hpc : c.pc = .waiting) :
      Trans s (.wake i) (s.setCall i c (.waking .zero))
  | timeout (i : ℕ) (c : Call α) (now : Timespec) (hc : s.calls[i]? = some c) (hpc : c.pc = .waiting) :
      Trans s (.timeout i now) (s.setCall i c (.waking .timedOut))

variable {s s' : Threads w α} {i : ℕ} {c : Call α}

theorem lock_trans {tm : Timespec} (htm : tm.valid = true) (hc : s.calls[i]? = some c)
    (hs : s.lockStep i c tm = some s') : Trans s (.lock i tm) s' := by
  unfold lockStep at hs
  cases hpc : c.pc with
  | lock =>
    simp only [hpc] at hs
    split at hs
    · simp only [Option.some.injEq] at hs; subst hs
      exact .lockFree i c tm hc hpc ‹_›
    · rename_i ho
      split at hs
      · simp only [Option.some.injEq] at hs; subst hs
        exact .lockWait i c tm hc hpc ho htm ‹_›
      · rename_i hd
        simp only [Option.some.injEq] at hs; subst hs
        exact .lockInvalid i c tm hc hpc ho htm (by simpa using hd)
  | _ => simp [hpc] at hs

theorem acquire_trans (hc : s.calls[i]? = some c) (hs : s.acquireStep i c = some s') :
    Trans s (.acquire i) s' := by
  unfold acquireStep at hs
  split at hs
  · rename_i ho
    split at hs
    · rename_i deadline hpc
      simp only [Option.some.injEq] at hs; subst hs
      exact .acquireLock i c deadline hc hpc ho
    · rename_i hpc
      simp only [Option.some.injEq] at hs; subst hs
      exact .acquireSignalled i c hc hpc ho
    · rename_i rval hpc
      simp only [Option.some.injEq] at hs; subst hs
      exact .acquireWoken i c rval hc hpc ho
    · cases hs
  · cases hs

theorem loop_trans {rval : Rval} {woken : Option ℕ} (hc : s.calls[i]? = some c) (hpc : c.pc = .loop rval)
    (hs : s.runStep i c woken = some s') : Trans s (.run i woken) s' := by
  simp only [runStep, hpc] at hs
  split at hs
  · rename_i hb
    split at hs
    · simp only [Option.some.injEq] at hs; subst hs
      exact .wait i c rval woken hc hpc hb.1
    · rename_i hd
      simp only [Option.some.injEq] at hs; subst hs
      exact .spin i c rval woken hc hpc (by simpa using hd)
  · rename_i hb
    -- either the side is not blocked, or the wait has timed out
    have hfree : rval ≠ .timedOut → s.blocked c.request.side = false := by
      intro hr
      by_contra hne
      exact hb ⟨by simpa using hne, hr⟩
    cases hr : c.request with
    | enqueue x =>
      simp only [hr] at hs
      split at hs
      · rename_i hrval
        have hfree := hfree hrval
        rw [hr] at hfree
        exact .put i c rval woken x s' hc hpc hr hfree hs
      · rename_i hrval
        simp only [Option.some.injEq] at hs; subst hs
        exact .giveUp i c rval woken _ hc hpc (by rintro rfl; exact hrval (by simp))
    | dequeue =>
      simp only [hr] at hs
      split at hs
      · rename_i hrval
        subst hrval
        have hfree := hfree (by simp)
        rw [hr] at hfree
        exact .take i c woken s' hc hpc hr hfree hs
      · rename_i hrval
        simp only [Option.some.injEq] at hs; subst hs
        exact .giveUp i c rval woken _ hc hpc hrval

/-- **Every step is one of these.** -/
theorem step_trans {a : Act α} (hs : s.step a = some s') : Trans s a s' := by
  unfold step at hs
  cases a with
  | call request waitMs ts =>
    simp only at hs
    split at hs
    · simp only [Option.some.injEq] at hs; subst hs
      exact .call request waitMs ts ‹_›
    · cases hs
  | lock i tm =>
    simp only at hs
    split at hs
    · obtain ⟨c, hc, hs⟩ := Option.bind_eq_some_iff.1 hs
      exact lock_trans ‹_› hc hs
    · cases hs
  | lockTimeout i now =>
    simp only at hs
    split at hs
    · obtain ⟨c, hc, hs⟩ := Option.bind_eq_some_iff.1 hs
      unfold lockTimeoutStep at hs
      split at hs
      · rename_i deadline hpc
        split at hs
        · rename_i ho
          simp only [Option.some.injEq] at hs; subst hs
          exact .lockTimeout i c now deadline hc hpc ho.1
        · cases hs
      · cases hs
    · cases hs
  | acquire i =>
    obtain ⟨c, hc, hs⟩ := Option.bind_eq_some_iff.1 hs
    exact acquire_trans hc hs
  | run i woken =>
    obtain ⟨c, hc, hs⟩ := Option.bind_eq_some_iff.1 hs
    cases hpc : c.pc with
    | loop rval => exact loop_trans hc hpc hs
    | unlock retval =>
      simp only [runStep, hpc, Option.some.injEq] at hs; subst hs
      exact .unlock i c woken retval hc hpc
    | _ => simp [runStep, hpc] at hs
  | wake i =>
    obtain ⟨c, hc, hs⟩ := Option.bind_eq_some_iff.1 hs
    unfold wakeStep at hs
    split at hs
    · rename_i hpc
      simp only [Option.some.injEq] at hs; subst hs
      exact .wake i c hc hpc
    · cases hs
  | timeout i now =>
    simp only at hs
    split at hs
    · obtain ⟨c, hc, hs⟩ := Option.bind_eq_some_iff.1 hs
      unfold timeoutStep at hs
      split at hs
      · rename_i hpc
        split at hs
        · simp only [Option.some.injEq] at hs; subst hs
          exact .timeout i c now hc hpc
        · cases hs
      · cases hs
    · cases hs

/-- What a signal does. -/
theorem signal_cases {k : Side} {woken : Option ℕ} (hs : s.signal k woken = some s') :
    (∃ j c, s.calls[j]? = some c ∧ c.request.side = k ∧ c.pc = .waiting ∧ s' = s.setCall j c .signalled) ∨
      (s.calls.any (·.waitsOn k) = false ∧ s' = s) := by
  unfold signal at hs
  cases woken with
  | some j =>
    obtain ⟨c, hc, hs⟩ := Option.bind_eq_some_iff.1 hs
    split at hs
    · rename_i hw
      simp only [Option.some.injEq] at hs; subst hs
      simp only [Call.waitsOn, Bool.and_eq_true, beq_iff_eq] at hw
      refine .inl ⟨j, c, hc, hw.1, ?_, rfl⟩
      cases hpc : c.pc with
      | waiting => rfl
      | _ => simp [hpc, Pc.isWaiting] at hw
    · cases hs
  | none =>
    simp only at hs
    split at hs
    · cases hs
    · rename_i hany
      simp only [Option.some.injEq] at hs; subst hs
      exact .inr ⟨by simpa using hany, rfl⟩

/-- Other calls stay, call `i` moves on. -/
theorem getElem?_setCall {pc : Pc α} (hc : s.calls[i]? = some c) (j : ℕ) :
    (s.setCall i c pc).calls[j]? = if i = j then some { c with pc := pc } else s.calls[j]? :=
  List.getElem?_set_of_some hc _ j

/-- **The mutex**: its owner is the one call between lock and unlock. -/
structure Excl (s : Threads w α) : Prop where
  critical : ∀ i c, s.calls[i]? = some c → c.pc.critical = true → s.owner = some i
  owned : ∀ i, s.owner = some i → ∃ c, s.calls[i]? = some c ∧ c.pc.critical = true

/-- Two calls between lock and unlock are one. -/
def Exclusive (s : Threads w α) : Prop :=
  ∀ (i j : ℕ) (c d : Call α), s.calls[i]? = some c → s.calls[j]? = some d →
    c.pc.critical = true → d.pc.critical = true → i = j

theorem Excl.exclusive (h : Excl s) : Exclusive s := by
  intro i j c d hi hj hc hd
  have h1 := h.critical i c hi hc
  have h2 := h.critical j d hj hd
  rw [h1] at h2
  exact Option.some.inj h2

/-- A call that moves within its part of the code: the owner stays. -/
theorem Excl.move {pc : Pc α} {q : Queue w α} (h : Excl s) (hc : s.calls[i]? = some c)
    (hsame : pc.critical = c.pc.critical) : Excl { s.setCall i c pc with q := q } := by
  refine ⟨?_, ?_⟩
  · intro j d hd hcrit
    have hd : (s.setCall i c pc).calls[j]? = some d := hd
    rw [getElem?_setCall hc] at hd
    split at hd
    · rename_i hij
      rw [← Option.some.inj hd, hsame] at hcrit
      exact hij ▸ h.critical i c hc hcrit
    · exact h.critical j d hd hcrit
  · intro j ho
    obtain ⟨d, hd, hcrit⟩ := h.owned j ho
    by_cases hij : i = j
    · subst hij
      rw [hc, Option.some.injEq] at hd
      refine ⟨{ c with pc := pc }, (getElem?_setCall hc i).trans (if_pos rfl), ?_⟩
      rw [← hd] at hcrit
      exact hsame.trans hcrit
    · exact ⟨d, (getElem?_setCall hc j).trans (by rw [if_neg hij, hd]), hcrit⟩

/-- A call that takes the free mutex. -/
theorem Excl.enter {pc : Pc α} (h : Excl s) (hc : s.calls[i]? = some c) (ho : s.owner = none)
    (hpc : pc.critical = true) : Excl { s.setCall i c pc with owner := some i } := by
  refine ⟨?_, ?_⟩
  · intro j d hd hcrit
    have hd : (s.setCall i c pc).calls[j]? = some d := hd
    rw [getElem?_setCall hc] at hd
    split at hd
    · rename_i hij
      rw [← hij]
    · have := h.critical j d hd hcrit
      rw [ho] at this; cases this
  · intro j hj
    rw [← Option.some.inj hj]
    exact ⟨{ c with pc := pc }, (getElem?_setCall hc i).trans (if_pos rfl), hpc⟩

/-- The owner that leaves. -/
theorem Excl.leave {pc : Pc α} (h : Excl s) (hc : s.calls[i]? = some c) (hold : c.pc.critical = true)
    (hpc : pc.critical = false) : Excl { s.setCall i c pc with owner := none } := by
  have ho := h.critical i c hc hold
  refine ⟨?_, fun j hj => by cases hj⟩
  intro j d hd hcrit
  have hd : (s.setCall i c pc).calls[j]? = some d := hd
  rw [getElem?_setCall hc] at hd
  split at hd
  · rw [← Option.some.inj hd, hpc] at hcrit
    cases hcrit
  · rename_i hij
    have := h.critical j d hd hcrit
    rw [ho] at this
    exact absurd (Option.some.inj this) hij

theorem Excl.signal {k : Side} {woken : Option ℕ} (h : Excl s) (hs : s.signal k woken = some s') : Excl s' := by
  rcases signal_cases hs with ⟨j, c, hc, -, hpc, rfl⟩ | ⟨-, rfl⟩
  · exact h.move hc (by rw [hpc]; rfl)
  · exact h

/-- The deadline of `mutex_lock(.., WAIT_FOREVER)` is in range for the readings before
705000000 ns only. -/
theorem mutexDeadline_valid {tm : Timespec} (htm : tm.valid = true) :
    (mutexDeadline tm WAIT_FOREVER).valid = true ↔ tm.nsec < 705000000 := by
  have hadd : (mutexDeadline tm WAIT_FOREVER).nsec = tm.nsec + 295000000 := rfl
  simp only [Timespec.valid, hadd, Bool.and_eq_true, decide_eq_true_eq] at htm ⊢
  omega

theorem step_excl {a : Act α} (h : Excl s) (hok : s.LockWorks a) (hs : s.step a = some s') : Excl s' := by
  cases step_trans hs with
  | call request waitMs ts =>
    refine ⟨?_, ?_⟩
    · intro j d hd hcrit
      have hd : (s.calls ++ [_])[j]? = some d := hd
      rw [List.getElem?_append] at hd
      split at hd
      · exact h.critical j d hd hcrit
      · rw [List.mem_singleton.1 (List.mem_of_getElem? hd)] at hcrit
        cases hcrit
    · intro j ho
      obtain ⟨d, hd, hcrit⟩ := h.owned j ho
      exact ⟨d, List.getElem?_append_left (List.getElem?_eq_some_iff.1 hd).1 ▸ hd, hcrit⟩
  | lockFree i c tm hc hpc ho => exact h.enter hc ho rfl
  | lockWait i c tm hc hpc ho htm hd => exact h.move hc (by rw [hpc]; rfl)
  | lockInvalid i c tm hc hpc ho htm hd =>
    -- excluded: the reading left room
    rcases hok with hok | hok
    · exact absurd hok ho
    · rw [← mutexDeadline_valid htm, hd] at hok
      cases hok
  | lockTimeout i c now deadline hc hpc ho => exact hok.elim
  | acquireLock i c deadline hc hpc ho => exact h.enter hc ho rfl
  | acquireSignalled i c hc hpc ho => exact h.enter hc ho rfl
  | acquireWoken i c rval hc hpc ho => exact h.enter hc ho rfl
  | wait i c rval woken hc hpc hb => exact h.leave hc (by rw [hpc]; rfl) rfl
  | spin i c rval woken hc hpc hd => exact h.move hc (by rw [hpc]; rfl)
  | put i c rval woken x s' hc hpc hr hb hs => exact (h.move hc (by rw [hpc]; rfl)).signal hs
  | take i c woken s' hc hpc hr hb hs => exact (h.move hc (by rw [hpc]; rfl)).signal hs
  | giveUp i c rval woken retval hc hpc hr => exact h.move hc (by rw [hpc]; rfl)
  | unlock i c woken retval hc hpc => exact h.leave hc (by rw [hpc]; rfl) rfl
  | wake i c hc hpc => exact h.move hc (by rw [hpc]; rfl)
  | timeout i c now hc hpc => exact h.move hc (by rw [hpc]; rfl)

theorem reach_excl {ok : Threads w α → Act α → Prop} (hok : ∀ s a, ok s a → s.LockWorks a)
    (h : Sys.Reach (system w α) ok s) : Excl s := by
  refine h.inv ?_ ?_
  · rintro s ⟨ptrArray, size, -, ho, hcalls⟩
    refine ⟨?_, ?_⟩
    · intro i c hc
      rw [hcalls] at hc; cases hc
    · intro i hi
      rw [ho] at hi; cases hi
  · intro s a s' hs ha hstep
    exact step_excl hs (hok s a ha) hstep

/-- A lock that does not work puts a second call between lock and unlock. -/
theorem not_exclusive_of_step {a : Act α} (h : Excl s) (hbad : ¬ s.LockWorks a) (hs : s.step a = some s') :
    ¬ Exclusive s' := by
  -- both failures let call `i` in while the owner is there
  have hsecond : ∀ i c, s.calls[i]? = some c → c.pc.critical = false → s.owner ≠ none →
      s' = s.setCall i c (.loop .zero) → ¬ Exclusive s' := by
    intro i c hc hout ho hs' hex
    obtain ⟨j, hj⟩ := Option.ne_none_iff_exists'.1 ho
    obtain ⟨d, hd, hcrit⟩ := h.owned j hj
    have hij : i ≠ j := by
      rintro rfl
      rw [hc, Option.some.injEq] at hd
      rw [← hd, hout] at hcrit
      cases hcrit
    subst hs'
    refine hij (hex i j { c with pc := .loop .zero } d ?_ ?_ rfl hcrit)
    · rw [getElem?_setCall hc, if_pos rfl]
    · rw [getElem?_setCall hc, if_neg hij, hd]
  cases step_trans hs with
  | lockFree i c tm hc hpc ho => exact absurd (.inl ho) hbad
  | lockWait i c tm hc hpc ho htm hd => exact absurd (.inr ((mutexDeadline_valid htm).1 hd)) hbad
  | lockInvalid i c tm hc hpc ho htm hd => exact hsecond i c hc (by rw [hpc]; rfl) ho rfl
  | lockTimeout i c now deadline hc hpc ho => exact hsecond i c hc (by rw [hpc]; rfl) ho rfl
  | _ => exact absurd trivial hbad

end Threads

open Threads

variable {w : ℕ} {α : Type}

/-- **Mutual exclusion, when the lock works.** For any number of calls, every interleaving and
every sequence of clock readings: as long as each `mutex_lock` that finds the mutex held read a
clock below 705000000 ns and none waits until its deadline, at most one call is between its lock
and its unlock; and the first lock that does not meet this puts a second one there. -/
theorem lock_excludes {s : Threads w α} (h : Sys.Reach (system w α) LockWorks s) :
    Exclusive s ∧ ∀ a s', s.step a = some s' → ¬ s.LockWorks a → ¬ Exclusive s' := by
  have hex := reach_excl (fun _ _ hok => hok) h
  exact ⟨hex.exclusive, fun a s' hs hbad => not_exclusive_of_step hex hbad hs⟩

instance (s : Threads w α) : (a : Act α) → Decidable (s.LockWorks a)
  | .lock _ tm => inferInstanceAs (Decidable (s.owner = none ∨ tm.nsec < 705000000))
  | .lockTimeout _ _ => inferInstanceAs (Decidable False)
  | .call _ _ _ | .acquire _ | .run _ _ | .wake _ | .timeout _ _ => isTrue trivial

/-- No calls yet, at a queue of two slots. -/
def fresh : Threads 64 ℕ := ⟨⟨fun _ => 0, 2, 0, 0, 0⟩, none, []⟩

theorem fresh_reach {ok : Threads 64 ℕ → Act ℕ → Prop} : Sys.Reach (system 64 ℕ) ok fresh :=
  .init ⟨fun _ => 0, 2, rfl, rfl, rfl⟩

/-- Two producers; the second waits for the mutex. -/
theorem lock_excludes_two : ∃ s : Threads 64 ℕ, Sys.Reach (system 64 ℕ) LockWorks s ∧ s.calls.length = 2 ∧
    s.owner = some 0 ∧ Exclusive s := by
  have htrace : (Sys.exec (system 64 ℕ) LockWorks fresh
      [.call (.enqueue 7) 0 ⟨1, 0⟩, .call (.enqueue 8) 0 ⟨1, 0⟩, .lock 0 ⟨1, 999999999⟩,
        .lock 1 ⟨1, 704999999⟩]).map (fun s => s.calls.length == 2 && s.owner == some 0) = some true := by
    decide
  obtain ⟨s, hs, hp⟩ := fresh_reach.of_trace htrace
  simp only [Bool.and_eq_true, beq_iff_eq] at hp
  exact ⟨s, hs, hp.1, hp.2, (lock_excludes hs).1⟩

/-- **Two calls between lock and unlock.** The second producer finds the mutex held and reads
the clock at 800000000 ns. -/
theorem two_in_critical_section : ∃ s : Threads 64 ℕ, Sys.Reach (system 64 ℕ) Sys.Always s ∧
    (s.calls.map (·.pc)) = [.loop .zero, .loop .zero] ∧ ¬ Exclusive s := by
  have htrace : (Sys.exec (system 64 ℕ) Sys.Always fresh
      [.call (.enqueue 7) 0 ⟨1, 0⟩, .call (.enqueue 8) 0 ⟨1, 0⟩, .lock 0 ⟨1, 800000000⟩,
        .lock 1 ⟨1, 800000000⟩]).map (fun s => s.calls.map (·.pc) == [.loop .zero, .loop .zero]) =
      some true := by decide
  obtain ⟨s, hs, hp⟩ := fresh_reach.of_trace htrace
  have hpcs : s.calls.map (·.pc) = [.loop .zero, .loop .zero] := by simpa using hp
  refine ⟨s, hs, hpcs, ?_⟩
  intro hex
  have hlen : s.calls.length = 2 := by simpa using congrArg List.length hpcs
  obtain ⟨c, d, hcd⟩ := List.length_eq_two.1 hlen
  rw [hcd] at hpcs
  simp only [List.map_cons, List.map_nil, List.cons.injEq, and_true] at hpcs
  have := hex 0 1 c d (by rw [hcd]; rfl) (by rw [hcd]; rfl) (by rw [hpcs.1]; rfl) (by rw [hpcs.2]; rfl)
  cases this

end Cutils.TsQueue
