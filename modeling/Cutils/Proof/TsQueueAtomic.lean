import Cutils.Proof.TsQueueMutex
import Cutils.Spec.TsQueueSteps

/-!
# The critical sections of a thread-safe queue are atomic

A call in the body of its critical section has left the queue half changed (`Within`). As long
as the lock works no other call sees it: `Follows` relates the queue access by access to the one
in which the whole body is the last of its steps, the signal.

* `steps_follow`: every run of `Steps` is a run of `Threads` with the same history.
-/

namespace Cutils.TsQueue

variable {w : ℕ} {α : Type}

def Act.isRun : Act α → Bool
  | .run _ _ => true
  | _ => false

namespace Threads

variable {s s' : Threads w α} {i : ℕ} {c : Call α}

/-- The same threads at queue `q`. -/
def withQueue (s : Threads w α) (q : Queue w α) : Threads w α := { s with q := q }

variable (q : Queue w α)

theorem lockStep_withQueue (tm : Timespec) :
    (s.withQueue q).lockStep i c tm = (s.lockStep i c tm).map (·.withQueue q) := by
  unfold lockStep
  cases c.pc with
  | lock =>
    have ho : (s.withQueue q).owner = s.owner := rfl
    simp only [ho]
    split
    · rfl
    · split <;> rfl
  | _ => rfl

theorem lockTimeoutStep_withQueue (now : Timespec) :
    (s.withQueue q).lockTimeoutStep i c now = (s.lockTimeoutStep i c now).map (·.withQueue q) := by
  unfold lockTimeoutStep
  cases c.pc with
  | locking deadline =>
    have ho : (s.withQueue q).owner = s.owner := rfl
    simp only [ho]
    split <;> rfl
  | _ => rfl

theorem acquireStep_withQueue :
    (s.withQueue q).acquireStep i c = (s.acquireStep i c).map (·.withQueue q) := by
  unfold acquireStep
  have ho : (s.withQueue q).owner = s.owner := rfl
  rw [ho]
  split
  · cases c.pc <;> rfl
  · rfl

theorem wakeStep_withQueue : (s.withQueue q).wakeStep i c = (s.wakeStep i c).map (·.withQueue q) := by
  unfold wakeStep
  cases c.pc <;> rfl

theorem timeoutStep_withQueue (now : Timespec) :
    (s.withQueue q).timeoutStep i c now = (s.timeoutStep i c now).map (·.withQueue q) := by
  unfold timeoutStep
  cases c.pc with
  | waiting =>
    simp only
    split <;> rfl
  | _ => rfl

/-- Only `run` looks at the queue. -/
theorem step_withQueue {a : Act α} (ha : a.isRun = false) :
    (s.withQueue q).step a = (s.step a).map (·.withQueue q) := by
  have hcalls : (s.withQueue q).calls = s.calls := rfl
  unfold step
  cases a with
  | run i woken => cases ha
  | call request waitMs ts =>
    simp only
    split <;> rfl
  | lock i tm =>
    simp only [hcalls, lockStep_withQueue]
    split
    · cases s.calls[i]? <;> rfl
    · rfl
  | lockTimeout i now =>
    simp only [hcalls, lockTimeoutStep_withQueue]
    split
    · cases s.calls[i]? <;> rfl
    · rfl
  | acquire i =>
    simp only [hcalls]
    cases s.calls[i]? with
    | none => rfl
    | some c => exact acquireStep_withQueue q
  | wake i =>
    simp only [hcalls]
    cases s.calls[i]? with
    | none => rfl
    | some c => exact wakeStep_withQueue q
  | timeout i now =>
    simp only [hcalls, timeoutStep_withQueue]
    split
    · cases s.calls[i]? <;> rfl
    · rfl

variable {q}

/-- The steps other than `run` leave the queue alone, and the calls at their wait loops. -/
theorem step_frame {a : Act α} (ha : a.isRun = false) (hs : s.step a = some s') :
    s'.q = s.q ∧ ∀ (j : ℕ) (d : Call α) (rval : Rval), s.calls[j]? = some d → d.pc = .loop rval → s'.calls[j]? = some d := by
  -- a call that moves was not at its wait loop
  have hmove : ∀ {i : ℕ} {c : Call α} {pc : Pc α}, s.calls[i]? = some c → (∀ rval, c.pc ≠ .loop rval) →
      ∀ (j : ℕ) (d : Call α) (rval : Rval), s.calls[j]? = some d → d.pc = .loop rval → (s.setCall i c pc).calls[j]? = some d := by
    intro i c pc hc hpc j d rval hd hloop
    rw [getElem?_setCall hc, if_neg, hd]
    rintro rfl
    rw [hc, Option.some.injEq] at hd
    exact hpc rval (hd ▸ hloop)
  cases step_trans hs with
  | call request waitMs ts hts =>
    refine ⟨rfl, ?_⟩
    intro j d rval hd _
    exact (List.getElem?_append_left (List.getElem?_eq_some_iff.1 hd).1).trans hd
  | lockFree i c tm hc hpc | lockWait i c tm hc hpc | lockInvalid i c tm hc hpc | lockTimeout i c now deadline hc hpc
  | acquireLock i c deadline hc hpc | acquireSignalled i c hc hpc | acquireWoken i c rval hc hpc
  | wake i c hc hpc | timeout i c now hc hpc => exact ⟨rfl, hmove hc (by simp [hpc])⟩
  | _ => cases ha

end Threads

/-- Queue `q` is `q₀` with the body of a call done up to `k`. -/
def Within (q₀ : Queue w α) (request : Request α) (k : Inner w α) (q : Queue w α) : Prop :=
  match k, request with
  | .body, _ => q = q₀
  | .claimed p, .enqueue _ => p = q₀.head ∧ q = { q₀ with head := q₀.head + 1 }
  | .claimed p, .dequeue => p = q₀.tail ∧ q = { q₀ with tail := q₀.tail + 1 }
  | .moved y, .enqueue x => y = x ∧ q = { q₀.put x with count := q₀.count }
  | .moved y, .dequeue => y = q₀.take.2 ∧ q = { q₀.take.1 with count := q₀.count }
  | .loaded y n, .enqueue x => y = x ∧ n = q₀.count ∧ q = { q₀.put x with count := q₀.count }
  | .loaded y n, .dequeue => y = q₀.take.2 ∧ n = q₀.count ∧ q = { q₀.take.1 with count := q₀.count }
  | .counted y, .enqueue x => y = x ∧ q = q₀.put x
  | .counted y, .dequeue => y = q₀.take.2 ∧ q = q₀.take.1

theorem Within.size {q₀ q : Queue w α} {request : Request α} {k : Inner w α} (h : Within q₀ request k q) :
    q.size = q₀.size := by
  cases k with
  | body =>
    have hq : q = q₀ := h
    rw [hq]
  | loaded y n =>
    cases request with
    | _ => obtain ⟨-, -, rfl⟩ := h; rfl
  | _ =>
    cases request with
    | _ => obtain ⟨-, rfl⟩ := h; rfl

namespace Steps

open Threads

variable {s s' : Steps w α} {q₀ : Queue w α} {i : ℕ} {c : Call α} {woken : Option ℕ}

/-- Before the body it is in, the queue was `q₀`, and free for the call. -/
structure Follows (s : Steps w α) (q₀ : Queue w α) : Prop where
  idle : s.Idle → s.q = q₀
  within : ∀ i k, s.inner i = some k → ∃ c rval, s.calls[i]? = some c ∧ c.pc = .loop rval ∧
    (s.withQueue q₀).blocked c.request.side = false ∧ c.request.enters rval = true ∧ Within q₀ c.request k s.q

theorem Follows.size (h : Follows s q₀) : s.q.size = q₀.size := by
  by_cases hidle : s.Idle
  · rw [h.idle hidle]
  · obtain ⟨i, hi⟩ := not_forall.1 hidle
    obtain ⟨k, hk⟩ := Option.ne_none_iff_exists'.1 hi
    obtain ⟨c, rval, -, -, -, -, hw⟩ := h.within i k hk
    exact hw.size

/-- The call in the body owns the mutex, and no other call is there. -/
theorem Follows.alone (h : Follows s q₀) (hx : Excl (s.withQueue q₀)) (hc : s.calls[i]? = some c)
    (hcrit : c.pc.critical = true) {j : ℕ} (hj : j ≠ i) : s.inner j = none := by
  by_contra hne
  obtain ⟨k, hk⟩ := Option.ne_none_iff_exists'.1 hne
  obtain ⟨d, rval, hd, hpc, -⟩ := h.within j k hk
  exact hj (hx.exclusive j i d c hd hc (by rw [hpc]; rfl) hcrit)

/-- One access that stays in the body. -/
theorem Follows.access {k k' : Inner w α} {q : Queue w α} (h : Follows s q₀) (hx : Excl (s.withQueue q₀))
    (hi : s.inner i = some k) (hc : s.calls[i]? = some c) (hq : Within q₀ c.request k s.q → Within q₀ c.request k' q) :
    Follows (s.setInner i k' q) q₀ := by
  obtain ⟨d, rval, hd, hpc, hb, he, hw⟩ := h.within i k hi
  rw [hc, Option.some.injEq] at hd
  subst hd
  refine ⟨?_, ?_⟩
  · intro hidle
    have := hidle i
    simp [setInner] at this
  · intro j k₁ hj
    by_cases hij : j = i
    · subst hij
      have hk : k' = k₁ := by simpa [setInner] using hj
      exact ⟨c, rval, hc, hpc, hb, he, hk ▸ hq hw⟩
    · have halone := h.alone hx hc (by rw [hpc]; rfl) hij
      have hj : Function.update s.inner i (some k') j = some k₁ := hj
      rw [Function.update_of_ne hij, halone] at hj
      cases hj

/-- Outside all bodies the two queues are one. -/
theorem Idle.follows (h : s.Idle) : Follows s s.q :=
  ⟨fun _ => rfl, fun i k hk => by rw [h i] at hk; cases hk⟩

/-- The signal, the last access of the body, is the whole body on the queue before. -/
theorem Follows.signal {k : Inner w α} (h : Follows s q₀) (hx : Excl (s.withQueue q₀)) (hi : s.inner i = some k)
    (hc : s.calls[i]? = some c) {item : α} (hk : k = .counted item) (hs : s.bodyStep i c woken k = some s') :
    (s.withQueue q₀).runStep i c woken = some s'.toThreads ∧ s'.Idle := by
  subst hk
  obtain ⟨d, rval, hd, hpc, hb, he, hw⟩ := h.within i _ hi
  rw [hc, Option.some.injEq] at hd
  subst hd
  have hidle : ∀ j, Function.update s.inner i none j = none := by
    intro j
    by_cases hij : j = i
    · rw [hij, Function.update_self]
    · rw [Function.update_of_ne hij]
      exact h.alone hx hc (by rw [hpc]; rfl) hij
  cases hr : c.request with
  | enqueue x =>
    rw [hr] at hb he hw
    have hrval : rval ≠ .timedOut := by simpa [Request.enters] using he
    simp only [bodyStep, hr] at hs
    obtain ⟨t, ht, rfl⟩ := Option.map_eq_some_iff.1 hs
    refine ⟨?_, hidle⟩
    simp only [Threads.runStep, hpc, hr, hb, hrval, Bool.false_eq_true, false_and, if_false, ne_eq, not_false_eq_true,
      if_true, ← ht]
    have hq : s.q = q₀.put x := hw.2
    unfold setCall withQueue
    rw [hq]
  | dequeue =>
    rw [hr] at hb he hw
    have hrval : rval = .zero := by simpa [Request.enters] using he
    simp only [bodyStep, hr] at hs
    obtain ⟨t, ht, rfl⟩ := Option.map_eq_some_iff.1 hs
    refine ⟨?_, hidle⟩
    simp only [Threads.runStep, hpc, hr, hb, hrval, Bool.false_eq_true, false_and, if_false, ne_eq,
      if_true, ← ht]
    have hq : s.q = q₀.take.1 := hw.2
    have hitem : item = q₀.take.2 := hw.1
    unfold setCall withQueue
    rw [hq, hitem]

/-- Each access but the signal does its part of the body. -/
theorem bodyStep_access (q₀ : Queue w α) {k : Inner w α} (hk : ∀ item, k ≠ .counted item) (hs : s.bodyStep i c woken k = some s') :
    ∃ k' q, s' = s.setInner i k' q ∧ (Within q₀ c.request k s.q → Within q₀ c.request k' q) := by
  cases k with
  | counted item => exact absurd rfl (hk item)
  | body =>
    cases hr : c.request with
    | _ =>
      simp only [bodyStep, hr, Option.some.injEq] at hs
      refine ⟨_, _, hs.symm, fun hw => ?_⟩
      have hq : s.q = q₀ := hw
      rw [hq]
      exact ⟨rfl, rfl⟩
  | claimed p =>
    cases hr : c.request with
    | _ =>
      simp only [bodyStep, hr, Option.some.injEq] at hs
      refine ⟨_, _, hs.symm, fun hw => ?_⟩
      obtain ⟨rfl, hq⟩ := hw
      rw [hq]
      exact ⟨rfl, rfl⟩
  | moved item =>
    simp only [bodyStep, Option.some.injEq] at hs
    cases hr : c.request with
    | _ =>
      refine ⟨_, _, hs.symm, fun hw => ?_⟩
      obtain ⟨rfl, hq⟩ := hw
      rw [hq]
      exact ⟨rfl, rfl, rfl⟩
  | loaded item n =>
    cases hr : c.request with
    | _ =>
      simp only [bodyStep, hr, Option.some.injEq] at hs
      refine ⟨_, _, hs.symm, fun hw => ?_⟩
      obtain ⟨rfl, rfl, hq⟩ := hw
      rw [hq]
      exact ⟨rfl, rfl⟩

/-- **A step in the body**: it is unseen, or the signal. -/
theorem Follows.body {k : Inner w α} (h : Follows s q₀) (hx : Excl (s.withQueue q₀)) (hi : s.inner i = some k)
    (hc : s.calls[i]? = some c) (hs : s.bodyStep i c woken k = some s') :
    Follows s' q₀ ∧ s'.owner = s.owner ∧ s'.calls = s.calls ∨
      (s.withQueue q₀).runStep i c woken = some s'.toThreads ∧ s'.Idle := by
  by_cases hk : ∃ item, k = .counted item
  · obtain ⟨item, hk⟩ := hk
    exact .inr (h.signal hx hi hc hk hs)
  · obtain ⟨k', q, rfl, hw⟩ := bodyStep_access q₀ (fun item he => hk ⟨item, he⟩) hs
    exact .inl ⟨h.access hx hi hc hw, rfl, rfl⟩

/-- Nobody is in the body of its critical section while a call elsewhere in its own runs. -/
theorem Follows.all_idle (h : Follows s q₀) (hx : Excl (s.withQueue q₀)) (hc : s.calls[i]? = some c)
    (hcrit : c.pc.critical = true) (hi : s.inner i = none) : s.Idle := by
  intro j
  by_cases hij : j = i
  · rw [hij, hi]
  · exact h.alone hx hc hcrit hij

/-- A call that enters the body has left its wait loop with the queue free. -/
theorem Follows.enter (h : Follows s q₀) (hx : Excl (s.withQueue q₀)) (hc : s.calls[i]? = some c)
    (hi : s.inner i = none) (he : s.entering c = true) : Follows (s.setInner i .body s.q) q₀ := by
  unfold entering at he
  cases hpc : c.pc with
  | loop rval =>
    rw [hpc] at he
    simp only [Bool.and_eq_true, Bool.not_eq_true', Bool.and_eq_false_iff] at he
    obtain ⟨hb, he⟩ := he
    have hidle := h.all_idle hx hc (by rw [hpc]; rfl) hi
    have hq := h.idle hidle
    -- neither kind of call goes on after a timeout
    have hb : s.blocked c.request.side = false := by
      rcases hb with hb | hb
      · exact hb
      · have hrval : rval = .timedOut := by simpa using hb
        rw [hrval] at he
        cases hr : c.request with
        | _ => rw [hr] at he; cases he
    refine ⟨?_, ?_⟩
    · intro hidle'
      have := hidle' i
      simp [setInner] at this
    · intro j k hj
      by_cases hij : j = i
      · subst hij
        have hk : Inner.body = k := by simpa [setInner] using hj
        rw [← hk]
        exact ⟨c, rval, hc, hpc, hq ▸ hb, he, hq⟩
      · have hj : Function.update s.inner i (some .body) j = some k := hj
        rw [Function.update_of_ne hij, hidle j] at hj
        cases hj
  | _ => rw [hpc] at he; cases he

/-- **Every step** is unseen in `Threads`, or a step there. -/
theorem Follows.step {a : Act α} (h : Follows s q₀) (hx : Excl (s.withQueue q₀)) (hs : s.step a = some s') :
    (Follows s' q₀ ∧ a.isRun = true ∧ s'.owner = s.owner ∧ s'.calls = s.calls) ∨
      ∃ q₁, (s.withQueue q₀).step a = some (s'.withQueue q₁) ∧ Follows s' q₁ := by
  by_cases ha : a.isRun = true
  · cases a with
    | run i woken =>
      obtain ⟨c, hc, hs⟩ := Option.bind_eq_some_iff.1 hs
      have hstep : (s.withQueue q₀).step (.run i woken) = (s.withQueue q₀).runStep i c woken := by
        show ((s.withQueue q₀).calls[i]?).bind _ = _
        rw [show (s.withQueue q₀).calls[i]? = some c from hc, Option.bind_some]
      unfold runStep at hs
      split at hs
      · rename_i k hi
        rcases h.body hx hi hc hs with ⟨hF, ho, hcalls⟩ | ⟨hrun, hidle⟩
        · exact .inl ⟨hF, rfl, ho, hcalls⟩
        · exact .inr ⟨s'.q, hstep.trans hrun, hidle.follows⟩
      · rename_i hi
        split at hs
        · rename_i he
          simp only [Option.some.injEq] at hs
          subst hs
          exact .inl ⟨h.enter hx hc hi he, rfl, rfl, rfl⟩
        · obtain ⟨t, ht, rfl⟩ := Option.map_eq_some_iff.1 hs
          -- the call is at its wait loop or before its unlock
          have hcrit : c.pc.critical = true := by
            cases hpc : c.pc with
            | loop rval | unlock retval => rfl
            | _ => simp [Threads.runStep, hpc] at ht
          have hidle := h.all_idle hx hc hcrit hi
          have hq : s.withQueue q₀ = s.toThreads := by rw [← h.idle hidle]; rfl
          rw [hq] at hstep ⊢
          exact .inr ⟨t.q, hstep.trans ht, Idle.follows (s := ⟨t, s.inner⟩) hidle⟩
    | _ => cases ha
  · right
    have ha : a.isRun = false := by simpa using ha
    have hs : (s.toThreads.step a).map (⟨·, s.inner⟩) = some s' := by
      cases a with
      | run i woken => cases ha
      | _ => exact hs
    obtain ⟨t, ht, rfl⟩ := Option.map_eq_some_iff.1 hs
    obtain ⟨hq, hframe⟩ := step_frame ha ht
    refine ⟨q₀, by rw [step_withQueue q₀ ha, ht]; rfl, ?_, ?_⟩
    · intro hidle
      exact hq.trans (h.idle hidle)
    · intro i k hk
      obtain ⟨c, rval, hc, hpc, hb, he, hw⟩ := h.within i k hk
      exact ⟨c, rval, hframe i c rval hc hpc, hpc, hb, he, by rw [hq]; exact hw⟩

end Steps

open Threads

/-- A step that moves no call adds nothing to the history. -/
theorem note_same {s s' : Threads w α} {a : Act α} (ha : a.isRun = true) (hcalls : s'.calls = s.calls)
    (h : List (Event α)) : note s a s' h = h := by
  cases a with
  | run i woken =>
    have hnone : ∀ c : Call α, c.events i c = [] := by
      intro c
      unfold Call.events
      cases c.pc <;> rfl
    simp only [note, hcalls]
    cases s.calls[i]? with
    | none => rfl
    | some c => exact (congrArg (h ++ ·) (hnone c)).trans (List.append_nil h)
  | _ => cases ha

/-- **Atomicity.** As long as the lock works, a run access by access is a run in which the critical
sections are whole, with the same calls and the same history; the queue is the same whenever no call is
in the body of its critical section. -/
theorem steps_follow {p : Steps w α × List (Event α)}
    (h : Sys.Reach (Steps.watched w α) (Sys.onState Steps.LockWorks) p) :
    ∃ q₀, Sys.Reach (Threads.watched w α) (Sys.onState Threads.LockWorks) (p.1.withQueue q₀, p.2) ∧
      p.1.Follows q₀ := by
  suffices hsim : ∃ t, Sys.Reach (Threads.watched w α) (Sys.onState Threads.LockWorks) t ∧
      ∃ q₀, t = (p.1.withQueue q₀, p.2) ∧ p.1.Follows q₀ by
    obtain ⟨t, ht, q₀, rfl, hF⟩ := hsim
    exact ⟨q₀, ht, hF⟩
  refine h.simulates (R := fun p t => ∃ q₀, t = (p.1.withQueue q₀, p.2) ∧ p.1.Follows q₀) ?_ ?_
  · intro p hp
    obtain ⟨⟨hinit, hinner⟩, hnil⟩ := hp
    have hidle : p.1.Idle := fun i => by rw [hinner]
    exact ⟨(p.1.withQueue p.1.q, p.2), ⟨hinit, hnil⟩, _, rfl, hidle.follows⟩
  · rintro p t a p' ht ⟨q₀, rfl, hF⟩ hok hs
    have hx : Excl (p.1.withQueue q₀) := reach_excl (fun _ _ hok => hok) ht.of_recorded
    obtain ⟨hs, hnote⟩ := Sys.of_recorded_step hs
    rcases hF.step hx hs with ⟨hF', ha, ho, hcalls⟩ | ⟨q₁, hstep, hF'⟩
    · left
      refine ⟨q₀, ?_, hF'⟩
      rw [hnote, note_same ha hcalls]
      unfold withQueue
      rw [ho, hcalls]
    · right
      refine ⟨a, (p'.1.withQueue q₁, p'.2), hok, ?_, q₁, rfl, hF'⟩
      rw [hnote]
      exact Sys.recorded_step hstep

end Cutils.TsQueue
