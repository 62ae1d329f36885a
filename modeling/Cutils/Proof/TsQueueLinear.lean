import Cutils.Proof.TsQueueAtomic
import Cutils.Proof.TsQueueCounters
import Cutils.Proof.TsQueueNoSleep

/-!
# The thread-safe queue is linearizable

Any number of producers and consumers, with any waits. `Linear` is the invariant over runs whose
critical sections are whole: the history of the calls leads to what the queue holds, and says of
each call what it should (`Told`). An enqueue or a dequeue takes effect where it moves its counter; one that
gives up was refused when it went to wait for the last time.

* `ts_queue_linearizable`: the same for critical sections access by access, as long as the lock works.
-/

namespace Cutils.TsQueue

open History

variable {w n : ℕ} {α : Type}

/-- Queue `q` of `n` slots holds `t`. -/
def Stands (n : ℕ) (q : Queue w α) (t : Contents α) : Prop :=
  ∃ f : Fifo α n, Refines q f ∧ f.items = t.items ∧ q.tail.toNat = t.taken

section Stands

variable {q : Queue w α} {t : Contents α}

/-- A queue that does not look full takes the item. -/
theorem Stands.put (h : Stands n q t) (hfull : q.isFull = false) (x : α) :
    ∃ t', t.step n (.put x) t' ∧ Stands n (q.put x) t' := by
  obtain ⟨f, hR, hitems, htail⟩ := h
  have hcounters : Counters q := by
    have h1 := hR.counters
    have h2 := hR.size
    have h3 := f.fits
    unfold Fifo.count at h1
    exact ⟨by omega, by omega⟩
  obtain ⟨hroom, hhead⟩ := hcounters.room hfull
  have hroom : f.count < n := by
    have h1 := hR.counters
    have h2 := hR.size
    omega
  refine ⟨⟨t.items ++ [x], t.taken⟩, ⟨?_, rfl⟩, f.append [x], hR.put hroom hhead x, ?_, htail⟩
  · rw [← hitems]
    exact hroom
  · rw [Fifo.items_append_one hroom, hitems]

/-- A queue that does not look empty gives its oldest item. -/
theorem Stands.take (h : Stands n q t) (hempty : q.isEmpty = false) :
    ∃ t', t.step n (.take q.take.2) t' ∧ Stands n q.take.1 t' := by
  obtain ⟨f, hR, hitems, htail⟩ := h
  cases hf : f.items with
  | nil =>
    rw [hR.isEmpty.2 hf] at hempty
    cases hempty
  | cons x rest =>
    obtain ⟨hx, hR'⟩ := hR.take hf
    have hcounters := hR.counters
    have hhead := q.head.isLt
    have hcount : f.count = rest.length + 1 := by unfold Fifo.count; rw [hf]; rfl
    refine ⟨⟨rest, t.taken + 1⟩, ⟨by rw [← hitems, hf, hx], rfl⟩, f.discard 1, hR', Fifo.items_discard_one hf, ?_⟩
    show (q.tail + 1).toNat = _
    rw [toNat_add_one (by omega), htail]

/-- A queue that is in a call's way refuses it. -/
theorem Stands.refuses (h : Stands n q t) {s : Threads w α} (hs : s.q = q) {k : Side} (hb : s.blocked k = true) :
    t.refuses w n k := by
  obtain ⟨f, hR, hitems, htail⟩ := h
  subst hs
  cases k with
  | consumer =>
    show t.items = []
    rw [← hitems]
    exact hR.isEmpty.1 hb
  | producer =>
    show t.items.length = n ∨ 2 ^ w ≤ t.taken + n
    by_cases hfit : s.q.tail.toNat + s.q.size.toNat < 2 ^ w
    · left
      have hfull := (hR.isFull hfit).1 hb
      have hfits := f.fits
      rw [← hitems]
      unfold Fifo.count at hfull
      omega
    · right
      rw [← htail, ← hR.size]
      exact Nat.le_of_not_lt hfit

end Stands

theorem Outcome.append {h : List (Event α)} {i : ℕ} {request : Request α} {retval : Obs α}
    (ho : Outcome w n h i request retval) (es : List (Event α)) : Outcome w n (h ++ es) i request retval := by
  cases ho with
  | put x => exact .put x
  | take x => exact .take x
  | full x hr => exact .full x (hr.append es)
  | empty hr => exact .empty (hr.append es)

/-- What is told of a call does not change with the events of others. -/
theorem Told.append {h es : List (Event α)} {i : ℕ} {c : Call α} (ht : Told w n h i c)
    (hes : ofCall i es = []) : Told w n (h ++ es) i c := by
  have hof : ofCall i (h ++ es) = ofCall i h := by rw [ofCall_append, hes, List.append_nil]
  unfold Told at *
  rw [hof]
  cases hpc : c.pc with
  | unlock retval | returned retval =>
    rw [hpc] at ht
    exact ⟨ht.1.append es, ht.2⟩
  | _ =>
    rw [hpc] at ht
    exact ⟨ht.1, fun hr => (ht.2 hr).append es⟩

namespace Threads

/-- **The invariant**, for a queue of `n` slots. -/
structure Linear (n : ℕ) (s : Threads w α) (h : List (Event α)) : Prop where
  contents : ∃ t, Leads n h t ∧ Stands n s.q t
  told : ∀ i c, s.calls[i]? = some c → Told w n h i c
  fresh : ∀ i, s.calls.length ≤ i → ofCall i h = []

variable {s s' : Threads w α} {h : List (Event α)} {i : ℕ} {c : Call α}

/-- Call `i` moves, and what it adds to the history is told. -/
theorem Linear.move (hL : Linear n s h) (hc : s.calls[i]? = some c) {pc : Pc α} {q : Queue w α}
    {owner : Option ℕ} {es : List (Event α)} (hes : ∀ j, j ≠ i → ofCall j es = [])
    (hcont : ∃ t, Leads n (h ++ es) t ∧ Stands n q t) (htold : Told w n (h ++ es) i { c with pc := pc }) :
    Linear n { s.setCall i c pc with q := q, owner := owner } (h ++ es) := by
  refine ⟨hcont, ?_, ?_⟩
  · intro j d hd
    have hd : (s.setCall i c pc).calls[j]? = some d := hd
    rw [getElem?_setCall hc] at hd
    split at hd
    · rename_i hij
      rw [← Option.some.inj hd, ← hij]
      exact htold
    · rename_i hij
      exact (hL.told j d hd).append (hes j (Ne.symm hij))
  · intro j hj
    have hj : s.calls.length ≤ j := by
      have hlen : (s.setCall i c pc).calls.length = s.calls.length := List.length_set
      exact hlen ▸ hj
    have hij : j ≠ i := by
      rintro rfl
      exact absurd (List.getElem?_eq_some_iff.1 hc).1 (by omega)
    rw [ofCall_append, hL.fresh j hj, hes j hij, List.append_nil]

/-- Call `i` moves and adds nothing. -/
theorem Linear.silent (hL : Linear n s h) (hc : s.calls[i]? = some c) {pc : Pc α} {owner : Option ℕ}
    (htold : Told w n h i { c with pc := pc }) : Linear n { s.setCall i c pc with owner := owner } h := by
  have hmove : Linear n { s.setCall i c pc with q := s.q, owner := owner } (h ++ []) := hL.move hc (fun _ _ => rfl)
    (by rw [List.append_nil]; exact hL.contents) (by rw [List.append_nil]; exact htold)
  rwa [List.append_nil] at hmove

end Threads

/-- The answer of a call that gives up. -/
def Request.refusal : Request α → Obs α
  | .enqueue _ => .enqueued false
  | .dequeue => .dequeued none

/-- The call has neither taken effect nor given up. -/
def Pc.early : Pc α → Bool
  | .unlock _ | .returned _ => false
  | _ => true

theorem told_early {h : List (Event α)} {i : ℕ} {c : Call α} (hc : c.pc.early = true) :
    Told w n h i c ↔ ofCall i h = [.invoked i c.request] ∧ (c.pc.refused = true → Refused w n h i c.request) := by
  unfold Told
  cases hpc : c.pc with
  | unlock retval | returned retval => rw [hpc] at hc; cases hc
  | _ => rfl

namespace Threads

variable {s s' : Threads w α} {h : List (Event α)} {i : ℕ} {c : Call α} {rval : Rval} {woken : Option ℕ}

/-- What a call at its wait loop does next, with all that it has seen. -/
inductive Looped (s : Threads w α) (i : ℕ) (c : Call α) (rval : Rval) (woken : Option ℕ) : Threads w α → Prop
  | sleep (hb : s.blocked c.request.side = true) (hrval : rval ≠ .timedOut) :
      Looped s i c rval woken { s.setCall i c .waiting with owner := none }
  | spin (hb : s.blocked c.request.side = true) (hd : ¬ (c.waitMs = WAIT_FOREVER ∨ c.deadline.valid = true)) :
      Looped s i c rval woken (s.setCall i c (.loop .inval))
  | put (x : α) (s' : Threads w α) (hr : c.request = .enqueue x) (hrval : rval ≠ .timedOut) (hb : s.q.isFull = false)
      (hs : signal { s.setCall i c (.unlock (.enqueued true)) with q := s.q.put x } .consumer woken = some s') :
      Looped s i c rval woken s'
  | take (s' : Threads w α) (hr : c.request = .dequeue) (hrval : rval = .zero) (hb : s.q.isEmpty = false)
      (hs : signal { s.setCall i c (.unlock (.dequeued (some s.q.take.2))) with q := s.q.take.1 } .producer woken =
        some s') : Looped s i c rval woken s'
  | giveUp (hr : rval ≠ .zero) : Looped s i c rval woken (s.setCall i c (.unlock c.request.refusal))

theorem looped (hpc : c.pc = .loop rval) (hs : s.runStep i c woken = some s') : Looped s i c rval woken s' := by
  simp only [runStep, hpc] at hs
  split at hs
  · rename_i hb
    split at hs
    · simp only [Option.some.injEq] at hs; subst hs
      exact .sleep hb.1 hb.2
    · simp only [Option.some.injEq] at hs; subst hs
      exact .spin hb.1 ‹_›
  · rename_i hb
    have hfree : rval ≠ .timedOut → s.blocked c.request.side = false := by
      intro hr
      by_contra hne
      exact hb ⟨by simpa using hne, hr⟩
    cases hr : c.request with
    | enqueue x =>
      rw [hr] at hfree
      simp only [hr] at hs
      split at hs
      · exact .put x s' hr ‹_› (hfree ‹_›) hs
      · rename_i hrval
        have hgive : (Request.enqueue x).refusal = .enqueued false := rfl
        simp only [Option.some.injEq] at hs; subst hs
        rw [← hgive, ← hr]
        exact .giveUp (by rintro rfl; exact hrval (by simp))
    | dequeue =>
      rw [hr] at hfree
      simp only [hr] at hs
      split at hs
      · rename_i hrval
        exact .take s' hr hrval (hfree (by simp [hrval])) hs
      · rename_i hrval
        have hgive : (Request.dequeue : Request α).refusal = .dequeued none := rfl
        simp only [Option.some.injEq] at hs; subst hs
        rw [← hgive, ← hr]
        exact .giveUp hrval

/-- A call that stays early, and is refused only if it was. -/
theorem Linear.stay (hL : Linear n s h) (hc : s.calls[i]? = some c) {pc : Pc α} {owner : Option ℕ}
    (hold : c.pc.early = true) (hpc : pc.early = true) (href : pc.refused = true → c.pc.refused = true) :
    Linear n { s.setCall i c pc with owner := owner } h := by
  have htold := (told_early hold).1 (hL.told i c hc)
  exact hL.silent hc ((told_early (c := { c with pc := pc }) hpc).2 ⟨htold.1, fun hr => htold.2 (href hr)⟩)

/-- A call that finds the queue in its way is refused now. -/
theorem Linear.refuse (hL : Linear n s h) (hc : s.calls[i]? = some c) {pc : Pc α} {owner : Option ℕ}
    (hold : c.pc.early = true) (hpc : pc.early = true) (hb : s.blocked c.request.side = true) :
    Linear n { s.setCall i c pc with owner := owner } h := by
  obtain ⟨hof, -⟩ := (told_early hold).1 (hL.told i c hc)
  obtain ⟨t, ht, hstands⟩ := hL.contents
  refine hL.silent hc ((told_early (c := { c with pc := pc }) hpc).2 ⟨hof, fun _ => ?_⟩)
  exact ⟨h, [], t, (List.append_nil h).symm, hof, ht, hstands.refuses rfl hb⟩

/-- A signal moves a call that waits. -/
theorem Linear.signal {k : Side} (hL : Linear n s h) (hs : s.signal k woken = some s') : Linear n s' h := by
  rcases signal_cases hs with ⟨j, d, hd, -, hpc, rfl⟩ | ⟨-, rfl⟩
  · exact hL.stay hd (by rw [hpc]; rfl) rfl (fun hr => by cases hr)
  · exact hL

/-- A call that takes effect: its effect is what happens to the queue. -/
theorem Linear.act (hL : Linear n s h) (hc : s.calls[i]? = some c) {retval : Obs α} {e : Effect α} {q : Queue w α}
    (hold : c.pc.early = true) (heff : c.request.effects retval = [e])
    (hout : ∀ h, Outcome w n h i c.request retval)
    (hq : ∀ t, Stands n s.q t → ∃ t', t.step n e t' ∧ Stands n q t') :
    Linear n { s.setCall i c (.unlock retval) with q := q } (h ++ [.effect i e]) := by
  obtain ⟨hof, -⟩ := (told_early hold).1 (hL.told i c hc)
  obtain ⟨t, ht, hstands⟩ := hL.contents
  obtain ⟨t', hstep, hstands'⟩ := hq t hstands
  refine hL.move hc (fun j hj => ofCall_other (Ne.symm hj)) ⟨t', ht.effect i e hstep, hstands'⟩ ⟨hout _, ?_⟩
  rw [ofCall_append, hof, ofCall_effect]
  show _ = _ :: (c.request.effects retval).map _
  rw [heff]
  rfl

/-- What `run` adds to the history. -/
theorem note_run {c' : Call α} (woken : Option ℕ) (hc : s.calls[i]? = some c) (hc' : s'.calls[i]? = some c') :
    note s (.run i woken) s' h = h ++ c.events i c' := by
  simp only [note, hc, hc']

/-- A call that a signal does not move. -/
theorem getElem?_signal {k : Side} {d : Call α} (hs : s.signal k woken = some s') (hd : s.calls[i]? = some d)
    (hpc : d.pc.isWaiting = false) : s'.calls[i]? = some d := by
  rcases signal_cases hs with ⟨j, c, hc, -, hwait, rfl⟩ | ⟨-, rfl⟩
  · rw [getElem?_setCall hc, if_neg, hd]
    rintro rfl
    rw [hc, Option.some.injEq] at hd
    rw [← hd, hwait] at hpc
    cases hpc
  · exact hd

/-- **A step of a call in its critical section.** -/
theorem run_linear (hL : Linear n s h) (hc : s.calls[i]? = some c) (hs : s.runStep i c woken = some s') :
    Linear n s' (note s (.run i woken) s' h) := by
  have hself : ∀ pc, (s.setCall i c pc).calls[i]? = some { c with pc := pc } := by
    intro pc
    rw [getElem?_setCall hc, if_pos rfl]
  cases hpc : c.pc with
  | loop rval =>
    have hearly : c.pc.early = true := by rw [hpc]; rfl
    have hblocked : ∀ (pc : Pc α) (owner : Option ℕ), pc.early = true → s.blocked c.request.side = true →
        Linear n { s.setCall i c pc with owner := owner }
          (note s (.run i woken) { s.setCall i c pc with owner := owner } h) := by
      intro pc owner hearly' hb
      have hnone : c.events i { c with pc := pc } = [] := by
        unfold Call.events
        cases pc with
        | unlock retval | returned retval => cases hearly'
        | _ => rw [hpc]
      have hnote : note s (.run i woken) { s.setCall i c pc with owner := owner } h = h :=
        (note_run woken hc (hself pc)).trans (by rw [hnone, List.append_nil])
      rw [hnote]
      exact hL.refuse hc hearly hearly' hb
    cases looped hpc hs with
    | sleep hb hrval => exact hblocked .waiting none rfl hb
    | spin hb hd => exact hblocked (.loop .inval) s.owner rfl hb
    | put x s' hr hrval hb hs =>
      have hev : c.events i { c with pc := .unlock (.enqueued true) } = [.effect i (.put x)] := by
        simp only [Call.events, hpc, hr, Request.effects, List.map_cons, List.map_nil]
      rw [note_run woken hc (getElem?_signal hs (hself _) rfl), hev]
      refine (hL.act hc hearly ?_ ?_ fun t ht => ht.put hb x).signal hs
      · rw [hr]; rfl
      · rw [hr]; exact fun _ => .put x
    | take s' hr hrval hb hs =>
      have hev : c.events i { c with pc := .unlock (.dequeued (some s.q.take.2)) } =
          [.effect i (.take s.q.take.2)] := by
        simp only [Call.events, hpc, hr, Request.effects, List.map_cons, List.map_nil]
      rw [note_run woken hc (getElem?_signal hs (hself _) rfl), hev]
      refine (hL.act hc hearly ?_ ?_ fun t ht => ht.take hb).signal hs
      · rw [hr]; rfl
      · rw [hr]; exact fun _ => .take _
    | giveUp hr =>
      have heff : c.request.effects c.request.refusal = [] := by cases c.request <;> rfl
      have hev : c.events i { c with pc := .unlock c.request.refusal } = [] := by
        simp only [Call.events, hpc, heff, List.map_nil]
      rw [note_run woken hc (hself _), hev, List.append_nil]
      obtain ⟨hof, href⟩ := (told_early hearly).1 (hL.told i c hc)
      have href := href (by rw [hpc]; simpa [Pc.refused] using hr)
      show Linear n { s.setCall i c (.unlock c.request.refusal) with owner := s.owner } h
      refine hL.silent hc ⟨?_, ?_⟩
      · show Outcome w n h i c.request c.request.refusal
        cases hreq : c.request with
        | enqueue x => exact .full x (hreq ▸ href)
        | dequeue => exact .empty (hreq ▸ href)
      · show ofCall i h = _ :: (c.request.effects c.request.refusal).map _
        rw [hof, heff]
        rfl
  | unlock retval =>
    simp only [runStep, hpc, Option.some.injEq] at hs
    subst hs
    have hev : c.events i { c with pc := .returned retval } = [.returned i retval] := by
      simp only [Call.events, hpc]
    have htold := hL.told i c hc
    unfold Told at htold
    rw [hpc] at htold
    obtain ⟨t, ht, hstands⟩ := hL.contents
    have hnote : note s (.run i woken) { s.setCall i c (.returned retval) with owner := none } h =
        h ++ [.returned i retval] := (note_run woken hc (hself _)).trans (by rw [hev])
    rw [hnote]
    refine hL.move hc (fun j hj => ofCall_other (Ne.symm hj)) ⟨t, ht.returned i retval, hstands⟩ ?_
    refine ⟨htold.1.append _, ?_⟩
    rw [ofCall_append, htold.2, ofCall_returned]
  | _ => simp [runStep, hpc] at hs

/-- **Every step** keeps the history true. -/
theorem step_linear {a : Act α} (hL : Linear n s h) (hs : s.step a = some s') : Linear n s' (note s a s' h) := by
  by_cases ha : a.isRun = true
  · cases a with
    | run i woken =>
      obtain ⟨c, hc, hs⟩ := Option.bind_eq_some_iff.1 hs
      exact run_linear hL hc hs
    | _ => cases ha
  · cases step_trans hs with
    | call request waitMs ts hts =>
      obtain ⟨t, ht, hstands⟩ := hL.contents
      have hother : ∀ i, i ≠ s.calls.length →
          ofCall i [(.invoked s.calls.length request : Event α)] = [] := fun i hi => ofCall_other (Ne.symm hi)
      refine ⟨⟨t, ht.invoked _ request, hstands⟩, ?_, ?_⟩
      · intro i c hc
        have hc : (s.calls ++ [_])[i]? = some c := hc
        rw [List.getElem?_append] at hc
        split at hc
        · rename_i hi
          exact (hL.told i c hc).append (hother i (by omega))
        · rename_i hi
          have hlen := (List.getElem?_eq_some_iff.1 hc).1
          rw [List.length_singleton] at hlen
          have hi : i = s.calls.length := by omega
          rw [hi, Nat.sub_self, List.getElem?_cons_zero, Option.some.injEq] at hc
          rw [hi, ← hc, told_early rfl, note, ofCall_append, hL.fresh _ (Nat.le_refl _),
            ofCall_invoked]
          exact ⟨rfl, fun hr => by cases hr⟩
      · intro i hi
        have hi : s.calls.length + 1 ≤ i := by
          have hlen : (s.calls ++ [_]).length ≤ i := hi
          simpa using hlen
        rw [note, ofCall_append, hL.fresh i (by omega), hother i (by omega), List.append_nil]
    | lockFree i c tm hc hpc | lockWait i c tm hc hpc | lockInvalid i c tm hc hpc
    | lockTimeout i c now deadline hc hpc | acquireLock i c deadline hc hpc | acquireSignalled i c hc hpc
    | wake i c hc hpc => exact hL.stay hc (by rw [hpc]; rfl) rfl (fun hr => by cases hr)
    | acquireWoken i c rval hc hpc => exact hL.stay hc (by rw [hpc]; rfl) rfl (fun hr => by rw [hpc]; exact hr)
    | timeout i c now hc hpc => exact hL.stay hc (by rw [hpc]; rfl) rfl (fun _ => by rw [hpc]; rfl)
    | _ => exact absurd rfl ha

/-- A queue that was just initialised. -/
theorem init_linear (hs : (system w α).init s) : Linear s.q.size.toNat s [] := by
  obtain ⟨ptrArray, size, hinit, -, hcalls⟩ := hs
  obtain ⟨q₀, hinit₀, hhead, hR⟩ := init_refines ptrArray (isPowerOfTwo_of_init hinit)
  rw [hinit₀, Option.some.injEq] at hinit
  have htail : q₀.tail.toNat = 0 := by
    have h := hR.counters
    omega
  rw [← hinit, hR.size]
  refine ⟨⟨⟨[], 0⟩, .nil, Fifo.empty, hinit ▸ hR, rfl, hinit ▸ htail⟩, ?_, fun _ _ => rfl⟩
  intro i c hc
  rw [hcalls] at hc
  cases hc

theorem reach_linear {p : Threads w α × List (Event α)} {ok : Threads w α → Act α → Prop}
    (h : Sys.Reach (watched w α) (Sys.onState ok) p) : ∃ n, Linear n p.1 p.2 :=
  Sys.Reach.recorded_inv (I := fun s h => ∃ n, Linear n s h) (fun _ hs => ⟨_, init_linear hs⟩)
    (fun _ _ _ _ _ ⟨n, hL⟩ _ hs => ⟨n, step_linear hL hs⟩) h

end Threads

open Threads

/-- **Linearizability.** Any number of producers and consumers, with any waits and clock readings, on a queue of any
accepted size and counters of any width, run access by access in any order. As long as the lock works: the puts and
takes of the history, one after the other, lead to the contents of the queue, each put into a free slot and each take
of the oldest item; every call is in the history once, with its effect between its invocation and its return, exactly
if it reports success; and one that reports failure was refused at a moment in between. -/
theorem ts_queue_linearizable (w : ℕ) (α : Type) (s : Steps w α) (h : List (Event α))
    (hr : Sys.Reach (Steps.watched w α) (Sys.onState Steps.LockWorks) (s, h)) :
    (∃ (f : Fifo α s.q.size.toNat) (taken : ℕ), Leads s.q.size.toNat h ⟨f.items, taken⟩ ∧
        (s.Idle → Refines s.q f ∧ s.q.tail.toNat = taken)) ∧
      ∀ i c, s.calls[i]? = some c → Told w s.q.size.toNat h i c := by
  obtain ⟨q₀, hreach, hF⟩ := steps_follow hr
  obtain ⟨n, ⟨t, ht, f, hR, hitems, htail⟩, htold, -⟩ := reach_linear hreach
  have hn : s.q.size.toNat = n := by rw [hF.size]; exact hR.size
  subst hn
  refine ⟨⟨f, t.taken, by rw [hitems]; exact ht, ?_⟩, htold⟩
  intro hidle
  obtain rfl := hF.idle hidle
  exact ⟨hR, htail⟩

instance (s : Steps w α) (a : Act α) : Decidable (s.LockWorks a) :=
  inferInstanceAs (Decidable (s.toThreads.LockWorks a))

instance (p : Steps w α × List (Event α)) (a : Act α) : Decidable (Sys.onState Steps.LockWorks p a) :=
  inferInstanceAs (Decidable (p.1.LockWorks a))

theorem watched_fresh : Sys.Reach (Steps.watched 64 ℕ) (Sys.onState Steps.LockWorks) (⟨fresh, fun _ => none⟩, []) :=
  .init ⟨⟨⟨fun _ => 0, 2, rfl, rfl, rfl⟩, rfl⟩, rfl⟩

/-- Two producers and a consumer at a queue of two slots. The consumer finds it empty and waits; the second producer
starts while the first one is between its counter and its slot. -/
theorem ts_queue_linearizable_three : ∃ (s : Steps 64 ℕ) (h : List (Event ℕ)),
    Sys.Reach (Steps.watched 64 ℕ) (Sys.onState Steps.LockWorks) (s, h) ∧ s.Idle ∧
    h = [.invoked 0 .dequeue, .invoked 1 (.enqueue 7), .invoked 2 (.enqueue 8), .effect 1 (.put 7), .returned 1
      (.enqueued true), .effect 0 (.take 7), .returned 0 (.dequeued (some 7)), .effect 2 (.put 8)] ∧
    ∃ (f : Fifo ℕ s.q.size.toNat) (taken : ℕ), Leads s.q.size.toNat h ⟨f.items, taken⟩ ∧ Refines s.q f := by
  have htrace : (Sys.exec (Steps.watched 64 ℕ) (Sys.onState Steps.LockWorks) (⟨fresh, fun _ => none⟩, [])
      ([.call .dequeue WAIT_FOREVER ⟨1, 0⟩, .lock 0 ⟨1, 0⟩, .run 0 none, .call (.enqueue 7) 0 ⟨1, 0⟩, .lock 1 ⟨1, 0⟩,
        .run 1 none, .run 1 none, .call (.enqueue 8) 0 ⟨1, 0⟩, .lock 2 ⟨1, 0⟩, .run 1 none, .run 1 none, .run 1 none,
        .run 1 (some 0), .run 1 none, .acquire 0] ++ List.replicate 7 (.run 0 none) ++ [.acquire 2] ++
        List.replicate 6 (.run 2 none))).map
      (fun p => p.1.inner 0 == none && p.1.inner 1 == none && p.1.inner 2 == none && p.1.calls.length == 3 && p.2 ==
        [.invoked 0 .dequeue, .invoked 1 (.enqueue 7), .invoked 2 (.enqueue 8), .effect 1 (.put 7), .returned 1
          (.enqueued true), .effect 0 (.take 7), .returned 0 (.dequeued (some 7)), .effect 2 (.put 8)]) =
      some true := by decide +kernel
  obtain ⟨⟨s, h⟩, hs, hp⟩ := watched_fresh.of_trace htrace
  simp only [Bool.and_eq_true, beq_iff_eq] at hp
  obtain ⟨⟨⟨⟨h₀, h₁⟩, h₂⟩, hlen⟩, hh⟩ := hp
  have hidle : s.Idle := by
    -- only a call that was made can be in the body
    obtain ⟨q₀, -, hF⟩ := steps_follow hs
    intro i
    by_contra hne
    obtain ⟨k, hk⟩ := Option.ne_none_iff_exists'.1 hne
    obtain ⟨c, -, hc, -⟩ := hF.within i k hk
    have hlen : s.calls.length = 3 := hlen
    have hi : i < s.calls.length := (List.getElem?_eq_some_iff.1 hc).1
    have hcases : i = 0 ∨ i = 1 ∨ i = 2 := by omega
    rcases hcases with rfl | rfl | rfl
    · exact hne h₀
    · exact hne h₁
    · exact hne h₂
  obtain ⟨⟨f, taken, hleads, hholds⟩, -⟩ := ts_queue_linearizable 64 ℕ s h hs
  exact ⟨s, h, hs, hidle, hh, f, taken, hleads, (hholds hidle).1⟩

/-- The effect of a call in the body of its critical section, once `count` is written. -/
def Inner.done (request : Request α) : Inner w α → Option (Effect α)
  | .counted item => match request with
    | .enqueue x => some (.put x)
    | .dequeue => some (.take item)
  | _ => none

theorem Within.count {q₀ q : Queue w α} {request : Request α} {k : Inner w α} (h : Within q₀ request k q)
    (hk : k.done request = none) : q.count = q₀.count := by
  cases k with
  | body =>
    have hq : q = q₀ := h
    rw [hq]
  | loaded y n =>
    cases request with
    | _ => obtain ⟨-, -, rfl⟩ := h; rfl
  | counted y =>
    cases request with
    | _ => cases hk
  | _ =>
    cases request with
    | _ => obtain ⟨-, rfl⟩ := h; rfl

/-- **`ts_queue_get_count` takes no lock**, and reads a count that the queue has: as long as the locks of the others
work, `count` is the number of items that the history leads to, or the number after the effect of the one call that
has just written it and not yet signalled. -/
theorem ts_queue_get_count_unlocked (w : ℕ) (α : Type) (s : Steps w α) (h : List (Event α))
    (hr : Sys.Reach (Steps.watched w α) (Sys.onState Steps.LockWorks) (s, h)) :
    ∃ t, Leads s.q.size.toNat h t ∧ (s.q.getCount = t.items.length ∨
      ∃ i k c e t', s.inner i = some k ∧ s.calls[i]? = some c ∧ k.done c.request = some e ∧
        t.step s.q.size.toNat e t' ∧ s.q.getCount = t'.items.length) := by
  obtain ⟨q₀, hreach, hF⟩ := steps_follow hr
  obtain ⟨n, ⟨t, ht, hstands⟩, -, -⟩ := reach_linear hreach
  have hcount : ∀ {q : Queue w α} {t : Contents α}, Stands n q t → q.getCount = t.items.length := by
    rintro q t ⟨f, hR, hitems, -⟩
    rw [← hitems]
    exact hR.count
  have hn : s.q.size.toNat = n := by
    obtain ⟨f, hR, -⟩ := hstands
    rw [hF.size]
    exact hR.size
  subst hn
  refine ⟨t, ht, ?_⟩
  by_cases hidle : s.Idle
  · left
    rw [hF.idle hidle]
    exact hcount hstands
  · obtain ⟨i, hi⟩ := not_forall.1 hidle
    obtain ⟨k, hk⟩ := Option.ne_none_iff_exists'.1 hi
    obtain ⟨c, rval, hc, -, hb, -, hw⟩ := hF.within i k hk
    cases hdone : k.done c.request with
    | none =>
      left
      unfold Queue.getCount
      rw [hw.count hdone]
      exact hcount hstands
    | some e =>
      right
      cases k with
      | counted y =>
        cases hreq : c.request with
        | enqueue x =>
          rw [hreq] at hb hw hdone
          obtain ⟨t', hstep, hstands'⟩ := hstands.put hb x
          obtain ⟨rfl, hq⟩ := hw
          refine ⟨i, _, c, _, t', hk, hc, by rw [hreq]; exact hdone, ?_, by rw [hq]; exact hcount hstands'⟩
          cases hdone
          exact hstep
        | dequeue =>
          rw [hreq] at hb hw hdone
          obtain ⟨t', hstep, hstands'⟩ := hstands.take hb
          obtain ⟨rfl, hq⟩ := hw
          refine ⟨i, _, c, _, t', hk, hc, by rw [hreq]; exact hdone, ?_, by rw [hq]; exact hcount hstands'⟩
          cases hdone
          exact hstep
      | _ => cases hdone

/-- A producer has written `count` and not yet signalled. -/
theorem ts_queue_get_count_unlocked_counted : ∃ (s : Steps 64 ℕ) (h : List (Event ℕ)),
    Sys.Reach (Steps.watched 64 ℕ) (Sys.onState Steps.LockWorks) (s, h) ∧ s.q.getCount = 1 ∧
    h = [.invoked 0 (.enqueue 7)] ∧ ∃ t, Leads s.q.size.toNat h t ∧ (s.q.getCount = t.items.length ∨
      ∃ i k c e t', s.inner i = some k ∧ s.calls[i]? = some c ∧ k.done c.request = some e ∧
        t.step s.q.size.toNat e t' ∧ s.q.getCount = t'.items.length) := by
  have htrace : (Sys.exec (Steps.watched 64 ℕ) (Sys.onState Steps.LockWorks) (⟨fresh, fun _ => none⟩, [])
      ([.call (.enqueue 7) 0 ⟨1, 0⟩, .lock 0 ⟨1, 0⟩] ++ List.replicate 5 (.run 0 none))).map
      (fun p => p.1.q.getCount == 1 && p.2 == [.invoked 0 (.enqueue 7)]) = some true := by decide +kernel
  obtain ⟨⟨s, h⟩, hs, hp⟩ := watched_fresh.of_trace htrace
  simp only [Bool.and_eq_true, beq_iff_eq] at hp
  exact ⟨s, h, hs, hp.1, hp.2, ts_queue_get_count_unlocked 64 ℕ s h hs⟩

end Cutils.TsQueue
