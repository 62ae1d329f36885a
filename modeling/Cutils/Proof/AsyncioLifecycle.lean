import Cutils.Proof.AsyncioWait

/-!
# Starting and stopping a stream

`finisher_f` stores its context's state before it destroys the pool, and so the other side's finisher
may complete the stop in between: `asyncio_stop` then returns while a pool still exists. The completion
of a start or a stop stores the instance's state after its check, in a step of its own, and so a worker
that is late stores it into the middle of the next call.

* `start_stop_settled`: what holds at the returns, if no stop returns while a pool is being destroyed;
  every call returns.
* `settled_of_one`: with one worker, for one side or for both, no stop does.
* `init_state_cycle`: the instance's state follows its cycle exactly as long as no completion is late.
-/

namespace Cutils.Asyncio

/-- In a stop, once its flag is cleared. -/
def Control.stopping : Control → Bool
  | .stopMark | .stopCas _ | .stopPost _ | .stopWait => true
  | _ => false

theorem Control.of_stopping {control : Control} (h : control.stopping = true) :
    control.starting = false ∧ control ≠ .up ∧ control ≠ .stopCheck ∧ control ≠ .stopClear := by
  cases control with
  | stopMark | stopCas _ | stopPost _ | stopWait => exact ⟨rfl, by simp, by simp, by simp⟩
  | _ => cases h

namespace View

variable {c : Config} {v v' : View} {x : Side}

/-- The controller gets back from a stop only when its flag is sent. -/
theorem Moves.to_down (h : v.Inv c) (hm : Moves c v v') (hd : v'.control = .down) :
    v.control = .down ∨ v.control = .stopWait ∧ v.stoppedFlag = true := by
  cases hm with
  | part _ _ | startStore _ | startSend _ | stopStore _ | stopSend _ => exact .inl hd
  | startRefused hc _ => exact .inl hc
  | stopRefused hc hi => exact absurd ((h.stopped (by rw [hc]; rfl)).up hc).1 hi
  | stopCheck hc =>
    rw [(h.stopped (by rw [hc]; rfl)).running (.inr hc)] at hd
    cases hd
  | stopReturn hc hf => exact .inr ⟨hc, hf⟩
  | @startSkip x hc _ | @startPost x hc _ | @stopSkip x hc _ _ | @stopPost x hc _ => cases x <;> cases hd
  | _ => cases hd

/-- A finisher is before its `pool_destroy` because it was, or because it has just stored its context. -/
theorem Moves.destroy (hm : Moves c v v') (ht : (v'.part x).tail = .destroy) :
    (v.part x).tail = .destroy ∨ (v.part x).ctx = .uninitializing := by
  have hset : ∀ {y t}, t ≠ .destroy → ((v.setPart y { v.part y with tail := t }).part x).tail = .destroy →
      (v.part x).tail = .destroy := by
    intro y t hne ht
    rw [← tail_of_setTail (· = .destroy) hne x ht]
    exact ht
  cases hm with
  | @part y p hw hpm =>
    rcases tail_setPart (P := (· = _)) ht with hold | ⟨rfl, hnew⟩
    · exact .inl hold
    · cases hpm with
      | finish _ _ hst => exact .inr hst
      | @startPass z _ _ | @stopPass z _ _ => cases z <;> cases hnew
      | create _ h0 | readyRx _ _ h0 | load _ _ h0 _ | die _ _ h0 _ | repost _ _ h0 =>
        rw [show (v.part x).tail = .destroy from hnew] at h0
        cases h0
      | _ => cases hnew
  | startStore _ | startSend _ | stopStore _ | stopSend _ => exact .inl (hset (by simp) ht)
  | @startSet y _ _ => exact .inl ((tail_setCtx v y _ x).symm.trans ht)
  | @stopSet y _ _ => exact .inl ((tail_setCtx v y _ x).symm.trans ht)
  | @startPost y _ _ | @stopPost y _ _ => exact .inl ((tail_setPend v y _ x).symm.trans ht)
  | _ => exact .inl ht

/-- A stop's flag was sent before, or a finisher sends it now. -/
theorem Moves.to_flag (hm : Moves c v v') (hc : v'.control.stopping = true) (hf : v'.stoppedFlag = true) :
    (v.control.stopping = true ∧ v.stoppedFlag = true) ∨
      ∃ x, (v.part x).tail = .stopSend ∧ ∀ y, (v'.part y).tail = if y = x then .none else (v.part y).tail := by
  cases hm with
  | stopSend ht =>
    rename_i x
    refine .inr ⟨x, ht, fun y => ?_⟩
    by_cases hyx : y = x
    · subst hyx
      simp [setPart]
    · simp [setPart, hyx]
  | part _ _ | startStore _ | startSend _ | stopStore _ => exact .inl ⟨hc, hf⟩
  | stopMark h0 | stopSet h0 _ | stopPost h0 _ | stopSkip h0 _ _ => exact .inl ⟨by rw [h0]; rfl, hf⟩
  | stopClear _ => cases hf
  | @startSkip x _ _ | @startPost x _ _ => cases x <;> cases hc
  | stopCheck _ =>
    simp only at hc
    split at hc <;> cases hc
  | _ => cases hc

end View

namespace Stream

variable {c : Config} {s s' : Stream} {a : Act} {w n : ℕ} {x : Side} {ok : Stream → Act → Prop}

section Settled

/-- The `finisher_f` of side `x` is before its `pool_destroy`. -/
def destroying (c : Config) (s : Stream) (x : Side) : Bool :=
  match c.worker x with
  | some w => s.pc w == .finisherDestroy x
  | none => false

/-- `asyncio_stop` does not return while a `finisher_f` is before its `pool_destroy`. -/
def Destroys (c : Config) (s : Stream) (a : Act) : Prop :=
  a = .control → s.control = .stopWait → s.destroying c .rx = false ∧ s.destroying c .tx = false

instance : Decidable (Destroys c s a) := inferInstanceAs (Decidable (_ → _))

theorem destroying_iff : s.destroying c x = true ↔ (s.partOf c x).tail = .destroy := by
  unfold destroying
  cases hx : c.worker x with
  | none => simp [partOf, hx]
  | some w =>
    rw [partOf_of_worker hx]
    simp only [tailOf, beq_iff_eq]
    constructor
    · intro hpc
      rw [hpc]
      simp [WorkerPc.side, WorkerPc.tail]
    · intro ht
      split at ht
      · rename_i hside
        cases hpc : s.pc w with
        | finisherDestroy y =>
          rw [hpc] at hside
          simpa [WorkerPc.side] using hside
        | _ => rw [hpc] at ht; cases ht
      · cases ht

/-- **After a stop** no finisher has its pool left to destroy. -/
theorem reach_destroyed (h : Sys.Reach (system c) (Destroys c) s) :
    s.control = .down → ∀ x, (s.partOf c x).tail ≠ .destroy := by
  induction h with
  | init h0 =>
    cases h0
    intro _ x
    rw [create_part]
    simp
  | @step s s' a hr hok hs ih =>
    intro hd x ht
    have hcyc := reach_cycled hr
    rcases step_view hcyc.placed hcyc.inv.parts.posts hs with heq | hm
    · have hpart : s'.partOf c x = s.partOf c x := congrArg (fun v : View => v.part x) heq
      have hctl : s'.control = s.control := congrArg View.control heq
      exact ih (hctl ▸ hd) x (hpart ▸ ht)
    · rcases View.Moves.to_down hcyc.inv hm hd with hold | ⟨hwait, hf⟩
      · rcases View.Moves.destroy hm ht with hold' | hst
        · exact ih hold x hold'
        · rw [hcyc.inv.parts.off_of_down hold x] at hst
          cases hst
      · have ha : a = .control := by
          by_contra ha
          have hctl := (step_eases ha hs).control
          rw [hd, show s.control = .stopWait from hwait] at hctl
          cases hctl
        have hoff := ((hcyc.inv.stopped (by rw [hwait]; rfl)).flag (by simp [hwait]) (by simp [hwait])
          (by simp [hwait]) hf).1
        rcases View.Moves.destroy hm ht with hold' | hst
        · have hdes := (destroying_iff (x := x)).2 hold'
          obtain ⟨h1, h2⟩ := hok ha hwait
          cases x
          · rw [h1] at hdes; cases hdes
          · rw [h2] at hdes; cases hdes
        · rw [hoff x] at hst
          cases hst

/-- At the return of `asyncio_start`. -/
structure Up (c : Config) (s : Stream) : Prop where
  retval : s.retval = true
  initState : s.initState = .initialized
  ctx : ∀ x, (c.worker x).isSome → s.ctx x = .initialized
  pool : ∀ x, (c.worker x).isSome → (s.pool x).q.isSome

/-- At the return of `asyncio_stop`. -/
structure Down (s : Stream) : Prop where
  initState : s.initState = .uninitialized
  ctx : ∀ x, s.ctx x = .uninitialized
  pool : ∀ x, (s.pool x).q = none

theorem part_ctx (x : Side) : ((s.view c).part x).ctx = s.ctx x := by
  change (s.partOf c x).ctx = _
  unfold partOf
  split <;> rfl

theorem part_live (x : Side) : ((s.view c).part x).live = (s.pool x).q.isSome := by
  change (s.partOf c x).live = _
  unfold partOf
  split <;> rfl

theorem Cycled.up (h : Cycled c s) (hu : s.control = .up) : Up c s := by
  have hu' : (s.view c).control = .up := hu
  have hon := h.inv.parts.on_of_up hu'
  obtain ⟨hi, hret⟩ := (h.inv.stopped (by rw [hu']; rfl)).up hu'
  refine ⟨hret, hi, fun x hx => (part_ctx x).symm.trans (hon x hx), fun x hx => ?_⟩
  rw [← part_live (c := c), (h.inv.parts.used x hx).live]
  exact .inl (by rw [hon x hx]; rfl)

/-- A side that is stopped has its pool only until its finisher destroys it. -/
theorem Cycled.pool_iff (h : Cycled c s) (hst : s.ctx x = .uninitialized) :
    (s.pool x).q = none ↔ (s.partOf c x).tail ≠ .destroy := by
  have hctx := part_ctx (c := c) (s := s) x
  have hlive : (s.pool x).q = none ↔ ¬ ((s.view c).part x).live = true := by
    rw [part_live]
    simp
  rw [hlive]
  cases hw : c.worker x with
  | none =>
    have hpart := h.inv.parts.unused x hw
    rw [hpart, show s.partOf c x = _ from hpart]
    simp
  | some w =>
    have hp := h.inv.parts.used x (by rw [hw]; rfl)
    have hpend := hp.pend
    rw [hctx, hst] at hpend
    have hmade : .made ∉ ((s.view c).part x).pend := by
      generalize ((s.view c).part x).pend = l at hpend ⊢
      generalize (s.view c).control.about x = b at hpend
      cases hpend <;> simp
    rw [hp.live, hctx, hst]
    change ¬ (_ ∨ _ ∨ (s.partOf c x).tail = .destroy) ↔ _
    simp [InitState.on, hmade]

theorem Cycled.down (h : Cycled c s) (hd : s.control = .down) (ht : ∀ x, (s.partOf c x).tail ≠ .destroy) :
    Down s := by
  have hd' : (s.view c).control = .down := hd
  have hoff : ∀ x, s.ctx x = .uninitialized := fun x =>
    (part_ctx x).symm.trans (h.inv.parts.off_of_down hd' x)
  exact ⟨(h.inv.started (by rw [hd']; rfl)).down hd', hoff, fun x => (h.pool_iff (hoff x)).2 (ht x)⟩

/-- The controller's own assertion holds. -/
theorem Cycled.controlStep_tripped (h : Cycled c s) (ht : s.tripped = false) (hs : s.controlStep c = some s') :
    s'.tripped = false := by
  have hpost : ∀ (x : Side) (a : Action), (s.post c x a).tripped = s.tripped := by
    intro x a
    rw [post_eq]
  unfold controlStep at hs
  cases hc : s.control with
  | stopCas x =>
    simp only [hc] at hs
    split at hs
    · obtain rfl := Option.some.inj hs
      exact ht
    · rename_i hst
      rw [← part_ctx (c := c)] at hst
      cases hw : c.worker x with
      | none =>
        rw [h.inv.parts.unused x hw] at hst
        cases hst
      | some w =>
        rw [h.inv.parts.ctx_of_stopCas hc (by rw [hw]; rfl)] at hst
        cases hst
    · obtain rfl := Option.some.inj hs
      exact ht
  | startPost x | stopPost x =>
    simp only [hc] at hs
    obtain rfl := Option.some.inj hs
    exact (hpost x _).trans ht
  | down | startSet | startWait | up | stopWait =>
    simp only [hc] at hs
    split at hs <;> cases hs <;> exact ht
  | _ =>
    simp only [hc] at hs
    obtain rfl := Option.some.inj hs
    exact ht

/-- **At the returns of starts and stops**, as long as no stop returns while a pool is being destroyed
(`settled_of_one`: with one worker none does); the controller's assertion holds, and in a fair run every
call returns. -/
theorem start_stop_settled (c : Config) :
    (∀ s, Sys.Reach (system c) (Destroys c) s →
      (s.control = .up → Up c s) ∧ (s.control = .down → Down s) ∧
      ∀ s', s.step c .control = some s' → s'.tripped = false) ∧
    ∀ r : Sys.Run (system c) (Destroys c), r.Fair (ready c) takes →
      ∀ t b, (r.state t).control.inside b → ∃ t' ≥ t, (r.state t').control = .returned b := by
  refine ⟨?_, fun r hfair t b hin => call_returns r hfair hin⟩
  intro s h
  have hcyc := reach_cycled h
  refine ⟨hcyc.up, fun hd => hcyc.down hd (reach_destroyed h hd), ?_⟩
  intro s' hs
  unfold step at hs
  split at hs
  · cases hs
  · rename_i ht
    exact hcyc.controlStep_tripped (Bool.eq_false_iff.2 ht) hs

/-- A worker is in one check at a time. -/
theorem side_of_tail (ht : (s.partOf c x).tail ≠ .none) : ∃ w, c.worker x = some w ∧ (s.pc w).side = some x := by
  cases hx : c.worker x with
  | none => exact absurd (by simp [partOf, hx]) ht
  | some w =>
    refine ⟨w, rfl, ?_⟩
    rw [partOf_of_worker hx] at ht
    by_contra hne
    exact ht (if_neg hne)

/-- **One worker** has destroyed its pools before it sends the flag of a stop. -/
theorem reach_destroyed_of_one (hone : ∀ x y w w', c.worker x = some w → c.worker y = some w' → w = w')
    (h : Sys.Reach (system c) ok s) :
    s.control.stopping = true → s.stoppedFlag = true → ∀ x, (s.partOf c x).tail ≠ .destroy := by
  induction h with
  | init h0 =>
    cases h0
    exact nofun
  | @step s s' a hr _ hs ih =>
    intro hc hf y ht
    have hcyc := reach_cycled hr
    rcases step_view hcyc.placed hcyc.inv.parts.posts hs with heq | hm
    · have hpart : s'.partOf c y = s.partOf c y := congrArg (fun v : View => v.part y) heq
      have hctl : s'.control = s.control := congrArg View.control heq
      have hflag : s'.stoppedFlag = s.stoppedFlag := congrArg View.stoppedFlag heq
      exact ih (hctl ▸ hc) (hflag ▸ hf) y (hpart ▸ ht)
    · rcases View.Moves.to_flag hm hc hf with ⟨hc₀, hf₀⟩ | ⟨x, hx, htails⟩
      · rcases View.Moves.destroy hm ht with hold | hst
        · exact ih hc₀ hf₀ y hold
        · -- a flag that is sent finds every side stopped
          have hctl := Control.of_stopping hc₀
          have hoff := ((hcyc.inv.stopped hctl.1).flag hctl.2.1 hctl.2.2.1 hctl.2.2.2 hf₀).1
          rw [hoff y] at hst
          cases hst
      · -- the worker that sends it is not before a `pool_destroy`
        have hy : Tail.destroy = _ := ht.symm.trans (htails y)
        split at hy
        · cases hy
        · rename_i hyx
          obtain ⟨w, hw, hside⟩ := side_of_tail (c := c) (s := s) (x := x) (hx ▸ nofun)
          obtain ⟨w', hw', hside'⟩ := side_of_tail (c := c) (s := s) (x := y) (hy ▸ nofun)
          obtain rfl := hone x y w w' hw hw'
          rw [hside] at hside'
          exact hyx (Option.some.inj hside').symm

/-- An instance with one worker meets the condition at every step. -/
theorem destroys_of_one (hone : ∀ x y w w', c.worker x = some w → c.worker y = some w' → w = w')
    (h : Sys.Reach (system c) ok s) (hs : s.step c a = some s') : Destroys c s a := by
  rintro rfl hwait
  have hf : s.stoppedFlag = true := by
    by_contra hne
    have hnone : s.controlStep c = none := by
      unfold controlStep
      rw [hwait]
      exact if_neg hne
    unfold step at hs
    split at hs
    · cases hs
    · rw [hnone] at hs
      cases hs
  have hno : ∀ x, s.destroying c x = false := fun x =>
    Bool.eq_false_iff.2 fun hd => reach_destroyed_of_one hone h (by rw [hwait]; rfl) hf x (destroying_iff.1 hd)
  exact ⟨hno .rx, hno .tx⟩

/-- **An instance with one worker**, for one side or for both, has everything in order at every return. -/
theorem settled_of_one (hone : ∀ x y w w', c.worker x = some w → c.worker y = some w' → w = w')
    (h : Sys.Reach (system c) Sys.Always s) :
    Sys.Reach (system c) (Destroys c) s ∧ (s.control = .up → Up c s) ∧ (s.control = .down → Down s) := by
  have hd : Sys.Reach (system c) (Destroys c) s := h.of_all fun _ _ _ hr hs => destroys_of_one hone hr hs
  have hcyc := reach_cycled h
  exact ⟨hd, hcyc.up, fun hdown => hcyc.down hdown (reach_destroyed hd hdown)⟩

end Settled

section Runs

/-- A stream with an rx worker and a tx worker of its own. -/
def twoWorkers : Config where
  worker := fun | .rx => some 0 | .tx => some 1
  numOfElements := fun _ => 2
  maxTxDataChunkSize := 64
  has_worker := ⟨.rx, rfl⟩

/-- A start, up to its wait; the rx worker up to its check, and the tx worker to the end of its own. -/
def startUp : List Act :=
  List.replicate 7 .control ++ List.replicate 4 (.work 0 0) ++ List.replicate 7 (.work 1 0)

/-- The rest of the rx worker's check, the return of the start, a stop up to its wait, and the rx worker
up to the end of its `rx_f`. -/
def stopDown : List Act :=
  List.replicate 4 (.work 0 0) ++ .control :: List.replicate 8 .control ++ List.replicate 2 (.work 0 0)

/-- The stop is completed by the tx worker, after the rx worker has destroyed its pool. -/
def destroyFirst : List Act := List.replicate 3 (.work 0 0) ++ List.replicate 7 (.work 1 0)

/-- The stop is completed by the tx worker, before the rx worker has destroyed its pool. -/
def destroyLast : List Act := List.replicate 2 (.work 0 0) ++ List.replicate 7 (.work 1 0)

theorem reach_of_run (ok : Stream → Act → Prop) [∀ s a, Decidable (ok s a)] (acts : List Act) (p : Stream → Bool)
    (h : (Sys.exec (system c) ok (create c) acts).map p = some true) :
    ∃ s, Sys.Reach (system c) ok s ∧ p s = true :=
  (Sys.Reach.init rfl).of_trace h

/-- Two workers: a start, and a stop that the tx worker completes after the rx worker has destroyed its pool. -/
theorem start_stop_settled_two :
    (∃ s, Sys.Reach (system twoWorkers) (Destroys twoWorkers) s ∧ s.control = .up ∧ Up twoWorkers s) ∧
    ∃ s, Sys.Reach (system twoWorkers) (Destroys twoWorkers) s ∧ s.starts = 1 ∧ s.control = .down ∧ Down s := by
  have hup := reach_of_run (c := twoWorkers) (Destroys twoWorkers)
    (startUp ++ [.control]) (fun s => s.control == .up) (by decide +kernel)
  have hdown := reach_of_run (c := twoWorkers) (Destroys twoWorkers)
    (startUp ++ stopDown ++ destroyFirst ++ [.control])
    (fun s => s.control == .down && s.starts == 1) (by decide +kernel)
  obtain ⟨s, hs, hp⟩ := hup
  obtain ⟨s', hs', hp'⟩ := hdown
  simp only [Bool.and_eq_true, beq_iff_eq] at hp hp'
  exact ⟨⟨s, hs, hp, ((start_stop_settled twoWorkers).1 s hs).1 hp⟩,
    s', hs', hp'.2, hp'.1, ((start_stop_settled twoWorkers).1 s' hs').2.1 hp'.1⟩

/-- **A stop returns while the rx pool exists.** -/
theorem stop_returns_before_destroy : ∃ s, Sys.Reach (system twoWorkers) Sys.Always s ∧ s.starts = 1 ∧
    s.control = .down ∧ (s.pool .rx).q ≠ none := by
  obtain ⟨s, hs, hp⟩ := reach_of_run (c := twoWorkers) Sys.Always
    (startUp ++ stopDown ++ destroyLast ++ [.control])
    (fun s => s.control == .down && s.starts == 1 && (s.pool .rx).q.isSome) (by decide +kernel)
  simp only [Bool.and_eq_true, beq_iff_eq, Option.isSome_iff_ne_none] at hp
  exact ⟨s, hs, hp.1.2, hp.1.1, hp.2⟩

end Runs

end Stream

/-- The next state in the cycle of an instance. -/
def InitState.next : InitState → InitState
  | .uninitialized => .initializing
  | .initializing => .initialized
  | .initialized => .uninitializing
  | .uninitializing => .uninitialized

namespace Stream

variable {c : Config} {s s' : Stream} {a : Act} {w n : ℕ} {x : Side} {ok : Stream → Act → Prop} {b : Bool}

section Cycle

instance (control : Control) : Decidable (control.inside b) := inferInstanceAs (Decidable (_ ∧ _))

/-- A worker is about to store the completion of a start inside the next `asyncio_stop`, or that of a
stop inside the next `asyncio_start`. -/
def late (s : Stream) : Act → Bool
  | .work w _ =>
    match s.pc w with
    | .startStore _ => decide (s.control.inside false)
    | .stopStore _ => decide (s.control.inside true)
    | _ => false
  | _ => false

/-- No completion is late. -/
def Timely (s : Stream) (a : Act) : Prop := s.late a = false

instance : Decidable (Timely s a) := inferInstanceAs (Decidable (_ = _))

/-- Who changes the instance's state. -/
theorem lifeStep_initState {p : WorkerPc} (hs : s.lifeStep c w p = some s') :
    (∃ x, p = .startStore x) ∧ s'.initState = .initialized ∨
      (∃ x, p = .stopStore x) ∧ s'.initState = .uninitialized ∨
      s'.initState = s.initState ∧ (∀ x, p ≠ .startStore x) ∧ ∀ x, p ≠ .stopStore x := by
  cases p with
  | startStore x =>
    obtain rfl := Option.some.inj hs
    exact .inl ⟨⟨x, rfl⟩, rfl⟩
  | stopStore x =>
    obtain rfl := Option.some.inj hs
    exact .inr (.inl ⟨⟨x, rfl⟩, rfl⟩)
  | starterReady x =>
    cases x
    all_goals
      obtain rfl := Option.some.inj hs
      exact .inr (.inr ⟨rfl, by simp, by simp⟩)
  | starterPost =>
    obtain rfl := Option.some.inj hs
    refine .inr (.inr ⟨?_, by simp, by simp⟩)
    rw [post_eq]
    rfl
  | startLoad | finisherCas | stopLoad =>
    simp only [lifeStep] at hs
    split at hs
    all_goals
      obtain rfl := Option.some.inj hs
      exact .inr (.inr ⟨rfl, by simp, by simp⟩)
  | starterCreate | startSend | finisherDestroy | stopSend =>
    obtain rfl := Option.some.inj hs
    exact .inr (.inr ⟨rfl, by simp, by simp⟩)
  | _ => cases hs

theorem rxStep_initState {p : WorkerPc} (hs : s.rxStep c w n p = some s') : s'.initState = s.initState := by
  have hpost : ∀ p, ((s.post c .rx .rxF).setPc w p).initState = s.initState := by
    intro p
    rw [post_eq]
    rfl
  cases p with
  | rxAlloc | rxRead =>
    simp only [rxStep] at hs
    split at hs <;> cases hs <;> rfl
  | rxPost | rxRetry =>
    obtain rfl := Option.some.inj hs
    exact hpost _
  | rxFree b =>
    obtain rfl := Option.some.inj hs
    exact freeStep_cases (P := fun s' => s'.initState = s.initState) rfl rfl rfl
  | rxLoad | rxAdd | rxCallback | rxEnqueue =>
    obtain rfl := Option.some.inj hs
    rfl
  | _ => cases hs

/-- **Who changes the instance's state**: the controller, and a worker that completes a start or a stop. -/
theorem step_initState (hs : s.step c a = some s') :
    a = .control ∧ s.controlStep c = some s' ∨
      (∃ w n x, a = .work w n ∧ s.pc w = .startStore x) ∧ s'.initState = .initialized ∨
      (∃ w n x, a = .work w n ∧ s.pc w = .stopStore x) ∧ s'.initState = .uninitialized ∨
      a ≠ .control ∧ Timely s a ∧ s'.initState = s.initState := by
  unfold step at hs
  split at hs
  · cases hs
  cases a with
  | control => exact .inl ⟨rfl, hs⟩
  | work w n =>
    by_cases hidle : s.pc w = .idle
    · obtain ⟨a, rest, -, rfl⟩ := workStep_idle hidle hs
      exact .inr (.inr (.inr ⟨by simp, by simp [Timely, late, hidle], rfl⟩))
    · rcases workStep_cases rfl hidle hs with h | h | h
      · rcases lifeStep_initState h with ⟨⟨x, hx⟩, hi⟩ | ⟨⟨x, hx⟩, hi⟩ | ⟨hi, h1, h2⟩
        · exact .inr (.inl ⟨⟨w, n, x, rfl, hx⟩, hi⟩)
        · exact .inr (.inr (.inl ⟨⟨w, n, x, rfl, hx⟩, hi⟩))
        · refine .inr (.inr (.inr ⟨by simp, ?_, hi⟩))
          cases hpc : s.pc w with
          | startStore x => exact absurd hpc (h1 x)
          | stopStore x => exact absurd hpc (h2 x)
          | _ => simp [Timely, late, hpc]
      · -- no step of a transfer is a store of a check
        refine .inr (.inr (.inr ⟨by simp, ?_, rxStep_initState h⟩))
        cases hpc : s.pc w <;> simp_all [Timely, late, rxStep]
      · refine .inr (.inr (.inr ⟨by simp, ?_, ?_⟩))
        · cases hpc : s.pc w <;> simp_all [Timely, late, txStep]
        · cases hpc : s.pc w with
          | txFree b k =>
            rw [hpc] at h
            obtain rfl := Option.some.inj h
            exact freeStep_cases (P := fun s' => s'.initState = s.initState) rfl rfl rfl
          | txNotify b k status m =>
            rw [hpc] at h
            obtain rfl := Option.some.inj h
            unfold notify
            split <;> rfl
          | txLoad | txCheck | txWrite | txEnqueue =>
            rw [hpc] at h
            obtain rfl := Option.some.inj h
            rfl
          | _ => rw [hpc] at h; cases h
  | token k =>
    obtain ⟨t, -, ht⟩ := Option.bind_eq_some_iff.1 hs
    exact .inr (.inr (.inr ⟨by simp, rfl, congrArg View.initState (tokenStep_view ht)⟩))
  | allocate =>
    refine .inr (.inr (.inr ⟨by simp, rfl, ?_⟩))
    dsimp only at hs
    split at hs <;> cases hs <;> rfl
  | fill k payload | release k =>
    obtain ⟨t, b, -, -, rfl⟩ := holdStep_cases hs
    exact .inr (.inr (.inr ⟨by simp, rfl, rfl⟩))
  | send k size fn priv =>
    obtain ⟨t, b, -, -, rfl⟩ := holdStep_cases hs
    refine .inr (.inr (.inr ⟨by simp, rfl, ?_⟩))
    split <;> rfl
  | releaseRx b =>
    refine .inr (.inr (.inr ⟨by simp, rfl, ?_⟩))
    dsimp only at hs
    split at hs
    · obtain rfl := Option.some.inj hs
      exact freeStep_cases (P := fun s' => s'.initState = s.initState) rfl rfl rfl
    · cases hs
  | enqueueRx b =>
    refine .inr (.inr (.inr ⟨by simp, rfl, ?_⟩))
    dsimp only at hs
    split at hs <;> cases hs
    rfl
  | setError e =>
    obtain rfl := Option.some.inj hs
    exact .inr (.inr (.inr ⟨by simp, rfl, rfl⟩))

/-- The controller changes the instance's state when it enters a call. -/
theorem controlStep_initState (hs : s.controlStep c = some s') :
    s'.initState = s.initState ∧ (∀ b, s'.control.inside b → s.control.inside b) ∨
      s.initState = .uninitialized ∧ s'.initState = .initializing ∧ s'.control = .startClear ∨
      s.initState = .initialized ∧ s'.initState = .uninitializing ∧ s'.control = .stopCheck := by
  have hin : ∀ {b : Bool} {control control' : Control}, control'.inside b → control.starting = control'.starting →
      control ≠ .down → control ≠ .up → control.inside b := fun h h1 h2 h3 => ⟨h1.trans h.1, h2, h3⟩
  unfold controlStep at hs
  cases hc : s.control with
  | down =>
    simp only [hc] at hs
    split at hs
    · rename_i hi
      obtain rfl := Option.some.inj hs
      exact .inr (.inl ⟨hi, rfl, rfl⟩)
    · obtain rfl := Option.some.inj hs
      exact .inl ⟨rfl, fun b h => absurd rfl h.2.2⟩
  | up =>
    simp only [hc] at hs
    split at hs
    · rename_i hi
      obtain rfl := Option.some.inj hs
      exact .inr (.inr ⟨hi, rfl, rfl⟩)
    · obtain rfl := Option.some.inj hs
      exact .inl ⟨rfl, fun b h => absurd rfl h.2.1⟩
  | startSet x =>
    simp only [hc] at hs
    split at hs
    all_goals
      obtain rfl := Option.some.inj hs
      exact .inl ⟨rfl, fun b h => hin h (by cases x <;> rfl) (by simp) (by simp)⟩
  | startPost x | stopPost x =>
    simp only [hc] at hs
    obtain rfl := Option.some.inj hs
    refine .inl ⟨?_, fun b h => hin h (by cases x <;> rfl) (by simp) (by simp)⟩
    rw [post_eq]
  | stopCas x =>
    simp only [hc] at hs
    split at hs
    · obtain rfl := Option.some.inj hs
      exact .inl ⟨rfl, fun b h => hin h rfl (by simp) (by simp)⟩
    · obtain rfl := Option.some.inj hs
      exact .inl ⟨rfl, fun b h => hin h rfl (by simp) (by simp)⟩
    · obtain rfl := Option.some.inj hs
      exact .inl ⟨rfl, fun b h => hin h (by cases x <;> rfl) (by simp) (by simp)⟩
  | startWait =>
    simp only [hc] at hs
    split at hs <;> cases hs
    exact .inl ⟨rfl, fun b h => absurd rfl h.2.2⟩
  | stopWait =>
    simp only [hc] at hs
    split at hs <;> cases hs
    exact .inl ⟨rfl, fun b h => absurd rfl h.2.1⟩
  | stopCheck =>
    simp only [hc] at hs
    obtain rfl := Option.some.inj hs
    refine .inl ⟨rfl, fun b h => ?_⟩
    dsimp only at h
    split at h
    · exact absurd rfl h.2.1
    · exact hin h rfl (by simp) (by simp)
  | startClear | startUnstop | stopClear | stopMark =>
    simp only [hc] at hs
    obtain rfl := Option.some.inj hs
    exact .inl ⟨rfl, fun b h => hin h rfl (by simp) (by simp)⟩

/-- A worker's place in a start's or a stop's completion, as the protocol sees it. -/
theorem Cycled.tail {p : WorkerPc} (h : Cycled c s) (hpc : s.pc w = p) (hside : p.side = some x) :
    ((s.view c).part x).tail = p.tail := by
  subst hpc
  change (s.partOf c x).tail = _
  rw [partOf_of_worker (h.placed.pc w x hside)]
  simp only [tailOf, if_pos hside]

/-- While no completion is late, the instance's state is one of the call's own. -/
def OwnState (s : Stream) : Prop :=
  (s.control.inside true → s.initState = .initializing ∨ s.initState = .initialized) ∧
    (s.control.inside false → s.initState = .uninitializing ∨ s.initState = .uninitialized)

theorem step_ownState (h : OwnState s) (hok : Timely s a) (hs : s.step c a = some s') : OwnState s' := by
  rcases step_initState hs with ⟨-, hc⟩ | ⟨⟨w, n, x, rfl, hpc⟩, hi⟩ | ⟨⟨w, n, x, rfl, hpc⟩, hi⟩ | ⟨ha, -, hi⟩
  · rcases controlStep_initState hc with ⟨hi, hin⟩ | ⟨-, hi, hctl⟩ | ⟨-, hi, hctl⟩
    · exact ⟨fun ht => by rw [hi]; exact h.1 (hin _ ht), fun ht => by rw [hi]; exact h.2 (hin _ ht)⟩
    · exact ⟨fun _ => .inl hi, fun ht => (by rw [hctl] at ht; cases ht.1)⟩
    · exact ⟨fun ht => (by rw [hctl] at ht; cases ht.1), fun _ => .inl hi⟩
  · have hctl := (step_eases (a := .work w n) nofun hs).control
    simp only [Timely, late, hpc, decide_eq_false_iff_not] at hok
    exact ⟨fun _ => .inr hi, fun ht => absurd (hctl ▸ ht) hok⟩
  · have hctl := (step_eases (a := .work w n) nofun hs).control
    simp only [Timely, late, hpc, decide_eq_false_iff_not] at hok
    exact ⟨fun ht => absurd (hctl ▸ ht) hok, fun _ => .inr hi⟩
  · have hctl := (step_eases ha hs).control
    unfold OwnState
    rw [hi, hctl]
    exact h

theorem reach_ownState (h : Sys.Reach (system c) Timely s) : OwnState s :=
  h.inv (by rintro _ rfl; exact ⟨fun ht => absurd rfl ht.2.1, fun ht => absurd rfl ht.2.1⟩)
    fun _ _ _ hi hok hs => step_ownState hi hok hs

/-- **The instance's state follows its cycle** in the runs in which no completion is late, and leaves
it at the first late one. -/
theorem init_state_cycle (h : Sys.Reach (system c) Timely s) (hs : s.step c a = some s') :
    (s'.initState = s.initState ∨ s'.initState = s.initState.next) ↔ Timely s a := by
  have hcyc := reach_cycled h
  have hown := reach_ownState h
  have hp := hcyc.inv.parts
  rcases step_initState hs with ⟨rfl, hc⟩ | ⟨⟨w, n, x, rfl, hpc⟩, hi⟩ | ⟨⟨w, n, x, rfl, hpc⟩, hi⟩ | ⟨-, hok, hi⟩
  · -- the controller's step
    refine iff_of_true ?_ rfl
    rcases controlStep_initState hc with ⟨hi, -⟩ | ⟨hi, hi', -⟩ | ⟨hi, hi', -⟩
    · exact .inl hi
    · exact .inr (by rw [hi, hi']; rfl)
    · exact .inr (by rw [hi, hi']; rfl)
  · -- the store of a start's check
    have ht := hcyc.tail hpc rfl
    have hst := (hp.used x (hp.used_of_tail (by rw [ht]; simp [WorkerPc.tail]))).start (by rw [ht]; rfl)
    simp only [Timely, late, hpc, decide_eq_false_iff_not]
    by_cases hin : s.control.inside false
    · -- a side is started, so the stop has not completed
      refine iff_of_false ?_ (not_not.2 hin)
      have hne : s.initState ≠ .uninitialized := by
        intro h0
        rw [(hcyc.inv.stopped hin.1).init h0 x] at hst
        cases hst
      rw [(hown.2 hin).resolve_right hne, hi]
      simp [InitState.next]
    · refine iff_of_true ?_ hin
      rw [hi]
      cases hb : s.control.starting with
      | true =>
        have hd := (hcyc.inv.on_of_tail hb (.inl ht)).2
        have hu : s.control ≠ .up := by intro hu; rw [hu] at hb; cases hb
        rcases hown.1 ⟨hb, hd, hu⟩ with h0 | h0
        · rw [h0]; exact .inr rfl
        · rw [h0]; exact .inl rfl
      | false =>
        have hu : s.control = .up := by
          by_contra hu
          exact hin ⟨hb, (by intro hd; rw [hd] at hb; cases hb), hu⟩
        rw [show s.initState = _ from ((hcyc.inv.stopped hb).up hu).1]
        exact .inl rfl
  · -- the store of a stop's check
    have ht := hcyc.tail hpc rfl
    have hst := (hp.used x (hp.used_of_tail (by rw [ht]; simp [WorkerPc.tail]))).stop (by rw [ht]; rfl)
    simp only [Timely, late, hpc, decide_eq_false_iff_not]
    by_cases hin : s.control.inside true
    · -- a side is not started, so the start has not completed
      refine iff_of_false ?_ (not_not.2 hin)
      have hne : s.initState ≠ .initialized := by
        intro h0
        have hw := hp.used_of_tail (x := x) (by rw [ht]; simp [WorkerPc.tail])
        rw [(hcyc.inv.started hin.1).init h0 x hw] at hst
        cases hst
      rw [(hown.1 hin).resolve_right hne, hi]
      simp [InitState.next]
    · refine iff_of_true ?_ hin
      rw [hi]
      cases hb : s.control.starting with
      | false =>
        have hu := (hcyc.inv.off_of_tail hb (.inl ht)).2
        have hd : s.control ≠ .down := by intro hd; rw [hd] at hb; cases hb
        rcases hown.2 ⟨hb, hd, hu⟩ with h0 | h0
        · rw [h0]; exact .inr rfl
        · rw [h0]; exact .inl rfl
      | true =>
        have hd : s.control = .down := by
          by_contra hd
          exact hin ⟨hb, hd, by intro hu; rw [hu] at hb; cases hb⟩
        rw [show s.initState = _ from (hcyc.inv.started hb).down hd]
        exact .inl rfl
  · exact iff_of_true (.inl hi) hok

/-- Two workers: the tx worker's check stores the completion of a start inside it. -/
theorem init_state_cycle_two :
    ∃ s s', Sys.Reach (system twoWorkers) Timely s ∧ s.step twoWorkers (.work 1 0) = some s' ∧
      s.initState = .initializing ∧ s'.initState = .initialized ∧
      ((s'.initState = s.initState ∨ s'.initState = s.initState.next) ↔ Timely s (.work 1 0)) := by
  obtain ⟨s, hs, hp⟩ := reach_of_run (c := twoWorkers) Timely
    (List.replicate 7 .control ++ List.replicate 4 (.work 0 0) ++ List.replicate 5 (.work 1 0))
    (fun s => s.initState == .initializing &&
      (s.step twoWorkers (.work 1 0)).map (·.initState) == some .initialized) (by decide +kernel)
  simp only [Bool.and_eq_true, beq_iff_eq] at hp
  obtain ⟨s', hs', hi⟩ := Option.map_eq_some_iff.1 hp.2
  exact ⟨s, s', hs, hs', hp.1, hi, init_state_cycle hs hs'⟩

/-- **A late completion of a start** overwrites the state that `asyncio_stop` has set. -/
theorem late_completion_overwrites :
    ∃ s s' a, Sys.Reach (system twoWorkers) Sys.Always s ∧ s.step twoWorkers a = some s' ∧
      s.initState = .uninitializing ∧ s'.initState = .initialized := by
  obtain ⟨s, hs, hp⟩ := reach_of_run (c := twoWorkers) Sys.Always
    (startUp ++ [.work 0 0, .work 0 0, .control, .control])
    (fun s => s.initState == .uninitializing &&
      (s.step twoWorkers (.work 0 0)).map (·.initState) == some .initialized) (by decide +kernel)
  simp only [Bool.and_eq_true, beq_iff_eq] at hp
  obtain ⟨s', hs', hi⟩ := Option.map_eq_some_iff.1 hp.2
  exact ⟨s, s', _, hs, hs', hp.1, hi⟩

end Cycle

end Stream

end Cutils.Asyncio
