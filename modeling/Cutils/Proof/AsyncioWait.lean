import Cutils.Lib.Fair
import Cutils.Proof.AsyncioCycle
import Mathlib.Data.Prod.Lex

/-!
# The waits of a start and a stop end

The starter that is last to start its side finds both sides started in its check (`Waking`), so as long
as the started flag is missing a starter is on its way through a worker; and the same for a stop. A
worker takes its actions in order, so the starters and finishers in it come nearer with each of its
steps (`todo`), whatever is posted behind them.

* `call_returns`: in a fair run every `asyncio_start` and every `asyncio_stop` returns.
-/

namespace Cutils.Asyncio

namespace View

variable {c : Config} {v v' : View} {x y : Side} {ctx : Side → InitState} {p p' : Part} {b : Bool}

/-- A side still has to make its check of a start. -/
def Part.starts (p : Part) : Prop := .ready ∈ p.pend ∨ p.tail.isStart = true

/-- **No wake-up is lost**: when everything is started, or stopped, and the flag is not sent, somebody
still has to check. -/
structure Waking (c : Config) (v : View) : Prop where
  start : v.control.starting = true → v.control ≠ .down → v.control ≠ .startClear → v.startedFlag = false →
    v.AllOn c → ∃ x, Part.starts (v.part x)
  stop : v.control.starting = false → v.control ≠ .up → v.control ≠ .stopCheck → v.control ≠ .stopClear →
    v.stoppedFlag = false → v.AllOff → ∃ x, (v.part x).tail.isStop = true

/-- The move that starts a side leaves the check to it. -/
theorem PartMoves.starts_of_on (hm : PartMoves c ctx x p p') (hon : p'.ctx = .initialized) :
    p.ctx = .initialized ∨ Part.starts p' := by
  cases hm with
  | readyRx _ _ _ => exact .inr (.inl (by simp))
  | readyTx _ _ _ => exact .inr (.inr rfl)
  | finish _ _ _ => cases hon
  | _ => exact .inl hon

/-- A check of a start does not fail once everything is started. -/
theorem PartMoves.starts (hm : PartMoves c ctx x p p') (hp : PendOK x b p.ctx p.pend)
    (hon : ∀ y, (c.worker y).isSome → ctx y = .initialized) (hst : p.ctx = .initialized) (h : Part.starts p) :
    Part.starts p' := by
  rw [hst] at hp
  unfold Part.starts at h ⊢
  cases hm with
  | @startPass y ht _ =>
    refine .inr ?_
    cases y <;> rfl
  | startFail ht hw hfail => exact absurd (hon _ hw) hfail
  | post _ _ _ | readyRx _ _ _ | readyTx _ _ _ => simp [Tail.isStart]
  | create hl ht | finish hl ht _ | skip hl ht _ | load _ hl ht _ | die _ hl ht _ | repost _ hl ht =>
    rw [hl] at hp
    cases hp <;> simp_all [Tail.isStart]
  | destroy ht | stopPass ht _ | stopFail ht _ =>
    simp only [ht, Tail.isStart, Bool.false_eq_true, or_false] at h
    exact .inl h

theorem PartMoves.stops_of_off (hm : PartMoves c ctx x p p') (hoff : p'.ctx = .uninitialized) :
    p.ctx = .uninitialized ∨ p'.tail.isStop = true := by
  cases hm with
  | readyRx _ _ _ | readyTx _ _ _ => cases hoff
  | finish _ _ _ => exact .inr rfl
  | _ => exact .inl hoff

theorem PartMoves.stops (hm : PartMoves c ctx x p p') (hoff : ∀ y, ctx y = .uninitialized)
    (h : p.tail.isStop = true) : p'.tail.isStop = true := by
  cases hm with
  | @stopPass y ht _ => cases y <;> rfl
  | stopFail ht hfail => exact absurd (hoff _) hfail
  | destroy ht => rfl
  | startPass ht _ | startFail ht _ _ => rw [ht] at h; cases h
  | create _ ht | readyRx _ _ ht | readyTx _ _ ht | post _ _ ht | finish _ ht _ | skip _ ht _ | load _ _ ht _
  | die _ _ ht _ | repost _ _ ht => rw [ht] at h; cases h

theorem part_setPart {P : Part → Prop} (hy : P (v.part y)) (hp : y = x → P p) : P ((v.setPart x p).part y) := by
  by_cases hyx : y = x
  · subst hyx
    rw [setPart_part]
    exact hp rfl
  · rw [setPart_other v p hyx]
    exact hy

/-- A move of one side, seen from the states of both sides after it. -/
theorem AllOn.of_setPart (hon : (v.setPart x p).AllOn c) (hold : (v.part x).ctx = .initialized) : v.AllOn c := by
  intro y hy
  by_cases hyx : y = x
  · rw [hyx]
    exact hold
  · have hctx := hon y hy
    rwa [setPart_other v p hyx] at hctx

theorem AllOff.of_setPart (hoff : (v.setPart x p).AllOff) (hold : (v.part x).ctx = .uninitialized) : v.AllOff := by
  intro y
  by_cases hyx : y = x
  · rw [hyx]
    exact hold
  · have hctx := hoff y
    rwa [setPart_other v p hyx] at hctx

/-- A side in use is off between a stop and a start, and only there. -/
theorem Parts.not_allOn (hp : v.Parts c) (hc : v.control = .startClear) : ¬ v.AllOn c := by
  intro hon
  obtain ⟨x, hx⟩ := c.has_worker
  have hctx := (hp.used x hx).ctx
  rw [hc, show (v.part x).ctx = .initialized from hon x hx] at hctx
  cases hctx

theorem Parts.not_allOff (hp : v.Parts c) (hc : v.control = .stopClear ∨ v.control = .stopMark) : ¬ v.AllOff := by
  intro hoff
  obtain ⟨x, hx⟩ := c.has_worker
  have hctx := (hp.used x hx).ctx
  rcases hc with hc | hc
  all_goals
    rw [hc, show (v.part x).ctx = .uninitialized from hoff x] at hctx
    cases hctx

theorem moves_wake_start (h : v.Inv c) (hwake : v.Waking c) (hm : Moves c v v') (hs : v'.control.starting = true)
    (hd : v'.control ≠ .down) (hcl : v'.control ≠ .startClear) (hf : v'.startedFlag = false) (hon : v'.AllOn c) :
    ∃ x, Part.starts (v'.part x) := by
  have hp := h.parts
  cases hm with
  | @part x p hw hpm =>
    have hx : p.ctx = .initialized := by
      have hctx : ((v.setPart x p).part x).ctx = .initialized := hon x hw
      rwa [setPart_part] at hctx
    -- the check was to be made before the move, or the move leaves it to this side
    rcases PartMoves.starts_of_on hpm hx with hold | hnew
    · have hall : v.AllOn c := AllOn.of_setPart hon hold
      obtain ⟨y, hy⟩ := hwake.start hs hd hcl hf hall
      refine ⟨y, part_setPart hy ?_⟩
      rintro rfl
      exact PartMoves.starts hpm (hp.used _ hw).pend hall hold hy
    · exact ⟨x, by rw [setPart_part]; exact hnew⟩
  | @startStore x ht =>
    refine ⟨x, ?_⟩
    change Part.starts ((v.setPart x _).part x)
    rw [setPart_part]
    exact .inr rfl
  | startSend ht => cases hf
  | @stopStore x ht =>
    have hno := hp.not_stop (x := x) fun y hy => (ctx_setTail v x _ y).symm.trans (hon y hy)
    rw [ht] at hno
    cases hno
  | @stopSend x ht =>
    have hno := hp.not_stop (x := x) fun y hy => (ctx_setTail v x _ y).symm.trans (hon y hy)
    rw [ht] at hno
    cases hno
  | startCas hc hi => exact absurd rfl hcl
  | startRefused hc hi => cases hs
  | startClear hc => exact absurd hon (hp.not_allOn hc)
  | @startSet x hc hw =>
    have := hon x hw
    change ((v.setPart x _).part x).ctx = _ at this
    rw [setPart_part] at this
    cases this
  | startSkip hc hw => exact hwake.start (by rw [hc]; rfl) (by simp [hc]) (by simp [hc]) hf hon
  | @startPost x hc hw =>
    obtain ⟨y, hy⟩ := hwake.start (by rw [hc]; rfl) (by simp [hc]) (by simp [hc]) hf
      fun y hy => (ctx_setPend v x _ y).symm.trans (hon y hy)
    refine ⟨y, part_setPart hy ?_⟩
    rintro rfl
    exact hy.imp_left fun hr => List.mem_append_left _ hr
  | startUnstop hc => exact hwake.start (by rw [hc]; rfl) (by simp [hc]) (by simp [hc]) hf hon
  | startReturn hc _ => cases hs
  | stopCas hc hi => cases hs
  | stopRefused hc hi => exact absurd rfl hd
  | stopCheck hc =>
    dsimp only at hs hd
    split at hs
    · rename_i hst
      rw [if_pos hst] at hd
      exact absurd rfl hd
    · cases hs
  | stopClear hc => cases hs
  | stopMark hc => cases hs
  | stopSet hc hst => cases hs
  | @stopSkip x hc h1 h2 => cases x <;> cases hs
  | @stopPost x hc hw => cases x <;> cases hs
  | stopReturn hc _ => exact absurd rfl hd

theorem moves_wake_stop (h : v.Inv c) (hwake : v.Waking c) (hm : Moves c v v') (hs : v'.control.starting = false)
    (hu : v'.control ≠ .up) (hck : v'.control ≠ .stopCheck) (hcl : v'.control ≠ .stopClear)
    (hf : v'.stoppedFlag = false) (hoff : v'.AllOff) : ∃ x, (v'.part x).tail.isStop = true := by
  have hp := h.parts
  cases hm with
  | @part x p hw hpm =>
    have hx : p.ctx = .uninitialized := by
      have hctx : ((v.setPart x p).part x).ctx = .uninitialized := hoff x
      rwa [setPart_part] at hctx
    rcases PartMoves.stops_of_off hpm hx with hold | hnew
    · -- the part was off before the step, so the side that stops was there already
      have hall : v.AllOff := AllOff.of_setPart hoff hold
      obtain ⟨y, hy⟩ := hwake.stop hs hu hck hcl hf hall
      refine ⟨y, part_setPart (P := fun p => p.tail.isStop = true) hy ?_⟩
      rintro rfl
      exact PartMoves.stops hpm hall hy
    · exact ⟨x, by rw [setPart_part]; exact hnew⟩
  | @stopStore x ht =>
    refine ⟨x, ?_⟩
    change ((v.setPart x _).part x).tail.isStop = true
    rw [setPart_part]
    rfl
  | stopSend ht => cases hf
  | @startStore x ht =>
    have hno := hp.not_start (x := x) fun y => (ctx_setTail v x _ y).symm.trans (hoff y)
    rw [ht] at hno
    cases hno
  | @startSend x ht =>
    have hno := hp.not_start (x := x) fun y => (ctx_setTail v x _ y).symm.trans (hoff y)
    rw [ht] at hno
    cases hno
  | startCas hc hi => cases hs
  | startRefused hc hi => exact absurd rfl hu
  | startClear hc => cases hs
  | startSet hc hw => cases hs
  | @startSkip x hc hw => cases x <;> cases hs
  | @startPost x hc hw => cases x <;> cases hs
  | startUnstop hc => cases hs
  | startReturn hc _ => exact absurd rfl hu
  | stopCas hc hi => exact absurd rfl hck
  | stopRefused hc hi => cases hs
  | stopCheck hc =>
    dsimp only at hs hcl
    split at hs
    · cases hs
    · rename_i hst
      rw [if_neg hst] at hcl
      exact absurd rfl hcl
  -- some side is still started here
  | stopClear hc => exact absurd hoff (hp.not_allOff (.inl hc))
  | stopMark hc => exact absurd hoff (hp.not_allOff (.inr hc))
  | @stopSet x hc hst =>
    have := hoff x
    change ((v.setPart x _).part x).ctx = _ at this
    rw [setPart_part] at this
    cases this
  | stopSkip hc h1 h2 => exact hwake.stop (by rw [hc]; rfl) (by simp [hc]) (by simp [hc]) (by simp [hc]) hf hoff
  | @stopPost x hc hw =>
    obtain ⟨y, hy⟩ := hwake.stop (by rw [hc]; rfl) (by simp [hc]) (by simp [hc]) (by simp [hc]) hf
      fun y => (ctx_setPend v x _ y).symm.trans (hoff y)
    refine ⟨y, ?_⟩
    change ((v.setPart x _).part y).tail.isStop = true
    rw [tail_setPend]
    exact hy
  | stopReturn hc _ => cases hs

theorem moves_waking (h : v.Inv c) (hwake : v.Waking c) (hm : Moves c v v') : v'.Waking c :=
  ⟨moves_wake_start h hwake hm, moves_wake_stop h hwake hm⟩

end View

/-- A starter or a finisher. -/
def Action.life : Action → Bool
  | .starter _ | .finisher _ => true
  | _ => false

/-- The worker is in a starter or a finisher. -/
def WorkerPc.life : WorkerPc → Bool
  | .starterCreate _ | .starterReady _ | .starterPost | .startLoad _ _ | .startStore _ | .startSend _
  | .finisherCas _ | .finisherDestroy _ | .stopLoad _ _ | .stopStore _ | .stopSend _ => true
  | _ => false

/-- The most steps a worker takes before its action is over. -/
def WorkerPc.left : WorkerPc → ℕ
  | .idle => 0
  | .startSend _ | .stopSend _ | .rxEnqueue _ | .rxRetry | .txEnqueue _ _ => 1
  | .startStore _ | .stopStore _ | .rxFree _ | .txFree _ _ => 2
  | .startLoad _ .tx | .stopLoad _ .tx | .rxPost _ | .txNotify _ _ _ _ => 3
  | .startLoad _ .rx | .stopLoad _ .rx | .rxCallback _ _ | .txWrite _ _ => 4
  | .starterPost | .finisherDestroy _ | .rxRead _ | .txCheck _ _ => 5
  | .starterReady _ | .finisherCas _ | .rxAdd _ | .txLoad _ _ => 6
  | .starterCreate _ | .rxAlloc => 7
  | .rxLoad => 8

/-- How many actions a queue holds up to its last starter or finisher. -/
def ahead : List Action → ℕ
  | [] => 0
  | a :: queue => if ahead queue = 0 then (if a.life then 1 else 0) else ahead queue + 1

theorem left_entry (a : Action) : a.entry.left < 9 := by
  cases a <;> simp [Action.entry, WorkerPc.left]

theorem life_entry (a : Action) : a.entry.life = a.life := by
  cases a <;> rfl

theorem ahead_append {a : Action} (ha : a.life = false) (queue : List Action) :
    ahead (queue ++ [a]) = ahead queue := by
  induction queue with
  | nil => simp [ahead, ha]
  | cons b queue ih => simp only [List.cons_append, ahead, ih]

theorem ahead_pos {a : Action} {queue : List Action} (hmem : a ∈ queue) (ha : a.life = true) :
    0 < ahead queue := by
  induction queue with
  | nil => cases hmem
  | cons b queue ih =>
    unfold ahead
    split
    · rename_i h0
      rcases List.mem_cons.1 hmem with rfl | hmem
      · simp [ha]
      · have := ih hmem
        omega
    · omega

namespace Stream

variable {c : Config} {s s' : Stream} {w n : ℕ} {x : Side} {ok : Stream → Act → Prop}

/-- **The steps worker `w` takes at most** until its starters and finishers are over. -/
def todo (s : Stream) (w : ℕ) : ℕ :=
  if (s.pc w).life = true ∨ 0 < ahead (s.queue w) then (s.pc w).left + 9 * ahead (s.queue w) else 0

theorem ahead_post {a : Action} (ha : a.life = false) (w : ℕ) :
    ahead ((s.post c x a).queue w) = ahead (s.queue w) := by
  unfold post
  split
  · rename_i w' _
    by_cases hw : w = w'
    · subst hw
      simp only [Function.update_self]
      exact ahead_append ha _
    · simp only [Function.update_of_ne hw]
  · rfl

/-- A step of somebody else than the controller, beside what it does to a worker. -/
structure Beside (s s' : Stream) : Prop where
  control : s'.control = s.control
  started : s.startedFlag = true → s'.startedFlag = true
  stopped : s.stoppedFlag = true → s'.stoppedFlag = true
  ahead : ∀ w, ahead (s'.queue w) = ahead (s.queue w)

theorem Beside.refl (s : Stream) : Beside s s := ⟨rfl, id, id, fun _ => rfl⟩

/-- Worker `w` goes on inside its action. -/
structure GoesOn (s s' : Stream) (w : ℕ) (p p' : WorkerPc) : Prop where
  beside : Beside s s'
  pc : s'.pc = Function.update s.pc w p'
  left : p'.left < p.left
  life : p'.life = true → p.life = true

section Setters

variable {s₁ : Stream}

theorem Beside.record (h : Beside s s₁) (e : Event) : Beside s (s₁.record e) :=
  ⟨h.control, h.started, h.stopped, h.ahead⟩

theorem Beside.setPool (h : Beside s s₁) (p : Blocks.Store) : Beside s (s₁.setPool x p) :=
  ⟨h.control, h.started, h.stopped, h.ahead⟩

theorem Beside.moveToken (h : Beside s s₁) (k : ℕ) (pc : TokenPc) : Beside s (s₁.moveToken k pc) :=
  ⟨h.control, h.started, h.stopped, h.ahead⟩

/-- A step that sets the worker's place last. -/
theorem GoesOn.setPc {p p' : WorkerPc} (h : Beside s s₁) (hpc : s₁.pc = s.pc) (hleft : p'.left < p.left)
    (hlife : p'.life = true → p.life = true) : GoesOn s (s₁.setPc w p') w p p' :=
  ⟨⟨h.control, h.started, h.stopped, h.ahead⟩, by rw [← hpc]; rfl, hleft, hlife⟩

end Setters

theorem GoesOn.post {p p' : WorkerPc} {a : Action} (ha : a.life = false) (hleft : p'.left < p.left)
    (hlife : p'.life = true → p.life = true) : GoesOn s ((s.post c x a).setPc w p') w p p' := by
  refine ⟨⟨?_, ?_, ?_, fun w => ahead_post ha w⟩, ?_, hleft, hlife⟩
  all_goals rw [post_eq]
  · rfl
  · exact id
  · exact id
  · rfl

theorem lifeStep_goesOn {p : WorkerPc} (hs : s.lifeStep c w p = some s') : ∃ p', GoesOn s s' w p p' := by
  cases p with
  | starterReady x =>
    cases x with
    | rx =>
      obtain rfl := Option.some.inj hs
      exact ⟨_, ⟨rfl, id, id, fun _ => rfl⟩, rfl, by simp [WorkerPc.left], fun _ => rfl⟩
    | tx =>
      obtain rfl := Option.some.inj hs
      exact ⟨_, ⟨rfl, id, id, fun _ => rfl⟩, rfl, by simp [WorkerPc.left], fun _ => rfl⟩
  | starterPost =>
    obtain rfl := Option.some.inj hs
    exact ⟨_, .post rfl (by simp [WorkerPc.left]) fun _ => rfl⟩
  | startLoad x y =>
    simp only [lifeStep] at hs
    split at hs
    all_goals
      obtain rfl := Option.some.inj hs
      refine ⟨_, ⟨rfl, id, id, fun _ => rfl⟩, rfl, ?_, fun _ => rfl⟩
      cases y <;> simp [WorkerPc.left]
  | finisherCas x =>
    simp only [lifeStep] at hs
    split at hs
    all_goals
      obtain rfl := Option.some.inj hs
      exact ⟨_, ⟨rfl, id, id, fun _ => rfl⟩, rfl, by simp [WorkerPc.left], fun _ => rfl⟩
  | stopLoad x y =>
    simp only [lifeStep] at hs
    split at hs
    all_goals
      obtain rfl := Option.some.inj hs
      refine ⟨_, ⟨rfl, id, id, fun _ => rfl⟩, rfl, ?_, fun _ => rfl⟩
      cases y <;> simp [WorkerPc.left]
  | starterCreate | startStore | finisherDestroy | stopStore =>
    obtain rfl := Option.some.inj hs
    exact ⟨_, ⟨rfl, id, id, fun _ => rfl⟩, rfl, by simp [WorkerPc.left], fun _ => rfl⟩
  | startSend =>
    obtain rfl := Option.some.inj hs
    exact ⟨_, ⟨rfl, fun _ => rfl, id, fun _ => rfl⟩, rfl, by simp [WorkerPc.left], fun _ => rfl⟩
  | stopSend =>
    obtain rfl := Option.some.inj hs
    exact ⟨_, ⟨rfl, id, fun _ => rfl, fun _ => rfl⟩, rfl, by simp [WorkerPc.left], fun _ => rfl⟩
  | _ => cases hs

theorem rxStep_goesOn {p : WorkerPc} (hs : s.rxStep c w n p = some s') :
    Beside s s' ∧ s'.tripped = true ∨ ∃ p', GoesOn s s' w p p' := by
  cases p with
  | rxLoad =>
    obtain rfl := Option.some.inj hs
    split
    all_goals exact .inr ⟨_, ⟨rfl, id, id, fun _ => rfl⟩, rfl, by simp [WorkerPc.left], by simp [WorkerPc.life]⟩
  | rxAlloc =>
    simp only [rxStep] at hs
    split at hs
    all_goals
      obtain rfl := Option.some.inj hs
      exact .inr ⟨_, ⟨rfl, id, id, fun _ => rfl⟩, rfl, by simp [WorkerPc.left], by simp [WorkerPc.life]⟩
  | rxRead b =>
    simp only [rxStep] at hs
    split at hs
    all_goals
      obtain rfl := Option.some.inj hs
      exact .inr ⟨_, ⟨rfl, id, id, fun _ => rfl⟩, rfl, by simp [WorkerPc.left], by simp [WorkerPc.life]⟩
  | rxPost | rxRetry =>
    obtain rfl := Option.some.inj hs
    exact .inr ⟨_, .post rfl (by simp [WorkerPc.left]) (by simp [WorkerPc.life])⟩
  | rxFree b =>
    obtain rfl := Option.some.inj hs
    refine freeStep_cases (P := fun s' => Beside s s' ∧ s'.tripped = true ∨ ∃ p', GoesOn s s' w _ p') ?_ ?_ ?_
    · -- the assertion of `pool_free` ends the run; otherwise the worker goes on
      exact .inl ⟨⟨rfl, id, id, fun _ => rfl⟩, rfl⟩
    all_goals
      have hback := ((Beside.refl s).record (.rxBack b)).setPool (x := .rx)
      exact .inr ⟨_, .setPc (hback _) rfl (by simp [WorkerPc.left]) (by simp [WorkerPc.life])⟩
  | rxAdd | rxCallback | rxEnqueue =>
    obtain rfl := Option.some.inj hs
    exact .inr ⟨_, ⟨rfl, id, id, fun _ => rfl⟩, rfl, by simp [WorkerPc.left], by simp [WorkerPc.life]⟩
  | _ => cases hs

theorem txStep_goesOn {p : WorkerPc} (hs : s.txStep w n p = some s') :
    Beside s s' ∧ s'.tripped = true ∨ ∃ p', GoesOn s s' w p p' := by
  cases p with
  | txLoad b k | txCheck b k =>
    obtain rfl := Option.some.inj hs
    split
    all_goals exact .inr ⟨_, ⟨rfl, id, id, fun _ => rfl⟩, rfl, by simp [WorkerPc.left], by simp [WorkerPc.life]⟩
  | txNotify b k status m =>
    obtain rfl := Option.some.inj hs
    unfold notify
    split
    all_goals exact .inr ⟨_, ⟨rfl, id, id, fun _ => rfl⟩, rfl, by simp [WorkerPc.left], by simp [WorkerPc.life]⟩
  | txFree b k =>
    obtain rfl := Option.some.inj hs
    refine freeStep_cases (P := fun s' => Beside s s' ∧ s'.tripped = true ∨ ∃ p', GoesOn s s' w _ p') ?_ ?_ ?_
    · exact .inl ⟨⟨rfl, id, id, fun _ => rfl⟩, rfl⟩
    all_goals
      have hback := ((Beside.refl s).setPool (x := .tx) ((s.pool .tx).fetchSub b)).moveToken k
      exact .inr ⟨_, .setPc (hback _) rfl (by simp [WorkerPc.left]) (by simp [WorkerPc.life])⟩
  | txWrite | txEnqueue =>
    obtain rfl := Option.some.inj hs
    exact .inr ⟨_, ⟨rfl, id, id, fun _ => rfl⟩, rfl, by simp [WorkerPc.left], by simp [WorkerPc.life]⟩
  | _ => cases hs

/-- The threads: the controller, and the workers by number. -/
def ready (c : Config) : Option ℕ → Stream → Prop
  | none, s => (s.controlStep c).isSome
  | some w, s => s.pc w ≠ .idle ∨ s.queue w ≠ []

def takes : Option ℕ → Act → Prop
  | none, a => a = .control
  | some w, a => ∃ n, a = .work w n

/-- **A step of somebody else than the controller**: a worker that has starters or finishers comes
nearer to their end. -/
structure Eases (s s' : Stream) (a : Act) : Prop where
  control : s'.control = s.control
  started : s.startedFlag = true → s'.startedFlag = true
  stopped : s.stoppedFlag = true → s'.stoppedFlag = true
  todo : s'.tripped = false → ∀ w,
    s'.todo w < s.todo w ∨ s'.todo w = s.todo w ∧ (0 < s.todo w → ¬ takes (some w) a)

theorem Beside.todo (h : Beside s s') (hpc : s'.pc w = s.pc w) : s'.todo w = s.todo w := by
  unfold Stream.todo
  rw [hpc, h.ahead]

theorem Beside.eases {a : Act} (h : Beside s s') (hpc : s'.pc = s.pc) (ha : ∀ w n, a ≠ .work w n) :
    Eases s s' a :=
  ⟨h.control, h.started, h.stopped, fun _ w => .inr ⟨h.todo (congrFun hpc w), fun _ ⟨n, hn⟩ => ha w n hn⟩⟩

theorem GoesOn.eases {p p' : WorkerPc} (h : GoesOn s s' w p p') (hpc : s.pc w = p) :
    Eases s s' (.work w n) := by
  refine ⟨h.beside.control, h.beside.started, h.beside.stopped, ?_⟩
  intro _ w'
  by_cases hw : w' = w
  · subst hw
    have hpc' : s'.pc w' = p' := by rw [h.pc, Function.update_self]
    unfold Stream.todo
    rw [hpc', hpc, h.beside.ahead]
    have hleft := h.left
    have hlife := h.life
    by_cases hp : p.life = true ∨ 0 < ahead (s.queue w')
    · left
      rw [if_pos hp]
      split_ifs <;> omega
    · right
      have hp' : ¬ (p'.life = true ∨ 0 < ahead (s.queue w')) := fun hor => hp (hor.imp_left hlife)
      rw [if_neg hp, if_neg hp']
      exact ⟨rfl, fun h0 => absurd h0 (lt_irrefl 0)⟩
  · refine .inr ⟨h.beside.todo ?_, ?_⟩
    · rw [h.pc, Function.update_of_ne hw]
    · rintro - ⟨m, hm⟩
      cases hm
      exact hw rfl

/-- A worker takes its next action. -/
theorem dequeue_eases {a : Action} {rest : List Action} (hpc : s.pc w = .idle) (hq : s.queue w = a :: rest) :
    Eases s { s.setPc w a.entry with queue := Function.update s.queue w rest } (.work w n) := by
  refine ⟨rfl, id, id, ?_⟩
  intro _ w'
  by_cases hw : w' = w
  · subst hw
    unfold todo
    simp only [pc_setPc, Function.update_self, hpc, hq, life_entry]
    have hleft := left_entry a
    have hidle : WorkerPc.left .idle = 0 := rfl
    by_cases h0 : ahead rest = 0
    · by_cases ha : a.life = true
      · simp only [ahead, h0, ha, hidle]
        simp
        omega
      · simp [ahead, h0, ha, WorkerPc.life]
    · left
      have hpos : 0 < ahead rest := Nat.pos_of_ne_zero h0
      simp [ahead, h0, hpos, hidle]
      omega
  · refine .inr ⟨?_, ?_⟩
    · unfold todo
      simp [Function.update_of_ne hw, setPc]
    · rintro - ⟨m, hm⟩
      cases hm
      exact hw rfl

/-- A failed assertion ends the run. -/
theorem Beside.eases_of_tripped {a : Act} (h : Beside s s') (ht : s'.tripped = true) : Eases s s' a :=
  ⟨h.control, h.started, h.stopped, fun hf => by rw [ht] at hf; cases hf⟩

theorem workStep_eases (hs : s.workStep c w n = some s') : Eases s s' (.work w n) := by
  by_cases hidle : s.pc w = .idle
  · obtain ⟨a, rest, hq, rfl⟩ := workStep_idle hidle hs
    exact dequeue_eases hidle hq
  · rcases workStep_cases rfl hidle hs with h | h | h
    · obtain ⟨p', hp'⟩ := lifeStep_goesOn h
      exact hp'.eases rfl
    · rcases rxStep_goesOn h with ⟨hb, ht⟩ | ⟨p', hp'⟩
      · exact hb.eases_of_tripped ht
      · exact hp'.eases rfl
    · rcases txStep_goesOn h with ⟨hb, ht⟩ | ⟨p', hp'⟩
      · exact hb.eases_of_tripped ht
      · exact hp'.eases rfl

theorem tokenStep_beside {k : ℕ} {t : Token} (hs : s.tokenStep c k t = some s') :
    Beside s s' ∧ s'.pc = s.pc := by
  unfold tokenStep at hs
  split at hs
  -- the post of a send: the queue of the worker gets longer behind what was there
  case h_5 b _ =>
    obtain rfl := Option.some.inj hs
    have heq := post_eq (c := c) s .tx (.txF b k)
    refine ⟨⟨?_, ?_, ?_, fun w => ahead_post (a := .txF b k) rfl w⟩, ?_⟩
    all_goals simp only [setToken]
    all_goals rw [heq]
    · exact id
    · exact id
  case h_6 b _ =>
    obtain rfl := Option.some.inj hs
    refine freeStep_cases (P := fun s' => Beside s s' ∧ s'.pc = s.pc) ?_ ?_ ?_
    all_goals exact ⟨⟨rfl, id, id, fun _ => rfl⟩, rfl⟩
  case h_1 | h_3 =>
    split at hs
    all_goals
      obtain rfl := Option.some.inj hs
      exact ⟨⟨rfl, id, id, fun _ => rfl⟩, rfl⟩
  case h_8 => cases hs
  all_goals
    obtain rfl := Option.some.inj hs
    exact ⟨⟨rfl, id, id, fun _ => rfl⟩, rfl⟩

/-- **What everybody but the controller does** to the waits. -/
theorem step_eases {a : Act} (ha : a ≠ .control) (hs : s.step c a = some s') : Eases s s' a := by
  unfold step at hs
  split at hs
  · cases hs
  cases a with
  | control => exact absurd rfl ha
  | work w n => exact workStep_eases hs
  | allocate =>
    dsimp only at hs
    split at hs
    all_goals
      obtain rfl := Option.some.inj hs
      exact Beside.eases ⟨rfl, id, id, fun _ => rfl⟩ rfl (by simp)
  | token k =>
    obtain ⟨t, -, ht⟩ := Option.bind_eq_some_iff.1 hs
    obtain ⟨h, hpc⟩ := tokenStep_beside ht
    exact h.eases hpc (by simp)
  | fill k payload =>
    obtain ⟨t, b, -, -, rfl⟩ := holdStep_cases hs
    exact Beside.eases ⟨rfl, id, id, fun _ => rfl⟩ rfl (by simp)
  | send k size fn priv =>
    obtain ⟨t, b, -, -, rfl⟩ := holdStep_cases hs
    split
    all_goals exact Beside.eases ⟨rfl, id, id, fun _ => rfl⟩ rfl (by simp)
  | release k =>
    obtain ⟨t, b, -, -, rfl⟩ := holdStep_cases hs
    exact Beside.eases ⟨rfl, id, id, fun _ => rfl⟩ rfl (by simp)
  | releaseRx b =>
    dsimp only at hs
    split at hs
    · obtain rfl := Option.some.inj hs
      refine freeStep_cases (P := fun s' => Eases s s' _) ?_ ?_ ?_
      all_goals exact Beside.eases ⟨rfl, id, id, fun _ => rfl⟩ rfl (by simp)
    · cases hs
  | enqueueRx b =>
    dsimp only at hs
    split at hs
    · obtain rfl := Option.some.inj hs
      exact Beside.eases ⟨rfl, id, id, fun _ => rfl⟩ rfl (by simp)
    · cases hs
  | setError e =>
    obtain rfl := Option.some.inj hs
    exact Beside.eases ⟨rfl, id, id, fun _ => rfl⟩ rfl (by simp)

end Stream

/-- The controller is inside `asyncio_start` (`true`) or `asyncio_stop` (`false`). -/
def Control.inside (b : Bool) (control : Control) : Prop :=
  control.starting = b ∧ control ≠ .down ∧ control ≠ .up

/-- Where the controller is when the call has returned. -/
def Control.returned : Bool → Control
  | true => .up
  | false => .down

/-- How many steps the controller is from its wait. -/
def Control.rank : Control → ℕ
  | .down | .up | .startWait | .stopWait => 0
  | .startUnstop | .stopPost .tx => 1
  | .startPost .tx | .stopCas .tx => 2
  | .startSet .tx | .stopPost .rx => 3
  | .startPost .rx | .stopCas .rx => 4
  | .startSet .rx | .stopMark => 5
  | .startClear | .stopClear => 6
  | .stopCheck => 7

namespace Stream

variable {c : Config} {s s' : Stream} {w n : ℕ} {x : Side} {ok : Stream → Act → Prop} {b : Bool}

/-- The controller waits for a flag. -/
def Blocked (s : Stream) : Prop :=
  s.control = .startWait ∧ s.startedFlag = false ∨ s.control = .stopWait ∧ s.stoppedFlag = false

instance (s : Stream) : Decidable s.Blocked := inferInstanceAs (Decidable (_ ∨ _))

/-- A step of the controller inside a call comes nearer to its wait, or ends the call. -/
theorem controlStep_rank (hin : s.control.inside b) (hs : s.controlStep c = some s') (htrip : s'.tripped = false) :
    s'.control = .returned b ∨ s'.control.inside b ∧ s'.control.rank < s.control.rank := by
  obtain ⟨hb, hd, hu⟩ := hin
  unfold controlStep at hs
  cases hc : s.control with
  | down => exact absurd hc hd
  | up => exact absurd hc hu
  | startSet x =>
    simp only [hc, Control.starting] at hs hb
    subst hb
    split at hs
    all_goals
      obtain rfl := Option.some.inj hs
      cases x <;> exact .inr ⟨⟨rfl, by simp [afterStart], by simp [afterStart]⟩, by simp [Control.rank, afterStart]⟩
  | startPost x =>
    simp only [hc, Control.starting] at hs hb
    subst hb
    obtain rfl := Option.some.inj hs
    cases x <;> exact .inr ⟨⟨rfl, by simp [afterStart], by simp [afterStart]⟩, by simp [Control.rank, afterStart]⟩
  | startClear | startUnstop =>
    simp only [hc, Control.starting] at hs hb
    subst hb
    obtain rfl := Option.some.inj hs
    exact .inr ⟨⟨rfl, by simp, by simp⟩, by simp [Control.rank]⟩
  | startWait =>
    simp only [hc, Control.starting] at hs hb
    subst hb
    split at hs
    · obtain rfl := Option.some.inj hs
      exact .inl rfl
    · cases hs
  | stopCheck =>
    simp only [hc, Control.starting] at hs hb
    subst hb
    obtain rfl := Option.some.inj hs
    dsimp only
    split
    · exact .inl rfl
    · exact .inr ⟨⟨rfl, by simp, by simp⟩, by simp [Control.rank]⟩
  | stopClear | stopMark =>
    simp only [hc, Control.starting] at hs hb
    subst hb
    obtain rfl := Option.some.inj hs
    exact .inr ⟨⟨rfl, by simp, by simp⟩, by simp [Control.rank]⟩
  | stopCas x =>
    simp only [hc, Control.starting] at hs hb
    subst hb
    split at hs
    · obtain rfl := Option.some.inj hs
      cases x <;> exact .inr ⟨⟨rfl, by simp, by simp⟩, by simp [Control.rank]⟩
    · obtain rfl := Option.some.inj hs
      cases htrip
    · obtain rfl := Option.some.inj hs
      cases x <;> exact .inr ⟨⟨rfl, by simp [afterStop], by simp [afterStop]⟩, by simp [Control.rank, afterStop]⟩
  | stopPost x =>
    simp only [hc, Control.starting] at hs hb
    subst hb
    obtain rfl := Option.some.inj hs
    cases x <;> exact .inr ⟨⟨rfl, by simp [afterStop], by simp [afterStop]⟩, by simp [Control.rank, afterStop]⟩
  | stopWait =>
    simp only [hc, Control.starting] at hs hb
    subst hb
    split at hs
    · obtain rfl := Option.some.inj hs
      exact .inl rfl
    · cases hs

theorem controlStep_isSome (hb : ¬ s.Blocked) : (s.controlStep c).isSome := by
  unfold controlStep
  unfold Blocked at hb
  cases hc : s.control with
  | startWait | stopWait =>
    simp only [hc] at hb ⊢
    split
    · rfl
    · simp_all
  | _ =>
    dsimp only
    first | rfl | (split <;> rfl)

theorem todo_pos (h : (s.pc w).life = true ∨ ∃ a ∈ s.queue w, a.life = true) : 0 < s.todo w := by
  unfold todo
  rcases h with h | ⟨a, ha, hlife⟩
  · rw [if_pos (.inl h)]
    have : 0 < (s.pc w).left := by
      cases hpc : s.pc w with
      | startLoad x y | stopLoad x y => cases y <;> simp [WorkerPc.left]
      | idle => rw [hpc] at h; cases h
      | _ => simp [WorkerPc.left]
    omega
  · have hpos := ahead_pos ha hlife
    rw [if_pos (.inr hpos)]
    omega

/-- A pending starter or finisher is in its worker. -/
theorem todo_of_pend {k : Kind} (hx : c.worker x = some w) (hk : k ∈ (s.partOf c x).pend)
    (hread : k ≠ .read) (hreading : k ≠ .reading) : 0 < s.todo w := by
  rw [partOf_of_worker hx] at hk
  refine todo_pos ?_
  simp only [pendOf, List.mem_append] at hk
  rcases hk with hk | hk
  · split at hk
    · left
      cases hpc : s.pc w <;> simp_all [WorkerPc.kind, WorkerPc.life]
    · cases hk
  · right
    simp only [restOf, List.mem_filterMap, List.mem_filter] at hk
    obtain ⟨a, ⟨ha, -⟩, hkind⟩ := hk
    refine ⟨a, ha, ?_⟩
    cases a <;> simp_all [Action.kind, Action.life]

theorem todo_of_tail (hx : c.worker x = some w) (ht : (s.partOf c x).tail ≠ .none) : 0 < s.todo w := by
  rw [partOf_of_worker hx] at ht
  refine todo_pos (.inl ?_)
  simp only [tailOf] at ht
  split at ht
  · cases hpc : s.pc w <;> simp_all [WorkerPc.tail, WorkerPc.life]
  · exact absurd rfl ht

/-- **Who a wait waits for.** -/
theorem blocked_todo (h : Cycled c s) (hwake : (s.view c).Waking c) (hb : s.Blocked) :
    ∃ x w, c.worker x = some w ∧ 0 < s.todo w := by
  have hp := h.inv.parts
  have hused : ∀ x, (s.view c).part x ≠ ⟨.uninitialized, [], .none, false⟩ → ∃ w, c.worker x = some w := by
    intro x hne
    cases hw : c.worker x with
    | none => exact absurd (hp.unused x hw) hne
    | some w => exact ⟨w, rfl⟩
  rcases hb with ⟨hc, hf⟩ | ⟨hc, hf⟩
  · have hc' : (s.view c).control = .startWait := hc
    by_cases hon : (s.view c).AllOn c
    · obtain ⟨x, hx⟩ := hwake.start (by rw [hc']; rfl) (by simp [hc']) (by simp [hc']) hf hon
      obtain ⟨w, hw⟩ := hused x (by intro he; rw [he] at hx; rcases hx with hx | hx <;> cases hx)
      refine ⟨x, w, hw, ?_⟩
      rcases hx with hx | hx
      · exact todo_of_pend hw hx (by simp) (by simp)
      · exact todo_of_tail hw fun he => by
          rw [show ((s.view c).part x).tail = .none from he] at hx
          cases hx
    · unfold View.AllOn at hon
      push Not at hon
      obtain ⟨x, hx, hne⟩ := hon
      obtain ⟨w, hw⟩ := Option.isSome_iff_exists.1 hx
      have hpart := hp.used x hx
      have hst : ((s.view c).part x).ctx = .initializing := by
        have hctx := hpart.ctx
        rw [hc'] at hctx
        exact (hctx : _ ∨ _).resolve_right hne
      have hpend := hpart.pend
      rw [hst, hc', show Control.startWait.about x = false by cases x <;> rfl] at hpend
      have hmem : .start ∈ ((s.view c).part x).pend ∨ .made ∈ ((s.view c).part x).pend := by
        generalize ((s.view c).part x).pend = l at hpend ⊢
        cases hpend <;> simp
      refine ⟨x, w, hw, ?_⟩
      rcases hmem with hmem | hmem
      · exact todo_of_pend hw hmem (by simp) (by simp)
      · exact todo_of_pend hw hmem (by simp) (by simp)
  · have hc' : (s.view c).control = .stopWait := hc
    by_cases hoff : (s.view c).AllOff
    · obtain ⟨x, hx⟩ := hwake.stop (by rw [hc']; rfl) (by simp [hc']) (by simp [hc']) (by simp [hc']) hf hoff
      obtain ⟨w, hw⟩ := hused x (by intro he; rw [he] at hx; cases hx)
      refine ⟨x, w, hw, todo_of_tail hw fun he => ?_⟩
      rw [show ((s.view c).part x).tail = .none from he] at hx
      cases hx
    · unfold View.AllOff at hoff
      push Not at hoff
      obtain ⟨x, hne⟩ := hoff
      obtain ⟨w, hw⟩ := hused x (by intro he; rw [he] at hne; exact hne rfl)
      have hpart := hp.used x (by rw [hw]; rfl)
      have hst : ((s.view c).part x).ctx = .uninitializing := by
        have hctx := hpart.ctx
        rw [hc'] at hctx
        exact (hctx : _ ∨ _).resolve_right hne
      have hpend := hpart.pend
      rw [hst, hc', show Control.stopWait.about x = false by cases x <;> rfl] at hpend
      have hmem : .finish ∈ ((s.view c).part x).pend := by
        generalize ((s.view c).part x).pend = l at hpend ⊢
        cases hpend <;> simp
      exact ⟨x, w, hw, todo_of_pend hw hmem (by simp) (by simp)⟩

theorem reach_waking (h : Sys.Reach (system c) ok s) : (s.view c).Waking c := by
  induction h with
  | init h0 =>
    cases h0
    exact ⟨fun _ hd => absurd rfl hd, nofun⟩
  | step hr _ hs ih =>
    have hcyc := reach_cycled hr
    rcases step_view hcyc.placed hcyc.inv.parts.posts hs with heq | hm
    · rw [heq]
      exact ih
    · exact View.moves_waking hcyc.inv ih hm

/-- What is left to do in the worker of a side. -/
def sideTodo (c : Config) (s : Stream) (x : Side) : ℕ :=
  match c.worker x with
  | some w => s.todo w
  | none => 0

/-- The variant of a call: how far the controller is from its wait, then what the wait waits for. -/
def variant (c : Config) (s : Stream) : ℕ ×ₗ ℕ :=
  toLex (s.control.rank, if s.Blocked then 1 + (s.sideTodo c .rx + s.sideTodo c .tx) else 0)

/-- Who helps a call to return. -/
def Helps (c : Config) : Option ℕ → Stream → Prop
  | none, s => ¬ s.Blocked
  | some w, s => s.Blocked ∧ 0 < s.todo w ∧ ∃ x, c.worker x = some w

theorem Eases.blocked {a : Act} (h : Eases s s' a) (hb : s'.Blocked) : s.Blocked := by
  unfold Blocked at hb ⊢
  rw [h.control] at hb
  refine hb.imp (And.imp_right fun hf => ?_) (And.imp_right fun hf => ?_)
  · exact Bool.eq_false_iff.2 fun ht => by rw [h.started ht] at hf; cases hf
  · exact Bool.eq_false_iff.2 fun ht => by rw [h.stopped ht] at hf; cases hf

theorem Eases.sideTodo {a : Act} (h : Eases s s' a) (ht : s'.tripped = false) (x : Side) :
    s'.sideTodo c x ≤ s.sideTodo c x := by
  unfold Stream.sideTodo
  split
  · rename_i w _
    rcases h.todo ht w with hlt | ⟨heq, -⟩
    · exact hlt.le
    · exact heq.le
  · exact le_refl 0

/-- A step that is not the controller's decreases the variant, or leaves it and all helpers. -/
theorem Eases.variant {a : Act} (h : Eases s s' a) (ha : a ≠ .control) (ht : s'.tripped = false) :
    s'.variant c < s.variant c ∨ s'.variant c ≤ s.variant c ∧
      ∀ p, Helps c p s → ¬ takes p a ∧ Helps c p s' := by
  have hrx := h.sideTodo (c := c) ht .rx
  have htx := h.sideTodo (c := c) ht .tx
  by_cases hb : s.Blocked
  · by_cases hb' : s'.Blocked
    · by_cases hlt : s'.sideTodo c .rx < s.sideTodo c .rx ∨ s'.sideTodo c .tx < s.sideTodo c .tx
      · left
        rw [Stream.variant, Stream.variant, h.control, if_pos hb, if_pos hb']
        exact Prod.Lex.right _ (by omega)
      · right
        refine ⟨?_, ?_⟩
        · rw [Stream.variant, Stream.variant, h.control, if_pos hb, if_pos hb', Prod.Lex.le_iff]
          exact .inr ⟨rfl, by simp only [ofLex_toLex]; omega⟩
        · rintro (_ | w) hp
          · exact absurd hb hp
          obtain ⟨-, hpos, x, hx⟩ := hp
          rcases h.todo ht w with hlt' | ⟨heq, hno⟩
          · -- its side's part of the variant would have decreased
            refine absurd ?_ hlt
            have : s'.sideTodo c x < s.sideTodo c x := by
              unfold Stream.sideTodo
              rw [hx]
              exact hlt'
            cases x
            · exact .inl this
            · exact .inr this
          · exact ⟨hno hpos, hb', heq ▸ hpos, x, hx⟩
    · left
      rw [Stream.variant, Stream.variant, h.control, if_pos hb, if_neg hb']
      exact Prod.Lex.right _ (by omega)
  · have hb' : ¬ s'.Blocked := fun hb' => hb (h.blocked hb')
    right
    refine ⟨?_, ?_⟩
    · rw [Stream.variant, Stream.variant, h.control, if_neg hb, if_neg hb']
    · rintro (_ | w) hp
      · exact ⟨ha, hb'⟩
      · exact absurd hp.1 hb

/-- **In a fair run every `asyncio_start` and every `asyncio_stop` returns.** -/
theorem call_returns (r : Sys.Run (system c) ok) (hfair : r.Fair (ready c) takes) {t : ℕ}
    (hin : (r.state t).control.inside b) : ∃ t' ≥ t, (r.state t').control = .returned b := by
  refine r.eventually (fun s => s.control.inside b) (fun s => s.control = .returned b) (variant c) (Helps c)
    hfair ?_ ?_ ?_ hin
  · intro t _
    by_cases hb : (r.state t).Blocked
    · obtain ⟨x, w, hx, hpos⟩ := blocked_todo (reach_cycled (r.reach t)) (reach_waking (r.reach t)) hb
      exact ⟨some w, hb, hpos, x, hx⟩
    · exact ⟨none, hb⟩
  · rintro t (_ | w) _ hp
    · exact controlStep_isSome hp
    · by_contra hno
      obtain ⟨hpc, hq⟩ := not_or.1 hno
      have hpos := hp.2.1
      unfold todo at hpos
      rw [not_not.1 hpc, not_not.1 hq] at hpos
      simp [WorkerPc.life, ahead] at hpos
  · intro t hin
    have hs : (r.state t).step c (r.act t) = some (r.state (t + 1)) := r.step t
    have htrip : ∀ t, (r.state t).tripped = false := by
      intro t
      have hs : (r.state t).step c (r.act t) = some (r.state (t + 1)) := r.step t
      unfold step at hs
      split at hs
      · cases hs
      · rename_i hne
        exact Bool.eq_false_iff.2 hne
    by_cases ha : r.act t = .control
    · unfold step at hs
      rw [if_neg (by simp [htrip t]), ha] at hs
      rcases controlStep_rank hin hs (htrip _) with hret | ⟨hin', hlt⟩
      · exact .inl hret
      · exact .inr ⟨hin', .inl (Prod.Lex.left _ _ hlt)⟩
    · have h := step_eases ha hs
      exact .inr ⟨by rw [h.control]; exact hin, h.variant ha (htrip _)⟩

end Stream

end Cutils.Asyncio
