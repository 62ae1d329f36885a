import Cutils.Proof.AsyncioView

/-!
# The invariant of the start and stop protocol

A side's pending actions, its context and the controller go through the rows of `PendOK` together.
What a starter leaves to do after its effect keeps its side started until it is done, because the
side's finisher waits behind it (`PartInv.start`), and the other way round (`PartInv.stop`); so what
a starter's check has seen is still so as long as the controller is in the start (`Started`), and what
a finisher's has seen as long as it is in the stop (`Stopped`).

* `moves_inv`: every move of the protocol keeps the invariant.
* `reach_cycled`: it holds in every run of a stream.
-/

namespace Cutils.Asyncio

/-- The controller is in a start, or before one. -/
def Control.starting : Control → Bool
  | .down | .startClear | .startSet _ | .startPost _ | .startUnstop | .startWait => true
  | _ => false

/-- The controller is about to post to side `x`. -/
def Control.about (x : Side) : Control → Bool
  | .startPost y | .stopPost y => x == y
  | _ => false

/-- The controller has posted to side `x` in this start or stop. -/
def Control.posted (x : Side) : Control → Bool
  | .startSet .tx | .startPost .tx | .stopCas .tx | .stopPost .tx => x == .rx
  | .startUnstop | .startWait | .stopWait => true
  | _ => false

/-- The context of a side, by where the controller is. -/
def CtxOK (control : Control) (x : Side) (st : InitState) : Prop :=
  if control.starting then
    if control.posted x then st = .initializing ∨ st = .initialized
    else if control.about x then st = .initializing
    else st = .uninitialized
  else
    if control.posted x then st = .uninitializing ∨ st = .uninitialized
    else if control.about x then st = .uninitializing
    else st = .initialized

/-- **The pending actions of a side**, by its context; `true`: the controller has stored the context
and is about to post. -/
inductive PendOK : Side → Bool → InitState → List Kind → Prop
  | off (x : Side) (b : Bool) : PendOK x b .uninitialized []
  | offRead (b : Bool) : PendOK .rx b .uninitialized [.read]
  | set (x : Side) : PendOK x true .initializing []
  | setRead : PendOK .rx true .initializing [.read]
  | start (x : Side) : PendOK x false .initializing [.start]
  | made (x : Side) : PendOK x false .initializing [.made]
  | readStart : PendOK .rx false .initializing [.read, .start]
  | onReady (b : Bool) : PendOK .rx b .initialized [.ready]
  | onRead (b : Bool) : PendOK .rx b .initialized [.read]
  | onReading (b : Bool) : PendOK .rx b .initialized [.reading]
  | on (b : Bool) : PendOK .tx b .initialized []
  | unset (x : Side) : PendOK x true .uninitializing []
  | unsetReady : PendOK .rx true .uninitializing [.ready]
  | unsetRead : PendOK .rx true .uninitializing [.read]
  | unsetReading : PendOK .rx true .uninitializing [.reading]
  | finish (x : Side) : PendOK x false .uninitializing [.finish]
  | readyFinish : PendOK .rx false .uninitializing [.ready, .finish]
  | readFinish : PendOK .rx false .uninitializing [.read, .finish]
  | readingFinish : PendOK .rx false .uninitializing [.reading, .finish]
  | finishRead : PendOK .rx false .uninitializing [.finish, .read]

/-- A starter that has had its effect. -/
def Tail.isStart : Tail → Bool
  | .startLoad _ | .startStore | .startSend => true
  | _ => false

/-- A finisher that has had its effect. -/
def Tail.isStop : Tail → Bool
  | .destroy | .stopLoad _ | .stopStore | .stopSend => true
  | _ => false

/-- One side, with a worker. -/
structure PartInv (control : Control) (x : Side) (p : Part) : Prop where
  ctx : CtxOK control x p.ctx
  pend : PendOK x (control.about x) p.ctx p.pend
  start : p.tail.isStart = true → p.ctx.on = true
  stop : p.tail.isStop = true → p.ctx.on = false
  made : p.tail ≠ .none → .made ∉ p.pend
  live : p.live = true ↔ p.ctx.on = true ∨ .made ∈ p.pend ∨ p.tail = .destroy

section Part

variable {c : Config} {ctx : Side → InitState} {control : Control} {x : Side} {p p' : Part} {b : Bool}

/-- A side's own moves go from row to row. -/
theorem PendOK.moves (h : PendOK x b p.ctx p.pend) (hm : PartMoves c ctx x p p') :
    PendOK x b p'.ctx p'.pend := by
  obtain ⟨st, l, t, live⟩ := p
  cases hm <;> simp only at * <;> subst_vars <;> cases h <;> first | contradiction | constructor

theorem PendOK.of_made {l : List Kind} {st : InitState} (h : PendOK x b st (.made :: l)) :
    b = false ∧ st = .initializing ∧ l = [] := by
  cases h
  exact ⟨rfl, rfl, rfl⟩

theorem PendOK.of_finish {l : List Kind} {st : InitState} (h : PendOK x b st (.finish :: l)) :
    b = false ∧ st = .uninitializing ∧ .made ∉ l := by
  cases h
  · exact ⟨rfl, rfl, by simp⟩
  · exact ⟨rfl, rfl, by simp⟩

theorem PendOK.of_ready {l : List Kind} {st : InitState} (h : PendOK x b st (.ready :: l)) :
    st.on = true ∧ .made ∉ l := by
  cases h <;> exact ⟨rfl, by simp⟩

/-- A starter that was posted may store its context. -/
theorem CtxOK.start (h : CtxOK control x .initializing) (hb : control.about x = false) :
    CtxOK control x .initialized := by
  unfold CtxOK at h ⊢
  rw [hb] at h
  split_ifs at h ⊢ <;> simp_all

/-- A finisher that was posted may store its context. -/
theorem CtxOK.stop (h : CtxOK control x .uninitializing) (hb : control.about x = false) :
    CtxOK control x .uninitialized := by
  unfold CtxOK at h ⊢
  rw [hb] at h
  split_ifs at h ⊢ <;> simp_all

/-- A starter or a finisher goes on in its check, or ends it. -/
theorem PartInv.setTail {t : Tail} (h : PartInv control x p)
    (hstart : t.isStart = true → p.tail.isStart = true) (hstop : t.isStop = true → p.tail.isStop = true)
    (hold : p.tail ≠ .none) (hd : p.tail ≠ .destroy) (hd' : t ≠ .destroy) :
    PartInv control x { p with tail := t } := by
  refine ⟨h.ctx, h.pend, fun ht => h.start (hstart ht), fun ht => h.stop (hstop ht), fun _ => h.made hold, ?_⟩
  have hlive := h.live
  simp only [hd, or_false] at hlive
  simpa only [hd', or_false] using hlive

/-- A pending `rx_f` goes on, and no starter. -/
theorem PartInv.setPend {l : List Kind} (h : PartInv control x p)
    (hpend : PendOK x (control.about x) p.ctx l) (ht : p.tail = .none) (hmade : .made ∈ l ↔ .made ∈ p.pend) :
    PartInv control x { p with pend := l } :=
  ⟨h.ctx, hpend, h.start, h.stop, fun hne => absurd ht hne, by simpa only [hmade] using h.live⟩

/-- **A side's own moves** keep its invariant. -/
theorem PartInv.moves (h : PartInv control x p) (hm : PartMoves c ctx x p p') : PartInv control x p' := by
  have hpend := h.pend.moves hm
  have hold := h.pend
  have hlive := h.live
  cases hm with
  | create hl ht =>
    exact ⟨h.ctx, hpend, h.start, h.stop, fun hne => absurd ht hne, by simp⟩
  | readyRx hx hl ht =>
    rw [hl] at hold hlive
    obtain ⟨hb, hst, rfl⟩ := hold.of_made
    refine ⟨(hst ▸ h.ctx).start hb, hpend, fun _ => rfl, ?_, fun hne => absurd ht hne, ?_⟩
    · simp [ht, Tail.isStop]
    · simpa [InitState.on] using hlive
  | readyTx hx hl ht =>
    rw [hl] at hold hlive
    obtain ⟨hb, hst, rfl⟩ := hold.of_made
    refine ⟨(hst ▸ h.ctx).start hb, hpend, fun _ => rfl, by simp [Tail.isStop], fun _ => by simp, ?_⟩
    simpa [InitState.on] using hlive
  | post hx hl ht =>
    rw [hl] at hold
    obtain ⟨hon, hmade⟩ := hold.of_ready
    refine ⟨h.ctx, hpend, fun _ => hon, by simp [Tail.isStop], fun _ => by simp [hmade], ?_⟩
    simpa only [hon, true_or, iff_true] using hlive
  | @startPass y ht hpass =>
    refine h.setTail ?_ ?_ (by simp [ht]) (by simp [ht]) ?_
    all_goals cases y <;> simp [ht, Tail.isStart, Tail.isStop, Tail.startNext]
  | startFail ht hw hfail =>
    exact h.setTail (by simp [Tail.isStart]) (by simp [Tail.isStop]) (by simp [ht]) (by simp [ht]) (by simp)
  | finish hl ht hst =>
    rw [hl] at hold
    obtain ⟨hb, -, hmade⟩ := hold.of_finish
    refine ⟨(hst ▸ h.ctx).stop hb, hpend, by simp [Tail.isStart], fun _ => rfl, fun _ => hmade, ?_⟩
    simpa [hst, InitState.on] using hlive
  | skip hl ht hst =>
    rw [hl] at hold
    exact absurd hold.of_finish.2.1 hst
  | destroy ht =>
    have hon := h.stop (by rw [ht]; rfl)
    have hmade := h.made (by simp [ht])
    refine ⟨h.ctx, hpend, by simp [Tail.isStart], fun _ => hon, fun _ => hmade, ?_⟩
    simp [hon, hmade]
  | @stopPass y ht hpass =>
    refine h.setTail ?_ ?_ (by simp [ht]) (by simp [ht]) ?_
    all_goals cases y <;> simp [ht, Tail.isStart, Tail.isStop, Tail.stopNext]
  | stopFail ht hfail =>
    exact h.setTail (by simp [Tail.isStart]) (by simp [Tail.isStop]) (by simp [ht]) (by simp [ht]) (by simp)
  | load hx hl ht hst => exact h.setPend hpend ht (by simp [hl])
  | die hx hl ht hst => exact h.setPend hpend ht (by simp [hl])
  | repost hx hl ht => exact h.setPend hpend ht (by simp [hl])

/-- The controller goes on, away from side `x`. -/
theorem PartInv.leave {control' : Control} (h : PartInv control x p) (hctx : CtxOK control' x p.ctx)
    (hab : control'.about x = control.about x) : PartInv control' x p :=
  ⟨hctx, by rw [hab]; exact h.pend, h.start, h.stop, h.made, h.live⟩

/-- The controller stores a side's context, before it posts. -/
theorem PartInv.setCtx {control' : Control} {st : InitState} (h : PartInv control x p)
    (hctx : CtxOK control' x st) (hpend : PendOK x (control'.about x) st p.pend) (hon : st.on = p.ctx.on) :
    PartInv control' x { p with ctx := st } := by
  refine ⟨hctx, hpend, ?_, ?_, h.made, ?_⟩
  · rw [hon]; exact h.start
  · rw [hon]; exact h.stop
  · rw [hon]; exact h.live

/-- The controller posts a starter or a finisher. -/
theorem PartInv.append {control' : Control} {k : Kind} (h : PartInv control x p) (hk : k ≠ .made)
    (hctx : CtxOK control' x p.ctx) (hpend : PendOK x (control'.about x) p.ctx (p.pend ++ [k])) :
    PartInv control' x { p with pend := p.pend ++ [k] } := by
  have hmem : .made ∈ p.pend ++ [k] ↔ .made ∈ p.pend := by simp [hk.symm]
  refine ⟨hctx, hpend, h.start, h.stop, fun ht => ?_, ?_⟩
  · rw [hmem]; exact h.made ht
  · rw [hmem]; exact h.live

theorem PendOK.startSet (h : PendOK x b .uninitialized p.pend) : PendOK x true .initializing p.pend := by
  generalize p.pend = l at h ⊢
  cases h <;> constructor

theorem PendOK.startPost (h : PendOK x true .initializing p.pend) :
    PendOK x false .initializing (p.pend ++ [.start]) := by
  generalize p.pend = l at h ⊢
  cases h <;> constructor

theorem PendOK.stopSet (h : PendOK x b .initialized p.pend) : PendOK x true .uninitializing p.pend := by
  generalize p.pend = l at h ⊢
  cases h <;> constructor

theorem PendOK.stopPost (h : PendOK x true .uninitializing p.pend) :
    PendOK x false .uninitializing (p.pend ++ [.finish]) := by
  generalize p.pend = l at h ⊢
  cases h <;> constructor

end Part

namespace View

variable {c : Config} {v v' : View} {x y : Side}

/-- Every side with a worker is started. -/
def AllOn (c : Config) (v : View) : Prop := ∀ x, (c.worker x).isSome → (v.part x).ctx = .initialized

/-- Every side is stopped. -/
def AllOff (v : View) : Prop := ∀ x, (v.part x).ctx = .uninitialized

/-- Every side is in order. -/
structure Parts (c : Config) (v : View) : Prop where
  used : ∀ x, (c.worker x).isSome → PartInv v.control x (v.part x)
  unused : ∀ x, c.worker x = none → v.part x = ⟨.uninitialized, [], .none, false⟩
  posts : Posts c v.control

/-- **What a starter's check has seen is still so**, as long as the controller is in a start. -/
structure Started (c : Config) (v : View) : Prop where
  loaded : ∀ x, (v.part x).tail = .startLoad .tx → (c.worker .rx).isSome → (v.part .rx).ctx = .initialized
  passed : ∀ x, (v.part x).tail = .startStore ∨ (v.part x).tail = .startSend → v.AllOn c
  stored : ∀ x, (v.part x).tail = .startSend → v.initState = .initialized
  flag : v.control ≠ .down → v.control ≠ .startClear → v.startedFlag = true →
    v.AllOn c ∧ v.initState = .initialized
  init : v.initState = .initialized → v.AllOn c
  down : v.control = .down → v.initState = .uninitialized
  running : v.control = .startWait → v.streamStopped = false

/-- **What a finisher's check has seen is still so**, as long as the controller is in a stop. -/
structure Stopped (v : View) : Prop where
  loaded : ∀ x, (v.part x).tail = .stopLoad .tx → (v.part .rx).ctx = .uninitialized
  passed : ∀ x, (v.part x).tail = .stopStore ∨ (v.part x).tail = .stopSend → v.AllOff
  stored : ∀ x, (v.part x).tail = .stopSend → v.initState = .uninitialized
  flag : v.control ≠ .up → v.control ≠ .stopCheck → v.control ≠ .stopClear → v.stoppedFlag = true →
    v.AllOff ∧ v.initState = .uninitialized
  init : v.initState = .uninitialized → v.AllOff
  up : v.control = .up → v.initState = .initialized ∧ v.retval = true
  running : v.control = .up ∨ v.control = .stopCheck → v.streamStopped = false

/-- The invariant of the protocol. -/
structure Inv (c : Config) (v : View) : Prop where
  parts : v.Parts c
  started : v.control.starting = true → v.Started c
  stopped : v.control.starting = false → v.Stopped

section Parts

/-- A part with a tail has a worker. -/
theorem Parts.used_of_tail (h : v.Parts c) (ht : (v.part x).tail ≠ .none) : (c.worker x).isSome := by
  cases hw : c.worker x with
  | none => rw [h.unused x hw] at ht; exact absurd rfl ht
  | some w => rfl

/-- Without starters at work no check of a start is left. -/
theorem Parts.not_start (h : v.Parts c) (hoff : v.AllOff) : (v.part x).tail.isStart = false := by
  by_contra hne
  have ht : (v.part x).tail.isStart = true := by simpa using hne
  have hw := h.used_of_tail (x := x) (by intro h0; rw [h0] at ht; cases ht)
  have hon := (h.used x hw).start ht
  rw [hoff x] at hon
  cases hon

/-- Without finishers at work no check of a stop is left. -/
theorem Parts.not_stop (h : v.Parts c) (hon : v.AllOn c) : (v.part x).tail.isStop = false := by
  by_contra hne
  have ht : (v.part x).tail.isStop = true := by simpa using hne
  have hw := h.used_of_tail (x := x) (by intro h0; rw [h0] at ht; cases ht)
  have hoff := (h.used x hw).stop ht
  rw [hon x hw] at hoff
  cases hoff

/-- Between a stop and the next start everything is stopped. -/
theorem Parts.off_of_down (h : v.Parts c) (hd : v.control = .down) : v.AllOff := by
  intro x
  cases hw : c.worker x with
  | none => rw [h.unused x hw]
  | some w =>
    have hctx := (h.used x (by rw [hw]; rfl)).ctx
    rw [hd] at hctx
    exact hctx

/-- Between a start and the next stop everything is started. -/
theorem Parts.on_of_up (h : v.Parts c) (hu : v.control = .up) : v.AllOn c := by
  intro x hw
  have hctx := (h.used x hw).ctx
  rw [hu] at hctx
  exact hctx

theorem Parts.setPart {p : Part} (h : v.Parts c) (hw : (c.worker x).isSome)
    (hp : PartInv v.control x p) : (v.setPart x p).Parts c := by
  refine ⟨?_, ?_, h.posts⟩
  · intro y hy
    by_cases hyx : y = x
    · subst hyx
      simpa [View.setPart] using hp
    · simpa [View.setPart, hyx] using h.used y hy
  · intro y hy
    have hyx : y ≠ x := by rintro rfl; rw [hy] at hw; cases hw
    simpa [View.setPart, hyx] using h.unused y hy

/-- The controller goes on with side `x` and leaves the other. -/
theorem Parts.move {control : Control} {p : Part} (h : v.Parts c) (hw : (c.worker x).isSome)
    (hp : PartInv control x p) (hposts : Posts c control)
    (hother : ∀ y, y ≠ x → (c.worker y).isSome → CtxOK control y (v.part y).ctx ∧
      control.about y = v.control.about y) :
    ({ v.setPart x p with control := control } : View).Parts c := by
  refine ⟨?_, ?_, hposts⟩
  · intro y hy
    by_cases hyx : y = x
    · subst hyx
      simpa [View.setPart] using hp
    · obtain ⟨h1, h2⟩ := hother y hyx hy
      simpa [View.setPart, hyx] using (h.used y hy).leave h1 h2
  · intro y hy
    have hyx : y ≠ x := by rintro rfl; rw [hy] at hw; cases hw
    simpa [View.setPart, hyx] using h.unused y hy

/-- The controller goes on, away from both sides. -/
theorem Parts.leave {control : Control} (h : v.Parts c) (hposts : Posts c control)
    (hall : ∀ y, (c.worker y).isSome → CtxOK control y (v.part y).ctx ∧
      control.about y = v.control.about y) :
    ({ v with control := control } : View).Parts c :=
  ⟨fun y hy => (h.used y hy).leave (hall y hy).1 (hall y hy).2, h.unused, hposts⟩

end Parts

section Moves

theorem setPart_part (v : View) (x : Side) (p : Part) : (v.setPart x p).part x = p :=
  Function.update_self ..

theorem setPart_other (v : View) (p : Part) (hy : y ≠ x) : (v.setPart x p).part y = v.part y :=
  Function.update_of_ne hy ..

/-- A starter or a finisher goes on in its check. -/
theorem Parts.setTail {t u : Tail} (h : v.Parts c) (ht : (v.part x).tail = t)
    (hstart : u.isStart = true → t.isStart = true) (hstop : u.isStop = true → t.isStop = true)
    (hn : t ≠ .none) (hd : t ≠ .destroy) (hd' : u ≠ .destroy) :
    (v.setPart x { v.part x with tail := u }).Parts c := by
  subst ht
  have hw := h.used_of_tail hn
  exact h.setPart hw ((h.used x hw).setTail hstart hstop hn hd hd')

/-- The controller goes on, away from both sides. -/
theorem Parts.goOn {control : Control} (h : v.Parts c) (control' : Control) (hc : v.control = control)
    (hctx : ∀ y st, (c.worker y).isSome → CtxOK control y st → CtxOK control' y st)
    (hab : ∀ y, control'.about y = control.about y) (hposts : Posts c control') :
    ({ v with control := control' } : View).Parts c := by
  subst hc
  exact h.leave hposts fun y hy => ⟨hctx y _ hy (h.used y hy).ctx, hab y⟩

/-- Where the contexts are at the controller's steps on a side. -/
theorem Parts.ctx_of_startSet (h : v.Parts c) (hc : v.control = .startSet x) (hw : (c.worker x).isSome) :
    (v.part x).ctx = .uninitialized := by
  have hctx := (h.used x hw).ctx
  rw [hc] at hctx
  cases x <;> exact hctx

theorem Parts.ctx_of_startPost (h : v.Parts c) (hc : v.control = .startPost x) (hw : (c.worker x).isSome) :
    (v.part x).ctx = .initializing := by
  have hctx := (h.used x hw).ctx
  rw [hc] at hctx
  cases x <;> exact hctx

theorem Parts.ctx_of_stopCas (h : v.Parts c) (hc : v.control = .stopCas x) (hw : (c.worker x).isSome) :
    (v.part x).ctx = .initialized := by
  have hctx := (h.used x hw).ctx
  rw [hc] at hctx
  cases x <;> exact hctx

theorem Parts.ctx_of_stopPost (h : v.Parts c) (hc : v.control = .stopPost x) (hw : (c.worker x).isSome) :
    (v.part x).ctx = .uninitializing := by
  have hctx := (h.used x hw).ctx
  rw [hc] at hctx
  cases x <;> exact hctx

theorem Parts.startSet (h : v.Parts c) (hc : v.control = .startSet x) (hw : (c.worker x).isSome) :
    ({ v.setPart x { v.part x with ctx := .initializing } with control := .startPost x } : View).Parts c := by
  have hctx := h.ctx_of_startSet hc hw
  have hpend := (h.used x hw).pend
  rw [hctx] at hpend
  refine h.move hw ((h.used x hw).setCtx ?_ ?_ ?_) ?_ ?_
  · cases x <;> rfl
  · rw [show (Control.startPost x).about x = true by cases x <;> rfl]
    exact hpend.startSet
  · rw [hctx]; rfl
  · rintro y (hy | hy)
    · cases hy; exact hw
    · cases hy
  · intro y hy hyw
    have hold := (h.used y hyw).ctx
    rw [hc] at hold ⊢
    cases x <;> cases y <;> first | exact absurd rfl hy | exact ⟨hold, rfl⟩

theorem Parts.startPost (h : v.Parts c) (hc : v.control = .startPost x) (hw : (c.worker x).isSome) :
    ({ v.setPart x { v.part x with pend := (v.part x).pend ++ [.start] } with
      control := Stream.afterStart x } : View).Parts c := by
  have hctx := h.ctx_of_startPost hc hw
  have hpend := (h.used x hw).pend
  rw [hctx, hc, show (Control.startPost x).about x = true by cases x <;> rfl] at hpend
  refine h.move hw ((h.used x hw).append (by simp) ?_ ?_) ?_ ?_
  · rw [hctx]
    cases x <;> exact .inl rfl
  · rw [hctx, show (Stream.afterStart x).about x = false by cases x <;> rfl]
    exact hpend.startPost
  · rintro y (hy | hy)
    · cases x <;> cases hy
    · cases x <;> cases hy
  · intro y hy hyw
    have hold := (h.used y hyw).ctx
    rw [hc] at hold ⊢
    cases x <;> cases y <;> first | exact absurd rfl hy | exact ⟨hold, rfl⟩

theorem Parts.stopSet (h : v.Parts c) (hc : v.control = .stopCas x) (hw : (c.worker x).isSome) :
    ({ v.setPart x { v.part x with ctx := .uninitializing } with control := .stopPost x } : View).Parts c := by
  have hctx := h.ctx_of_stopCas hc hw
  have hpend := (h.used x hw).pend
  rw [hctx] at hpend
  refine h.move hw ((h.used x hw).setCtx ?_ ?_ ?_) ?_ ?_
  · cases x <;> rfl
  · rw [show (Control.stopPost x).about x = true by cases x <;> rfl]
    exact hpend.stopSet
  · rw [hctx]; rfl
  · rintro y (hy | hy)
    · cases hy
    · cases hy; exact hw
  · intro y hy hyw
    have hold := (h.used y hyw).ctx
    rw [hc] at hold ⊢
    cases x <;> cases y <;> first | exact absurd rfl hy | exact ⟨hold, rfl⟩

theorem Parts.stopPost (h : v.Parts c) (hc : v.control = .stopPost x) (hw : (c.worker x).isSome) :
    ({ v.setPart x { v.part x with pend := (v.part x).pend ++ [.finish] } with
      control := Stream.afterStop x } : View).Parts c := by
  have hctx := h.ctx_of_stopPost hc hw
  have hpend := (h.used x hw).pend
  rw [hctx, hc, show (Control.stopPost x).about x = true by cases x <;> rfl] at hpend
  refine h.move hw ((h.used x hw).append (by simp) ?_ ?_) ?_ ?_
  · rw [hctx]
    cases x <;> exact .inl rfl
  · rw [hctx, show (Stream.afterStop x).about x = false by cases x <;> rfl]
    exact hpend.stopPost
  · rintro y (hy | hy)
    · cases x <;> cases hy
    · cases x <;> cases hy
  · intro y hy hyw
    have hold := (h.used y hyw).ctx
    rw [hc] at hold ⊢
    cases x <;> cases y <;> first | exact absurd rfl hy | exact ⟨hold, rfl⟩

/-- The flags and the state of the instance do not matter. -/
theorem Parts.frame (h : v.Parts c) (hpart : v'.part = v.part) (hcontrol : v'.control = v.control) : v'.Parts c := by
  refine ⟨?_, ?_, ?_⟩
  · rw [hpart, hcontrol]
    exact h.used
  · rw [hpart]
    exact h.unused
  · rw [hcontrol]
    exact h.posts

theorem moves_parts (h : v.Inv c) (hm : Moves c v v') : v'.Parts c := by
  have hp := h.parts
  have hnoposts : ∀ control : Control, (∀ x, control ≠ .startPost x ∧ control ≠ .stopPost x) →
      Posts c control := by
    intro control hne x hx
    rcases hx with hx | hx
    · exact absurd hx (hne x).1
    · exact absurd hx (hne x).2
  cases hm with
  | part hw hpm => exact hp.setPart hw ((hp.used _ hw).moves hpm)
  | startStore ht =>
    exact Parts.frame (hp.setTail (u := .startSend) ht (by simp [Tail.isStart]) (by simp [Tail.isStop]) (by simp) (by simp) (by simp)) rfl rfl
  | startSend ht =>
    exact Parts.frame (hp.setTail (u := .none) ht (by simp [Tail.isStart]) (by simp [Tail.isStop]) (by simp) (by simp) (by simp)) rfl rfl
  | stopStore ht =>
    exact Parts.frame (hp.setTail (u := .stopSend) ht (by simp [Tail.isStart]) (by simp [Tail.isStop]) (by simp) (by simp) (by simp)) rfl rfl
  | stopSend ht =>
    exact Parts.frame (hp.setTail (u := .none) ht (by simp [Tail.isStart]) (by simp [Tail.isStop]) (by simp) (by simp) (by simp)) rfl rfl
  | startCas hc hi =>
    exact Parts.frame (hp.goOn .startClear hc (fun _ _ _ h => h) (fun _ => rfl) (hnoposts _ (by simp))) rfl rfl
  -- neither compare-and-swap is refused between completed cycles
  | startRefused hc hi => exact absurd ((h.started (by rw [hc]; rfl)).down hc) hi
  | startClear hc =>
    exact Parts.frame (hp.goOn (.startSet .rx) hc (fun _ _ _ h => h) (fun _ => rfl) (hnoposts _ (by simp))) rfl rfl
  | startSet hc hw => exact hp.startSet hc hw
  | @startSkip x hc hw =>
    rw [Option.isNone_iff_eq_none] at hw
    refine hp.goOn _ hc ?_ (fun y => by cases x <;> cases y <;> rfl) (hnoposts _ (by cases x <;> simp [Stream.afterStart]))
    intro y st hy hst
    have hyx : y ≠ x := by rintro rfl; rw [hw] at hy; cases hy
    cases x <;> cases y <;> first | exact absurd rfl hyx | exact hst
  | startPost hc hw => exact hp.startPost hc hw
  | startUnstop hc =>
    exact Parts.frame (hp.goOn .startWait hc (fun _ _ _ h => h) (fun _ => rfl) (hnoposts _ (by simp))) rfl rfl
  | startReturn hc hf =>
    have hon := ((h.started (by rw [hc]; rfl)).flag (by simp [hc]) (by simp [hc]) hf).1
    refine ⟨?_, hp.unused, hnoposts _ (by simp)⟩
    intro y hy
    exact (hp.used y hy).leave (hon y hy) (by rw [hc]; rfl)
  | stopCas hc hi =>
    exact Parts.frame (hp.goOn .stopCheck hc (fun _ _ _ h => h) (fun _ => rfl) (hnoposts _ (by simp))) rfl rfl
  | stopRefused hc hi => exact absurd ((h.stopped (by rw [hc]; rfl)).up hc).1 hi
  | stopCheck hc =>
    have hrun := (h.stopped (by rw [hc]; rfl)).running (.inr hc)
    rw [if_neg (by simp [hrun])]
    exact hp.goOn .stopClear hc (fun _ _ _ h => h) (fun _ => rfl) (hnoposts _ (by simp))
  | stopClear hc =>
    exact Parts.frame (hp.goOn .stopMark hc (fun _ _ _ h => h) (fun _ => rfl) (hnoposts _ (by simp))) rfl rfl
  | stopMark hc =>
    exact Parts.frame (hp.goOn (.stopCas .rx) hc (fun _ _ _ h => h) (fun _ => rfl) (hnoposts _ (by simp))) rfl rfl
  | @stopSet x hc hst =>
    refine hp.stopSet hc ?_
    cases hw : c.worker x with
    | none => rw [hp.unused x hw] at hst; cases hst
    | some w => rfl
  | @stopSkip x hc h1 h2 =>
    have hw : c.worker x = none := by
      cases hw : c.worker x with
      | none => rfl
      | some w => exact absurd (hp.ctx_of_stopCas hc (by rw [hw]; rfl)) h1
    refine hp.goOn _ hc ?_ (fun y => by cases x <;> cases y <;> rfl) (hnoposts _ (by cases x <;> simp [Stream.afterStop]))
    intro y st hy hst
    have hyx : y ≠ x := by rintro rfl; rw [hw] at hy; cases hy
    cases x <;> cases y <;> first | exact absurd rfl hyx | exact hst
  | stopPost hc hw => exact hp.stopPost hc hw
  -- the flag is set only once no side is started
  | stopReturn hc hf =>
    have hoff := ((h.stopped (by rw [hc]; rfl)).flag (by simp [hc]) (by simp [hc]) (by simp [hc]) hf).1
    refine ⟨?_, hp.unused, hnoposts _ (by simp)⟩
    intro y hy
    exact (hp.used y hy).leave (hoff y) (by rw [hc]; rfl)

section Checks

variable {ctx : Side → InitState} {p p' : Part}

/-- A side's own moves keep a context that is started, and one that is stopped. -/
theorem PartMoves.on (hm : PartMoves c ctx x p p') (hon : p.ctx = .initialized) : p'.ctx = .initialized := by
  cases hm <;> simp_all

theorem PartMoves.off {b : Bool} (hm : PartMoves c ctx x p p') (hp : PendOK x b p.ctx p.pend)
    (hoff : p.ctx = .uninitialized) : p'.ctx = .uninitialized := by
  cases hm with
  | readyRx _ hl _ | readyTx _ hl _ =>
    rw [hl] at hp
    rw [hp.of_made.2.1] at hoff
    cases hoff
  | _ => simp_all

/-- How a check gets as far as its second load, and past it. -/
theorem PartMoves.startLoad (hm : PartMoves c ctx x p p') (ht : p'.tail = .startLoad .tx) :
    (c.worker .rx).isNone ∨ ctx .rx = .initialized := by
  cases hm with
  | @startPass y _ hpass =>
    cases y with
    | rx => exact hpass
    | tx => cases ht
  | @stopPass y _ _ => cases y <;> cases ht
  | _ => simp_all

theorem PartMoves.startStore (hm : PartMoves c ctx x p p') (ht : p'.tail = .startStore ∨ p'.tail = .startSend) :
    p.tail = .startLoad .tx ∧ ((c.worker .tx).isNone ∨ ctx .tx = .initialized) := by
  cases hm with
  | @startPass y htail hpass =>
    cases y with
    | rx => rcases ht with ht | ht <;> cases ht
    | tx => exact ⟨htail, hpass⟩
  | @stopPass y _ _ => cases y <;> rcases ht with ht | ht <;> cases ht
  | _ => simp_all

theorem PartMoves.stopLoad (hm : PartMoves c ctx x p p') (ht : p'.tail = .stopLoad .tx) :
    ctx .rx = .uninitialized := by
  cases hm with
  | @stopPass y _ hpass =>
    cases y with
    | rx => exact hpass
    | tx => cases ht
  | @startPass y _ _ => cases y <;> cases ht
  | _ => simp_all

theorem PartMoves.stopStore (hm : PartMoves c ctx x p p') (ht : p'.tail = .stopStore ∨ p'.tail = .stopSend) :
    p.tail = .stopLoad .tx ∧ ctx .tx = .uninitialized := by
  cases hm with
  | @stopPass y htail hpass =>
    cases y with
    | rx => rcases ht with ht | ht <;> cases ht
    | tx => exact ⟨htail, hpass⟩
  | @startPass y _ _ => cases y <;> rcases ht with ht | ht <;> cases ht
  | _ => simp_all

theorem PartMoves.not_startSend (hm : PartMoves c ctx x p p') : p'.tail ≠ .startSend := by
  intro ht
  cases hm with
  | @startPass y _ _ | @stopPass y _ _ => cases y <;> cases ht
  | _ => simp_all

theorem PartMoves.not_stopSend (hm : PartMoves c ctx x p p') : p'.tail ≠ .stopSend := by
  intro ht
  cases hm with
  | @startPass y _ _ | @stopPass y _ _ => cases y <;> cases ht
  | _ => simp_all

/-- The tails after one side has moved. -/
theorem tail_setPart {P : Tail → Prop} (ht : P ((v.setPart x p).part y).tail) :
    P (v.part y).tail ∨ y = x ∧ P p.tail := by
  by_cases hyx : y = x
  · subst hyx
    rw [setPart_part] at ht
    exact .inr ⟨rfl, ht⟩
  · rw [setPart_other v p hyx] at ht
    exact .inl ht

theorem ctx_setPart {st : InitState} (hp : (v.part x).ctx = st → p.ctx = st) (hy : (v.part y).ctx = st) :
    ((v.setPart x p).part y).ctx = st := by
  by_cases hyx : y = x
  · subst hyx
    rw [setPart_part]
    exact hp hy
  · rw [setPart_other v p hyx]
    exact hy

/-- **A side moves during a start.** -/
theorem Started.part (h : v.Started c) (hm : PartMoves c (fun y => (v.part y).ctx) x (v.part x) p) :
    (v.setPart x p).Started c := by
  have hkeep : ∀ y, (v.part y).ctx = .initialized → ((v.setPart x p).part y).ctx = .initialized :=
    fun y => ctx_setPart (PartMoves.on hm)
  have hon : v.AllOn c → (v.setPart x p).AllOn c := fun h y hy => hkeep y (h y hy)
  refine ⟨?_, ?_, ?_, ?_, fun hi => hon (h.init hi), h.down, h.running⟩
  · intro y hy hrx
    rcases tail_setPart (P := (· = _)) hy with hy | ⟨-, hy⟩
    · exact hkeep .rx (h.loaded y hy hrx)
    · rcases PartMoves.startLoad hm hy with hno | hpass
      · rw [Option.isNone_iff_eq_none] at hno
        rw [hno] at hrx
        cases hrx
      · exact hkeep .rx hpass
  · intro y hy
    rcases tail_setPart (P := fun t => t = .startStore ∨ t = .startSend) hy with hold | ⟨-, hnew⟩
    · exact hon (h.passed y hold)
    · obtain ⟨hload, hpass⟩ := PartMoves.startStore hm hnew
      refine hon ?_
      intro z hz
      cases z with
      | rx => exact h.loaded x hload hz
      | tx =>
        rcases hpass with hno | hpass
        · rw [Option.isNone_iff_eq_none] at hno
          rw [hno] at hz
          cases hz
        · exact hpass
  · intro y hy
    rcases tail_setPart (P := (· = _)) hy with hy | ⟨-, hy⟩
    · exact h.stored y hy
    · exact absurd hy (PartMoves.not_startSend hm)
  · intro h1 h2 hf
    obtain ⟨hall, hi⟩ := h.flag h1 h2 hf
    exact ⟨hon hall, hi⟩

/-- **A side moves during a stop.** -/
theorem Stopped.part {b : Bool} (h : v.Stopped) (hp : PendOK x b (v.part x).ctx (v.part x).pend)
    (hm : PartMoves c (fun y => (v.part y).ctx) x (v.part x) p) : (v.setPart x p).Stopped := by
  have hkeep : ∀ y, (v.part y).ctx = .uninitialized → ((v.setPart x p).part y).ctx = .uninitialized :=
    fun y => ctx_setPart (PartMoves.off hm hp)
  have hoff : v.AllOff → (v.setPart x p).AllOff := fun h y => hkeep y (h y)
  refine ⟨?_, ?_, ?_, ?_, fun hi => hoff (h.init hi), h.up, h.running⟩
  · intro y hy
    rcases tail_setPart (P := (· = _)) hy with hy | ⟨-, hy⟩
    · exact hkeep .rx (h.loaded y hy)
    · exact hkeep .rx (PartMoves.stopLoad hm hy)
  · intro y hy
    rcases tail_setPart (P := fun t => t = .stopStore ∨ t = .stopSend) hy with hold | ⟨-, hnew⟩
    · exact hoff (h.passed y hold)
    · obtain ⟨hload, hpass⟩ := PartMoves.stopStore hm hnew
      refine hoff ?_
      intro z
      cases z with
      | rx => exact h.loaded x hload
      | tx => exact hpass
  · intro y hy
    rcases tail_setPart (P := (· = _)) hy with hy | ⟨-, hy⟩
    · exact h.stored y hy
    · exact absurd hy (PartMoves.not_stopSend hm)
  · intro h1 h2 h3 hf
    obtain ⟨hall, hi⟩ := h.flag h1 h2 h3 hf
    exact ⟨hoff hall, hi⟩

/-- A step that neither a start's checks nor what they look at see. -/
theorem Started.frame (h : v.Started c)
    (htail : ∀ y, (v'.part y).tail.isStart = true → (v'.part y).tail = (v.part y).tail)
    (hctx : ∀ y, (v'.part y).ctx = (v.part y).ctx) (hi : v'.initState = v.initState)
    (hflag : v'.control ≠ .down → v'.control ≠ .startClear → v'.startedFlag = true →
      v.control ≠ .down ∧ v.control ≠ .startClear ∧ v.startedFlag = true)
    (hdown : v'.control = .down → v.control = .down)
    (hrun : v'.control = .startWait → v'.streamStopped = false) : v'.Started c := by
  have hon : v.AllOn c → v'.AllOn c := fun hall y hy => (hctx y).trans (hall y hy)
  refine ⟨?_, ?_, ?_, ?_, ?_, ?_, hrun⟩
  · intro y hy hrx
    rw [hctx]
    exact h.loaded y (by rw [← htail y (by rw [hy]; rfl)]; exact hy) hrx
  · intro y hy
    refine hon (h.passed y ?_)
    rwa [← htail y (by rcases hy with hy | hy <;> rw [hy] <;> rfl)]
  · intro y hy
    rw [hi]
    exact h.stored y (by rw [← htail y (by rw [hy]; rfl)]; exact hy)
  · intro h1 h2 h3
    obtain ⟨g1, g2, g3⟩ := hflag h1 h2 h3
    rw [hi]
    exact ⟨hon (h.flag g1 g2 g3).1, (h.flag g1 g2 g3).2⟩
  · intro h1
    exact hon (h.init (hi ▸ h1))
  · intro h1
    rw [hi]
    exact h.down (hdown h1)

/-- A step before the sides are all started: no starter has passed its checks yet. -/
theorem Started.late (h : v.Started c) (hno : ¬ v.AllOn c)
    (htail : ∀ y, (v'.part y).tail.isStart = true → (v'.part y).tail = (v.part y).tail)
    (hrx : (v.part .rx).ctx = .initialized → (v'.part .rx).ctx = .initialized)
    (hflag : v'.control ≠ .down → v'.control ≠ .startClear → v'.startedFlag = true →
      v.control ≠ .down ∧ v.control ≠ .startClear ∧ v.startedFlag = true)
    (hi : v'.initState ≠ .initialized) (hdown : v'.control = .down → v'.initState = .uninitialized)
    (hrun : v'.control = .startWait → v'.streamStopped = false) : v'.Started c := by
  refine ⟨?_, ?_, ?_, ?_, fun h => absurd h hi, hdown, hrun⟩
  · intro y hy hw
    exact hrx (h.loaded y (by rw [← htail y (by rw [hy]; rfl)]; exact hy) hw)
  · intro y hy
    refine absurd (h.passed y ?_) hno
    rwa [← htail y (by rcases hy with hy | hy <;> rw [hy] <;> rfl)]
  · intro y hy
    refine absurd (h.passed y (.inr ?_)) hno
    rwa [← htail y (by rw [hy]; rfl)]
  · intro h1 h2 h3
    obtain ⟨g1, g2, g3⟩ := hflag h1 h2 h3
    exact absurd (h.flag g1 g2 g3).1 hno

/-- Everything is started. -/
theorem Started.of_on (hon : v.AllOn c) (hi : v.initState = .initialized) (hdown : v.control ≠ .down)
    (hrun : v.control = .startWait → v.streamStopped = false) : v.Started c :=
  ⟨fun _ _ hrx => hon .rx hrx, fun _ _ => hon, fun _ _ => hi, fun _ _ _ => ⟨hon, hi⟩, fun _ => hon,
    fun h => absurd h hdown, hrun⟩

/-- No starter is in its check. -/
theorem Started.of_idle (htail : ∀ y, (v.part y).tail.isStart = false) (hi : v.initState ≠ .initialized)
    (hflag : v.control = .down ∨ v.control = .startClear) (hdown : v.control = .down → v.initState = .uninitialized) :
    v.Started c := by
  have hno : ∀ y t, (v.part y).tail = t → t.isStart = false := fun y t h => h ▸ htail y
  refine ⟨?_, ?_, ?_, ?_, fun h => absurd h hi, hdown, ?_⟩
  · intro y hy
    cases hno y _ hy
  · rintro y (hy | hy) <;> cases hno y _ hy
  · intro y hy
    cases hno y _ hy
  · intro h1 h2
    rcases hflag with h | h
    · exact absurd h h1
    · exact absurd h h2
  · intro h
    rcases hflag with h' | h' <;> rw [h] at h' <;> cases h'

/-- A step that neither a stop's checks nor what they look at see. -/
theorem Stopped.frame (h : v.Stopped)
    (htail : ∀ y, (v'.part y).tail.isStop = true → (v'.part y).tail = (v.part y).tail)
    (hctx : ∀ y, (v'.part y).ctx = (v.part y).ctx) (hi : v'.initState = v.initState)
    (hflag : v'.control ≠ .up → v'.control ≠ .stopCheck → v'.control ≠ .stopClear → v'.stoppedFlag = true →
      v.control ≠ .up ∧ v.control ≠ .stopCheck ∧ v.control ≠ .stopClear ∧ v.stoppedFlag = true)
    (hup : v'.control = .up → v.control = .up ∧ v'.retval = v.retval)
    (hrun : v'.control = .up ∨ v'.control = .stopCheck → v'.streamStopped = false) : v'.Stopped := by
  have hoff : v.AllOff → v'.AllOff := fun hall y => (hctx y).trans (hall y)
  refine ⟨?_, ?_, ?_, ?_, ?_, ?_, hrun⟩
  · intro y hy
    rw [hctx]
    exact h.loaded y (by rw [← htail y (by rw [hy]; rfl)]; exact hy)
  · intro y hy
    refine hoff (h.passed y ?_)
    rwa [← htail y (by rcases hy with hy | hy <;> rw [hy] <;> rfl)]
  · intro y hy
    rw [hi]
    exact h.stored y (by rw [← htail y (by rw [hy]; rfl)]; exact hy)
  · intro h1 h2 h3 h4
    obtain ⟨g1, g2, g3, g4⟩ := hflag h1 h2 h3 h4
    rw [hi]
    exact ⟨hoff (h.flag g1 g2 g3 g4).1, (h.flag g1 g2 g3 g4).2⟩
  · intro h1
    exact hoff (h.init (hi ▸ h1))
  · intro h1
    rw [hi, (hup h1).2]
    exact h.up (hup h1).1

/-- A step before the sides are all stopped: no finisher has passed its checks yet. -/
theorem Stopped.late (h : v.Stopped) (hno : ¬ v.AllOff)
    (htail : ∀ y, (v'.part y).tail.isStop = true → (v'.part y).tail = (v.part y).tail)
    (hrx : (v.part .rx).ctx = .uninitialized → (v'.part .rx).ctx = .uninitialized)
    (hflag : v'.control ≠ .up → v'.control ≠ .stopCheck → v'.control ≠ .stopClear → v'.stoppedFlag = true →
      v.control ≠ .up ∧ v.control ≠ .stopCheck ∧ v.control ≠ .stopClear ∧ v.stoppedFlag = true)
    (hi : v'.initState ≠ .uninitialized)
    (hup : v'.control = .up → v'.initState = .initialized ∧ v'.retval = true)
    (hrun : v'.control = .up ∨ v'.control = .stopCheck → v'.streamStopped = false) : v'.Stopped := by
  refine ⟨?_, ?_, ?_, ?_, fun h => absurd h hi, hup, hrun⟩
  · intro y hy
    exact hrx (h.loaded y (by rw [← htail y (by rw [hy]; rfl)]; exact hy))
  · intro y hy
    refine absurd (h.passed y ?_) hno
    rwa [← htail y (by rcases hy with hy | hy <;> rw [hy] <;> rfl)]
  · intro y hy
    refine absurd (h.passed y (.inr ?_)) hno
    rwa [← htail y (by rw [hy]; rfl)]
  · intro h1 h2 h3 h4
    obtain ⟨g1, g2, g3, g4⟩ := hflag h1 h2 h3 h4
    exact absurd (h.flag g1 g2 g3 g4).1 hno

/-- Everything is stopped. -/
theorem Stopped.of_off (hoff : v.AllOff) (hi : v.initState = .uninitialized) (hup : v.control ≠ .up)
    (hrun : v.control = .stopCheck → v.streamStopped = false) : v.Stopped :=
  ⟨fun _ _ => hoff .rx, fun _ _ => hoff, fun _ _ => hi, fun _ _ _ _ => ⟨hoff, hi⟩, fun _ => hoff,
    fun h => absurd h hup, fun h => hrun (h.resolve_left hup)⟩

/-- No finisher is in its check. -/
theorem Stopped.of_idle (htail : ∀ y, (v.part y).tail.isStop = false) (hi : v.initState ≠ .uninitialized)
    (hflag : v.control = .up ∨ v.control = .stopCheck)
    (hup : v.control = .up → v.initState = .initialized ∧ v.retval = true)
    (hrun : v.streamStopped = false) : v.Stopped := by
  have hno : ∀ y t, (v.part y).tail = t → t.isStop = false := fun y t h => h ▸ htail y
  refine ⟨?_, ?_, ?_, ?_, fun h => absurd h hi, hup, fun _ => hrun⟩
  · intro y hy
    cases hno y _ hy
  · rintro y (hy | hy) <;> cases hno y _ hy
  · intro y hy
    cases hno y _ hy
  · intro h1 h2
    rcases hflag with h | h
    · exact absurd h h1
    · exact absurd h h2

/-- A starter that stores or sends while the controller is in a start: everything is started. -/
theorem Inv.on_of_tail (h : v.Inv c) (hs : v.control.starting = true)
    (ht : (v.part x).tail = .startStore ∨ (v.part x).tail = .startSend) : v.AllOn c ∧ v.control ≠ .down := by
  refine ⟨(h.started hs).passed x ht, ?_⟩
  intro hd
  have hno := h.parts.not_start (x := x) (h.parts.off_of_down hd)
  rcases ht with ht | ht <;> rw [ht] at hno <;> cases hno

/-- A finisher that stores or sends while the controller is in a stop: everything is stopped. -/
theorem Inv.off_of_tail (h : v.Inv c) (hs : v.control.starting = false)
    (ht : (v.part x).tail = .stopStore ∨ (v.part x).tail = .stopSend) : v.AllOff ∧ v.control ≠ .up := by
  refine ⟨(h.stopped hs).passed x ht, ?_⟩
  intro hu
  have hno := h.parts.not_stop (x := x) (h.parts.on_of_up hu)
  rcases ht with ht | ht <;> rw [ht] at hno <;> cases hno

/-- The tails of one kind after a starter or a finisher has gone on to another kind. -/
theorem tail_of_setTail (P : Tail → Prop) {t : Tail} (ht : ¬ P t) (y : Side)
    (hy : P ((v.setPart x { v.part x with tail := t }).part y).tail) :
    ((v.setPart x { v.part x with tail := t }).part y).tail = (v.part y).tail := by
  by_cases hyx : y = x
  · subst hyx
    rw [setPart_part] at hy
    exact absurd hy ht
  · rw [setPart_other v _ hyx]

theorem ctx_setTail (v : View) (x : Side) (t : Tail) (y : Side) :
    ((v.setPart x { v.part x with tail := t }).part y).ctx = (v.part y).ctx := by
  by_cases hyx : y = x
  · subst hyx
    rw [setPart_part]
  · rw [setPart_other v _ hyx]

theorem ctx_setPend (v : View) (x : Side) (l : List Kind) (y : Side) :
    ((v.setPart x { v.part x with pend := l }).part y).ctx = (v.part y).ctx := by
  by_cases hyx : y = x
  · subst hyx
    rw [setPart_part]
  · rw [setPart_other v _ hyx]

theorem tail_setPend (v : View) (x : Side) (l : List Kind) (y : Side) :
    ((v.setPart x { v.part x with pend := l }).part y).tail = (v.part y).tail := by
  by_cases hyx : y = x
  · subst hyx
    rw [setPart_part]
  · rw [setPart_other v _ hyx]

theorem tail_setCtx (v : View) (x : Side) (st : InitState) (y : Side) :
    ((v.setPart x { v.part x with ctx := st }).part y).tail = (v.part y).tail := by
  by_cases hyx : y = x
  · subst hyx
    rw [setPart_part]
  · rw [setPart_other v _ hyx]

/-- **During a start**, what starters' checks have seen stays so. -/
theorem moves_started (h : v.Inv c) (hm : Moves c v v') (hs : v'.control.starting = true) : v'.Started c := by
  have hp := h.parts
  cases hm with
  | part hw hpm => exact (h.started hs).part hpm
  | @startStore x ht =>
    obtain ⟨hon, hd⟩ := h.on_of_tail hs (.inl ht)
    exact .of_on (fun y hy => (ctx_setTail v x _ y).trans (hon y hy)) rfl hd (h.started hs).running
  | @startSend x ht =>
    obtain ⟨hon, hd⟩ := h.on_of_tail hs (.inr ht)
    exact .of_on (fun y hy => (ctx_setTail v x _ y).trans (hon y hy)) ((h.started hs).stored x ht) hd
      (h.started hs).running
  | @stopStore x ht =>
    -- a late one: its side is not started yet, so no starter has passed its check
    have hs' := h.started hs
    have hno : ¬ v.AllOn c := by
      intro hon
      have := hp.not_stop (x := x) hon
      rw [ht] at this
      cases this
    refine hs'.late hno (tail_of_setTail (·.isStart = true) nofun) ?_ (fun h1 h2 h3 => ⟨h1, h2, h3⟩) (by simp)
      (fun _ => rfl) hs'.running
    exact fun hrx => (ctx_setTail v x _ .rx).trans hrx
  | @stopSend x ht =>
    exact (h.started hs).frame (tail_of_setTail (·.isStart = true) nofun) (ctx_setTail v x _) rfl
      (fun h1 h2 h3 => ⟨h1, h2, h3⟩) id (h.started hs).running
  | startCas hc hi =>
    exact .of_idle (fun y => hp.not_start (hp.off_of_down hc)) (by simp) (.inr rfl) (by simp)
  | startRefused hc hi => cases hs
  | startClear hc =>
    exact (h.started (by rw [hc]; rfl)).frame (fun _ _ => rfl) (fun _ => rfl) rfl (by simp) (by simp) (by simp)
  | @startSet x hc hw =>
    -- its side was not started yet
    have hs' := h.started (by rw [hc]; rfl)
    have hctx := hp.ctx_of_startSet hc hw
    have hno : ¬ v.AllOn c := fun hon => by rw [hon x hw] at hctx; cases hctx
    refine hs'.late hno (fun y _ => tail_setCtx v x .initializing y) ?_ ?_ (fun hi => hno (hs'.init hi)) (by simp)
      (by simp)
    · refine fun hrx => (ctx_setPart ?_ hrx : ((v.setPart x _).part .rx).ctx = _)
      intro heq
      rw [heq] at hctx
      cases hctx
    · exact fun _ _ hf => ⟨by simp [hc], by simp [hc], hf⟩
  | @startSkip x hc hw =>
    refine (h.started (by rw [hc]; rfl)).frame (fun _ _ => rfl) (fun _ => rfl) rfl ?_ ?_ ?_
    · exact fun _ _ hf => ⟨by simp [hc], by simp [hc], hf⟩
    · cases x <;> simp [Stream.afterStart]
    · cases x <;> simp [Stream.afterStart]
  | @startPost x hc hw =>
    refine (h.started (by rw [hc]; rfl)).frame (fun y _ => tail_setPend v x _ y) (ctx_setPend v x _) rfl ?_ ?_ ?_
    · exact fun _ _ hf => ⟨by simp [hc], by simp [hc], hf⟩
    · cases x <;> simp [Stream.afterStart]
    · cases x <;> simp [Stream.afterStart]
  | startUnstop hc =>
    exact (h.started (by rw [hc]; rfl)).frame (fun _ _ => rfl) (fun _ => rfl) rfl
      (fun _ _ hf => ⟨by simp [hc], by simp [hc], hf⟩) (by simp) (fun _ => rfl)
  | startReturn hc hf => cases hs
  | stopCas hc hi => cases hs
  | stopRefused hc hi => exact absurd ((h.stopped (by rw [hc]; rfl)).up hc).1 hi
  | stopCheck hc =>
    rw [(h.stopped (by rw [hc]; rfl)).running (.inr hc)] at hs
    cases hs
  | stopClear hc => cases hs
  | stopMark hc => cases hs
  | @stopSet x hc hst => cases hs
  | @stopSkip x hc h1 h2 => cases x <;> cases hs
  | @stopPost x hc hw => cases x <;> cases hs
  | stopReturn hc hf =>
    obtain ⟨hoff, hi⟩ := (h.stopped (by rw [hc]; rfl)).flag (by simp [hc]) (by simp [hc]) (by simp [hc]) hf
    exact .of_idle (fun y => hp.not_start hoff) (by simp [hi]) (.inl rfl) (fun _ => hi)

/-- **During a stop**, what finishers' checks have seen stays so. -/
theorem moves_stopped (h : v.Inv c) (hm : Moves c v v') (hs : v'.control.starting = false) : v'.Stopped := by
  have hp := h.parts
  cases hm with
  | part hw hpm => exact (h.stopped hs).part (hp.used _ hw).pend hpm
  | @startStore x ht =>
    -- a late one: its side is not stopped yet, so no finisher has passed its check
    have hs' := h.stopped hs
    have hno : ¬ v.AllOff := by
      intro hoff
      have := hp.not_start (x := x) hoff
      rw [ht] at this
      cases this
    refine hs'.late hno (tail_of_setTail (·.isStop = true) nofun) ?_ (fun h1 h2 h3 h4 => ⟨h1, h2, h3, h4⟩) (by simp)
      (fun hu => ⟨rfl, (hs'.up hu).2⟩) hs'.running
    exact fun hrx => (ctx_setTail v x _ .rx).trans hrx
  | @startSend x ht =>
    exact (h.stopped hs).frame (tail_of_setTail (·.isStop = true) nofun) (ctx_setTail v x _) rfl
      (fun h1 h2 h3 h4 => ⟨h1, h2, h3, h4⟩) (fun hu => ⟨hu, rfl⟩) (h.stopped hs).running
  | @stopStore x ht =>
    obtain ⟨hoff, hu⟩ := h.off_of_tail hs (.inl ht)
    exact .of_off (fun y => (ctx_setTail v x _ y).trans (hoff y)) rfl hu
      fun hc => (h.stopped hs).running (.inr hc)
  | @stopSend x ht =>
    obtain ⟨hoff, hu⟩ := h.off_of_tail hs (.inr ht)
    exact .of_off (fun y => (ctx_setTail v x _ y).trans (hoff y)) ((h.stopped hs).stored x ht) hu
      fun hc => (h.stopped hs).running (.inr hc)
  | startCas hc hi => cases hs
  | startRefused hc hi => exact absurd ((h.started (by rw [hc]; rfl)).down hc) hi
  | startClear hc => cases hs
  | @startSet x hc hw => cases hs
  | @startSkip x hc hw => cases x <;> cases hs
  | @startPost x hc hw => cases x <;> cases hs
  | startUnstop hc => cases hs
  -- the flag is set only once every side is started
  | startReturn hc hf =>
    have hs' := h.started (by rw [hc]; rfl)
    obtain ⟨hon, hi⟩ := hs'.flag (by simp [hc]) (by simp [hc]) hf
    exact .of_idle (fun y => hp.not_stop hon) (by simp [hi]) (.inl rfl) (fun _ => ⟨hi, rfl⟩) (hs'.running hc)
  | stopCas hc hi =>
    exact .of_idle (fun y => hp.not_stop (hp.on_of_up hc)) (by simp) (.inr rfl) (by simp)
      ((h.stopped (by rw [hc]; rfl)).running (.inl hc))
  | stopRefused hc hi => cases hs
  | stopCheck hc =>
    have hrun := (h.stopped (by rw [hc]; rfl)).running (.inr hc)
    have hnext : (if v.streamStopped = true then Control.down else .stopClear) = .stopClear := by simp [hrun]
    refine (h.stopped (by rw [hc]; rfl)).frame (fun _ _ => rfl) (fun _ => rfl) rfl ?_ ?_ ?_
    · exact fun _ _ h3 => absurd hnext h3
    · exact fun hu => by rw [hnext] at hu; cases hu
    · exact fun _ => hrun
  | stopClear hc =>
    exact (h.stopped (by rw [hc]; rfl)).frame (fun _ _ => rfl) (fun _ => rfl) rfl (by simp) (by simp) (by simp)
  | stopMark hc =>
    exact (h.stopped (by rw [hc]; rfl)).frame (fun _ _ => rfl) (fun _ => rfl) rfl
      (fun _ _ _ hf => ⟨by simp [hc], by simp [hc], by simp [hc], hf⟩) (by simp) (by simp)
  | @stopSet x hc hst =>
    -- its side was not stopped yet
    have hs' := h.stopped (by rw [hc]; rfl)
    have hno : ¬ v.AllOff := fun hoff => by rw [hoff x] at hst; cases hst
    refine hs'.late hno (fun y _ => tail_setCtx v x .uninitializing y) ?_ ?_ (fun hi => hno (hs'.init hi)) (by simp)
      (by simp)
    · refine fun hrx => (ctx_setPart ?_ hrx : ((v.setPart x _).part .rx).ctx = _)
      intro heq
      rw [heq] at hst
      cases hst
    · exact fun _ _ _ hf => ⟨by simp [hc], by simp [hc], by simp [hc], hf⟩
  | @stopSkip x hc h1 h2 =>
    refine (h.stopped (by rw [hc]; rfl)).frame (fun _ _ => rfl) (fun _ => rfl) rfl ?_ ?_ ?_
    · exact fun _ _ _ hf => ⟨by simp [hc], by simp [hc], by simp [hc], hf⟩
    · cases x <;> simp [Stream.afterStop]
    · cases x <;> simp [Stream.afterStop]
  | @stopPost x hc hw =>
    refine (h.stopped (by rw [hc]; rfl)).frame (fun y _ => tail_setPend v x _ y) (ctx_setPend v x _) rfl ?_ ?_ ?_
    · exact fun _ _ _ hf => ⟨by simp [hc], by simp [hc], by simp [hc], hf⟩
    · cases x <;> simp [Stream.afterStop]
    · cases x <;> simp [Stream.afterStop]
  | stopReturn hc hf => cases hs

/-- **Every move of the protocol** keeps its invariant. -/
theorem moves_inv (h : v.Inv c) (hm : Moves c v v') : v'.Inv c :=
  ⟨moves_parts h hm, moves_started h hm, moves_stopped h hm⟩

end Checks

end Moves

end View

namespace Stream

variable {c : Config} {s s' : Stream} {ok : Stream → Act → Prop}

/-- What holds in every run of a stream. -/
structure Cycled (c : Config) (s : Stream) : Prop where
  placed : Placed c s
  inv : (s.view c).Inv c

theorem create_part (x : Side) : (create c).partOf c x = ⟨.uninitialized, [], .none, false⟩ := by
  unfold partOf
  cases c.worker x <;> rfl

theorem create_cycled : Cycled c (create c) := by
  have hpart : ∀ x, ((create c).view c).part x = ⟨.uninitialized, [], .none, false⟩ := create_part
  refine ⟨⟨?_, ?_⟩, ⟨?_, ?_, ?_⟩, ?_, by simp [view, create, Control.starting]⟩
  · intro w a ha
    cases ha
  · intro w x hx
    cases hx
  · intro x _
    rw [hpart]
    refine ⟨?_, ?_, by simp [Tail.isStart], by simp [Tail.isStop], by simp, by simp [InitState.on]⟩
    · cases x <;> rfl
    · exact .off x _
  · exact fun x _ => hpart x
  · rintro x (hx | hx) <;> cases hx
  · intro _
    exact .of_idle (fun y => by rw [hpart]; rfl) (by simp [view, create]) (.inl rfl) (fun _ => rfl)

theorem step_cycled {a : Act} (h : Cycled c s) (hs : s.step c a = some s') : Cycled c s' := by
  refine ⟨(step_carried hs).placed h.placed, ?_⟩
  rcases step_view h.placed h.inv.parts.posts hs with heq | hm
  · rw [heq]
    exact h.inv
  · exact View.moves_inv h.inv hm

/-- **Every run** keeps the invariant, whatever its clients do. -/
theorem reach_cycled (h : Sys.Reach (system c) ok s) : Cycled c s :=
  h.inv (I := Cycled c) (by rintro _ rfl; exact create_cycled) fun _ _ _ hi _ hs => step_cycled hi hs

end Stream

end Cutils.Asyncio
