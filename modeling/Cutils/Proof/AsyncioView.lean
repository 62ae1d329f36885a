import Cutils.Spec.AsyncioCycle
import Mathlib.Tactic.Common

/-!
# A stream follows the start and stop protocol

`Placed`: actions are on the worker of the side they work for.

* `step_view`: every step of a stream is a move of the protocol, or the protocol does not see it.
* `reach_moves`: what the protocol's moves keep holds in every run of the stream.
-/

namespace Cutils.Asyncio

open Blocks

variable {c : Config} {s s' : Stream} {w n : ℕ} {x y : Side}

/-- Every action is on its side's worker. -/
structure Placed (c : Config) (s : Stream) : Prop where
  queue : ∀ w, ∀ a ∈ s.queue w, c.worker a.side = some w
  pc : ∀ w x, (s.pc w).side = some x → c.worker x = some w

theorem Placed.of_eq (h : Placed c s) (hq : s'.queue = s.queue) (hpc : s'.pc = s.pc) : Placed c s' :=
  ⟨by rw [hq]; exact h.queue, by rw [hpc]; exact h.pc⟩

/-- The controller posts only to a side that has a worker. -/
def Posts (c : Config) (control : Control) : Prop :=
  ∀ x, control = .startPost x ∨ control = .stopPost x → (c.worker x).isSome

namespace Stream

section Fields

variable (s : Stream) (w : ℕ) (pc : WorkerPc) (x : Side) (st : InitState) (p : Store) (e : Event)

@[simp] theorem pc_setPc : (s.setPc w pc).pc = Function.update s.pc w pc := rfl
@[simp] theorem queue_setPc : (s.setPc w pc).queue = s.queue := rfl
@[simp] theorem ctx_setPc : (s.setPc w pc).ctx = s.ctx := rfl
@[simp] theorem pool_setPc : (s.setPc w pc).pool = s.pool := rfl
@[simp] theorem pc_setCtx : (s.setCtx x st).pc = s.pc := rfl
@[simp] theorem queue_setCtx : (s.setCtx x st).queue = s.queue := rfl
@[simp] theorem ctx_setCtx : (s.setCtx x st).ctx = Function.update s.ctx x st := rfl
@[simp] theorem pool_setCtx : (s.setCtx x st).pool = s.pool := rfl
@[simp] theorem pc_setPool : (s.setPool x p).pc = s.pc := rfl
@[simp] theorem queue_setPool : (s.setPool x p).queue = s.queue := rfl
@[simp] theorem ctx_setPool : (s.setPool x p).ctx = s.ctx := rfl
@[simp] theorem pool_setPool : (s.setPool x p).pool = Function.update s.pool x p := rfl
@[simp] theorem pc_record : (s.record e).pc = s.pc := rfl
@[simp] theorem queue_record : (s.record e).queue = s.queue := rfl
@[simp] theorem ctx_record : (s.record e).ctx = s.ctx := rfl
@[simp] theorem pool_record : (s.record e).pool = s.pool := rfl

end Fields

/-- A post changes a queue. -/
theorem post_eq (s : Stream) (x : Side) (a : Action) :
    s.post c x a = { s with queue := (s.post c x a).queue } := by
  unfold post
  split <;> rfl

theorem post_of_worker {a : Action} (hx : c.worker x = some w) :
    s.post c x a = { s with queue := Function.update s.queue w (s.queue w ++ [a]) } := by
  unfold post
  rw [hx]

@[simp] theorem partOf_ctx (s : Stream) (x : Side) : (s.partOf c x).ctx = s.ctx x := by
  unfold partOf
  split <;> rfl

theorem partOf_of_worker (hx : c.worker x = some w) : s.partOf c x =
    ⟨s.ctx x, pendOf x (s.pc w) (s.queue w), tailOf x (s.pc w), (s.pool x).q.isSome⟩ := by
  unfold partOf
  rw [hx]

/-- A place of side `x`, or between actions. -/
def Own (x : Side) (p : WorkerPc) : Prop := p.side = some x ∨ p = .idle

theorem pendOf_own {p : WorkerPc} (h : Own x p) (queue : List Action) :
    pendOf x p queue = p.kind.toList ++ restOf x queue := by
  unfold pendOf
  rcases h with h | rfl
  · rw [if_pos h]
  · rfl

theorem tailOf_own {p : WorkerPc} (h : Own x p) : tailOf x p = p.tail := by
  unfold tailOf
  rcases h with h | rfl
  · rw [if_pos h]
  · rfl

theorem Own.other {p : WorkerPc} (h : Own x p) (hy : y ≠ x) : p.side ≠ some y := by
  rcases h with h | rfl
  · rw [h]
    simpa using hy.symm
  · simp [WorkerPc.side]

/-- The part of side `x`, with its worker at `p`. -/
def partAt (s : Stream) (w : ℕ) (x : Side) (p : WorkerPc) : Part :=
  ⟨s.ctx x, p.kind.toList ++ restOf x (s.queue w), p.tail, (s.pool x).q.isSome⟩

theorem partOf_own {p : WorkerPc} (hp : Placed c s) (hpc : s.pc w = p) (hside : p.side = some x) :
    s.partOf c x = s.partAt w x p := by
  subst hpc
  rw [partOf_of_worker (hp.pc w x hside), pendOf_own (.inl hside), tailOf_own (.inl hside)]
  rfl

/-- **A worker's step for side `x`**, to `p`: what it leaves alone. -/
structure Works (s s' : Stream) (w : ℕ) (x : Side) (p : WorkerPc) : Prop where
  side : (s.pc w).side = some x
  pc : s'.pc = Function.update s.pc w p
  own : Own x p
  ctx : ∀ y, y ≠ x → s'.ctx y = s.ctx y
  pool : ∀ y, y ≠ x → (s'.pool y).q.isSome = (s.pool y).q.isSome
  queue : ∀ y, y ≠ x → ∀ w', (s'.queue w').filter (·.side = y) = (s.queue w').filter (·.side = y)

theorem Works.setPc {p : WorkerPc} (h : (s.pc w).side = some x) (hown : Own x p) :
    Works s (s.setPc w p) w x p :=
  ⟨h, rfl, hown, fun _ _ => rfl, fun _ _ => rfl, fun _ _ _ => rfl⟩

/-- It shows in the part of that side only. -/
theorem Works.partOf {p : WorkerPc} (h : Works s s' w x p) (hp : Placed c s) :
    s'.partOf c = Function.update (s.partOf c) x (s'.partAt w x p) := by
  funext y
  by_cases hy : y = x
  · subst hy
    rw [Function.update_self, partOf_of_worker (hp.pc w y h.side), h.pc, Function.update_self,
      pendOf_own h.own, tailOf_own h.own]
    rfl
  · have hold : (s.pc w).side ≠ some y := Own.other (.inl h.side) hy
    rw [Function.update_of_ne hy]
    unfold Stream.partOf
    rw [h.ctx y hy, h.pool y hy, h.pc]
    cases c.worker y with
    | none => rfl
    | some w' =>
      simp only
      by_cases hw : w' = w
      · subst hw
        simp only [pendOf, restOf, tailOf, Function.update_self, if_neg hold, if_neg (h.own.other hy),
          h.queue y hy w']
      · simp only [pendOf, restOf, tailOf, Function.update_of_ne hw, h.queue y hy w']

theorem Works.view {p : WorkerPc} (h : Works s s' w x p) (hp : Placed c s) :
    s'.view c = ({ s'.view c with part := s.partOf c } : View).setPart x (s'.partAt w x p) :=
  congrArg (fun part => ({ s'.view c with part := part } : View)) (h.partOf hp)

/-- If it is a move of that side, it is a move of the protocol. -/
theorem Works.moves {p p' : WorkerPc} (h : Works s s' w x p') (hp : Placed c s) (hpc : s.pc w = p)
    (hrest : ({ s'.view c with part := s.partOf c } : View) = s.view c)
    (hmove : PartMoves c s.ctx x (s.partAt w x p) (s'.partAt w x p')) :
    Moves c (s.view c) (s'.view c) := by
  have hside : p.side = some x := hpc ▸ h.side
  have hx := hp.pc w x h.side
  rw [h.view hp, hrest]
  refine .part (by rw [hx]; rfl) ?_
  show PartMoves c (fun y => (s.partOf c y).ctx) x (s.partOf c x) _
  rw [partOf_own hp hpc hside]
  simpa using hmove

/-- If the protocol does not see it in that side, it does not see it. -/
theorem Works.unseen {p p' : WorkerPc} (h : Works s s' w x p') (hp : Placed c s) (hpc : s.pc w = p)
    (hrest : ({ s'.view c with part := s.partOf c } : View) = s.view c)
    (hsame : s'.partAt w x p' = s.partAt w x p) : s'.view c = s.view c := by
  have hside : p.side = some x := hpc ▸ h.side
  rw [h.view hp, hrest, hsame, ← partOf_own hp hpc hside]
  show ({ s.view c with part := Function.update (s.partOf c) x (s.partOf c x) } : View) = _
  rw [Function.update_eq_self]
  rfl

/-- If it only goes on in a check, that is what the protocol sees. -/
theorem Works.view_tail {p p' : WorkerPc} (h : Works s s' w x p') (hp : Placed c s) (hpc : s.pc w = p)
    (hsame : s'.partAt w x p' = { s.partAt w x p with tail := p'.tail }) :
    s'.view c = { s'.view c with
      part := Function.update (s.partOf c) x { s.partOf c x with tail := p'.tail } } := by
  have hside : p.side = some x := hpc ▸ h.side
  refine (h.view hp).trans ?_
  rw [partOf_own hp hpc hside, hsame]
  rfl

theorem restOf_append (x : Side) (queue : List Action) {a : Action} {k : Kind} (ha : a.side = x)
    (hk : a.kind = some k) : restOf x (queue ++ [a]) = restOf x queue ++ [k] := by
  unfold restOf
  simp [List.filter_append, ha, hk]

/-- Posting an action of side `x` is not seen by the other side. -/
theorem filter_post (hy : y ≠ x) {a : Action} (ha : a.side = x) (s : Stream) (w' : ℕ) :
    ((s.post c x a).queue w').filter (·.side = y) = (s.queue w').filter (·.side = y) := by
  unfold post
  cases c.worker x with
  | none => rfl
  | some w =>
    by_cases hw : w' = w
    · subst hw
      have : a.side ≠ y := by rw [ha]; exact hy.symm
      simp [this]
    · simp [hw]

/-- A worker posts to its own side. -/
theorem Works.post {p : WorkerPc} {a : Action} (hp : Placed c s) (h : (s.pc w).side = some x)
    (ha : a.side = x) (hown : Own x p) : Works s ((s.post c x a).setPc w p) w x p := by
  have hx := hp.pc w x h
  refine ⟨h, ?_, hown, ?_, ?_, ?_⟩
  · rw [post_of_worker hx]; rfl
  · intro y _
    rw [post_of_worker hx]; rfl
  · intro y _
    rw [post_of_worker hx]; rfl
  · intro y hy w'
    exact filter_post hy ha s w'

section Life

/-- A starter's and a finisher's steps are moves of the protocol. -/
theorem lifeStep_view {p : WorkerPc} (hp : Placed c s) (hpc : s.pc w = p)
    (hs : s.lifeStep c w p = some s') : Moves c (s.view c) (s'.view c) := by
  have hside : ∀ x, p.side = some x → (s.pc w).side = some x := fun x hx => by rw [hpc]; exact hx
  -- each step writes its side's part alone (`Works`), or is the store of a check
  cases p with
  | starterCreate x =>
    obtain rfl := Option.some.inj hs
    have hw : Works s ((s.setPool x (s.pool x).create).setPc w (.starterReady x)) w x (.starterReady x) := by
      refine ⟨hside x rfl, rfl, .inl rfl, fun _ _ => rfl, ?_, fun _ _ _ => rfl⟩
      intro y hy
      simp [hy]
    refine hw.moves hp hpc rfl ?_
    simp only [partAt, pool_setPc, pool_setPool, Function.update_self]
    exact .create rfl rfl
  | starterReady x =>
    cases x with
    | rx =>
      obtain rfl := Option.some.inj hs
      have hw : Works s ((s.setCtx .rx .initialized).setPc w .starterPost) w .rx .starterPost := by
        refine ⟨hside .rx rfl, rfl, .inl rfl, ?_, fun _ _ => rfl, fun _ _ _ => rfl⟩
        intro y hy
        simp [hy]
      exact hw.moves hp hpc rfl (.readyRx rfl rfl rfl)
    | tx =>
      obtain rfl := Option.some.inj hs
      have hw : Works s ((s.setCtx .tx .initialized).setPc w (.startLoad .tx .rx)) w .tx (.startLoad .tx .rx) := by
        refine ⟨hside .tx rfl, rfl, .inl rfl, ?_, fun _ _ => rfl, fun _ _ _ => rfl⟩
        intro y hy
        simp [hy]
      exact hw.moves hp hpc rfl (.readyTx rfl rfl rfl)
  | starterPost =>
    obtain rfl := Option.some.inj hs
    have hx := hp.pc w .rx (hside .rx rfl)
    have hw := Works.post hp (hside .rx rfl) (rfl : Action.rxF.side = .rx)
      (.inl rfl : Own .rx (.startLoad .rx .rx))
    rw [post_of_worker hx] at hw ⊢
    refine hw.moves hp hpc rfl ?_
    have hrest := restOf_append .rx (s.queue w) (rfl : Action.rxF.side = .rx) (rfl : _ = some Kind.read)
    simp only [partAt, queue_setPc, Function.update_self, hrest]
    exact .post rfl rfl rfl
  | startLoad x y =>
    simp only [lifeStep] at hs
    split at hs
    · rename_i hpass
      obtain rfl := Option.some.inj hs
      refine (Works.setPc (hside x rfl) ?_).moves hp hpc rfl ?_
      · cases y <;> exact .inl rfl
      · cases y <;> exact .startPass rfl hpass
    · rename_i hfail
      obtain rfl := Option.some.inj hs
      rw [not_or, Option.isNone_iff_eq_none, ← ne_eq, ← Option.isSome_iff_ne_none] at hfail
      exact (Works.setPc (hside x rfl) (.inr rfl)).moves hp hpc rfl (.startFail rfl hfail.1 hfail.2)
  | startStore x =>
    obtain rfl := Option.some.inj hs
    have hw : Works s { s.setPc w (.startSend x) with initState := .initialized } w x (.startSend x) :=
      ⟨hside x rfl, rfl, .inl rfl, fun _ _ => rfl, fun _ _ => rfl, fun _ _ _ => rfl⟩
    rw [hw.view_tail hp hpc rfl]
    refine Moves.startStore (x := x) ?_
    show (s.partOf c x).tail = .startStore
    rw [partOf_own hp hpc rfl]
    rfl
  | startSend x =>
    obtain rfl := Option.some.inj hs
    have hw : Works s { s.setPc w .idle with startedFlag := true } w x .idle :=
      ⟨hside x rfl, rfl, .inr rfl, fun _ _ => rfl, fun _ _ => rfl, fun _ _ _ => rfl⟩
    rw [hw.view_tail hp hpc rfl]
    refine Moves.startSend (x := x) ?_
    show (s.partOf c x).tail = .startSend
    rw [partOf_own hp hpc rfl]
    rfl
  | finisherCas x =>
    simp only [lifeStep] at hs
    split at hs
    · rename_i hctx
      obtain rfl := Option.some.inj hs
      have hw : Works s ((s.setCtx x .uninitialized).setPc w (.finisherDestroy x)) w x (.finisherDestroy x) := by
        refine ⟨hside x rfl, rfl, .inl rfl, ?_, fun _ _ => rfl, fun _ _ _ => rfl⟩
        intro y hy
        simp [hy]
      refine hw.moves hp hpc rfl ?_
      simp only [partAt, ctx_setPc, ctx_setCtx, Function.update_self]
      exact .finish rfl rfl hctx
    · rename_i hctx
      obtain rfl := Option.some.inj hs
      exact (Works.setPc (hside x rfl) (.inl rfl)).moves hp hpc rfl (.skip rfl rfl hctx)
  | finisherDestroy x =>
    obtain rfl := Option.some.inj hs
    have hw : Works s ((s.setPool x (s.pool x).destroy).setPc w (.stopLoad x .rx)) w x (.stopLoad x .rx) := by
      refine ⟨hside x rfl, rfl, .inl rfl, fun _ _ => rfl, ?_, fun _ _ _ => rfl⟩
      intro y hy
      simp [hy]
    refine hw.moves hp hpc rfl ?_
    simp only [partAt, pool_setPc, pool_setPool, Function.update_self]
    exact .destroy rfl
  | stopLoad x y =>
    simp only [lifeStep] at hs
    split at hs
    · rename_i hpass
      obtain rfl := Option.some.inj hs
      refine (Works.setPc (hside x rfl) ?_).moves hp hpc rfl ?_
      · cases y <;> exact .inl rfl
      · cases y <;> exact .stopPass rfl hpass
    · rename_i hfail
      obtain rfl := Option.some.inj hs
      exact (Works.setPc (hside x rfl) (.inr rfl)).moves hp hpc rfl (.stopFail rfl hfail)
  | stopStore x =>
    obtain rfl := Option.some.inj hs
    have hw : Works s { s.setPc w (.stopSend x) with initState := .uninitialized } w x (.stopSend x) :=
      ⟨hside x rfl, rfl, .inl rfl, fun _ _ => rfl, fun _ _ => rfl, fun _ _ _ => rfl⟩
    rw [hw.view_tail hp hpc rfl]
    refine Moves.stopStore (x := x) ?_
    show (s.partOf c x).tail = .stopStore
    rw [partOf_own hp hpc rfl]
    rfl
  | stopSend x =>
    obtain rfl := Option.some.inj hs
    have hw : Works s { s.setPc w .idle with stoppedFlag := true } w x .idle :=
      ⟨hside x rfl, rfl, .inr rfl, fun _ _ => rfl, fun _ _ => rfl, fun _ _ _ => rfl⟩
    rw [hw.view_tail hp hpc rfl]
    refine Moves.stopSend (x := x) ?_
    show (s.partOf c x).tail = .stopSend
    rw [partOf_own hp hpc rfl]
    rfl
  | _ => cases hs

end Life

/-- `rx_f` posts itself again. -/
theorem repost_moves {p p' : WorkerPc} (hp : Placed c s) (hpc : s.pc w = p) (hside : p.side = some .rx)
    (hkind : p.kind = some .reading) (htail : p.tail = .none) (hown : Own .rx p') (hkind' : p'.kind = none)
    (htail' : p'.tail = .none) : Moves c (s.view c) (((s.post c .rx .rxF).setPc w p').view c) := by
  have hside' : (s.pc w).side = some .rx := hpc ▸ hside
  have hx := hp.pc w .rx hside'
  have hw := Works.post hp hside' (rfl : Action.rxF.side = .rx) hown
  rw [post_of_worker hx] at hw ⊢
  refine hw.moves hp hpc rfl ?_
  have hrest := restOf_append .rx (s.queue w) (rfl : Action.rxF.side = .rx) (rfl : _ = some Kind.read)
  simp only [partAt, queue_setPc, Function.update_self, hrest, hkind, htail, hkind', htail']
  exact .repost rfl rfl rfl

section Pools

/-- The protocol sees only whether a pool has a queue. -/
theorem view_setPool {p : Store} (h : p.q.isSome = (s.pool x).q.isSome) :
    (s.setPool x p).view c = s.view c := by
  have hpart : (s.setPool x p).partOf c = s.partOf c := by
    funext y
    have hq : ((s.setPool x p).pool y).q.isSome = (s.pool y).q.isSome := by
      by_cases hy : y = x
      · subst hy
        simpa using h
      · simp [hy]
    unfold partOf
    rw [hq]
    rfl
  exact congrArg (fun part => ({ s.view c with part := part } : View)) hpart

/-- The protocol does not see a worker go on in the same pending action or check. -/
theorem view_setPc {p p' : WorkerPc} (hp : Placed c s) (hpc : s.pc w = p) (hside : p.side = some x)
    (hown : Own x p') (hkind : p'.kind = p.kind) (htail : p'.tail = p.tail) :
    (s.setPc w p').view c = s.view c := by
  refine (Works.setPc (hpc ▸ hside) hown).unseen hp hpc rfl ?_
  unfold partAt
  rw [hkind, htail]
  rfl

/-- Nor what it does to the pool meanwhile. -/
theorem view_setPool_setPc {p p' : WorkerPc} {q : Store} (hp : Placed c s) (hpc : s.pc w = p)
    (hside : p.side = some x) (hq : q.q.isSome = (s.pool x).q.isSome) (hown : Own x p')
    (hkind : p'.kind = p.kind) (htail : p'.tail = p.tail) :
    ((s.setPool x q).setPc w p').view c = s.view c := by
  have hp' : Placed c (s.setPool x q) := ⟨hp.queue, hp.pc⟩
  exact (view_setPc hp' hpc hside hown hkind htail).trans (view_setPool hq)

theorem isSome_dequeue {p p' : Store} {b : ℕ} (h : p.dequeue = some (b, p')) :
    p'.q.isSome = p.q.isSome := by
  unfold Store.dequeue at h
  split at h
  · rename_i hq
    cases h
    rw [hq]
    rfl
  · cases h

theorem isSome_enqueue (p : Store) (b : ℕ) : (p.enqueue b).q.isSome = p.q.isSome := by
  unfold Store.enqueue
  split
  · rename_i hq
    split
    · rw [hq]; rfl
    · rfl
  · rfl

end Pools

section Receive

/-- The steps of `rx_f` are moves of the protocol, or it does not see them. -/
theorem rxStep_view {p : WorkerPc} (hp : Placed c s) (hpc : s.pc w = p)
    (hs : s.rxStep c w n p = some s') : s'.view c = s.view c ∨ Moves c (s.view c) (s'.view c) := by
  have hside : ∀ x, p.side = some x → (s.pc w).side = some x := fun x hx => by rw [hpc]; exact hx
  cases p with
  | rxLoad =>
    obtain rfl := Option.some.inj hs
    split
    · rename_i hctx
      exact .inr ((Works.setPc (hside .rx rfl) (.inl rfl)).moves hp hpc rfl (.load rfl rfl rfl hctx))
    · rename_i hctx
      exact .inr ((Works.setPc (hside .rx rfl) (.inr rfl)).moves hp hpc rfl (.die rfl rfl rfl hctx))
  | rxAlloc =>
    simp only [rxStep] at hs
    split at hs
    · rename_i b q hq
      obtain rfl := Option.some.inj hs
      exact .inl (view_setPool_setPc hp hpc rfl (isSome_dequeue hq) (.inl rfl) rfl rfl)
    · obtain rfl := Option.some.inj hs
      exact .inl (view_setPc hp hpc rfl (.inl rfl) rfl rfl)
  | rxAdd b =>
    obtain rfl := Option.some.inj hs
    exact .inl (view_setPool_setPc hp hpc rfl rfl (.inl rfl) rfl rfl)
  | rxRead b =>
    simp only [rxStep] at hs
    split at hs
    · obtain rfl := Option.some.inj hs
      exact .inl (view_setPc hp hpc rfl (.inl rfl) rfl rfl)
    · obtain rfl := Option.some.inj hs
      exact .inl (view_setPc hp hpc rfl (.inl rfl : Own .rx (.rxCallback b n)) rfl rfl)
  | rxCallback b m =>
    obtain rfl := Option.some.inj hs
    exact .inl (view_setPc hp hpc rfl (.inl rfl) rfl rfl)
  | rxPost b =>
    obtain rfl := Option.some.inj hs
    exact .inr (repost_moves hp hpc rfl rfl rfl (.inl rfl) rfl rfl)
  | rxRetry =>
    obtain rfl := Option.some.inj hs
    exact .inr (repost_moves hp hpc rfl rfl rfl (.inr rfl) rfl rfl)
  | rxFree b =>
    obtain rfl := Option.some.inj hs
    unfold freeStep
    dsimp only
    split
    · exact .inl (view_setPool (s := s) rfl)
    · split
      · exact .inl (view_setPool_setPc (hp.of_eq rfl rfl) hpc rfl rfl (.inl rfl) rfl rfl)
      · exact .inl (view_setPool_setPc (hp.of_eq rfl rfl) hpc rfl rfl (.inr rfl) rfl rfl)
  | rxEnqueue b =>
    obtain rfl := Option.some.inj hs
    exact .inl (view_setPool_setPc hp hpc rfl (isSome_enqueue _ b) (.inr rfl) rfl rfl)
  | _ => cases hs

end Receive

section Transmit

/-- The protocol does not see the steps of `tx_f`. -/
theorem txStep_view {p : WorkerPc} (hp : Placed c s) (hpc : s.pc w = p)
    (hs : s.txStep w n p = some s') : s'.view c = s.view c := by
  cases p with
  | txLoad b k =>
    obtain rfl := Option.some.inj hs
    split
    · exact view_setPc hp hpc rfl (.inl rfl) rfl rfl
    · exact view_setPc hp hpc rfl (.inl rfl) rfl rfl
  | txCheck b k =>
    obtain rfl := Option.some.inj hs
    split
    · exact view_setPc hp hpc rfl (.inl rfl) rfl rfl
    · exact view_setPc hp hpc rfl (.inl rfl) rfl rfl
  | txWrite b k =>
    obtain rfl := Option.some.inj hs
    exact view_setPc (hp.of_eq rfl rfl) hpc rfl (.inl rfl) rfl rfl
  | txNotify b k status m =>
    obtain rfl := Option.some.inj hs
    unfold notify
    split
    · exact view_setPc (hp.of_eq rfl rfl) hpc rfl (.inl rfl) rfl rfl
    · exact view_setPc hp hpc rfl (.inl rfl) rfl rfl
  | txFree b k =>
    obtain rfl := Option.some.inj hs
    have hsame : (s.setPool .tx ((s.pool .tx).fetchSub b)).view c = s.view c := view_setPool rfl
    unfold freeStep
    dsimp only
    split
    · exact hsame
    · split
      · refine Eq.trans ?_ hsame
        exact view_setPc (hp.of_eq rfl rfl) hpc rfl (.inl rfl) rfl rfl
      · refine Eq.trans ?_ hsame
        exact view_setPc (hp.of_eq rfl rfl) hpc rfl (.inr rfl) rfl rfl
  | txEnqueue b k =>
    obtain rfl := Option.some.inj hs
    have hsame : (s.setPool .tx ((s.pool .tx).enqueue b)).view c = s.view c :=
      view_setPool (isSome_enqueue _ b)
    refine Eq.trans ?_ hsame
    exact view_setPc (hp.of_eq rfl rfl) hpc rfl (.inr rfl) rfl rfl
  | _ => cases hs

end Transmit

section Control

/-- The controller's change of a context is seen in that side only. -/
theorem view_setCtx (s : Stream) (x : Side) (st : InitState) :
    (s.setCtx x st).view c = (s.view c).setPart x { s.partOf c x with ctx := st } := by
  have hpart : (s.setCtx x st).partOf c = Function.update (s.partOf c) x { s.partOf c x with ctx := st } := by
    funext y
    unfold partOf
    by_cases hy : y = x
    · subst hy
      rw [Function.update_self]
      cases c.worker y <;> simp
    · rw [Function.update_of_ne hy]
      cases c.worker y <;> simp [hy]
  exact congrArg (fun part => ({ s.view c with part := part } : View)) hpart

/-- The controller's post is seen at the end of that side's pending actions. -/
theorem view_post (hx : (c.worker x).isSome) {a : Action} {k : Kind} (ha : a.side = x) (hk : a.kind = some k) :
    (s.post c x a).view c = (s.view c).setPart x { s.partOf c x with pend := (s.partOf c x).pend ++ [k] } := by
  obtain ⟨w, hw⟩ := Option.isSome_iff_exists.1 hx
  have hpart : (s.post c x a).partOf c =
      Function.update (s.partOf c) x { s.partOf c x with pend := (s.partOf c x).pend ++ [k] } := by
    funext y
    by_cases hy : y = x
    · subst hy
      rw [Function.update_self, partOf_of_worker hw, partOf_of_worker hw, post_of_worker hw]
      simp only [pendOf, Function.update_self, restOf_append y _ ha hk, List.append_assoc]
    · rw [Function.update_of_ne hy]
      have hfilter := filter_post (c := c) hy ha s
      unfold partOf
      cases c.worker y with
      | none => rw [post_of_worker hw]
      | some w' =>
        simp only [pendOf, restOf, hfilter w']
        rw [post_of_worker hw]
  rw [post_of_worker hw] at hpart ⊢
  exact congrArg (fun part => ({ s.view c with part := part } : View)) hpart

/-- The controller's steps are moves of the protocol, except a failed assertion. -/
theorem controlStep_view (hu : Posts c s.control) (hs : s.controlStep c = some s') :
    s'.view c = s.view c ∨ Moves c (s.view c) (s'.view c) := by
  unfold controlStep at hs
  split at hs
  · -- start: the compare-and-swap, which may be refused
    rename_i hctl
    split at hs
    · obtain rfl := Option.some.inj hs
      exact .inr (.startCas hctl ‹_›)
    · obtain rfl := Option.some.inj hs
      exact .inr (.startRefused hctl ‹_›)
  · rename_i hctl
    obtain rfl := Option.some.inj hs
    exact .inr (.startClear hctl)
  · -- a side of the start: its context, unless it has no worker
    rename_i x hctl
    split at hs
    · rename_i hx
      obtain rfl := Option.some.inj hs
      have hview := view_setCtx (c := c) s x .initializing
      refine .inr ?_
      show Moves c (s.view c) { (s.setCtx x .initializing).view c with control := .startPost x }
      rw [hview]
      exact .startSet hctl hx
    · rename_i hx
      obtain rfl := Option.some.inj hs
      exact .inr (.startSkip hctl (by simpa using hx))
  · -- its starter is posted to the worker of the side
    rename_i x hctl
    obtain rfl := Option.some.inj hs
    have hx := hu x (.inl hctl)
    have hview := view_post (s := s) hx (rfl : (Action.starter x).side = x) rfl
    refine .inr ?_
    show Moves c (s.view c) { (s.post c x (.starter x)).view c with control := afterStart x }
    rw [hview]
    exact .startPost hctl hx
  · rename_i hctl
    obtain rfl := Option.some.inj hs
    exact .inr (.startUnstop hctl)
  · -- the start returns when the worker has set the flag
    rename_i hctl
    split at hs
    · rename_i hflag
      obtain rfl := Option.some.inj hs
      exact .inr (.startReturn hctl hflag)
    · cases hs
  · -- stop: the compare-and-swap, which may be refused
    rename_i hctl
    split at hs
    · obtain rfl := Option.some.inj hs
      exact .inr (.stopCas hctl ‹_›)
    · obtain rfl := Option.some.inj hs
      exact .inr (.stopRefused hctl ‹_›)
  · rename_i hctl
    obtain rfl := Option.some.inj hs
    exact .inr (.stopCheck hctl)
  · rename_i hctl
    obtain rfl := Option.some.inj hs
    exact .inr (.stopClear hctl)
  · rename_i hctl
    obtain rfl := Option.some.inj hs
    exact .inr (.stopMark hctl)
  · -- a side of the stop: its context, if it is not stopped yet
    rename_i x hctl
    split at hs
    · rename_i hctx
      obtain rfl := Option.some.inj hs
      have hview := view_setCtx (c := c) s x .uninitializing
      refine .inr ?_
      show Moves c (s.view c) { (s.setCtx x .uninitializing).view c with control := .stopPost x }
      rw [hview]
      exact .stopSet hctl ((partOf_ctx s x).trans hctx)
    · obtain rfl := Option.some.inj hs
      exact .inl rfl
    · rename_i h1 h2
      obtain rfl := Option.some.inj hs
      refine .inr (.stopSkip hctl ?_ ?_)
      · exact fun h => h1 ((partOf_ctx s x).symm.trans h)
      · exact fun h => h2 ((partOf_ctx s x).symm.trans h)
  · -- its finisher is posted to the worker of the side
    rename_i x hctl
    obtain rfl := Option.some.inj hs
    have hx := hu x (.inr hctl)
    have hview := view_post (s := s) hx (rfl : (Action.finisher x).side = x) rfl
    refine .inr ?_
    show Moves c (s.view c) { (s.post c x (.finisher x)).view c with control := afterStop x }
    rw [hview]
    exact .stopPost hctl hx
  · -- the stop returns when the worker has set the flag
    rename_i hctl
    split at hs
    · rename_i hflag
      obtain rfl := Option.some.inj hs
      exact .inr (.stopReturn hctl hflag)
    · cases hs

end Control

section Worker

/-- Taking an action from the queue is not seen. -/
theorem dequeue_view {a : Action} {rest : List Action} (hpc : s.pc w = .idle) (hq : s.queue w = a :: rest) :
    ({ s.setPc w a.entry with queue := Function.update s.queue w rest } : Stream).view c = s.view c := by
  have hentry : a.entry.side = some a.side ∧ a.entry.kind = a.kind ∧ a.entry.tail = .none := by
    cases a <;> exact ⟨rfl, rfl, rfl⟩
  obtain ⟨hside, hkind, htail⟩ := hentry
  have hpart : ({ s.setPc w a.entry with queue := Function.update s.queue w rest } : Stream).partOf c =
      s.partOf c := by
    funext y
    unfold partOf
    cases c.worker y with
    | none => rfl
    | some w' =>
      by_cases hw : w' = w
      · subst hw
        by_cases hy : a.side = y
        · subst hy
          have hidle : (WorkerPc.idle).side ≠ some a.side := by simp [WorkerPc.side]
          simp only [pendOf, tailOf, restOf, pc_setPc, Function.update_self, hside, if_true, hkind, htail, hpc,
            hq, if_neg hidle]
          cases hk : a.kind <;> simp [hk, setPc]
        · have hidle : (WorkerPc.idle).side ≠ some y := by simp [WorkerPc.side]
          have hne : a.entry.side ≠ some y := by rw [hside]; simpa using hy
          simp only [pendOf, tailOf, restOf, pc_setPc, Function.update_self, if_neg hne, hpc, hq, if_neg hidle]
          simp [hy, setPc]
      · simp [Function.update_of_ne hw, setPc]
  exact congrArg (fun part => ({ s.view c with part := part } : View)) hpart

/-- A worker's step between actions. -/
theorem workStep_idle (hidle : s.pc w = .idle) (hs : s.workStep c w n = some s') :
    ∃ a rest, s.queue w = a :: rest ∧
      s' = { s.setPc w a.entry with queue := Function.update s.queue w rest } := by
  unfold workStep at hs
  rw [hidle] at hs
  simp only at hs
  split at hs
  · rename_i a rest hq
    exact ⟨a, rest, hq, (Option.some.inj hs).symm⟩
  · cases hs

/-- A worker's step inside an action: `starter_f`, `finisher_f`, `rx_f` or `tx_f`. -/
theorem workStep_cases {p : WorkerPc} (hpc : s.pc w = p) (hne : p ≠ .idle)
    (hs : s.workStep c w n = some s') :
    s.lifeStep c w p = some s' ∨ s.rxStep c w n p = some s' ∨ s.txStep w n p = some s' := by
  unfold workStep at hs
  rw [hpc] at hs
  cases p with
  | idle => exact absurd rfl hne
  | starterCreate | starterReady | starterPost | startLoad | startStore | startSend | finisherCas
  | finisherDestroy | stopLoad | stopStore | stopSend => exact .inl (by simpa [lifeStep, rxStep, txStep] using hs)
  | rxLoad | rxAlloc | rxAdd | rxRead | rxCallback | rxPost | rxFree | rxEnqueue | rxRetry =>
    exact .inr (.inl (by simpa [lifeStep, rxStep, txStep] using hs))
  | txLoad | txCheck | txWrite | txNotify | txFree | txEnqueue =>
    exact .inr (.inr (by simpa [lifeStep, rxStep, txStep] using hs))

theorem workStep_view (hp : Placed c s) (hs : s.workStep c w n = some s') :
    s'.view c = s.view c ∨ Moves c (s.view c) (s'.view c) := by
  by_cases hidle : s.pc w = .idle
  · obtain ⟨a, rest, hq, rfl⟩ := workStep_idle hidle hs
    exact .inl (dequeue_view hidle hq)
  · rcases workStep_cases rfl hidle hs with h | h | h
    · exact .inr (lifeStep_view hp rfl h)
    · exact rxStep_view hp rfl h
    · exact .inl (txStep_view hp rfl h)

end Worker

section Clients

/-- The protocol does not see a request on its way to `tx_f`. -/
theorem view_send (s : Stream) (b k : ℕ) : (s.post c .tx (.txF b k)).view c = s.view c := by
  unfold post
  cases hw : c.worker .tx with
  | none => rfl
  | some w =>
    have hrest : ∀ y w', restOf y (Function.update s.queue w (s.queue w ++ [.txF b k]) w') =
        restOf y (s.queue w') := by
      intro y w'
      by_cases hw' : w' = w
      · subst hw'
        rw [Function.update_self]
        unfold restOf
        cases y <;> simp [List.filter_append, Action.side, Action.kind]
      · rw [Function.update_of_ne hw']
    have hpart : ({ s with queue := Function.update s.queue w (s.queue w ++ [.txF b k]) } : Stream).partOf c =
        s.partOf c := by
      funext y
      unfold partOf pendOf
      cases c.worker y with
      | none => rfl
      | some w' => simp only [hrest]
    exact congrArg (fun part => ({ s.view c with part := part } : View)) hpart

theorem freeStep_view {b : ℕ} {last more : Stream → Stream} (hlast : ∀ s, (last s).view c = s.view c)
    (hmore : ∀ s, (more s).view c = s.view c) : (s.freeStep x b last more).view c = s.view c := by
  have hsame : (s.setPool x ((s.pool x).fetchSub b)).view c = s.view c := view_setPool rfl
  unfold freeStep
  dsimp only
  split
  · exact hsame
  · split
    · rw [hlast, hsame]
    · rw [hmore, hsame]

theorem tokenStep_view {k : ℕ} {t : Token} (hs : s.tokenStep c k t = some s') :
    s'.view c = s.view c := by
  unfold tokenStep at hs
  split at hs
  · split at hs
    · rename_i hq
      obtain rfl := Option.some.inj hs
      exact view_setPool (s := s) (isSome_dequeue hq)
    · obtain rfl := Option.some.inj hs
      rfl
  · obtain rfl := Option.some.inj hs
    exact view_setPool (s := s) (p := (s.pool .tx).fetchAdd _) rfl
  · split at hs
    · obtain rfl := Option.some.inj hs
      rfl
    · obtain rfl := Option.some.inj hs
      rfl
  · obtain rfl := Option.some.inj hs
    rfl
  · obtain rfl := Option.some.inj hs
    exact view_send s _ k
  · obtain rfl := Option.some.inj hs
    exact freeStep_view (fun _ => rfl) (fun _ => rfl)
  · obtain rfl := Option.some.inj hs
    exact view_setPool (s := s) (isSome_enqueue _ _)
  · cases hs

/-- A client's call on a token it has. -/
theorem holdStep_cases {k : ℕ} {f : Token → ℕ → Stream} (hs : s.holdStep k f = some s') :
    ∃ t b, s.tokens[k]? = some t ∧ t.pc = .held b ∧ s' = f t b := by
  unfold holdStep at hs
  split at hs
  · rename_i t ht
    split at hs
    · rename_i b hb
      exact ⟨t, b, ht, hb, (Option.some.inj hs).symm⟩
    · cases hs
  · cases hs

/-- **A stream follows the protocol.** -/
theorem step_view {a : Act} (hp : Placed c s) (hu : Posts c s.control) (hs : s.step c a = some s') :
    s'.view c = s.view c ∨ Moves c (s.view c) (s'.view c) := by
  unfold step at hs
  split at hs
  · cases hs
  cases a with
  | control => exact controlStep_view hu hs
  | work w n => exact workStep_view hp hs
  | allocate =>
    dsimp only at hs
    split at hs
    · obtain rfl := Option.some.inj hs
      exact .inl rfl
    · obtain rfl := Option.some.inj hs
      exact .inl rfl
  | token k =>
    obtain ⟨t, -, ht⟩ := Option.bind_eq_some_iff.1 hs
    exact .inl (tokenStep_view ht)
  | fill k payload =>
    obtain ⟨t, b, -, -, rfl⟩ := holdStep_cases hs
    exact .inl rfl
  | send k size fn priv =>
    obtain ⟨t, b, -, -, rfl⟩ := holdStep_cases hs
    refine .inl ?_
    split
    · rfl
    · rfl
  | release k =>
    obtain ⟨t, b, -, -, rfl⟩ := holdStep_cases hs
    exact .inl rfl
  | releaseRx b =>
    dsimp only at hs
    split at hs
    · obtain rfl := Option.some.inj hs
      exact .inl (freeStep_view (fun _ => rfl) (fun _ => rfl))
    · cases hs
  | enqueueRx b =>
    dsimp only at hs
    split at hs
    · obtain rfl := Option.some.inj hs
      exact .inl (view_setPool (s := s) (isSome_enqueue _ b))
    · cases hs
  | setError e =>
    obtain rfl := Option.some.inj hs
    exact .inl rfl

end Clients

section Placement

/-- A step brings no action to a worker that is not its side's. -/
structure Carried (c : Config) (s s' : Stream) : Prop where
  queue : ∀ w, ∀ a ∈ s'.queue w, a ∈ s.queue w ∨ c.worker a.side = some w
  pc : ∀ w x, (s'.pc w).side = some x → (s.pc w).side = some x ∨ ∃ a ∈ s.queue w, a.side = x

theorem Carried.placed (h : Carried c s s') (hp : Placed c s) : Placed c s' := by
  refine ⟨?_, ?_⟩
  · intro w a ha
    rcases h.queue w a ha with ha | ha
    · exact hp.queue w a ha
    · exact ha
  · intro w x hx
    rcases h.pc w x hx with hx | ⟨a, ha, rfl⟩
    · exact hp.pc w x hx
    · exact hp.queue w a ha

theorem Carried.of_eq (hq : s'.queue = s.queue) (hpc : s'.pc = s.pc) : Carried c s s' :=
  ⟨fun w a ha => .inl (by rwa [hq] at ha), fun w x hx => .inl (by rwa [hpc] at hx)⟩

theorem mem_post {a b : Action} (ha : a.side = x) (hb : b ∈ (s.post c x a).queue w) :
    b ∈ s.queue w ∨ c.worker b.side = some w := by
  unfold post at hb
  cases hx : c.worker x with
  | none => rw [hx] at hb; exact .inl hb
  | some w' =>
    rw [hx] at hb
    by_cases hw : w = w'
    · subst hw
      simp only [Function.update_self, List.mem_append, List.mem_singleton] at hb
      rcases hb with hb | rfl
      · exact .inl hb
      · exact .inr (by rw [ha, hx])
    · simp only [Function.update_of_ne hw] at hb
      exact .inl hb

theorem Carried.post {a : Action} (ha : a.side = x) (hq : s'.queue = (s.post c x a).queue)
    (hpc : s'.pc = s.pc) : Carried c s s' :=
  ⟨fun w b hb => mem_post ha (by rwa [hq] at hb), fun w x hx => .inl (by rwa [hpc] at hx)⟩

/-- A worker goes on inside its action, or ends it. -/
theorem Carried.work {p p' : WorkerPc} (hpc : s.pc w = p) (hq : s'.queue = s.queue)
    (hpc' : s'.pc = Function.update s.pc w p') (hside : ∀ x, p'.side = some x → p.side = some x) :
    Carried c s s' := by
  refine ⟨fun w a ha => .inl (by rwa [hq] at ha), ?_⟩
  intro w' x hx
  rw [hpc'] at hx
  by_cases hw : w' = w
  · subst hw
    rw [Function.update_self] at hx
    exact .inl (hpc ▸ hside x hx)
  · rw [Function.update_of_ne hw] at hx
    exact .inl hx

/-- It posts meanwhile. -/
theorem Carried.workPost {p p' : WorkerPc} {a : Action} (hpc : s.pc w = p) (ha : a.side = x)
    (hside : ∀ y, p'.side = some y → p.side = some y) : Carried c s ((s.post c x a).setPc w p') := by
  have hpost : (s.post c x a).pc = s.pc := by
    unfold Stream.post
    split <;> rfl
  have hgo : Carried c s (s.setPc w p') := .work hpc rfl rfl hside
  refine ⟨fun w' b hb => mem_post ha hb, ?_⟩
  intro w' y hy
  rw [pc_setPc, hpost] at hy
  exact hgo.pc w' y hy

theorem lifeStep_carried {p : WorkerPc} (hpc : s.pc w = p) (hs : s.lifeStep c w p = some s') :
    Carried c s s' := by
  cases p with
  | starterReady x =>
    cases x with
    | rx => obtain rfl := Option.some.inj hs; exact .work hpc rfl rfl (fun _ h => h)
    | tx => obtain rfl := Option.some.inj hs; exact .work hpc rfl rfl (fun _ h => h)
  | starterPost => obtain rfl := Option.some.inj hs; exact .workPost hpc rfl (fun _ h => h)
  | startLoad x y =>
    simp only [lifeStep] at hs
    split at hs
    · obtain rfl := Option.some.inj hs
      refine .work hpc rfl rfl ?_
      cases y <;> exact fun _ h => h
    · obtain rfl := Option.some.inj hs; exact .work hpc rfl rfl nofun
  | finisherCas x =>
    simp only [lifeStep] at hs
    split at hs
    · obtain rfl := Option.some.inj hs; exact .work hpc rfl rfl (fun _ h => h)
    · obtain rfl := Option.some.inj hs; exact .work hpc rfl rfl (fun _ h => h)
  | stopLoad x y =>
    simp only [lifeStep] at hs
    split at hs
    · obtain rfl := Option.some.inj hs
      refine .work hpc rfl rfl ?_
      cases y <;> exact fun _ h => h
    · obtain rfl := Option.some.inj hs; exact .work hpc rfl rfl nofun
  | starterCreate | startStore | finisherDestroy | stopStore =>
    obtain rfl := Option.some.inj hs; exact .work hpc rfl rfl (fun _ h => h)
  | startSend | stopSend => obtain rfl := Option.some.inj hs; exact .work hpc rfl rfl nofun
  | _ => cases hs

/-- The ways a `pool_free` can go on. -/
theorem freeStep_cases {b : ℕ} {last more : Stream → Stream} {P : Stream → Prop}
    (htrip : P { s.setPool x ((s.pool x).fetchSub b) with tripped := true })
    (hlast : P (last (s.setPool x ((s.pool x).fetchSub b))))
    (hmore : P (more (s.setPool x ((s.pool x).fetchSub b)))) : P (s.freeStep x b last more) := by
  unfold freeStep
  dsimp only
  split
  · exact htrip
  · split
    · exact hlast
    · exact hmore

/-- A `pool_free` of a block with one reference. -/
theorem freeStep_last {b : ℕ} (h : (s.pool x).retainCount b = 1) (last more : Stream → Stream) :
    s.freeStep x b last more = last (s.setPool x ((s.pool x).fetchSub b)) := by
  simp [freeStep, h]

theorem rxStep_carried {p : WorkerPc} (hpc : s.pc w = p) (hs : s.rxStep c w n p = some s') :
    Carried c s s' := by
  cases p with
  | rxLoad =>
    obtain rfl := Option.some.inj hs
    split
    · exact .work hpc rfl rfl (fun _ h => h)
    · exact .work hpc rfl rfl nofun
  | rxAlloc =>
    simp only [rxStep] at hs
    split at hs
    · obtain rfl := Option.some.inj hs; exact .work hpc rfl rfl (fun _ h => h)
    · obtain rfl := Option.some.inj hs; exact .work hpc rfl rfl (fun _ h => h)
  | rxRead b =>
    simp only [rxStep] at hs
    split at hs
    · obtain rfl := Option.some.inj hs; exact .work hpc rfl rfl (fun _ h => h)
    · obtain rfl := Option.some.inj hs; exact .work hpc rfl rfl (fun _ h => h)
  | rxPost b => obtain rfl := Option.some.inj hs; exact .workPost hpc rfl (fun _ h => h)
  | rxRetry => obtain rfl := Option.some.inj hs; exact .workPost hpc rfl nofun
  | rxFree b =>
    obtain rfl := Option.some.inj hs
    refine freeStep_cases (P := Carried c s) ?_ ?_ ?_
    · exact .of_eq rfl rfl
    · exact .work hpc rfl rfl (fun _ h => h)
    · exact .work hpc rfl rfl nofun
  | rxAdd | rxCallback => obtain rfl := Option.some.inj hs; exact .work hpc rfl rfl (fun _ h => h)
  | rxEnqueue => obtain rfl := Option.some.inj hs; exact .work hpc rfl rfl nofun
  | _ => cases hs

theorem txStep_carried {p : WorkerPc} (hpc : s.pc w = p) (hs : s.txStep w n p = some s') :
    Carried c s s' := by
  cases p with
  | txLoad b k =>
    obtain rfl := Option.some.inj hs
    split
    · exact .work hpc rfl rfl (fun _ h => h)
    · exact .work hpc rfl rfl (fun _ h => h)
  | txCheck b k =>
    obtain rfl := Option.some.inj hs
    split
    · exact .work hpc rfl rfl (fun _ h => h)
    · exact .work hpc rfl rfl (fun _ h => h)
  | txWrite b k => obtain rfl := Option.some.inj hs; exact .work hpc rfl rfl (fun _ h => h)
  | txNotify b k status m =>
    obtain rfl := Option.some.inj hs
    unfold notify
    split
    · exact .work hpc rfl rfl (fun _ h => h)
    · exact .work hpc rfl rfl (fun _ h => h)
  | txFree b k =>
    obtain rfl := Option.some.inj hs
    refine freeStep_cases (P := Carried c s) ?_ ?_ ?_
    · exact .of_eq rfl rfl
    · exact .work hpc rfl rfl (fun _ h => h)
    · exact .work hpc rfl rfl nofun
  | txEnqueue b k => obtain rfl := Option.some.inj hs; exact .work hpc rfl rfl nofun
  | _ => cases hs

theorem workStep_carried (hs : s.workStep c w n = some s') : Carried c s s' := by
  by_cases hidle : s.pc w = .idle
  · obtain ⟨a, rest, hq, rfl⟩ := workStep_idle hidle hs
    refine ⟨?_, ?_⟩
    · intro w' b hb
      by_cases hw : w' = w
      · subst hw
        simp only [Function.update_self] at hb
        exact .inl (by rw [hq]; exact List.mem_cons_of_mem _ hb)
      · simp only [Function.update_of_ne hw] at hb
        exact .inl hb
    · intro w' x hx
      by_cases hw : w' = w
      · subst hw
        have hentry : a.entry.side = some a.side := by cases a <;> rfl
        simp only [pc_setPc, Function.update_self, hentry, Option.some.injEq] at hx
        exact .inr ⟨a, by rw [hq]; exact List.mem_cons_self, hx⟩
      · simp only [pc_setPc, Function.update_of_ne hw] at hx
        exact .inl hx
  · rcases workStep_cases rfl hidle hs with h | h | h
    · exact lifeStep_carried rfl h
    · exact rxStep_carried rfl h
    · exact txStep_carried rfl h

theorem controlStep_carried (hs : s.controlStep c = some s') : Carried c s s' := by
  have hpost : ∀ (x : Side) (a : Action), (s.post c x a).pc = s.pc := by
    intro x a
    unfold post
    split <;> rfl
  unfold controlStep at hs
  split at hs
  case h_4 x _ =>
    obtain rfl := Option.some.inj hs
    exact .post (a := .starter x) rfl rfl (hpost x _)
  case h_12 x _ =>
    obtain rfl := Option.some.inj hs
    exact .post (a := .finisher x) rfl rfl (hpost x _)
  case h_3 | h_11 =>
    split at hs
    all_goals
      obtain rfl := Option.some.inj hs
      exact .of_eq rfl rfl
  case h_1 | h_6 | h_7 | h_13 => split at hs <;> cases hs <;> exact .of_eq rfl rfl
  all_goals
    obtain rfl := Option.some.inj hs
    exact .of_eq rfl rfl

theorem tokenStep_carried {k : ℕ} {t : Token} (hs : s.tokenStep c k t = some s') : Carried c s s' := by
  unfold tokenStep at hs
  split at hs
  · split at hs
    · obtain rfl := Option.some.inj hs; exact .of_eq rfl rfl
    · obtain rfl := Option.some.inj hs; exact .of_eq rfl rfl
  · obtain rfl := Option.some.inj hs; exact .of_eq rfl rfl
  · split at hs
    · obtain rfl := Option.some.inj hs; exact .of_eq rfl rfl
    · obtain rfl := Option.some.inj hs; exact .of_eq rfl rfl
  · obtain rfl := Option.some.inj hs; exact .of_eq rfl rfl
  · rename_i b _
    obtain rfl := Option.some.inj hs
    refine .post (x := .tx) (a := .txF b k) rfl rfl ?_
    show (s.post c .tx (.txF b k)).pc = s.pc
    unfold post
    split <;> rfl
  · obtain rfl := Option.some.inj hs
    refine freeStep_cases (P := Carried c s) ?_ ?_ ?_
    all_goals exact .of_eq rfl rfl
  · obtain rfl := Option.some.inj hs; exact .of_eq rfl rfl
  · cases hs

theorem step_carried {a : Act} (hs : s.step c a = some s') : Carried c s s' := by
  unfold step at hs
  split at hs
  · cases hs
  cases a with
  | control => exact controlStep_carried hs
  | work w n => exact workStep_carried hs
  | allocate =>
    dsimp only at hs
    split at hs
    · obtain rfl := Option.some.inj hs; exact .of_eq rfl rfl
    · obtain rfl := Option.some.inj hs; exact .of_eq rfl rfl
  | token k =>
    obtain ⟨t, -, ht⟩ := Option.bind_eq_some_iff.1 hs
    exact tokenStep_carried ht
  | fill k payload =>
    obtain ⟨t, b, -, -, rfl⟩ := holdStep_cases hs
    exact .of_eq rfl rfl
  | send k size fn priv =>
    obtain ⟨t, b, -, -, rfl⟩ := holdStep_cases hs
    split
    · exact .of_eq rfl rfl
    · exact .of_eq rfl rfl
  | release k =>
    obtain ⟨t, b, -, -, rfl⟩ := holdStep_cases hs
    exact .of_eq rfl rfl
  | releaseRx b =>
    dsimp only at hs
    split at hs
    · obtain rfl := Option.some.inj hs
      refine freeStep_cases (P := Carried c s) ?_ ?_ ?_
      all_goals exact .of_eq rfl rfl
    · cases hs
  | enqueueRx b =>
    dsimp only at hs
    split at hs
    · obtain rfl := Option.some.inj hs; exact .of_eq rfl rfl
    · cases hs
  | setError e =>
    obtain rfl := Option.some.inj hs; exact .of_eq rfl rfl

end Placement

end Stream

end Cutils.Asyncio
