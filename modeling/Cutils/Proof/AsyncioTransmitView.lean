import Cutils.Spec.AsyncioTransmit
import Cutils.Proof.AsyncioCycle

/-!
# What the steps of a stream do to its transmit side

* `step_tx`: every step of a stream is a `TxStep`.
-/

namespace Cutils.Asyncio

open Blocks

theorem action_side (p : WorkerPc) : p.action.map Action.side = p.side := by
  cases p <;> rfl

theorem entry_action (a : Action) : a.entry.action = some a := by
  cases a <;> rfl

theorem action_idle : WorkerPc.action .idle = none := rfl

theorem sends_idle : WorkerPc.sends .idle = false := rfl

theorem side_of_sends {p : WorkerPc} (h : p.sends = true) : p.side = some .tx := by
  cases p <;> first | rfl | cases h

/-- An action of the other side is not in the line. -/
theorem filter_action {p : WorkerPc} (h : p.side ≠ some .tx) :
    p.action.toList.filter (fun a => a.side = .tx) = [] := by
  have hside := action_side p
  cases ha : p.action with
  | none => rfl
  | some a =>
    rw [ha] at hside
    have hne : a.side ≠ .tx := fun heq => h (by rw [← hside, Option.map_some, heq])
    simp [hne]

theorem filter_action_tx {p : WorkerPc} (h : p.side = some .tx) :
    p.action.toList.filter (fun a => a.side = .tx) = p.action.toList := by
  have hside := action_side p
  rw [h] at hside
  cases ha : p.action with
  | none => rfl
  | some a =>
    rw [ha, Option.map_some, Option.some.injEq] at hside
    simp [hside]

namespace Stream

variable {c : Config} {s s' : Stream} {w n : ℕ} {x : Side} {p p' : WorkerPc}

section Fields

variable (s : Stream) (q : Store) (e : Event) (k : ℕ) (t : Token) (pc : TokenPc)

theorem tx_setPool_tx : (s.setPool .tx q).tx c = { s.tx c with pool := q } := rfl

theorem tx_record (h : e.use.isSome) : (s.record e).tx c = { s.tx c with log := (s.tx c).log ++ [e] } := by
  refine Tx.ext rfl rfl rfl rfl rfl ?_ rfl rfl
  simp [record, tx, h]

theorem tx_record_rx (h : e.use = none) : (s.record e).tx c = s.tx c := by
  refine Tx.ext rfl rfl rfl rfl rfl ?_ rfl rfl
  simp [record, tx, h]

theorem tx_moveToken : (s.moveToken k pc).tx c =
    { s.tx c with tokens := s.tokens.modify k fun t => { t with pc := pc } } := rfl

/-- A post to the rx side's worker. -/
theorem tx_post_rx {a : Action} (ha : a.side ≠ .tx) : (s.post c x a).tx c = s.tx c := by
  have hq : ∀ w, ((s.post c x a).queue w).filter (fun a => a.side = .tx) =
      (s.queue w).filter fun a => a.side = .tx := by
    intro w
    unfold post
    split
    · rename_i w' _
      by_cases hw : w = w'
      · subst hw
        simp [ha]
      · simp [Function.update_of_ne hw]
    · rfl
  have heq := post_eq (c := c) s x a
  have hpc : (s.post c x a).pc = s.pc := by rw [heq]
  apply Tx.ext
  case line =>
    unfold tx
    dsimp only
    split
    · unfold jobs
      rw [List.filter_append, List.filter_append, hq, hpc]
    · rfl
  all_goals
    rw [heq]
    rfl

theorem tx_post_tx {a : Action} (hw : (c.worker .tx).isSome) (ha : a.side = .tx) :
    (s.post c .tx a).tx c = { s.tx c with line := (s.tx c).line ++ [a] } := by
  obtain ⟨w, hw⟩ := Option.isSome_iff_exists.1 hw
  rw [post_of_worker hw]
  refine Tx.ext rfl rfl rfl rfl rfl rfl ?_ ?_
  · simp [tx, hw, jobs, ha]
  · simp [tx, hw]

end Fields

section Worker

theorem line_of_tx (hp : Placed c s) (hpc : s.pc w = p) (hside : p.side = some .tx) :
    (s.tx c).line = p.action.toList ++ (s.queue w).filter fun a => a.side = .tx := by
  have hw := hp.pc w .tx (by rw [hpc]; exact hside)
  simp only [tx, hw, jobs, List.filter_append, hpc, filter_action_tx hside]

theorem pc_of_tx (hp : Placed c s) (hpc : s.pc w = p) (hside : p.side = some .tx) :
    (s.tx c).pc = if p.sends then p else .idle := by
  have hw := hp.pc w .tx (by rw [hpc]; exact hside)
  simp only [tx, hw, hpc]

/-- A worker goes on in something that is not the tx side's. -/
theorem tx_setPc_other (hpc : s.pc w = p) (h : p.side ≠ some .tx) (h' : p'.side ≠ some .tx) :
    (s.setPc w p').tx c = s.tx c := by
  have hs : ∀ {p : WorkerPc}, p.side ≠ some .tx → p.sends = false := fun h =>
    Bool.eq_false_iff.2 fun hs => h (side_of_sends hs)
  refine Tx.ext rfl rfl rfl rfl rfl rfl ?_ ?_
  · simp only [tx]
    split
    · rename_i v _
      by_cases hv : v = w
      · subst hv
        simp only [jobs, pc_setPc, Function.update_self, queue_setPc, List.filter_append, hpc,
          filter_action h, filter_action h']
      · simp only [jobs, pc_setPc, Function.update_of_ne hv, queue_setPc]
    · rfl
  · simp only [tx]
    split
    · rename_i v _
      by_cases hv : v = w
      · subst hv
        simp [hpc, hs h, hs h']
      · simp only [pc_setPc, Function.update_of_ne hv]
    · rfl

/-- The tx worker goes on inside its action. -/
theorem tx_setPc (hp : Placed c s) (hpc : s.pc w = p) (hside : p.side = some .tx) (ha : p'.action = p.action) :
    (s.setPc w p').tx c = { s.tx c with pc := if p'.sends then p' else .idle } := by
  have hw := hp.pc w .tx (by rw [hpc]; exact hside)
  refine Tx.ext rfl rfl rfl rfl rfl rfl ?_ ?_
  · simp only [tx, hw, jobs, pc_setPc, Function.update_self, queue_setPc, hpc, ha]
  · simp only [tx, hw, pc_setPc, Function.update_self]

/-- The tx worker ends its action. -/
theorem tx_setPc_idle {j : Action} (hp : Placed c s) (hpc : s.pc w = p) (hside : p.side = some .tx)
    (hj : p.action = some j) : ∃ l, (s.tx c).line = j :: l ∧
      (s.setPc w .idle).tx c = { s.tx c with line := l, pc := .idle } := by
  have hw := hp.pc w .tx (by rw [hpc]; exact hside)
  refine ⟨(s.queue w).filter fun a => a.side = .tx, ?_, ?_⟩
  · rw [line_of_tx hp hpc hside, hj]
    rfl
  · refine Tx.ext rfl rfl rfl rfl rfl rfl ?_ ?_
    · simp [tx, hw, jobs, action_idle]
    · simp [tx, hw, sends_idle]

/-- A worker takes its next action. -/
theorem dequeue_tx {a : Action} {rest : List Action} (hp : Placed c s) (hpc : s.pc w = .idle)
    (hq : s.queue w = a :: rest) :
    TxStep c s (.work w n) (({ s.setPc w a.entry with queue := Function.update s.queue w rest } : Stream).tx c) := by
  have hline : ∀ v, ({ s.setPc w a.entry with queue := Function.update s.queue w rest } : Stream).jobs v =
      s.jobs v := by
    intro v
    by_cases hv : v = w
    · subst hv
      simp [jobs, entry_action, hpc, hq, action_idle]
    · simp [jobs, setPc, Function.update_of_ne hv]
  have htx : ∀ pc, (∀ v, c.worker .tx = some v →
        (if (Function.update s.pc w a.entry v).sends then Function.update s.pc w a.entry v else .idle) = pc) →
      (c.worker .tx = none → pc = .idle) →
      ({ s.setPc w a.entry with queue := Function.update s.queue w rest } : Stream).tx c =
        { s.tx c with pc := pc } := by
    intro pc hsome hnone
    refine Tx.ext rfl rfl rfl rfl rfl rfl ?_ ?_
    · simp only [tx, hline]
    · simp only [tx]
      cases hw : c.worker .tx with
      | none => exact (hnone hw).symm
      | some v => exact hsome v hw
  -- a job of the transmit side is the first of its line, and starts
  by_cases hside : a.side = .tx
  · have hw : c.worker .tx = some w := by
      rw [← hside]
      exact hp.queue w a (by rw [hq]; exact List.mem_cons_self)
    have hpc0 : (s.tx c).pc = .idle := by simp [tx, hw, hpc, sends_idle]
    cases a with
    | txF b k =>
      rw [htx (.txLoad b k) ?_ (fun h => by rw [hw] at h; cases h)]
      · refine .take (l := rest.filter fun a => a.side = .tx) ?_ hpc0
        simp [tx, hw, jobs, hpc, hq, action_idle, Action.side]
      · intro v hv
        obtain rfl := Option.some.inj (hw.symm.trans hv)
        simp [Action.entry, WorkerPc.sends]
    | starter x | finisher x =>
      rw [htx .idle ?_ (fun _ => rfl), ← hpc0]
      · exact .keep
      · intro v hv
        obtain rfl := Option.some.inj (hw.symm.trans hv)
        simp [Action.entry, WorkerPc.sends]
    | rxF => cases hside
  · -- other jobs are not in the line
    have hs : a.entry.sends = false := by
      cases a with
      | txF => exact absurd rfl hside
      | _ => rfl
    have hkeep : ({ s.setPc w a.entry with queue := Function.update s.queue w rest } : Stream).tx c = s.tx c := by
      rw [htx (s.tx c).pc]
      · intro v hv
        by_cases hvw : v = w
        · subst hvw
          simp [hs, tx, hv, hpc, sends_idle]
        · simp [tx, hv, Function.update_of_ne hvw]
      · intro hv
        simp [tx, hv]
    rw [hkeep]
    exact .keep

/-- The tx worker goes on in a starter or a finisher. -/
theorem tx_setPc_life (hp : Placed c s) (hpc : s.pc w = p) (hside : p.side = some .tx) (ha : p'.action = p.action)
    (hs : p.sends = false) (hs' : p'.sends = false) : (s.setPc w p').tx c = s.tx c := by
  have hpc0 := pc_of_tx hp hpc hside
  rw [hs] at hpc0
  rw [tx_setPc hp hpc hside ha, hs']
  exact Tx.ext rfl rfl rfl rfl rfl rfl rfl hpc0.symm

/-- The tx worker ends a starter or a finisher. -/
theorem over_tx {j : Action} (hp : Placed c s) (hpc : s.pc w = p) (hside : p.side = some .tx)
    (hj : p.action = some j) (hs : p.sends = false) (hu : j.use = none) :
    TxStep c s (.work w n) ((s.setPc w .idle).tx c) := by
  have hpc0 := pc_of_tx hp hpc hside
  rw [hs] at hpc0
  obtain ⟨l, hl, heq⟩ := tx_setPc_idle hp hpc hside hj
  have heq' : (s.setPc w .idle).tx c = { s.tx c with line := l } := by
    rw [heq]
    exact Tx.ext rfl rfl rfl rfl rfl rfl rfl hpc0.symm
  rw [heq']
  exact .over hl hu hpc0

/-- A worker goes on in a starter or a finisher, and the transmit side stays as it is. -/
theorem keep_tx (hp : Placed c s) (hpc : s.pc w = p) (hside : p'.side = p.side) (ha : p'.action = p.action)
    (hs : p.sends = false) (hs' : p'.sends = false) : TxStep c s (.work w n) ((s.setPc w p').tx c) := by
  by_cases htx : p.side = some .tx
  · rw [tx_setPc_life hp hpc htx ha hs hs']
    exact .keep
  · rw [tx_setPc_other hpc htx (by rw [hside]; exact htx)]
    exact .keep

/-- A worker ends a starter or a finisher, of either side. -/
theorem end_tx {j : Action} (hp : Placed c s) (hpc : s.pc w = p) (hj : p.action = some j) (hs : p.sends = false)
    (hu : j.use = none) : TxStep c s (.work w n) ((s.setPc w .idle).tx c) := by
  by_cases htx : p.side = some .tx
  · exact over_tx hp hpc htx hj hs hu
  · rw [tx_setPc_other hpc htx (by simp [WorkerPc.side])]
    exact .keep

/-- A step of a worker that has nothing to do with sending. -/
theorem keep_rx (s₁ : Stream) (hpc : s₁.pc w = p) (h : p.side ≠ some .tx) (h' : p'.side ≠ some .tx)
    (hsame : s₁.tx c = s.tx c) : TxStep c s (.work w n) ((s₁.setPc w p').tx c) := by
  rw [tx_setPc_other hpc h h', hsame]
  exact .keep

theorem lifeStep_tx (hp : Placed c s) (hpc : s.pc w = p) (hs : s.lifeStep c w p = some s') :
    TxStep c s (.work w n) (s'.tx c) := by
  cases p with
  | starterCreate x =>
    obtain rfl := Option.some.inj hs
    cases x with
    | rx =>
      exact keep_rx (s.setPool .rx _) hpc (by simp [WorkerPc.side]) (by simp [WorkerPc.side]) rfl
    | tx =>
      rw [tx_setPc_life (s := s.setPool .tx _) (hp.of_eq rfl rfl) hpc rfl (by rfl) rfl (by rfl)]
      exact .create hpc
  | starterReady x =>
    cases x with
    | rx =>
      obtain rfl := Option.some.inj hs
      exact keep_rx (s.setCtx .rx _) hpc (by simp [WorkerPc.side]) (by simp [WorkerPc.side]) rfl
    | tx =>
      obtain rfl := Option.some.inj hs
      rw [tx_setPc_life (s := s.setCtx .tx _) (hp.of_eq rfl rfl) hpc rfl (by rfl) rfl (by rfl)]
      exact .ready
  | starterPost =>
    obtain rfl := Option.some.inj hs
    have hpost : (s.post c .rx .rxF).pc w = .starterPost := by rw [post_eq]; exact hpc
    rw [tx_setPc_other hpost (by simp [WorkerPc.side]) (by simp [WorkerPc.side]), tx_post_rx _ (by simp [Action.side])]
    exact .keep
  | startLoad x y =>
    simp only [lifeStep] at hs
    split at hs
    · obtain rfl := Option.some.inj hs
      exact keep_tx hp hpc (by cases y <;> rfl) (by cases y <;> rfl) rfl (by cases y <;> rfl)
    · obtain rfl := Option.some.inj hs
      exact end_tx hp hpc rfl rfl rfl
  | startStore x =>
    obtain rfl := Option.some.inj hs
    change TxStep c s _ ((s.setPc w (.startSend x)).tx c)
    exact keep_tx hp hpc rfl rfl rfl rfl
  | startSend x =>
    obtain rfl := Option.some.inj hs
    exact end_tx hp hpc rfl rfl rfl
  | finisherCas x =>
    simp only [lifeStep] at hs
    split at hs
    · obtain rfl := Option.some.inj hs
      cases x with
      | rx =>
        exact keep_rx (s.setCtx .rx _) hpc (by simp [WorkerPc.side]) (by simp [WorkerPc.side]) rfl
      | tx =>
        rw [tx_setPc_life (s := s.setCtx .tx _) (hp.of_eq rfl rfl) hpc rfl (by rfl) rfl (by rfl)]
        exact .finish (line_of_tx hp hpc rfl)
    · obtain rfl := Option.some.inj hs
      exact keep_tx hp hpc rfl rfl rfl rfl
  | finisherDestroy x =>
    obtain rfl := Option.some.inj hs
    cases x with
    | rx =>
      exact keep_rx (s.setPool .rx _) hpc (by simp [WorkerPc.side]) (by simp [WorkerPc.side]) rfl
    | tx =>
      rw [tx_setPc_life (s := s.setPool .tx _) (hp.of_eq rfl rfl) hpc rfl (by rfl) rfl (by rfl)]
      exact .destroy
  | stopLoad x y =>
    simp only [lifeStep] at hs
    split at hs
    · obtain rfl := Option.some.inj hs
      exact keep_tx hp hpc (by cases y <;> rfl) (by cases y <;> rfl) rfl (by cases y <;> rfl)
    · obtain rfl := Option.some.inj hs
      exact end_tx hp hpc rfl rfl rfl
  | stopStore x =>
    obtain rfl := Option.some.inj hs
    change TxStep c s _ ((s.setPc w (.stopSend x)).tx c)
    exact keep_tx hp hpc rfl rfl rfl rfl
  | stopSend x =>
    obtain rfl := Option.some.inj hs
    exact end_tx hp hpc rfl rfl rfl
  | _ => cases hs

/-- `rx_f` leaves the transmit side alone. -/
theorem rxStep_tx (hpc : s.pc w = p) (hs : s.rxStep c w n p = some s') : s'.tx c = s.tx c := by
  have hpost : ∀ {p' : WorkerPc}, p.side ≠ some .tx → p'.side ≠ some .tx →
      ((s.post c .rx .rxF).setPc w p').tx c = s.tx c := by
    intro p' h h'
    rw [tx_setPc_other (by rw [post_eq]; exact hpc) h h', tx_post_rx _ (by simp [Action.side])]
  cases p with
  | rxLoad =>
    obtain rfl := Option.some.inj hs
    exact tx_setPc_other hpc (by simp [WorkerPc.side]) (by split <;> simp [WorkerPc.side])
  | rxAlloc =>
    simp only [rxStep] at hs
    split at hs
    · obtain rfl := Option.some.inj hs
      rw [tx_record_rx _ _ rfl]
      exact tx_setPc_other (s := s.setPool .rx _) hpc (by simp [WorkerPc.side]) (by simp [WorkerPc.side])
    · obtain rfl := Option.some.inj hs
      exact tx_setPc_other hpc (by simp [WorkerPc.side]) (by simp [WorkerPc.side])
  | rxRead b =>
    simp only [rxStep] at hs
    split at hs
    · obtain rfl := Option.some.inj hs
      exact tx_setPc_other hpc (by simp [WorkerPc.side]) (by simp [WorkerPc.side])
    · obtain rfl := Option.some.inj hs
      exact (tx_setPc_other hpc (by simp [WorkerPc.side]) (by simp [WorkerPc.side]) :
        (s.setPc w (.rxCallback b n)).tx c = s.tx c)
  | rxPost b =>
    obtain rfl := Option.some.inj hs
    exact hpost (by simp [WorkerPc.side]) (by simp [WorkerPc.side])
  | rxRetry =>
    obtain rfl := Option.some.inj hs
    exact hpost (by simp [WorkerPc.side]) (by simp [WorkerPc.side])
  | rxFree b =>
    obtain rfl := Option.some.inj hs
    have hrec := tx_record_rx (c := c) s (.rxBack b) rfl
    refine freeStep_cases (P := fun s' => s'.tx c = s.tx c) hrec ?_ ?_
    · exact (tx_setPc_other (s := (s.record (.rxBack b)).setPool .rx _) hpc (by simp [WorkerPc.side])
        (by simp [WorkerPc.side])).trans hrec
    · exact (tx_setPc_other (s := (s.record (.rxBack b)).setPool .rx _) hpc (by simp [WorkerPc.side])
        (by simp [WorkerPc.side])).trans hrec
  | rxAdd b =>
    obtain rfl := Option.some.inj hs
    exact tx_setPc_other (s := s.setPool .rx _) hpc (by simp [WorkerPc.side]) (by simp [WorkerPc.side])
  | rxCallback b m =>
    obtain rfl := Option.some.inj hs
    exact tx_setPc_other hpc (by simp [WorkerPc.side]) (by simp [WorkerPc.side])
  | rxEnqueue b =>
    obtain rfl := Option.some.inj hs
    exact tx_setPc_other (s := s.setPool .rx _) hpc (by simp [WorkerPc.side]) (by simp [WorkerPc.side])
  | _ => cases hs

/-- The tx worker goes on in `tx_f`. -/
theorem tx_setPc_sends (hp : Placed c s) (hpc : s.pc w = p) (hside : p.side = some .tx) (ha : p'.action = p.action)
    (hs' : p'.sends = true) : (s.setPc w p').tx c = { s.tx c with pc := p' } := by
  rw [tx_setPc hp hpc hside ha, hs']
  rfl

theorem txStep_tx (hp : Placed c s) (hpc : s.pc w = p) (hs : s.txStep w n p = some s') :
    TxStep c s (.work w n) (s'.tx c) := by
  cases p with
  | txLoad b k =>
    have hpc0 := pc_of_tx hp hpc rfl
    obtain rfl := Option.some.inj hs
    -- a token that finds the context gone is dropped without being written
    by_cases hi : s.initState = .initialized
    · rw [if_pos hi, tx_setPc_sends hp hpc rfl (by rfl) (by rfl)]
      exact .load hpc hi hpc0
    · rw [if_neg hi, tx_setPc_sends hp hpc rfl (by rfl) (by rfl)]
      exact .drop hpc hi hpc0
  | txCheck b k =>
    have hpc0 := pc_of_tx hp hpc rfl
    obtain rfl := Option.some.inj hs
    split
    · rw [tx_setPc_sends hp hpc rfl (by rfl) (by rfl)]
      exact .inError hpc0
    · rw [tx_setPc_sends hp hpc rfl (by rfl) (by rfl)]
      exact .check hpc0
  | txWrite b k =>
    have hpc0 := pc_of_tx hp hpc rfl
    obtain rfl := Option.some.inj hs
    rw [tx_setPc_sends (s := s.record _) (hp.of_eq rfl rfl) hpc rfl (by rfl) (by rfl), tx_record _ _ (by rfl)]
    exact .write hpc hpc0
  | txNotify b k status m =>
    have hpc0 := pc_of_tx hp hpc rfl
    obtain rfl := Option.some.inj hs
    unfold Stream.notify
    cases hfn : (s.request b).fn with
    | some fn =>
      dsimp only
      rw [tx_setPc_sends (s := s.record _) (hp.of_eq rfl rfl) hpc rfl (by rfl) (by rfl), tx_record _ _ (by rfl)]
      exact .notify hpc0 hfn
    | none =>
      dsimp only
      rw [tx_setPc_sends hp hpc rfl (by rfl) (by rfl)]
      exact .silent hpc0 hfn
  | txFree b k =>
    have hpc0 := pc_of_tx hp hpc rfl
    obtain rfl := Option.some.inj hs
    -- the worker has the last reference
    by_cases h1 : (s.pool .tx).retainCount b = 1
    · rw [freeStep_last h1, tx_setPc_sends (s := ((s.setPool .tx _).moveToken k _))
        (hp.of_eq rfl rfl) hpc rfl (by rfl) (by rfl), tx_moveToken, tx_setPool_tx]
      exact .free hpc0 h1
    · exact .freeOdd hpc0 h1
  | txEnqueue b k =>
    have hpc0 := pc_of_tx hp hpc rfl
    obtain rfl := Option.some.inj hs
    obtain ⟨l, hl, heq⟩ := tx_setPc_idle (c := c) (s := (((s.record (.back k)).setPool .tx _).moveToken k .gone))
      (hp.of_eq rfl rfl) hpc rfl rfl
    rw [heq, tx_moveToken, tx_setPool_tx, tx_record _ _ (by rfl)]
    exact .enqueue hpc0 hl
  | _ => cases hs

end Worker

section Others

theorem controlStep_tx (h : Cycled c s) (hs : s.controlStep c = some s') : TxStep c s .control (s'.tx c) := by
  have hon : ∀ {st : InitState}, st.on = (s.ctx .tx).on → (s.setCtx .tx st).tx c = s.tx c := by
    intro st hst
    exact Tx.ext hst rfl rfl rfl rfl rfl rfl rfl
  have hctx : ((s.view c).part .tx).ctx = s.ctx .tx := partOf_ctx ..
  unfold controlStep at hs
  cases hc : s.control with
  | startSet x =>
    simp only [hc] at hs
    split at hs
    · rename_i hw
      obtain rfl := Option.some.inj hs
      change TxStep c s _ ((s.setCtx x .initializing).tx c)
      -- an initialising side is as little on as a stopped one
      cases x with
      | rx => exact .keep
      | tx =>
        have hst := h.inv.parts.ctx_of_startSet hc hw
        rw [hctx] at hst
        rw [hon (by rw [hst]; rfl)]
        exact .keep
    · obtain rfl := Option.some.inj hs
      exact .keep
  | startPost x =>
    simp only [hc] at hs
    obtain rfl := Option.some.inj hs
    change TxStep c s _ ((s.post c x (.starter x)).tx c)
    cases x with
    | rx =>
      rw [tx_post_rx _ (by simp [Action.side])]
      exact .keep
    | tx =>
      rw [tx_post_tx _ (h.inv.parts.posts .tx (.inl hc)) rfl]
      exact .post rfl
  | stopCas x =>
    simp only [hc] at hs
    split at hs
    · rename_i hst
      obtain rfl := Option.some.inj hs
      change TxStep c s _ ((s.setCtx x .uninitializing).tx c)
      cases x with
      | rx => exact .keep
      | tx =>
        rw [hon (by rw [hst]; rfl)]
        exact .keep
    · obtain rfl := Option.some.inj hs
      exact .keep
    · obtain rfl := Option.some.inj hs
      exact .keep
  | stopPost x =>
    simp only [hc] at hs
    obtain rfl := Option.some.inj hs
    change TxStep c s _ ((s.post c x (.finisher x)).tx c)
    cases x with
    | rx =>
      rw [tx_post_rx _ (by simp [Action.side])]
      exact .keep
    | tx =>
      rw [tx_post_tx _ (h.inv.parts.posts .tx (.inr hc)) rfl]
      exact .post rfl
  | down | startWait | up | stopWait =>
    simp only [hc] at hs
    split at hs <;> cases hs <;> exact .keep
  | _ =>
    simp only [hc] at hs
    obtain rfl := Option.some.inj hs
    exact .keep

theorem tokenStep_tx {k : ℕ} {t : Token} (hw : (c.worker .tx).isSome) (hk : s.tokens[k]? = some t)
    (hs : s.tokenStep c k t = some s') : TxStep c s (.token k) (s'.tx c) := by
  unfold tokenStep at hs
  split at hs
  · -- the dequeue of the token's block, or none is left
    rename_i hpc
    split at hs
    · rename_i b p hq
      obtain rfl := Option.some.inj hs
      exact .alloc hk hpc hq
    · obtain rfl := Option.some.inj hs
      exact .move hk (.inl ⟨hpc, rfl⟩)
  · rename_i b hpc
    obtain rfl := Option.some.inj hs
    exact .add hk hpc
  · -- the test of the context
    rename_i b hpc
    split at hs
    · obtain rfl := Option.some.inj hs
      exact .move hk (.inr (.inl ⟨b, hpc, .inl rfl⟩))
    · obtain rfl := Option.some.inj hs
      exact .move hk (.inr (.inl ⟨b, hpc, .inr rfl⟩))
  · rename_i b hpc
    obtain rfl := Option.some.inj hs
    exact .fields hk hpc
  · -- the post: the token is accepted, and the last in the line
    rename_i b hpc
    obtain rfl := Option.some.inj hs
    have hpost := tx_post_tx (c := c) s (a := .txF b k) hw rfl
    have heq : ({ (s.post c .tx (.txF b k)).setToken k { t with pc := .queued b } with
        accepted := s.accepted ++ [k] } : Stream).tx c =
        { s.tx c with
          tokens := s.tokens.set k { t with pc := .queued b }
          accepted := s.accepted ++ [k]
          line := (s.tx c).line ++ [.txF b k] } := by
      have htok : (s.post c .tx (.txF b k)).tokens = s.tokens := by rw [post_eq]
      have hst : ({ (s.post c .tx (.txF b k)).setToken k { t with pc := .queued b } with
          accepted := s.accepted ++ [k] } : Stream).tx c =
          { (s.post c .tx (.txF b k)).tx c with
            tokens := (s.post c .tx (.txF b k)).tokens.set k { t with pc := .queued b }
            accepted := s.accepted ++ [k] } := rfl
      rw [hst, hpost, htok]
    rw [heq]
    exact .accept hk hpc
  · -- the decrement of a release: only from 1 is the block to go back
    rename_i b hpc
    obtain rfl := Option.some.inj hs
    by_cases h1 : (s.pool .tx).retainCount b = 1
    · rw [freeStep_last h1]
      exact .release hk hpc h1
    · exact .releaseOdd hk hpc h1
  · rename_i b hpc
    obtain rfl := Option.some.inj hs
    exact .released hk hpc
  · cases hs

/-- **What a step does to the transmit side.** -/
theorem step_tx {a : Act} (h : Cycled c s) (htok : c.worker .tx = none → s.tokens = [])
    (hs : s.step c a = some s') : TxStep c s a (s'.tx c) := by
  unfold step at hs
  split at hs
  · cases hs
  cases a with
  | control => exact controlStep_tx h hs
  | work w n =>
    by_cases hidle : s.pc w = .idle
    · obtain ⟨a, rest, hq, rfl⟩ := workStep_idle hidle hs
      exact dequeue_tx h.placed hidle hq
    · rcases workStep_cases rfl hidle hs with hl | hr | ht
      · exact lifeStep_tx h.placed rfl hl
      · rw [rxStep_tx rfl hr]
        exact .keep
      · exact txStep_tx h.placed rfl ht
  | allocate =>
    dsimp only at hs
    split at hs
    · rename_i hst
      obtain rfl := Option.some.inj hs
      exact .allocate hst
    · obtain rfl := Option.some.inj hs
      exact .keep
  | token k =>
    obtain ⟨t, hk, ht⟩ := Option.bind_eq_some_iff.1 hs
    refine tokenStep_tx ?_ hk ht
    cases hw : c.worker .tx with
    | none => rw [htok hw] at hk; cases hk
    | some w => rfl
  | fill k payload =>
    obtain ⟨t, b, hk, hpc, rfl⟩ := holdStep_cases hs
    exact .fill hk hpc
  | send k size fn priv =>
    obtain ⟨t, b, hk, hpc, rfl⟩ := holdStep_cases hs
    split
    · exact .keep
    · exact .send hk hpc
  | release k =>
    obtain ⟨t, b, hk, hpc, rfl⟩ := holdStep_cases hs
    split
    · exact .move hk (.inr (.inr ⟨b, hpc, .inl rfl⟩))
    · exact .move hk (.inr (.inr ⟨b, hpc, .inr rfl⟩))
  | releaseRx b =>
    dsimp only at hs
    split at hs
    · obtain rfl := Option.some.inj hs
      have hkeep : ∀ s' : Stream, s'.tx c = s.tx c → TxStep c s (.releaseRx b) (s'.tx c) := by
        intro s' heq
        rw [heq]
        exact .keep
      refine freeStep_cases (P := fun s' => TxStep c s (.releaseRx b) (s'.tx c)) ?_ ?_ ?_
      all_goals exact hkeep _ (tx_record_rx s (.rxBack b) rfl)
    · cases hs
  | enqueueRx b =>
    dsimp only at hs
    split at hs
    · obtain rfl := Option.some.inj hs
      exact .keep
    · cases hs
  | setError e =>
    obtain rfl := Option.some.inj hs
    exact .keep

/-- Without a tx worker there are no tokens. -/
theorem reach_tokens {ok : Stream → Act → Prop} (h : Sys.Reach (system c) ok s) :
    c.worker .tx = none → s.tokens = [] := by
  induction h with
  | init h0 =>
    cases h0
    exact fun _ => rfl
  | @step s s' a hr _ hs ih =>
    intro hw
    have hcyc := reach_cycled hr
    have htok := ih hw
    have hst := step_tx hcyc ih hs
    have hno : ∀ {k : ℕ} {t : Token}, s.tokens[k]? ≠ some t := by simp [htok]
    have hpc : (s.tx c).pc = .idle := by simp [tx, hw]
    change (s'.tx c).tokens = []
    generalize s'.tx c = v at hst
    cases hst with
    | allocate hst =>
      rw [← partOf_ctx (c := c), show s.partOf c .tx = _ from hcyc.inv.parts.unused .tx hw] at hst
      cases hst
    | alloc hk | add hk | move hk | fill hk | send hk | fields hk | accept hk | release hk | releaseOdd hk
    | released hk => exact absurd hk hno
    | free h0 | freeOdd h0 | enqueue h0 => rw [hpc] at h0; cases h0
    | _ => exact htok

end Others

end Stream

end Cutils.Asyncio
