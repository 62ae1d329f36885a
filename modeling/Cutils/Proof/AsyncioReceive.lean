import Cutils.Spec.AsyncioReceive
import Cutils.Proof.AsyncioReader

/-!
# Receive buffers go back once

`rx_f` returns its buffer itself, after the callback. A client that releases the buffer too returns it a
second time.

* `rx_buffers_return_once`: what holds in the runs without `asyncio_release_rx_buffer`, and that the
  first such call ends it.
* `released_buffer_is_freed_twice`: such a call.
-/

namespace Cutils.Asyncio

open Blocks

namespace Stream

variable {c : Config} {s s' : Stream} {a : Act} {w v n b : ℕ} {p r : WorkerPc}

section Steps

theorem rx_setPc (hpc : s.pc w = p) (h : r.hand = p.hand) : (s.setPc w r).rx w = s.rx w := by
  simp only [rx, pc_setPc, Function.update_self, hpc, h]
  rfl

theorem rx_of_eq (hpool : s'.pool .rx = s.pool .rx) (hlog : s'.log = s.log) (hpc : s'.pc = s.pc)
    (hrel : s'.releasing = s.releasing) : s'.rx w = s.rx w := by
  simp only [rx, hpool, hlog, hpc, hrel]

/-- The receive side when another worker goes on, or this one in something else than `rx_f`. -/
theorem rx_move (hpool : s'.pool .rx = s.pool .rx) (hlog : s'.log.filter Event.isRx = s.log.filter Event.isRx)
    (hrel : s'.releasing = s.releasing) (hpc' : s'.pc = Function.update s.pc v r)
    (hh : w = v → r.hand = (s.pc v).hand) : s'.rx w = s.rx w := by
  by_cases hw : w = v
  · subst hw
    simp only [rx, hpool, hlog, hrel, hpc', Function.update_self, hh rfl]
  · simp only [rx, hpool, hlog, hrel, hpc', Function.update_of_ne hw]

theorem lifeStep_rx (hp : Placed c s) (hw : c.worker .rx = some w) (hpc : s.pc v = p)
    (hs : s.lifeStep c v p = some s') : RxStep s w (.work v n) (s'.rx w) := by
  have hkeep : s'.rx w = s.rx w → RxStep s w (.work v n) (s'.rx w) := fun h => h ▸ .keep
  have hv : ∀ {p : WorkerPc}, s.pc v = p → p.side = some .rx → v = w := fun h hside =>
    Option.some.inj ((hp.pc v .rx (by rw [h]; exact hside)).symm.trans hw)
  have hhand : ∀ {p : WorkerPc}, s.pc v = p → p.hand = .empty → (s.pc v).hand = .empty := fun h h0 => by rw [h, h0]
  -- only the rx pool's creation and its destruction show on the receive side
  cases p with
  | starterCreate x =>
    obtain rfl := Option.some.inj hs
    cases x with
    | rx =>
      obtain rfl := hv hpc rfl
      have heq : ((s.setPool .rx (s.pool .rx).create).setPc v (.starterReady .rx)).rx v =
          { s.rx v with pool := (s.pool .rx).create } := rx_setPc hpc rfl
      rw [heq]
      exact .create (hhand hpc rfl)
    | tx => exact hkeep (rx_move rfl rfl rfl rfl fun _ => (hhand hpc rfl).symm)
  | finisherDestroy x =>
    obtain rfl := Option.some.inj hs
    cases x with
    | rx =>
      obtain rfl := hv hpc rfl
      have heq : ((s.setPool .rx (s.pool .rx).destroy).setPc v (.stopLoad .rx .rx)).rx v =
          { s.rx v with pool := (s.pool .rx).destroy } := rx_setPc hpc rfl
      rw [heq]
      exact .destroy (hhand hpc rfl)
    | tx => exact hkeep (rx_move rfl rfl rfl rfl fun _ => (hhand hpc rfl).symm)
  | starterReady x =>
    cases x
    all_goals
      obtain rfl := Option.some.inj hs
      exact hkeep (rx_move rfl rfl rfl rfl fun _ => (hhand hpc rfl).symm)
  | starterPost =>
    obtain rfl := Option.some.inj hs
    refine hkeep (rx_move (v := v) (r := .startLoad .rx .rx) ?_ ?_ ?_ ?_ fun _ => (hhand hpc rfl).symm)
    all_goals
      rw [post_eq]
      rfl
  | startLoad x y =>
    simp only [lifeStep] at hs
    split at hs
    all_goals
      obtain rfl := Option.some.inj hs
      refine hkeep (rx_move rfl rfl rfl rfl fun _ => Eq.trans ?_ (hhand hpc rfl).symm)
      cases y <;> rfl
  | stopLoad x y =>
    simp only [lifeStep] at hs
    split at hs
    all_goals
      obtain rfl := Option.some.inj hs
      refine hkeep (rx_move rfl rfl rfl rfl fun _ => Eq.trans ?_ (hhand hpc rfl).symm)
      cases y <;> rfl
  | finisherCas x =>
    simp only [lifeStep] at hs
    split at hs
    all_goals
      obtain rfl := Option.some.inj hs
      exact hkeep (rx_move rfl rfl rfl rfl fun _ => (hhand hpc rfl).symm)
  | startStore | startSend | stopStore | stopSend =>
    obtain rfl := Option.some.inj hs
    exact hkeep (rx_move rfl rfl rfl rfl fun _ => (hhand hpc rfl).symm)
  | _ => cases hs

theorem rxStep_rx (hpc : s.pc w = p) (hs : s.rxStep c w n p = some s') :
    RxStep s w (.work w n) (s'.rx w) := by
  have hkeep : s'.rx w = s.rx w → RxStep s w (.work w n) (s'.rx w) := fun h => h ▸ .keep
  have hhand : (s.rx w).hand = p.hand := by rw [← hpc]; rfl
  cases p with
  | rxLoad =>
    obtain rfl := Option.some.inj hs
    exact hkeep (rx_setPc hpc (by split <;> rfl))
  | rxAlloc =>
    simp only [rxStep] at hs
    split at hs
    · rename_i b q hq
      obtain rfl := Option.some.inj hs
      have heq : (((s.setPool .rx q).setPc w (.rxAdd b)).record (.rxAlloc b)).rx w =
          { s.rx w with pool := q, log := (s.rx w).log ++ [.rxAlloc b], hand := .fresh b } := by
        simp [rx, record, setPool, setPc, Event.isRx, WorkerPc.hand]
      rw [heq]
      exact .alloc hhand hq
    · obtain rfl := Option.some.inj hs
      exact hkeep (rx_setPc hpc rfl)
  | rxAdd b =>
    obtain rfl := Option.some.inj hs
    have heq : ((s.setPool .rx ((s.pool .rx).fetchAdd b)).setPc w (.rxRead b)).rx w =
        { s.rx w with pool := (s.pool .rx).fetchAdd b, hand := .holding b } := by
      simp [rx, setPool, setPc, WorkerPc.hand]
    rw [heq]
    exact .add hhand
  -- a read and a callback change nothing here: the worker keeps the buffer in its hand
  | rxRead b =>
    simp only [rxStep] at hs
    split at hs
    all_goals
      obtain rfl := Option.some.inj hs
      exact hkeep (rx_setPc hpc rfl)
  | rxCallback b m =>
    obtain rfl := Option.some.inj hs
    exact hkeep (rx_setPc hpc rfl)
  | rxPost b =>
    obtain rfl := Option.some.inj hs
    refine hkeep (rx_move (v := w) (r := .rxFree b) ?_ ?_ ?_ ?_ fun _ => by rw [hpc]; rfl)
    all_goals
      rw [post_eq]
      rfl
  | rxRetry =>
    obtain rfl := Option.some.inj hs
    refine hkeep (rx_move (v := w) (r := .idle) ?_ ?_ ?_ ?_ fun _ => by rw [hpc]; rfl)
    all_goals
      rw [post_eq]
      rfl
  | rxFree b =>
    obtain rfl := Option.some.inj hs
    by_cases h1 : (s.pool .rx).retainCount b = 1
    · rw [freeStep_last (s := s.record _) h1]
      have heq : (((s.record (.rxBack b)).setPool .rx ((s.pool .rx).fetchSub b)).setPc w (.rxEnqueue b)).rx w =
          { s.rx w with
            pool := (s.pool .rx).fetchSub b
            log := (s.rx w).log ++ [.rxBack b]
            hand := .returning b } := by
        simp [rx, record, setPool, setPc, Event.isRx, WorkerPc.hand]
      rw [show (s.record (.rxBack b)).pool = s.pool from rfl, heq]
      exact .free hhand h1
    · -- a count other than 1 is excluded later, by the invariant
      exact .freeOdd hhand h1
  | rxEnqueue b =>
    obtain rfl := Option.some.inj hs
    have heq : ((s.setPool .rx ((s.pool .rx).enqueue b)).setPc w .idle).rx w =
        { s.rx w with pool := (s.pool .rx).enqueue b, hand := .empty } := by
      simp [rx, setPool, setPc, WorkerPc.hand]
    rw [heq]
    exact .enqueue hhand
  | _ => cases hs

theorem txStep_rx (hpc : s.pc v = p) (hs : s.txStep v n p = some s') : s'.rx w = s.rx w := by
  have hlog : ∀ {e : Event}, e.isRx = false → (s.record e).log.filter Event.isRx = s.log.filter Event.isRx := by
    intro e he
    simp [record, he]
  cases p with
  | txLoad b k | txCheck b k =>
    obtain rfl := Option.some.inj hs
    exact rx_move rfl rfl rfl rfl fun _ => by rw [hpc]; split <;> rfl
  | txWrite b k =>
    obtain rfl := Option.some.inj hs
    exact rx_move rfl (hlog rfl) rfl rfl fun _ => by rw [hpc]; rfl
  | txNotify b k status m =>
    obtain rfl := Option.some.inj hs
    unfold Stream.notify
    split
    · exact rx_move rfl (hlog rfl) rfl rfl fun _ => by rw [hpc]; rfl
    · exact rx_move rfl rfl rfl rfl fun _ => by rw [hpc]; rfl
  | txFree b k =>
    obtain rfl := Option.some.inj hs
    refine freeStep_cases (P := fun s' => s'.rx w = s.rx w) ?_ ?_ ?_
    · refine rx_move (v := v) (r := .txFree b k) rfl rfl rfl ?_ fun _ => by rw [hpc]
      rw [← hpc]
      exact (Function.update_eq_self v s.pc).symm
    · exact rx_move rfl rfl rfl rfl fun _ => by rw [hpc]; rfl
    · exact rx_move rfl rfl rfl rfl fun _ => by rw [hpc]; rfl
  | txEnqueue b k =>
    obtain rfl := Option.some.inj hs
    exact rx_move rfl (hlog rfl) rfl rfl fun _ => by rw [hpc]; rfl
  | _ => cases hs

/-- **What a step does to the receive side.** -/
theorem step_rx (hp : Placed c s) (hw : c.worker .rx = some w) (hs : s.step c a = some s') :
    RxStep s w a (s'.rx w) := by
  have hkeep : ∀ {a : Act} {s' : Stream}, s'.rx w = s.rx w → RxStep s w a (s'.rx w) := fun h => h ▸ .keep
  have hfix : ∀ {a : Act} {s' : Stream}, s'.pool .rx = s.pool .rx → s'.log = s.log → s'.pc = s.pc →
      s'.releasing = s.releasing → RxStep s w a (s'.rx w) := fun h1 h2 h3 h4 => hkeep (rx_of_eq h1 h2 h3 h4)
  unfold step at hs
  split at hs
  · cases hs
  cases a with
  | control =>
    dsimp only at hs
    unfold controlStep at hs
    split at hs
    case h_4 x _ | h_12 x _ =>
      obtain rfl := Option.some.inj hs
      refine hfix ?_ ?_ ?_ ?_
      all_goals rw [post_eq]
    case h_3 | h_11 =>
      split at hs
      all_goals
        obtain rfl := Option.some.inj hs
        exact hfix rfl rfl rfl rfl
    case h_1 | h_6 | h_7 | h_13 => split at hs <;> cases hs <;> exact hfix rfl rfl rfl rfl
    all_goals
      obtain rfl := Option.some.inj hs
      exact hfix rfl rfl rfl rfl
  | work v n =>
    by_cases hidle : s.pc v = .idle
    · obtain ⟨a, rest, hq, rfl⟩ := workStep_idle hidle hs
      refine hkeep (rx_move rfl rfl rfl rfl fun _ => ?_)
      rw [hidle]
      cases a <;> rfl
    · rcases workStep_cases rfl hidle hs with h | h | h
      · exact lifeStep_rx hp hw rfl h
      · have hside : (s.pc v).side = some .rx := by
          cases hpc : s.pc v <;> rw [hpc] at h <;> first | rfl | cases h
        obtain rfl : v = w := Option.some.inj ((hp.pc v .rx hside).symm.trans hw)
        exact rxStep_rx rfl h
      · exact hkeep (txStep_rx rfl h)
  | allocate =>
    dsimp only at hs
    split at hs <;> cases hs <;> exact hfix rfl rfl rfl rfl
  | token k =>
    obtain ⟨t, -, ht⟩ := Option.bind_eq_some_iff.1 hs
    unfold tokenStep at ht
    split at ht
    case h_5 b _ =>
      obtain rfl := Option.some.inj ht
      simp only [setToken]
      rw [post_eq]
      exact hfix rfl rfl rfl rfl
    case h_6 b _ =>
      obtain rfl := Option.some.inj ht
      refine freeStep_cases (P := fun s' => RxStep s w _ (s'.rx w)) ?_ ?_ ?_
      all_goals exact hfix rfl rfl rfl rfl
    case h_1 | h_3 => split at ht <;> cases ht <;> exact hfix rfl rfl rfl rfl
    case h_8 => cases ht
    all_goals
      obtain rfl := Option.some.inj ht
      exact hfix rfl rfl rfl rfl
  | fill k payload | release k =>
    obtain ⟨t, b, -, -, rfl⟩ := holdStep_cases hs
    exact hfix rfl rfl rfl rfl
  | send k size fn priv =>
    obtain ⟨t, b, -, -, rfl⟩ := holdStep_cases hs
    split
    all_goals exact hfix rfl rfl rfl rfl
  | releaseRx b => exact .release
  | enqueueRx b =>
    dsimp only at hs
    split at hs
    · rename_i hmem
      exact .released hmem
    · cases hs
  | setError e =>
    obtain rfl := Option.some.inj hs
    exact hfix rfl rfl rfl rfl

end Steps

end Stream

namespace Rx

variable {n b : ℕ} {r : Rx} {p : Store}

/-- **Where the blocks of the rx pool are**: in the free queue or in the hand of `rx_f`, each once. -/
structure Kept (n : ℕ) (r : Rx) : Prop where
  size : r.pool.numOfElements = n
  live : ∀ b, r.hand.block = some b → ∃ q, r.pool.q = some q
  perm : ∀ q, r.pool.q = some q → (r.hand.block.toList ++ q).Perm (List.range n)
  count : ∀ b, b < n → r.pool.retainCount b = if r.hand = .holding b then 1 else 0

/-- **Every allocation has been returned once**, or `rx_f` has the block. -/
def Balanced (r : Rx) : Prop :=
  ∀ b, r.log.count (.rxAlloc b) =
    r.log.count (.rxBack b) + if r.hand = .fresh b ∨ r.hand = .holding b then 1 else 0

theorem Kept.lt (h : r.Kept n) (hb : r.hand.block = some b) : b < n := by
  obtain ⟨q, hq⟩ := h.live b hb
  have hmem := (h.perm q hq).mem_iff (a := b)
  rw [hb, List.mem_range] at hmem
  exact hmem.1 (List.mem_append_left _ (by simp))

theorem Kept.not_free (h : r.Kept n) (hb : r.hand.block = some b) : b ∉ r.pool.free := by
  obtain ⟨q, hq⟩ := h.live b hb
  have hnodup := (h.perm q hq).nodup_iff.2 List.nodup_range
  rw [hb] at hnodup
  rw [Store.free, hq]
  exact (List.nodup_cons.1 hnodup).1

theorem Kept.create (h : r.Kept n) (hh : r.hand = .empty) : Kept n { r with pool := r.pool.create } := by
  have hsize := h.size
  -- all blocks are free again, and the worker has none
  refine ⟨hsize, fun _ _ => ⟨_, rfl⟩, ?_, ?_⟩
  · intro q hq
    obtain rfl := Option.some.inj hq
    rw [hsize, hh]
    exact List.Perm.refl _
  · intro b hb
    rw [if_neg (by simp [hh])]
    exact if_pos (hsize ▸ hb)

theorem Kept.destroy (h : r.Kept n) (hh : r.hand = .empty) : Kept n { r with pool := r.pool.destroy } := by
  refine ⟨h.size, ?_, nofun, h.count⟩
  intro b hb
  change r.hand.block = some b at hb
  rw [hh] at hb
  cases hb

theorem Kept.alloc (h : r.Kept n) (hh : r.hand = .empty) (hq : r.pool.dequeue = some (b, p)) (log : List Event) :
    Kept n { r with pool := p, log := log, hand := .fresh b } := by
  unfold Store.dequeue at hq
  split at hq
  · rename_i b' rest hrest
    cases hq
    have hperm := h.perm _ hrest
    rw [hh] at hperm
    refine ⟨h.size, fun _ _ => ⟨_, rfl⟩, ?_, ?_⟩
    · intro q hq
      obtain rfl := Option.some.inj hq
      exact hperm
    · intro b' hb'
      have := h.count b' hb'
      rw [hh] at this
      simpa using this
  · cases hq

/-- The reference of the block in the hand changes. -/
theorem Kept.reference (h : r.Kept n) (hand : Hand) (hb : r.hand.block = some b) (hb' : hand.block = some b)
    (hsize : p.numOfElements = r.pool.numOfElements) (hq : p.q = r.pool.q)
    (hcount : p.retainCount = Function.update r.pool.retainCount b (if hand = .holding b then 1 else 0))
    (log : List Event) : Kept n { r with pool := p, log := log, hand := hand } := by
  refine ⟨hsize.trans h.size, ?_, ?_, ?_⟩
  · intro _ _
    obtain ⟨q, hq'⟩ := h.live b hb
    exact ⟨q, hq.trans hq'⟩
  · intro q hq'
    change (hand.block.toList ++ q).Perm _
    rw [hb', ← hb]
    exact h.perm q (hq.symm.trans hq')
  · intro j hj
    change p.retainCount j = if hand = .holding j then 1 else 0
    rw [hcount]
    by_cases hjb : j = b
    · subst hjb
      rw [Function.update_self]
    · have hnot : ∀ {hand : Hand}, hand.block = some b → hand ≠ .holding j := by
        intro hand hblock heq
        rw [heq] at hblock
        exact hjb (Option.some.inj hblock)
      rw [Function.update_of_ne hjb, h.count j hj, if_neg (hnot hb), if_neg (hnot hb')]

/-- The block goes back to the free queue. -/
theorem Kept.enqueue (h : r.Kept n) (hh : r.hand = .returning b) :
    Kept n { r with pool := r.pool.enqueue b, hand := .empty } := by
  have hb : r.hand.block = some b := by rw [hh]; rfl
  obtain ⟨q, hq⟩ := h.live b hb
  have hperm := h.perm q hq
  rw [hb] at hperm
  have hlen : q.length < r.pool.numOfElements := by
    have := hperm.length_eq
    rw [List.length_range, Option.toList_some, List.length_append, List.length_singleton] at this
    rw [h.size]
    omega
  have henq : r.pool.enqueue b = { r.pool with q := some (q ++ [b]) } := by
    simp [Store.enqueue, hq, hlen]
  rw [henq]
  refine ⟨h.size, fun _ _ => ⟨_, rfl⟩, ?_, ?_⟩
  · intro q' hq'
    obtain rfl := Option.some.inj hq'
    change (q ++ [b]).Perm _
    exact List.perm_append_comm.trans hperm
  · intro j hj
    have := h.count j hj
    rw [hh] at this
    simpa using this

/-- A block is allocated. -/
theorem Balanced.alloc (h : r.Balanced) (hh : r.hand = .empty) (p : Store) :
    Balanced { r with pool := p, log := r.log ++ [.rxAlloc b], hand := .fresh b } := by
  intro j
  have hj := h j
  rw [hh] at hj
  by_cases hjb : j = b
  · subst hjb
    simpa [List.count_append] using hj
  · have hne : b ≠ j := fun heq => hjb heq.symm
    simpa [List.count_append, hne] using hj

/-- `rx_f` returns its block. -/
theorem Balanced.free (h : r.Balanced) (hh : r.hand = .holding b) (p : Store) :
    Balanced { r with pool := p, log := r.log ++ [.rxBack b], hand := .returning b } := by
  intro j
  have hj := h j
  rw [hh] at hj
  by_cases hjb : j = b
  · subst hjb
    simpa [List.count_append] using hj
  · have hne : b ≠ j := fun heq => hjb heq.symm
    simpa [List.count_append, hne] using hj

/-- The block in the hand is the same, and is in use as before. -/
theorem Balanced.hold {hand : Hand} (h : r.Balanced) (p : Store)
    (hh : ∀ b, (hand = .fresh b ∨ hand = .holding b) ↔ (r.hand = .fresh b ∨ r.hand = .holding b)) :
    Balanced { r with pool := p, hand := hand } := by
  intro j
  have hj := h j
  simp only [hh]
  exact hj

/-- A return by somebody else. -/
theorem Balanced.not_back (h : r.Balanced) {r' : Rx} (hlog : r'.log = r.log ++ [.rxBack b]) (hh : r'.hand = r.hand) :
    ¬ r'.Balanced := by
  intro h'
  have hb := h b
  have hb' := h' b
  rw [hlog, hh] at hb'
  simp only [List.count_append, List.count_singleton, beq_iff_eq, reduceCtorEq, if_false, if_true] at hb'
  omega

end Rx

namespace Stream

variable {c : Config} {s s' : Stream} {a : Act} {w n : ℕ}

/-- The client does not release a buffer it was given. -/
def NoRelease (_ : Stream) : Act → Prop
  | .releaseRx _ => False
  | _ => True

instance : Decidable (NoRelease s a) := by
  unfold NoRelease
  split <;> infer_instance

/-- The receive side is in order: what a step keeps. -/
structure InOrder (n : ℕ) (r : Rx) : Prop where
  kept : r.Kept n
  balanced : r.Balanced
  idle : r.releasing = []

/-- **One step**, as the receive side sees it. -/
theorem step_inOrder {r : Rx} (h : InOrder n (s.rx w)) (hok : NoRelease s a) (hst : RxStep s w a r) :
    InOrder n r := by
  have hrel := h.idle
  cases hst with
  | keep => exact h
  | create hh => exact ⟨h.kept.create hh, h.balanced.hold _ fun _ => Iff.rfl, hrel⟩
  | destroy hh => exact ⟨h.kept.destroy hh, h.balanced.hold _ fun _ => Iff.rfl, hrel⟩
  | alloc hh hq => exact ⟨h.kept.alloc hh hq _, h.balanced.alloc hh _, hrel⟩
  | @add m b hh =>
    have hb : (s.rx w).hand.block = some b := by rw [hh]; rfl
    have h0 : (s.pool .rx).retainCount b = 0 := by
      have := h.kept.count b (h.kept.lt hb)
      rwa [hh, if_neg (by simp)] at this
    have hone : ((s.pool .rx).fetchAdd b).retainCount = Function.update (s.pool .rx).retainCount b 1 := by
      simp only [Store.fetchAdd, h0]
    refine ⟨h.kept.reference (p := (s.pool .rx).fetchAdd b) (.holding b) hb rfl rfl rfl ?_ _,
      h.balanced.hold _ ?_, hrel⟩
    · rw [if_pos rfl]
      exact hone
    · intro j
      rw [hh]
      simp
  | @free m b hh h1 =>
    have hb : (s.rx w).hand.block = some b := by rw [hh]; rfl
    have hnone : ((s.pool .rx).fetchSub b).retainCount = Function.update (s.pool .rx).retainCount b 0 := by
      simp only [Store.fetchSub, h1]
    refine ⟨h.kept.reference (p := (s.pool .rx).fetchSub b) (.returning b) hb rfl rfl rfl ?_ _,
      h.balanced.free hh _, hrel⟩
    rw [if_neg (by simp)]
    exact hnone
  | @freeOdd m b r hh hne =>
    have hb : (s.rx w).hand.block = some b := by rw [hh]; rfl
    have := h.kept.count b (h.kept.lt hb)
    rw [hh, if_pos rfl] at this
    exact absurd this hne
  | @enqueue m b hh =>
    refine ⟨h.kept.enqueue hh, h.balanced.hold _ ?_, hrel⟩
    intro j
    rw [hh]
    simp
  | release => exact hok.elim
  | released hmem =>
    change s.releasing = [] at hrel
    rw [hrel] at hmem
    cases hmem

/-- **In every run** without such a release. -/
theorem reach_inOrder (hw : c.worker .rx = some w) (h : Sys.Reach (system c) NoRelease s) :
    InOrder (c.numOfElements .rx) (s.rx w) := by
  induction h with
  | init h0 =>
    cases h0
    exact ⟨⟨rfl, nofun, nofun, fun _ _ => rfl⟩, fun _ => rfl, rfl⟩
  | step hr hok hs ih => exact step_inOrder ih hok (step_rx (reach_cycled hr).placed hw hs)

/-- A release is a return besides that of `rx_f`. -/
theorem releaseRx_back {b : ℕ} (hs : s.step c (.releaseRx b) = some s') :
    (s'.rx w).log = (s.rx w).log ++ [.rxBack b] ∧ (s'.rx w).hand = (s.rx w).hand := by
  unfold step at hs
  split at hs
  · cases hs
  dsimp only at hs
  split at hs
  · obtain rfl := Option.some.inj hs
    have hlog : (s.log ++ [Event.rxBack b]).filter Event.isRx = (s.rx w).log ++ [.rxBack b] := by
      simp [rx, Event.isRx]
    refine freeStep_cases
      (P := fun s' => (s'.rx w).log = (s.rx w).log ++ [.rxBack b] ∧ (s'.rx w).hand = (s.rx w).hand) ?_ ?_ ?_
    all_goals exact ⟨hlog, rfl⟩
  · cases hs

/-- **Receive buffers go back once** as long as the client releases none: every allocation is returned
once, or `rx_f` has the block; the free queue and that block are all the blocks of the pool; `rx_f`
frees a block with one reference; the buffer of a running callback is not free. The first release is
one return too many. -/
theorem rx_buffers_return_once (hw : c.worker .rx = some w) (h : Sys.Reach (system c) NoRelease s) :
    (s.rx w).Balanced ∧
      (∀ q, (s.pool .rx).q = some q →
        ((s.pc w).hand.block.toList ++ q).Perm (List.range (c.numOfElements .rx))) ∧
      (∀ v b, s.pc v = .rxFree b → (s.pool .rx).retainCount b = 1) ∧
      (∀ v b m, s.pc v = .rxCallback b m → b ∉ (s.pool .rx).free) ∧
      ∀ a s', s.step c a = some s' → ((s'.rx w).Balanced ↔ NoRelease s a) := by
  have hin := reach_inOrder hw h
  have hplaced := (reach_cycled h).placed
  have hworker : ∀ {v : ℕ}, (s.pc v).side = some .rx → v = w := fun hside =>
    Option.some.inj ((hplaced.pc _ .rx hside).symm.trans hw)
  refine ⟨hin.balanced, hin.kept.perm, ?_, ?_, ?_⟩
  · intro v b hpc
    obtain rfl := hworker (v := v) (by rw [hpc]; rfl)
    have hhand : (s.rx v).hand = .holding b := by simp only [rx, hpc]; rfl
    have hcount := hin.kept.count b (hin.kept.lt (by rw [hhand]; rfl))
    rwa [hhand, if_pos rfl] at hcount
  · intro v b m hpc
    obtain rfl := hworker (v := v) (by rw [hpc]; rfl)
    have hhand : (s.rx v).hand = .holding b := by simp only [rx, hpc]; rfl
    exact hin.kept.not_free (by rw [hhand]; rfl)
  · intro a s' hs
    refine ⟨?_, fun hok => (step_inOrder hin hok (step_rx hplaced hw hs)).balanced⟩
    intro hbal
    cases a with
    | releaseRx b =>
      obtain ⟨hlog, hhand⟩ := releaseRx_back (w := w) hs
      exact hin.balanced.not_back hlog hhand hbal
    | _ => trivial

/-- The rx worker reads five bytes into its first buffer. -/
def readFive : List Act := List.replicate 8 (.work 0 0) ++ [.work 0 5]

/-- While the callback of the first buffer runs, it is not free. -/
theorem rx_buffers_return_once_two :
    ∃ s, Sys.Reach (system twoWorkers) NoRelease s ∧ s.pc 0 = .rxCallback 0 5 ∧ 0 ∉ (s.pool .rx).free := by
  obtain ⟨s, hs, hp⟩ := reach_of_run (c := twoWorkers) NoRelease (startUp ++ readFive)
    (fun s => s.pc 0 == .rxCallback 0 5) (by decide +kernel)
  have hpc : s.pc 0 = .rxCallback 0 5 := by simpa using hp
  exact ⟨s, hs, hpc, (rx_buffers_return_once (c := twoWorkers) (w := 0) rfl hs).2.2.2.1 0 0 5 hpc⟩

/-- **A client that releases its buffer in the callback** makes it free while the callback still runs, and
`rx_f` then frees a block with no reference. -/
theorem released_buffer_is_freed_twice :
    (∃ s, Sys.Reach (system twoWorkers) Sys.Always s ∧ s.pc 0 = .rxCallback 0 5 ∧ 0 ∈ (s.pool .rx).free) ∧
      ∃ s, Sys.Reach (system twoWorkers) Sys.Always s ∧ s.pc 0 = .rxFree 0 ∧ (s.pool .rx).retainCount 0 = 0 := by
  obtain ⟨s, hs, hp⟩ := reach_of_run (c := twoWorkers) Sys.Always
    (startUp ++ readFive ++ [.releaseRx 0, .enqueueRx 0])
    (fun s => s.pc 0 == .rxCallback 0 5 && decide (0 ∈ (s.pool .rx).free)) (by decide +kernel)
  obtain ⟨s', hs', hp'⟩ := reach_of_run (c := twoWorkers) Sys.Always
    (startUp ++ readFive ++ [.releaseRx 0, .enqueueRx 0, .work 0 0, .work 0 0])
    (fun s => s.pc 0 == .rxFree 0 && (s.pool .rx).retainCount 0 == 0) (by decide +kernel)
  simp only [Bool.and_eq_true, beq_iff_eq, decide_eq_true_eq] at hp hp'
  exact ⟨⟨s, hs, hp⟩, s', hs', hp'⟩

end Stream

end Cutils.Asyncio
