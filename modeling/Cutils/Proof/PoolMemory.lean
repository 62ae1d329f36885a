import Cutils.Proof.PoolGuardWords
import Cutils.Proof.PoolOwnership

/-!
# The pool of bytes does what the pool does

`Views m s`: pool `s` of `Spec/Pool.lean` has the headers and trailers that are in the memory of `m`, and all else alike.
As long as threads call operations on blocks they hold, every step of `m` is one of `s`, and a client's store is none
(`step_views`). So what is known of pools holds of pools in memory.

* `pool_memory_refines`: the runs of the pool in memory are runs of the pool, and no assertion fails.
-/

namespace Cutils.Blocks.PoolMemory

open Bytes Layout

variable {d : StoreDecl} {τ : Type} {m m' : PoolMemory d τ} {s : Pool τ} {elements b : ℕ} {t : τ}

/-- Where a thread is, in the words of `Spec/Pool.lean`. -/
def Pc.view {w : ℕ} : Pc (BitVec w) → Blocks.Pc
  | .idle => .idle
  | .addRef b f p => .addRef b (decode f) p.toNat
  | .install b f p => .install b (decode f) p.toNat
  | .destroy b => .destroy b
  | .enqueue b => .enqueue b

/-- The step of the pool that an action is. -/
def Act.view {w : ℕ} : Act (BitVec w) τ → Option (Blocks.Act τ)
  | .alloc t f p => some (.alloc t (decode f) p.toNat)
  | .retain t b => some (.retain t b)
  | .free t b => some (.free t b)
  | .setDestructor t b f p => some (.setDestructor t b (decode f) p.toNat)
  | .pass t t' b => some (.pass t t' b)
  | .run t => some (.run t)
  | .create | .write _ _ _ _ => none

/-- Operations are called on blocks the thread has a reference to, and the pool is not created again. -/
def Held (m : PoolMemory d τ) : Act d.Pointer τ → Prop
  | .create => False
  | .retain t b | .free t b | .setDestructor t b _ _ => (t, b) ∈ m.refs
  | _ => True

/-- A destructor call with its block. -/
def called (r : Release) : Option (ℕ × ℕ × ℕ) := r.called.map fun c => (r.block, c.1, c.2)

/-- **Pool `s` is what `m` has in memory.** -/
structure Views (m : PoolMemory d τ) (s : Pool τ) : Prop where
  queueSize : s.queueSize = m.queueSize
  q : s.q = m.q
  elements : ∀ b < d.numElems, s.elements b = m.element b
  pc : ∀ t, s.pc t = (m.pc t).view
  refs : s.refs = m.refs
  retval : s.retval = m.retval
  calls : s.releases.filterMap called = m.calls.map fun c => (c.1, c.2.1.toNat, c.2.2.toNat)
  tripped : s.tripped = m.tripped.isSome

/-- The results of allocations are not set by `pool_create`. -/
theorem retval_create (n : ℕ) (elements : ℕ → Element) (τ : Type) :
    (Pool.create n n elements : Pool τ).retval = fun _ => none := by
  have hloop : ∀ (l : List ℕ) (s : Pool τ), (l.foldl Pool.createElement s).retval = s.retval := by
    intro l
    induction l with
    | nil => exact fun _ => rfl
    | cons i l ih =>
      intro s
      rw [List.foldl_cons, ih]
      unfold Pool.createElement Pool.enqueue
      dsimp only
      split <;> rfl
  exact hloop _ _

/-- A pool as it is created. -/
theorem create_views (hfits : d.numElems * d.element.size < 2 ^ 32) (mem : Memory) :
    Views ((blank mem : PoolMemory d τ).create (d.createInit elements))
      (Pool.create d.numElems d.numElems fun _ => .fresh) := by
  have hm : Created elements (blank mem : PoolMemory d τ) _ _ := created_create hfits _
  have hs := Pool.created_create (τ := τ) d.numElems fun _ => Element.fresh
  have hretval := retval_create d.numElems (fun _ => Element.fresh) τ
  generalize (blank mem : PoolMemory d τ).create (d.createInit elements) = m at hm ⊢
  generalize Pool.create d.numElems d.numElems (fun _ => Element.fresh) = s at hs hretval ⊢
  have hplaced : Placed elements m := ⟨hm.count, hm.data, hm.offset, hm.size⟩
  refine ⟨hs.queueSize.trans hm.queueSize.symm, hs.q.trans hm.q.symm, fun b hb => ?_, fun t => ?_, hs.refs.trans hm.refs.symm,
    hretval.trans hm.retval.symm, ?_, ?_⟩
  · rw [hs.elements b hb, hplaced.element hb, hm.fresh b hb]
    rfl
  · rw [hs.pc, hm.pc]
    rfl
  · rw [hs.releases, hm.calls]
    rfl
  · rw [hs.tripped, hm.tripped]
    rfl

theorem Views.sane (hv : Views m s) (hm : Sound elements m) (hb : b < d.numElems) : (s.elements b).sane = true := by
  rw [hv.elements b hb]
  exact hm.sane b hb

theorem Views.header (hv : Views m s) (hb : b < d.numElems) : s.header b = (m.element b).header := by
  unfold Pool.header
  rw [hv.elements b hb]

theorem Views.retainCount (hv : Views m s) (hm : Sound elements m) (hb : b < d.numElems) (x : BitVec 32) :
    Views (m.assign (m.member b 1) x) (s.setHeader b { s.header b with retainCount := x }) := by
  refine ⟨hv.queueSize, hv.q, fun b' hb' => ?_, hv.pc, hv.refs, hv.retval, hv.calls, hv.tripped⟩
  rw [hm.element_retainCount hb hb']
  unfold Pool.setHeader Pool.header
  dsimp only
  rw [Function.update_apply, hv.elements b hb, hv.elements b' hb']

theorem Views.fetchAdd (hv : Views m s) (hm : Sound elements m) (hb : b < d.numElems) :
    Views (m.fetchAdd b) (s.fetchAdd b) := by
  have hcount : (s.header b).retainCount = m.retainCount b := congrArg Header.retainCount (hv.header hb)
  unfold Pool.fetchAdd
  rw [hcount]
  exact hv.retainCount hm hb _

theorem Views.fetchSub (hv : Views m s) (hm : Sound elements m) (hb : b < d.numElems) :
    Views (m.fetchSub b) (s.fetchSub b) := by
  have hcount : (s.header b).retainCount = m.retainCount b := congrArg Header.retainCount (hv.header hb)
  unfold Pool.fetchSub
  rw [hcount]
  exact hv.retainCount hm hb _

theorem Views.writeDestructor (hv : Views m s) (hm : Sound elements m) (hb : b < d.numElems) (f p : d.Pointer) :
    Views (m.writeDestructor b f p) (s.writeDestructor b (decode f) p.toNat) := by
  refine ⟨hv.queueSize, hv.q, fun b' hb' => ?_, hv.pc, hv.refs, hv.retval, hv.calls, hv.tripped⟩
  rw [hm.element_writeDestructor hb hb']
  unfold Pool.writeDestructor Pool.setHeader Pool.header
  dsimp only
  rw [Function.update_apply, hv.elements b hb, hv.elements b' hb']

theorem Views.setRefs (hv : Views m s) (refs : List (τ × ℕ)) : Views { m with refs := refs } { s with refs := refs } :=
  ⟨hv.queueSize, hv.q, hv.elements, hv.pc, rfl, hv.retval, hv.calls, hv.tripped⟩

theorem Views.enqueue (hv : Views m s) (b : ℕ) : Views (m.enqueue b) (s.enqueue b) := by
  unfold PoolMemory.enqueue Pool.enqueue
  rw [hv.q, hv.queueSize]
  split
  · exact ⟨rfl, rfl, hv.elements, hv.pc, hv.refs, hv.retval, hv.calls, hv.tripped⟩
  · exact hv

theorem decode_eq_none {w : ℕ} {x : BitVec w} : decode x = none ↔ x = 0 := by
  unfold decode
  split
  · rename_i h
    exact iff_of_true rfl h
  · rename_i h
    exact iff_of_false (by simp) h

/-- The second half of `pool_alloc_blocking`. -/
theorem Views.install (hv : Views m s) (hm : Sound elements m) (hb : b < d.numElems) (f p : d.Pointer) :
    Views (if f = 0 then m else m.writeDestructor b f p)
      (if (decode f).isSome then s.writeDestructor b (decode f) p.toNat else s) := by
  by_cases hf : f = 0
  · rw [if_pos hf, decode_eq_none.2 hf]
    exact hv
  · have hsome : (decode f).isSome = true := Option.isSome_iff_ne_none.2 fun h => hf (decode_eq_none.1 h)
    rw [if_neg hf, if_pos hsome]
    exact hv.writeDestructor hm hb f p

variable [DecidableEq τ]

theorem Views.setPc (hv : Views m s) (t : τ) (pc : Pc d.Pointer) : Views (m.setPc t pc) (s.setPc t pc.view) := by
  refine ⟨hv.queueSize, hv.q, hv.elements, fun u => ?_, hv.refs, hv.retval, hv.calls, hv.tripped⟩
  unfold Pool.setPc PoolMemory.setPc
  dsimp only
  rw [Function.update_apply, Function.update_apply]
  split
  · rfl
  · exact hv.pc u

theorem Views.setRetval (hv : Views m s) (t : τ) (r : Option ℕ) :
    Views { m with retval := Function.update m.retval t r } { s with retval := Function.update s.retval t r } := by
  refine ⟨hv.queueSize, hv.q, hv.elements, hv.pc, hv.refs, ?_, hv.calls, hv.tripped⟩
  dsimp only
  rw [hv.retval]

/-- The decrement of a release finds the same count. -/
theorem Views.freeStep (hv : Views m s) (hm : Sound elements m) (hb : b < d.numElems) (t : τ) :
    Views (m.freeStep b t) (s.freeStep t b) := by
  have hcount : (s.header b).retainCount = m.retainCount b := congrArg Header.retainCount (hv.header hb)
  have hdrop : Views { m.fetchSub b with refs := m.refs.erase (t, b) } { s.fetchSub b with refs := s.refs.erase (t, b) } := by
    rw [hv.refs]
    exact (hv.fetchSub hm hb).setRefs _
  unfold PoolMemory.freeStep Pool.freeStep
  dsimp only
  rw [hcount]
  split_ifs
  · exact ⟨hdrop.queueSize, hdrop.q, hdrop.elements, hdrop.pc, hdrop.refs, hdrop.retval, hdrop.calls, rfl⟩
  · exact hdrop.setPc t (.destroy b)
  · exact hdrop

/-- The destructor call of a release. -/
theorem Views.destroy (hv : Views m s) (hb : b < d.numElems) (t : τ) :
    Views { m.setPc t (.enqueue b) with
        calls := m.calls ++ if m.destructor b = 0 then [] else [(b, m.destructor b, m.destructorPrivate b)] }
      { s.setPc t (.enqueue b) with
        releases := s.releases ++
          [⟨b, s.allocations b, (s.header b).destructor.map (·, (s.header b).destructorPrivate)⟩] } := by
  have hset := hv.setPc t (.enqueue b)
  refine ⟨hset.queueSize, hset.q, hset.elements, hset.pc, hset.refs, hset.retval, ?_, hset.tripped⟩
  dsimp only
  rw [List.filterMap_append, List.map_append, hv.calls, hv.header hb]
  congr 1
  unfold called element decode
  dsimp only
  split <;> rfl

/-- The pool takes a step, or stays as it is. -/
def Follows (s : Pool τ) : Option (Blocks.Act τ) → Pool τ → Prop
  | some a, s' => s.step a = some s'
  | none, s' => s' = s

theorem running_of_step {params : CreateParams} {a : Act d.Pointer τ} (hs : m.step params a = some m') :
    m.tripped = none := by
  unfold PoolMemory.step at hs
  split at hs
  · cases hs
  · rename_i h
    exact Option.not_isSome_iff_eq_none.1 h

/-- An operation on a block the thread holds goes past its assertions. -/
theorem Views.guarded (hv : Views m s) (hm : Sound elements m) (hb : b < d.numElems) (hpc : m.pc t = .idle)
    (hheld : (t, b) ∈ m.refs) (body : Pool τ) : s.guarded t b body = some body := by
  have hidle : s.pc t = .idle := by
    rw [hv.pc, hpc]
    rfl
  unfold Pool.guarded
  rw [if_pos ⟨hidle, hv.refs ▸ hheld⟩, if_pos (hv.sane hm hb)]

/-- **One step in memory** is one of the pool, or none. -/
theorem step_views {params : CreateParams} {a : Act d.Pointer τ} (hm : Sound elements m) (hv : Views m s)
    (hheld : m.Held a) (hs : m.step params a = some m') : ∃ s', Views m' s' ∧ Follows s a.view s' := by
  have hrunning : ¬ s.tripped = true := by
    rw [hv.tripped, running_of_step hs]
    exact Bool.false_ne_true
  -- what a step of the pool is, past the test of `tripped`
  have halloc : ∀ t f p, s.step (.alloc t f p) = s.allocStep t f p := fun _ _ _ => if_neg hrunning
  have hretain : ∀ t b, s.step (.retain t b) = s.guarded t b { s.fetchAdd b with refs := (t, b) :: s.refs } :=
    fun _ _ => if_neg hrunning
  have hfree : ∀ t b, s.step (.free t b) = s.guarded t b (s.freeStep t b) := fun _ _ => if_neg hrunning
  have hset : ∀ t b f p, s.step (.setDestructor t b f p) = s.guarded t b (s.writeDestructor b f p) :=
    fun _ _ _ _ => if_neg hrunning
  have hpass : ∀ t t' b, s.step (.pass t t' b) =
      if s.pc t = .idle ∧ (t, b) ∈ s.refs then some { s with refs := (t', b) :: s.refs.erase (t, b) } else none :=
    fun _ _ _ => if_neg hrunning
  have hrun : ∀ t, s.step (.run t) = s.runStep t := fun _ => if_neg hrunning
  cases hm.step_trans hs with
  | create => exact hheld.elim
  | allocNull t f p hpc hq =>
    refine ⟨_, hv.setRetval t none, ?_⟩
    show s.step _ = _
    rw [halloc]
    simp only [Pool.allocStep, hv.pc, hpc, Pc.view, hv.q, hq, if_true]
  | alloc t f p b rest hpc hq =>
    have hpc' := hv.setPc t (.addRef b f p)
    refine ⟨{ s.setPc t (.addRef b (decode f) p.toNat) with
        q := rest
        allocations := Function.update s.allocations b ⟨(s.header b).destructor, false, none⟩ },
      ⟨hpc'.queueSize, rfl, hpc'.elements, hpc'.pc, hpc'.refs, hpc'.retval, hpc'.calls, hpc'.tripped⟩, ?_⟩
    show s.step _ = _
    rw [halloc]
    simp only [Pool.allocStep, hv.pc, hpc, Pc.view, hv.q, hq, if_true]
  | retain t b hpc hb =>
    rw [hm.count] at hb
    refine ⟨{ s.fetchAdd b with refs := (t, b) :: s.refs }, ?_, ?_⟩
    · rw [hv.refs]
      exact (hv.fetchAdd hm hb).setRefs _
    · show s.step _ = _
      rw [hretain]
      exact hv.guarded hm hb hpc hheld _
  | free t b hpc hb =>
    rw [hm.count] at hb
    refine ⟨_, hv.freeStep hm hb t, ?_⟩
    show s.step _ = _
    rw [hfree]
    exact hv.guarded hm hb hpc hheld _
  | setDestructor t b f p hpc hb =>
    rw [hm.count] at hb
    refine ⟨_, hv.writeDestructor hm hb f p, ?_⟩
    show s.step _ = _
    rw [hset]
    exact hv.guarded hm hb hpc hheld _
  | pass t t' b hpc hmem =>
    refine ⟨{ s with refs := (t', b) :: s.refs.erase (t, b) }, ?_, ?_⟩
    · rw [hv.refs]
      exact hv.setRefs _
    · show s.step _ = _
      rw [hpass]
      simp only [hv.pc, hpc, Pc.view, hv.refs, hmem, and_self, if_true]
  | addRef t b f p hpc =>
    have hb : b < d.numElems := hm.busy t b (by rw [hpc]; rfl)
    refine ⟨{ (s.fetchAdd b).setPc t (.install b (decode f) p.toNat) with refs := (t, b) :: s.refs }, ?_, ?_⟩
    · rw [hv.refs]
      exact ((hv.fetchAdd hm hb).setPc t (.install b f p)).setRefs _
    · show s.step _ = _
      rw [hrun]
      simp only [Pool.runStep, hv.pc, hpc, Pc.view, hv.sane hm hb, if_true]
  | install t b f p hpc =>
    have hb : b < d.numElems := hm.busy t b (by rw [hpc]; rfl)
    have hinstall := (hv.install hm hb f p).setPc t .idle
    have hretval : (if f = 0 then m else m.writeDestructor b f p).retval = m.retval := by
      split <;> rfl
    have hretval' : (if (decode f).isSome then s.writeDestructor b (decode f) p.toNat else s).retval = s.retval := by
      split <;> rfl
    refine ⟨{ (if (decode f).isSome then s.writeDestructor b (decode f) p.toNat else s).setPc t .idle with
        retval := Function.update s.retval t (some b) }, ?_, ?_⟩
    · have hdone := hinstall.setRetval t (some b)
      simp only [PoolMemory.setPc, Pool.setPc, hretval, hretval'] at hdone
      exact hdone
    · show s.step _ = _
      rw [hrun]
      simp only [Pool.runStep, hv.pc, hpc, Pc.view]
  | destroy t b hpc =>
    have hb : b < d.numElems := hm.busy t b (by rw [hpc]; rfl)
    refine ⟨_, hv.destroy hb t, ?_⟩
    show s.step _ = _
    rw [hrun]
    simp only [Pool.runStep, hv.pc, hpc, Pc.view]
  | enqueue t b hpc =>
    refine ⟨_, (hv.enqueue b).setPc t .idle, ?_⟩
    show s.step _ = _
    rw [hrun]
    simp only [Pool.runStep, hv.pc, hpc, Pc.view]
  | write t b i value hb hi =>
    -- the pool does not see what is in the data
    refine ⟨s, ⟨hv.queueSize, hv.q, fun b' hb' => ?_, hv.pc, hv.refs, hv.retval, hv.calls, hv.tripped⟩, rfl⟩
    rw [hm.element_write (hm.written hb) hb' hi]
    exact hv.elements b' hb'

/-- Operations are called on blocks the thread has a reference to, and no block gets its 2³²-th live reference. -/
def Lawful (m : PoolMemory d τ) (a : Act d.Pointer τ) : Prop :=
  m.Held a ∧ match a with
    | .retain _ b => m.refs.countP (·.2 == b) + 1 < 2 ^ 32
    | _ => True

/-- **The pool in memory is the pool.** For every declaration of a pool whose storage has less than 2³² bytes, on every
target: whatever clients store to the data of their blocks, what the operations do is a run of the pool, which hands no
block out twice and loses none, and no assertion fails. -/
theorem pool_memory_refines (hfits : d.numElems * d.element.size < 2 ^ 32) {m : PoolMemory d τ}
    (h : Sys.Reach (system d τ elements) Lawful m) :
    ∃ s, Sys.Reach (Pool.system τ d.numElems) Pool.NoWrap s ∧ Views m s ∧ Conserved d.numElems s ∧ m.tripped = none := by
  have hsim : ∃ s, Sys.Reach (Pool.system τ d.numElems) Pool.NoWrap s ∧ Views m s := by
    induction h with
    | init hi =>
      obtain ⟨mem, rfl⟩ := hi
      exact ⟨_, .init ⟨_, rfl⟩, create_views hfits mem⟩
    | @step m m' a hreach hok hs ih =>
      obtain ⟨s, hr, hv⟩ := ih
      obtain ⟨s', hv', hstep⟩ := step_views (reach_sound hfits hreach) hv hok.1 hs
      cases ha : a.view with
      | none =>
        rw [ha] at hstep
        obtain rfl : s' = s := hstep
        exact ⟨s', hr, hv'⟩
      | some a' =>
        rw [ha] at hstep
        refine ⟨s', hr.step ?_ hstep, hv'⟩
        cases a with
        | retain t b =>
          cases ha
          show s.live b + 1 < 2 ^ 32
          unfold Pool.live
          rw [hv.refs]
          exact hok.2
        | create | write => cases ha
        | _ => cases ha; trivial
  obtain ⟨s, hr, hv⟩ := hsim
  obtain ⟨hconserved, hrunning⟩ := pool_conserves hr
  refine ⟨s, hr, hv, hconserved, ?_⟩
  rw [hv.tripped] at hrunning
  exact Option.not_isSome_iff_eq_none.1 (by rw [hrunning]; exact Bool.false_ne_true)

end Cutils.Blocks.PoolMemory
