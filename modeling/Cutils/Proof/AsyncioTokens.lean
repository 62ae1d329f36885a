import Cutils.Lib.Count
import Cutils.Proof.AsyncioTransmitView
import Cutils.Proof.AsyncioLifecycle

/-!
# Tokens and the blocks they are

A token is a block of the tx pool, and every start creates that pool anew over the same memory. As long
as no use of a token is outstanding then, each use has its block for itself (`Owned`), and a `tx_f` that
is still to come has the use it was posted for (`Lined`).

* `tokens_owned`: in the runs in which the tx pool is created only when no token is outstanding, a token
  in use is in the hands of one use only, and no `pool_free` finds a retain count that is not 1.
* `token_outlives_pool`: otherwise a held token is in the free queue after a restart.
-/

namespace Cutils.Asyncio

open Blocks

/-- The use has the reference that its block was allocated with. -/
def TokenPc.counted : TokenPc → Bool
  | .held _ | .sendCtx _ | .sendFields _ | .sendPost _ | .queued _ | .releaseSub _ => true
  | _ => false

namespace Tx

variable {n k b : ℕ} {pool p : Store} {tokens : List Token} {line : List Action} {pc : WorkerPc}
  {t t' : Token}

/-- **Every block has one owner**: the free queue, or one use of a token. -/
structure Owned (n : ℕ) (pool : Store) (tokens : List Token) : Prop where
  size : pool.numOfElements = n
  nodup : pool.free.Nodup
  free : ∀ b ∈ pool.free, b < n ∧ pool.retainCount b = 0
  own : ∀ {k : ℕ} {t : Token} {b : ℕ}, tokens[k]? = some t → t.pc.block = some b →
    b < n ∧ b ∉ pool.free ∧ pool.retainCount b = if t.pc.counted then 1 else 0
  one : ∀ {k k' : ℕ} {t t' : Token} {b : ℕ}, tokens[k]? = some t → tokens[k']? = some t' →
    t.pc.block = some b → t'.pc.block = some b → k = k'

/-- **Every `tx_f` in the line has its use**, and every use at most one `tx_f`. -/
structure Lined (tokens : List Token) (line : List Action) (pc : WorkerPc) : Prop where
  pend : ∀ {b k : ℕ}, .txF b k ∈ line → ∃ t, tokens[k]? = some t ∧
    t.pc = if pc = .txEnqueue b k then .returning b else .queued b
  once : (line.filterMap Action.use).Nodup
  run : ∀ {b k : ℕ}, pc.action = some (.txF b k) → ∃ l, line = .txF b k :: l

/-- A use goes on to `t'`, and the pool to `p`: what must be shown. -/
theorem Owned.set (h : Owned n pool tokens) (t' : Token) (p : Store) (hsize : p.numOfElements = n) (hnodup : p.free.Nodup)
    (hfree : ∀ b ∈ p.free, b < n ∧ p.retainCount b = 0)
    (hown : ∀ b, t'.pc.block = some b → b < n ∧ b ∉ p.free ∧ p.retainCount b = if t'.pc.counted then 1 else 0)
    (hone : ∀ j u b, j ≠ k → tokens[j]? = some u → u.pc.block = some b →
      t'.pc.block ≠ some b ∧ b ∉ p.free ∧ p.retainCount b = pool.retainCount b) :
    Owned n p (tokens.set k t') := by
  refine ⟨hsize, hnodup, hfree, ?_, ?_⟩
  · intro j u b hj hb
    rcases List.get_set hj with ⟨-, rfl⟩ | ⟨hjk, hj⟩
    · exact hown b hb
    · obtain ⟨-, h2, h3⟩ := hone j u b hjk hj hb
      exact ⟨(h.own hj hb).1, h2, h3.trans (h.own hj hb).2.2⟩
  · intro j j' u u' b hj hj' hb hb'
    rcases List.get_set hj with ⟨rfl, rfl⟩ | ⟨hjk, hold⟩
    · rcases List.get_set hj' with ⟨rfl, -⟩ | ⟨hjk', hold'⟩
      · rfl
      · exact absurd hb (hone j' u' b hjk' hold' hb').1
    · rcases List.get_set hj' with ⟨rfl, rfl⟩ | ⟨-, hold'⟩
      · exact absurd hb' (hone j u b hjk hold hb).1
      · exact h.one hold hold' hb hb'

/-- A use keeps its block and its reference, or drops the block. -/
theorem Owned.keep (h : Owned n pool tokens) (hk : tokens[k]? = some t)
    (ht : t'.pc.block = none ∨ t'.pc.block = t.pc.block ∧ t'.pc.counted = t.pc.counted) :
    Owned n pool (tokens.set k t') := by
  refine h.set t' pool h.size h.nodup h.free ?_ ?_
  · intro b hb
    rcases ht with ht | ⟨ht, hc⟩
    · rw [ht] at hb
      cases hb
    · rw [hc]
      exact h.own hk (ht ▸ hb)
  · intro j u b hjk hj hb
    refine ⟨?_, (h.own hj hb).2.1, rfl⟩
    intro hb'
    rcases ht with ht | ⟨ht, -⟩
    · rw [ht] at hb'
      cases hb'
    · exact hjk (h.one hj hk hb (ht ▸ hb'))

theorem free_dequeue (h : pool.dequeue = some (b, p)) :
    pool.free = b :: p.free ∧ p.numOfElements = pool.numOfElements ∧ p.retainCount = pool.retainCount := by
  unfold Store.dequeue at h
  split at h
  · rename_i b' rest hq
    cases h
    exact ⟨by simp [Store.free, hq], rfl, rfl⟩
  · cases h

theorem Owned.alloc (h : Owned n pool tokens) (hq : pool.dequeue = some (b, p)) :
    Owned n p (tokens.set k { t with pc := .adding b }) := by
  obtain ⟨hf, hn, hr⟩ := free_dequeue hq
  have hnodup := h.nodup
  have hfree := h.free
  rw [hf] at hnodup hfree
  obtain ⟨hb, hnodup⟩ := List.nodup_cons.1 hnodup
  have hmem : ∀ b' ∈ p.free, b' ∈ pool.free := fun b' hb' => by rw [hf]; exact List.mem_cons_of_mem _ hb'
  refine h.set _ p (hn.trans h.size) hnodup ?_ ?_ ?_
  · intro b' hb'
    rw [hr]
    exact hfree b' (List.mem_cons_of_mem _ hb')
  · intro b' hb'
    obtain rfl := Option.some.inj hb'
    rw [hr]
    exact ⟨(hfree b List.mem_cons_self).1, hb, (hfree b List.mem_cons_self).2⟩
  · intro j u b' hjk hj hb'
    have hno := (h.own hj hb').2.1
    rw [hf, List.mem_cons, not_or] at hno
    refine ⟨fun heq => hno.1 (Option.some.inj heq).symm, hno.2, by rw [hr]⟩

/-- The count of a use's own block changes with its reference. -/
theorem Owned.count (h : Owned n pool tokens) (hk : tokens[k]? = some t) (hb : t.pc.block = some b)
    (hb' : t'.pc.block = some b) (hfree : p.free = pool.free) (hsize : p.numOfElements = pool.numOfElements)
    (hr : p.retainCount = Function.update pool.retainCount b (if t'.pc.counted then 1 else 0)) :
    Owned n p (tokens.set k t') := by
  have hown := h.own hk hb
  have hne : ∀ {b'}, b' ≠ b → p.retainCount b' = pool.retainCount b' := fun hne => by
    rw [hr, Function.update_of_ne hne]
  refine h.set t' p (hsize.trans h.size) (hfree ▸ h.nodup) ?_ ?_ ?_
  · intro b' hmem
    rw [hfree] at hmem
    rw [hne (fun heq => hown.2.1 (heq ▸ hmem))]
    exact h.free b' hmem
  · intro b'' heq
    obtain rfl := Option.some.inj (hb'.symm.trans heq)
    rw [hfree, hr, Function.update_self]
    exact ⟨hown.1, hown.2.1, rfl⟩
  · intro j u b'' hjk hj hbj
    have hbne : b'' ≠ b := fun heq => hjk (h.one hj hk hbj (heq ▸ hb))
    refine ⟨?_, hfree ▸ (h.own hj hbj).2.1, hne hbne⟩
    rw [hb', ne_eq, Option.some.injEq]
    exact fun heq => hbne heq.symm

/-- The free queue has room for a block that is not in it. -/
theorem Owned.length_lt (h : Owned n pool tokens) (hlt : b < n) (hb : b ∉ pool.free) : pool.free.length < n := by
  have hsub : b :: pool.free ⊆ List.range n := by
    intro b' hb'
    rw [List.mem_range]
    rcases List.mem_cons.1 hb' with rfl | hb'
    · exact hlt
    · exact (h.free b' hb').1
  have hle := (List.nodup_cons.2 ⟨hb, h.nodup⟩).length_le_of_subset hsub
  rw [List.length_cons, List.length_range] at hle
  exact hle

/-- A block goes back: it is the last of the free queue, if there is one. -/
theorem Owned.free_enqueue (h : Owned n pool tokens) (hlt : b < n) (hb : b ∉ pool.free) :
    (pool.enqueue b).free = (if pool.q.isSome then pool.free ++ [b] else []) ∧
      (pool.enqueue b).numOfElements = n ∧ (pool.enqueue b).retainCount = pool.retainCount := by
  have hroom := h.length_lt hlt hb
  have hsize := h.size
  unfold Store.enqueue
  cases hq : pool.q with
  | none => exact ⟨by simp [Store.free, hq], h.size, rfl⟩
  | some q =>
    have hlen : q.length < pool.numOfElements := by
      rw [hsize]
      simpa [Store.free, hq] using hroom
    dsimp only
    rw [if_pos hlen]
    exact ⟨by simp [Store.free, hq], h.size, rfl⟩

theorem Owned.enqueue (h : Owned n pool tokens) (hk : tokens[k]? = some t) (hb : t.pc.block = some b)
    (hc : t.pc.counted = false) (ht' : t'.pc.block = none) :
    Owned n (pool.enqueue b) (tokens.set k t') := by
  obtain ⟨hlt, hnot, hcount⟩ := h.own hk hb
  obtain ⟨hf, hn, hr⟩ := h.free_enqueue hlt hnot
  -- only this block comes to the free ones
  have hmem : ∀ b' ∈ (pool.enqueue b).free, b' ∈ pool.free ∨ b' = b := by
    intro b' hb'
    rw [hf] at hb'
    split at hb'
    · rcases List.mem_append.1 hb' with hb' | hb'
      · exact .inl hb'
      · exact .inr (List.mem_singleton.1 hb')
    · cases hb'
  rw [hc] at hcount
  refine h.set t' _ hn ?_ ?_ ?_ ?_
  · rw [hf]
    split
    · exact List.nodup_append.2 ⟨h.nodup, (by simp), by
        intro x hx y hy
        rw [List.mem_singleton.1 hy]
        exact fun heq => hnot (heq ▸ hx)⟩
    · exact List.nodup_nil
  · intro b' hb'
    rw [hr]
    rcases hmem b' hb' with hb' | rfl
    · exact h.free b' hb'
    · exact ⟨hlt, hcount⟩
  · intro b' hb'
    rw [ht'] at hb'
    cases hb'
  · -- no other use has it
    intro j u b' hjk hj hb'
    refine ⟨by rw [ht']; simp, ?_, by rw [hr]⟩
    intro hin
    rcases hmem b' hin with hin | rfl
    · exact (h.own hj hb').2.1 hin
    · exact hjk (h.one hj hk hb' hb)

theorem Owned.create (h : Owned n pool tokens) (hno : ∀ t ∈ tokens, t.pc.block = none) :
    Owned n pool.create tokens := by
  have hsize := h.size
  have hfree : pool.create.free = List.range n := by simp [Store.create, Store.free, hsize]
  -- no use has a block of the old pool, so that the new one may hand out all of them
  refine ⟨hsize, hfree ▸ List.nodup_range, ?_, ?_, ?_⟩
  · intro b hb
    rw [hfree, List.mem_range] at hb
    exact ⟨hb, if_pos (hsize ▸ hb)⟩
  · intro k t b hk hb
    rw [hno t (List.mem_of_getElem? hk)] at hb
    cases hb
  · intro k k' t t' b hk _ hb
    rw [hno t (List.mem_of_getElem? hk)] at hb
    cases hb

theorem Owned.destroy (h : Owned n pool tokens) : Owned n pool.destroy tokens :=
  ⟨h.size, List.nodup_nil, fun _ hb => absurd hb List.not_mem_nil,
    fun hk hb => ⟨(h.own hk hb).1, List.not_mem_nil, (h.own hk hb).2.2⟩, h.one⟩

/-- A new use, without a block. -/
theorem Owned.allocate (h : Owned n pool tokens) (hb : t.pc.block = none) :
    Owned n pool (tokens ++ [t]) := by
  have hold : ∀ {j : ℕ} {u : Token} {b : ℕ}, (tokens ++ [t])[j]? = some u → u.pc.block = some b →
      tokens[j]? = some u := by
    intro j u b hj hu
    rcases List.get_append_singleton hj with ⟨-, rfl⟩ | hj
    · rw [hb] at hu
      cases hu
    · exact hj
  exact ⟨h.size, h.nodup, h.free, fun hj hu => h.own (hold hj hu) hu,
    fun hj hj' hu hu' => h.one (hold hj hu) (hold hj' hu') hu hu'⟩

theorem Lined.queued (h : Lined tokens line pc) (hpc : ∀ b k, pc ≠ .txEnqueue b k) (hmem : .txF b k ∈ line) :
    ∃ t, tokens[k]? = some t ∧ t.pc = .queued b := by
  obtain ⟨t, ht, hq⟩ := h.pend hmem
  exact ⟨t, ht, by rwa [if_neg (hpc b k)] at hq⟩

theorem Lined.returning (h : Lined tokens line pc) (hpc : pc = .txEnqueue b k) :
    ∃ t, tokens[k]? = some t ∧ t.pc = .returning b := by
  obtain ⟨l, hl⟩ := h.run (b := b) (k := k) (by rw [hpc]; rfl)
  obtain ⟨t, ht, hq⟩ := h.pend (b := b) (k := k) (by rw [hl]; exact List.mem_cons_self)
  exact ⟨t, ht, by rwa [if_pos hpc] at hq⟩

/-- `tx_f` goes on, before it returns its block. -/
theorem Lined.setPc {pc' : WorkerPc} (h : Lined tokens line pc) (hpc : ∀ b k, pc ≠ .txEnqueue b k)
    (hpc' : ∀ b k, pc' ≠ .txEnqueue b k) (ha : pc'.action = pc.action) : Lined tokens line pc' := by
  refine ⟨?_, h.once, fun hr => h.run (ha ▸ hr)⟩
  intro b k hmem
  obtain ⟨t, ht, hq⟩ := h.queued hpc hmem
  exact ⟨t, ht, by rwa [if_neg (hpc' b k)]⟩

/-- A use that no `tx_f` is posted for is not in the line. -/
theorem Lined.not_mem (h : Lined tokens line pc) (hk : tokens[k]? = some t)
    (hne : ∀ b, t.pc ≠ .queued b ∧ t.pc ≠ .returning b) : .txF b k ∉ line := by
  intro hmem
  obtain ⟨u, hu, hor⟩ := h.pend hmem
  obtain rfl := Option.some.inj (hk.symm.trans hu)
  split at hor
  · exact (hne b).2 hor
  · exact (hne b).1 hor

/-- Such a use goes on. -/
theorem Lined.set (h : Lined tokens line pc) (hk : tokens[k]? = some t)
    (hne : ∀ b, t.pc ≠ .queued b ∧ t.pc ≠ .returning b) (t' : Token) : Lined (tokens.set k t') line pc := by
  refine ⟨?_, h.once, h.run⟩
  intro b j hmem
  obtain ⟨u, hu, hor⟩ := h.pend hmem
  have hkj : k ≠ j := by rintro rfl; exact h.not_mem hk hne hmem
  exact ⟨u, by rw [List.getElem?_set_ne hkj]; exact hu, hor⟩

theorem use_of_mem {l : List Action} (hmem : .txF b k ∈ l) : k ∈ l.filterMap Action.use :=
  List.mem_filterMap.2 ⟨_, hmem, rfl⟩

theorem Lined.post {j : Action} (h : Lined tokens line pc) (hj : j.use = none) : Lined tokens (line ++ [j]) pc := by
  refine ⟨?_, ?_, ?_⟩
  · intro b k hmem
    rcases List.mem_append.1 hmem with hmem | hmem
    · exact h.pend hmem
    · rw [← List.mem_singleton.1 hmem] at hj
      cases hj
  · simpa [hj] using h.once
  · intro b k hr
    obtain ⟨l, hl⟩ := h.run hr
    exact ⟨l ++ [j], by simp [hl]⟩

/-- A starter or a finisher ends. -/
theorem Lined.over {j : Action} {l : List Action} (h : Lined tokens line pc) (hl : line = j :: l) (hj : j.use = none)
    (hpc : pc = .idle) : Lined tokens l pc := by
  have honce := h.once
  rw [hl] at honce
  refine ⟨?_, by simpa [hj] using honce, ?_⟩
  · intro b k hmem
    exact h.pend (by rw [hl]; exact List.mem_cons_of_mem _ hmem)
  · intro b k hr
    rw [hpc] at hr
    cases hr

theorem Lined.accept (h : Lined tokens line pc) (hk : tokens[k]? = some t) (hp : t.pc = .sendPost b) :
    Lined (tokens.set k { t with pc := .queued b }) (line ++ [.txF b k]) pc := by
  -- a use that is still being sent is not in the line yet
  have hnone : ∀ b', .txF b' k ∉ line := fun b' => h.not_mem hk (by rw [hp]; simp)
  refine ⟨?_, ?_, ?_⟩
  · intro b' j hmem
    rcases List.mem_append.1 hmem with hmem | hmem
    · have hjk : k ≠ j := by rintro rfl; exact hnone b' hmem
      obtain ⟨u, hu, hor⟩ := h.pend hmem
      exact ⟨u, by rw [List.getElem?_set_ne hjk]; exact hu, hor⟩
    · cases List.mem_singleton.1 hmem
      refine ⟨_, List.get_set_self hk, ?_⟩
      rw [if_neg]
      intro hpc
      obtain ⟨l, hl⟩ := h.run (b := b) (k := k) (by rw [hpc]; rfl)
      exact hnone b (by rw [hl]; exact List.mem_cons_self)
  · rw [List.filterMap_append]
    refine List.nodup_append.2 ⟨h.once, by simp [Action.use], ?_⟩
    intro j hj j' hj'
    obtain rfl : j' = k := by simpa [Action.use] using hj'
    rintro rfl
    obtain ⟨a, ha, hu⟩ := List.mem_filterMap.1 hj
    cases a with
    | txF b' i =>
      cases Option.some.inj hu
      exact hnone b' ha
    | _ => cases hu
  · intro b' j hr
    obtain ⟨l, hl⟩ := h.run hr
    exact ⟨l ++ [.txF b k], by simp [hl]⟩

/-- The running `tx_f` is the only one of its use. -/
theorem Lined.head {l : List Action} {j : ℕ} (h : Lined tokens line pc) (hl : line = .txF b k :: l)
    (hmem : .txF n j ∈ l) : j ≠ k := by
  have honce := h.once
  rw [hl] at honce
  rintro rfl
  exact (List.nodup_cons.1 honce).1 (use_of_mem hmem)

/-- `tx_f` has dropped its reference. -/
theorem Lined.free (h : Lined tokens line pc) (hpc : pc = .txFree b k) (hk : tokens[k]? = some t) :
    Lined (tokens.set k { t with pc := .returning b }) line (.txEnqueue b k) := by
  obtain ⟨l, hl⟩ := h.run (b := b) (k := k) (by rw [hpc]; rfl)
  refine ⟨?_, h.once, ?_⟩
  · intro b' j hmem
    obtain ⟨u, hu, hq⟩ := h.queued (by rw [hpc]; simp) hmem
    rw [hl] at hmem
    rcases List.mem_cons.1 hmem with heq | hmem
    · cases heq
      exact ⟨_, List.get_set_self hk, by rw [if_pos rfl]⟩
    · have hjk := h.head hl hmem
      refine ⟨u, by rw [List.getElem?_set_ne hjk.symm]; exact hu, ?_⟩
      rwa [if_neg]
      rintro heq
      cases heq
      exact hjk rfl
  · intro b' j hr
    cases hr
    exact ⟨l, hl⟩

/-- `tx_f` ends. -/
theorem Lined.enqueue {l : List Action} (h : Lined tokens line pc) (hpc : pc = .txEnqueue b k)
    (hl : line = .txF b k :: l) (t' : Token) : Lined (tokens.set k t') l .idle := by
  have honce := h.once
  rw [hl] at honce
  refine ⟨?_, (List.nodup_cons.1 honce).2, fun hr => by cases hr⟩
  intro b' j hmem
  have hjk := h.head hl hmem
  obtain ⟨u, hu, hor⟩ := h.pend (b := b') (k := j) (by rw [hl]; exact List.mem_cons_of_mem _ hmem)
  refine ⟨u, by rw [List.getElem?_set_ne hjk.symm]; exact hu, ?_⟩
  rw [hpc, if_neg] at hor
  · exact hor
  · intro heq
    cases heq
    exact hjk rfl

end Tx

namespace Stream

variable {c : Config} {s s' : Stream} {a : Act} {n k w b : ℕ} {v : Tx}

/-- Where the worker is whose step it is. -/
def stepPc (s : Stream) : Act → WorkerPc
  | .work w _ => s.pc w
  | _ => .idle

/-- `starter_f` creates the tx pool only when no use of a token has a block. -/
def Fresh (s : Stream) (a : Act) : Prop :=
  s.stepPc a = .starterCreate .tx → ∀ t ∈ s.tokens, t.pc.block = none

instance : Decidable (Fresh s a) := inferInstanceAs (Decidable (_ → _))

/-- **One step**, as the transmit side sees it. -/
theorem step_owned (ho : Tx.Owned n (s.pool .tx) s.tokens) (hl : Tx.Lined s.tokens (s.tx c).line (s.tx c).pc)
    (hok : Fresh s a) (hst : TxStep c s a v) : Tx.Owned n v.pool v.tokens ∧ Tx.Lined v.tokens v.line v.pc := by
  -- `Lined` keeps its entries where the line and the worker's place stay; `Owned` where the pool does
  cases hst with
  | keep => exact ⟨ho, hl⟩
  | post hj => exact ⟨ho, hl.post hj⟩
  | create hpc => exact ⟨ho.create (hok hpc), hl⟩
  | ready => exact ⟨ho, hl⟩
  | finish => exact ⟨ho, hl⟩
  | destroy => exact ⟨ho.destroy, hl⟩
  | «over» hline hj hpc => exact ⟨ho, hl.over hline hj hpc⟩
  | take hline hpc =>
    refine ⟨ho, ?_, hl.once, ?_⟩
    · intro b k hmem
      obtain ⟨t, ht, hq⟩ := hl.queued (by rw [hpc]; simp) hmem
      exact ⟨t, ht, by rwa [if_neg (by simp)]⟩
    · rintro b k hr
      cases hr
      exact ⟨_, hline⟩
  | load _ _ hpc | drop _ _ hpc | check hpc | inError hpc | write _ hpc | notify hpc _
  | silent hpc _ =>
    exact ⟨ho, hl.setPc (by rw [hpc]; simp) (by simp) (by rw [hpc]; rfl)⟩
  | @free _ _ b k hpc h1 =>
    obtain ⟨l, hline⟩ := hl.run (b := b) (k := k) (by rw [hpc]; rfl)
    obtain ⟨t, hk, hq⟩ := hl.queued (b := b) (k := k) (by rw [hpc]; simp) (by rw [hline]; exact List.mem_cons_self)
    rw [List.modify_set _ hk]
    refine ⟨ho.count hk (by rw [hq]; rfl) rfl rfl rfl ?_, hl.free hpc hk⟩
    simp only [Store.fetchSub, h1]
    rfl
  | @freeOdd _ _ b k _ hpc h1 =>
    obtain ⟨l, hline⟩ := hl.run (b := b) (k := k) (by rw [hpc]; rfl)
    obtain ⟨t, hk, hq⟩ := hl.queued (b := b) (k := k) (by rw [hpc]; simp) (by rw [hline]; exact List.mem_cons_self)
    have hcount := (ho.own hk (b := b) (by rw [hq]; rfl)).2.2
    rw [hq] at hcount
    exact absurd hcount h1
  | @enqueue _ _ b k l hpc hline =>
    obtain ⟨t, hk, hr⟩ := hl.returning hpc
    rw [List.modify_set _ hk]
    exact ⟨ho.enqueue hk (by rw [hr]; rfl) (by rw [hr]; rfl) rfl, hl.enqueue hpc hline _⟩
  | allocate _ =>
    refine ⟨ho.allocate rfl, ?_, hl.once, hl.run⟩
    intro b k hmem
    obtain ⟨t, ht, hor⟩ := hl.pend hmem
    exact ⟨t, by rw [List.getElem?_append_left (List.getElem?_eq_some_iff.1 ht).1]; exact ht, hor⟩
  | alloc hk hp hq => exact ⟨ho.alloc hq, hl.set hk (by rw [hp]; simp) _⟩
  | add hk hp =>
    refine ⟨ho.count hk (by rw [hp]; rfl) rfl rfl rfl ?_, hl.set hk (by rw [hp]; simp) _⟩
    have hcount := (ho.own hk (by rw [hp]; rfl)).2.2
    rw [hp] at hcount
    simp only [Store.fetchAdd]
    rw [show (s.pool .tx).retainCount _ = 0 from hcount]
    rfl
  | move hk hor =>
    rcases hor with ⟨hp, rfl⟩ | ⟨b, hp, rfl | rfl⟩ | ⟨b, hp, rfl | rfl⟩
    · exact ⟨ho.keep hk (.inl rfl), hl.set hk (by rw [hp]; simp) _⟩
    · exact ⟨ho.keep hk (.inr (by rw [hp]; exact ⟨rfl, rfl⟩)), hl.set hk (by rw [hp]; simp) _⟩
    · exact ⟨ho.keep hk (.inr (by rw [hp]; exact ⟨rfl, rfl⟩)), hl.set hk (by rw [hp]; simp) _⟩
    · exact ⟨ho.keep hk (.inr (by rw [hp]; exact ⟨rfl, rfl⟩)), hl.set hk (by rw [hp]; simp) _⟩
    · exact ⟨ho.keep hk (.inl rfl), hl.set hk (by rw [hp]; simp) _⟩
  | fill hk hp => exact ⟨ho.keep hk (.inr ⟨rfl, rfl⟩), hl.set hk (by rw [hp]; simp) _⟩
  | send hk hp | fields hk hp =>
    exact ⟨ho.keep hk (.inr (by rw [hp]; exact ⟨rfl, rfl⟩)), hl.set hk (by rw [hp]; simp) _⟩
  | accept hk hp => exact ⟨ho.keep hk (.inr (by rw [hp]; exact ⟨rfl, rfl⟩)), hl.accept hk hp⟩
  | release hk hp h1 =>
    refine ⟨ho.count hk (by rw [hp]; rfl) rfl rfl rfl ?_, hl.set hk (by rw [hp]; simp) _⟩
    simp only [Store.fetchSub, h1]
    rfl
  | releaseOdd hk hp h1 =>
    have hcount := (ho.own hk (by rw [hp]; rfl)).2.2
    rw [hp] at hcount
    exact absurd hcount h1
  | released hk hp => exact ⟨ho.enqueue hk (by rw [hp]; rfl) (by rw [hp]; rfl) rfl, hl.set hk (by rw [hp]; simp) _⟩

/-- At first nothing is posted. -/
theorem create_tx : ((create c).tx c).line = [] ∧ ((create c).tx c).pc = .idle := by
  simp only [tx]
  cases c.worker .tx with
  | none => exact ⟨rfl, rfl⟩
  | some w => exact ⟨rfl, rfl⟩

/-- **In every run** in which the tx pool is created only when no token is outstanding. -/
theorem reach_owned {ok : Stream → Act → Prop} (hle : ∀ s a, ok s a → Fresh s a) (h : Sys.Reach (system c) ok s) :
    Tx.Owned (c.numOfElements .tx) (s.pool .tx) s.tokens ∧ Tx.Lined s.tokens (s.tx c).line (s.tx c).pc := by
  induction h with
  | init h0 =>
    cases h0
    obtain ⟨hline, hpc⟩ := create_tx (c := c)
    rw [hline, hpc]
    exact ⟨⟨rfl, List.nodup_nil, nofun, nofun, nofun⟩, nofun, List.nodup_nil, nofun⟩
  | step hr hok hs ih =>
    exact step_owned ih.1 ih.2 (hle _ _ hok) (step_tx (reach_cycled hr) (reach_tokens hr) hs)

/-- A client's step on a token, or the tx worker's in `tx_f`. -/
def onToken (s : Stream) (a : Act) : Prop := (∃ k, a = .token k) ∨ (s.stepPc a).sends = true

/-- Of these, only a `pool_free` can trip. -/
theorem tripped_of_count (ha : s.onToken a) (hs : s.step c a = some s')
    (hrel : ∀ (k : ℕ) (t : Token) (b : ℕ), s.tokens[k]? = some t → t.pc = .releaseSub b → (s.pool .tx).retainCount b = 1)
    (hfree : ∀ w b k, s.pc w = .txFree b k → (s.pool .tx).retainCount b = 1) : s'.tripped = false := by
  unfold step at hs
  split at hs
  · cases hs
  rename_i htrip
  replace htrip := Bool.eq_false_iff.2 htrip
  rcases ha with ⟨k, rfl⟩ | hsends
  · obtain ⟨t, hk, ht⟩ := Option.bind_eq_some_iff.1 hs
    unfold tokenStep at ht
    split at ht
    case h_5 b _ =>
      obtain rfl := Option.some.inj ht
      exact (congrArg Stream.tripped (post_eq s .tx (.txF b k))).trans htrip
    case h_6 b hpc =>
      obtain rfl := Option.some.inj ht
      rw [freeStep_last (hrel k t b hk hpc)]
      exact htrip
    case h_1 | h_3 => split at ht <;> cases ht <;> exact htrip
    case h_8 => cases ht
    all_goals
      obtain rfl := Option.some.inj ht
      exact htrip
  · cases a with
    | work w n =>
      change (s.pc w).sends = true at hsends
      have hidle : s.pc w ≠ .idle := by
        intro h0
        rw [h0] at hsends
        cases hsends
      rcases workStep_cases rfl hidle hs with h | h | h
      · cases hpc : s.pc w <;> rw [hpc] at hsends h <;> first | (cases hsends; done) | cases h
      · cases hpc : s.pc w <;> rw [hpc] at hsends h <;> first | (cases hsends; done) | cases h
      · cases hpc : s.pc w with
        | txFree b k =>
          rw [hpc] at h
          obtain rfl := Option.some.inj h
          rw [freeStep_last (hfree w b k hpc)]
          exact htrip
        | txNotify b k status m =>
          rw [hpc] at h
          obtain rfl := Option.some.inj h
          unfold Stream.notify
          split <;> exact htrip
        | txLoad | txCheck | txWrite | txEnqueue =>
          rw [hpc] at h
          obtain rfl := Option.some.inj h
          exact htrip
        | _ => rw [hpc] at h; cases h
    | _ => cases hsends

/-- **A token in use is not in the free queue, and nobody else's**, in the runs in which `starter_f`
creates the tx pool only when no token is outstanding; and no `pool_free` of a token trips. -/
theorem tokens_owned (h : Sys.Reach (system c) Fresh s) :
    (∀ (k : ℕ) (t : Token) (b : ℕ), s.tokens[k]? = some t → t.pc.block = some b → b ∉ (s.pool .tx).free ∧
      ∀ (k' : ℕ) (t' : Token), s.tokens[k']? = some t' → t'.pc.block = some b → k' = k) ∧
    ∀ a s', s.onToken a → s.step c a = some s' → s'.tripped = false := by
  obtain ⟨ho, hl⟩ := reach_owned (fun _ _ hok => hok) h
  have hplaced := (reach_cycled h).placed
  refine ⟨?_, ?_⟩
  · intro k t b hk hb
    exact ⟨(ho.own hk hb).2.1, fun k' t' hk' hb' => ho.one hk' hk hb' hb⟩
  · intro a s' ha hs
    refine tripped_of_count ha hs ?_ ?_
    · intro k t b hk hp
      have hcount := (ho.own hk (b := b) (by rw [hp]; rfl)).2.2
      rwa [hp] at hcount
    · intro w b k hpc
      have hpc' := pc_of_tx hplaced hpc rfl
      obtain ⟨l, hline⟩ := hl.run (b := b) (k := k) (by rw [hpc']; rfl)
      obtain ⟨t, hk, hq⟩ := hl.queued (b := b) (k := k) (by rw [hpc']; simp [WorkerPc.sends])
        (by rw [hline]; exact List.mem_cons_self)
      have hcount := (ho.own hk (b := b) (by rw [hq]; rfl)).2.2
      rwa [hq] at hcount

/-- A client has its first token. -/
def hold : List Act := [.allocate, .token 0, .token 0]

/-- The client releases its first token. -/
def letGo : List Act := [.release 0, .token 0, .token 0]

/-- A token is released before the stream is stopped and started again; its block is then given out a second time. -/
theorem tokens_owned_two :
    ∃ s, Sys.Reach (system twoWorkers) Fresh s ∧ s.starts = 2 ∧ s.tokens.map Token.pc = [.gone, .held 0] ∧
      0 ∉ (s.pool .tx).free := by
  obtain ⟨s, hs, hp⟩ := reach_of_run (c := twoWorkers) Fresh
    (startUp ++ hold ++ letGo ++ stopDown ++ destroyFirst ++ .control :: startUp ++ [.allocate, .token 1, .token 1])
    (fun s => s.starts == 2 && s.tokens.map Token.pc == [.gone, .held 0]) (by decide +kernel)
  simp only [Bool.and_eq_true, beq_iff_eq] at hp
  obtain ⟨hstarts, htokens⟩ := hp
  have hone : (s.tokens[1]?).map Token.pc = some (.held 0) := by
    rw [← List.getElem?_map, htokens]
    rfl
  obtain ⟨t, hk, hpc⟩ := Option.map_eq_some_iff.1 hone
  exact ⟨s, hs, hstarts, htokens, ((tokens_owned hs).1 1 t 0 hk (by rw [hpc]; rfl)).1⟩

/-- **After a restart a held token is in the free queue.** -/
theorem token_outlives_pool :
    ∃ s, Sys.Reach (system twoWorkers) Sys.Always s ∧ (s.tokens[0]?).map Token.pc = some (.held 0) ∧
      0 ∈ (s.pool .tx).free := by
  obtain ⟨s, hs, hp⟩ := reach_of_run (c := twoWorkers) Sys.Always
    (startUp ++ hold ++ stopDown ++ destroyFirst ++ .control :: startUp)
    (fun s => (s.tokens[0]?).map Token.pc == some (.held 0) && decide (0 ∈ (s.pool .tx).free)) (by decide +kernel)
  simp only [Bool.and_eq_true, beq_iff_eq, decide_eq_true_eq] at hp
  exact ⟨s, hs, hp.1, hp.2⟩

end Stream

end Cutils.Asyncio
