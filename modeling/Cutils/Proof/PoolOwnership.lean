import Cutils.Spec.Pool
import Mathlib.Data.List.Nodup
import Mathlib.Tactic.Common

/-!
# Who owns a block of the pool

`Inv`: every block is in the free queue, in the hands of one thread that is allocating or
releasing it, or referenced, and only one of the three; and a block's retain count is the
number of live references to it. The counter has 32 bits, so the second half needs that no
block gets 2³² live references (`NoWrap`).

* `pool_conserves`: under `NoWrap`, no block is handed out twice or lost, in every
  interleaving.
* `retain_count_wraps`: 2³² retains of one block break it.
-/

namespace Cutils.Blocks

namespace Pool

variable {τ : Type}

section Memory

variable (s : Pool τ) (b b' : ℕ)

@[simp] theorem header_setHeader (h : Header) :
    (s.setHeader b h).header b' = if b' = b then h else s.header b' := by
  unfold header setHeader
  dsimp only
  rw [Function.update_apply]
  split <;> rfl

@[simp] theorem trailer_setHeader (h : Header) :
    ((s.setHeader b h).elements b').trailerSanity = (s.elements b').trailerSanity := by
  unfold setHeader
  dsimp only
  rw [Function.update_apply]
  split
  · rename_i hb; rw [hb]
  · rfl

/-- Writing a header that keeps its sanity word keeps every element sane. -/
theorem sane_setHeader {h : Header} (hs : h.sanity = (s.header b).sanity) :
    ((s.setHeader b h).elements b').sane = (s.elements b').sane := by
  have hh : ((s.setHeader b h).elements b').header = if b' = b then h else s.header b' :=
    header_setHeader s b b' h
  unfold Element.sane
  rw [trailer_setHeader, hh]
  split
  · rename_i hb; rw [hb, hs]; rfl
  · rfl

theorem retainCount_fetchAdd : ((s.fetchAdd b).header b').retainCount =
    if b' = b then (s.header b).retainCount + 1 else (s.header b').retainCount := by
  unfold fetchAdd
  rw [header_setHeader]
  split <;> rfl

theorem retainCount_fetchSub : ((s.fetchSub b).header b').retainCount =
    if b' = b then (s.header b).retainCount - 1 else (s.header b').retainCount := by
  unfold fetchSub
  rw [header_setHeader]
  split <;> rfl

theorem retainCount_writeDestructor (f : Option ℕ) (p : ℕ) :
    ((s.writeDestructor b f p).header b').retainCount = (s.header b').retainCount := by
  have hh : (s.writeDestructor b f p).header b' =
      if b' = b then { s.header b with destructor := f, destructorPrivate := p } else s.header b' :=
    header_setHeader s b b' _
  rw [hh]
  split
  · rename_i hb; rw [hb]
  · rfl

end Memory

section Refs

variable {s s' : Pool τ} {t : τ} {b b' : ℕ}

theorem live_cons (h : s'.refs = (t, b) :: s.refs) : s'.live b = s.live b + 1 := by
  unfold live
  rw [h, List.countP_cons_of_pos (by simp)]

theorem live_cons_ne (h : s'.refs = (t, b) :: s.refs) (hb : b' ≠ b) : s'.live b' = s.live b' := by
  unfold live
  rw [h, List.countP_cons_of_neg (by simpa using hb.symm)]

/-- References to other blocks stay when one to `b` is added. -/
theorem mem_cons_refs {x : τ × ℕ} (hx : x.2 ≠ b) : x ∈ (t, b) :: s.refs ↔ x ∈ s.refs := by
  rw [List.mem_cons]
  refine ⟨?_, .inr⟩
  rintro (rfl | hx')
  · exact absurd rfl hx
  · exact hx'

theorem live_pos (h : (t, b) ∈ s.refs) : 0 < s.live b :=
  List.countP_pos_iff.2 ⟨(t, b), h, by simp⟩

theorem live_congr (h : s'.refs = s.refs) (b : ℕ) : s'.live b = s.live b := by
  unfold live
  rw [h]

variable [DecidableEq τ]

theorem live_erase (h : s'.refs = s.refs.erase (t, b)) (hm : (t, b) ∈ s.refs) :
    s'.live b + 1 = s.live b := by
  have hpos := live_pos hm
  unfold live at hpos ⊢
  rw [h, List.countP_erase, if_pos ⟨hm, by simp⟩]
  omega

theorem live_erase_ne (h : s'.refs = s.refs.erase (t, b)) (hb : b' ≠ b) : s'.live b' = s.live b' := by
  unfold live
  rw [h, List.countP_erase, if_neg (by rintro ⟨_, hc⟩; simp at hc; exact hb hc.symm), Nat.sub_zero]

/-- References to other blocks stay when one to `b` is dropped. -/
theorem mem_erase_refs {x : τ × ℕ} (hx : x.2 ≠ b) : x ∈ s.refs.erase (t, b) ↔ x ∈ s.refs :=
  List.mem_erase_of_ne (by rintro rfl; exact hx rfl)

/-- With one live reference, every holder is that one. -/
theorem eq_of_live_one {x : τ × ℕ} (h1 : s.live b = 1) (hm : (t, b) ∈ s.refs) (hx : x ∈ s.refs)
    (hb : x.2 = b) : x = (t, b) := by
  by_contra hne
  have hx' : x ∈ s.refs.erase (t, b) := (List.mem_erase_of_ne hne).2 hx
  have hpos : 0 < (s.refs.erase (t, b)).countP (·.2 == b) :=
    List.countP_pos_iff.2 ⟨x, hx', by simpa using hb⟩
  rw [List.countP_erase, if_pos ⟨hm, by simp⟩] at hpos
  unfold live at h1
  omega

end Refs

section Transitions

variable [DecidableEq τ]

/-- Everything a step can do. -/
inductive Trans (s : Pool τ) : Act τ → Pool τ → Prop
  | allocNull (t : τ) (f : Option ℕ) (p : ℕ) (hpc : s.pc t = .idle) (hq : s.q = []) :
      Trans s (.alloc t f p) { s with retval := Function.update s.retval t none }
  | alloc (t : τ) (f : Option ℕ) (p b : ℕ) (rest : List ℕ) (hpc : s.pc t = .idle) (hq : s.q = b :: rest) :
      Trans s (.alloc t f p)
        { s.setPc t (.addRef b f p) with
          q := rest
          allocations := Function.update s.allocations b ⟨(s.header b).destructor, false, none⟩ }
  | retain (t : τ) (b : ℕ) (hpc : s.pc t = .idle) (hm : (t, b) ∈ s.refs) :
      Trans s (.retain t b) { s.fetchAdd b with refs := (t, b) :: s.refs }
  | free (t : τ) (b : ℕ) (hpc : s.pc t = .idle) (hm : (t, b) ∈ s.refs)
      (h0 : (s.header b).retainCount ≠ 0) (h1 : (s.header b).retainCount ≠ 1) :
      Trans s (.free t b) { s.fetchSub b with refs := s.refs.erase (t, b) }
  | freeLast (t : τ) (b : ℕ) (hpc : s.pc t = .idle) (hm : (t, b) ∈ s.refs)
      (h1 : (s.header b).retainCount = 1) :
      Trans s (.free t b) (({ s.fetchSub b with refs := s.refs.erase (t, b) } : Pool τ).setPc t (.destroy b))
  | freeTrips (t : τ) (b : ℕ) (hm : (t, b) ∈ s.refs) (h0 : (s.header b).retainCount = 0) :
      Trans s (.free t b) { s.fetchSub b with refs := s.refs.erase (t, b), tripped := true }
  | setDestructor (t : τ) (b : ℕ) (f : Option ℕ) (p : ℕ) (hpc : s.pc t = .idle) (hm : (t, b) ∈ s.refs) :
      Trans s (.setDestructor t b f p) (s.writeDestructor b f p)
  | insane (a : Act τ) (t : τ) (b : ℕ) (ha : ∀ u, a ≠ .run u) (hm : (t, b) ∈ s.refs)
      (hsane : (s.elements b).sane = false) : Trans s a { s with tripped := true }
  | pass (t t' : τ) (b : ℕ) (hpc : s.pc t = .idle) (hm : (t, b) ∈ s.refs) :
      Trans s (.pass t t' b) { s with refs := (t', b) :: s.refs.erase (t, b) }
  | addRef (t : τ) (b : ℕ) (f : Option ℕ) (p : ℕ) (hpc : s.pc t = .addRef b f p) :
      Trans s (.run t) { (s.fetchAdd b).setPc t (.install b f p) with refs := (t, b) :: s.refs }
  | addRefInsane (t : τ) (b : ℕ) (f : Option ℕ) (p : ℕ) (hpc : s.pc t = .addRef b f p)
      (hsane : (s.elements b).sane = false) : Trans s (.run t) { s with tripped := true }
  | install (t : τ) (b f p : ℕ) (hpc : s.pc t = .install b (some f) p) :
      Trans s (.run t)
        { (s.writeDestructor b (some f) p).setPc t .idle with
          retval := Function.update s.retval t (some b) }
  | installNone (t : τ) (b p : ℕ) (hpc : s.pc t = .install b none p) :
      Trans s (.run t) { s.setPc t .idle with retval := Function.update s.retval t (some b) }
  | destroy (t : τ) (b : ℕ) (hpc : s.pc t = .destroy b) :
      Trans s (.run t)
        { s.setPc t (.enqueue b) with
          releases := s.releases ++
            [⟨b, s.allocations b, (s.header b).destructor.map (·, (s.header b).destructorPrivate)⟩] }
  | enqueue (t : τ) (b : ℕ) (hpc : s.pc t = .enqueue b) : Trans s (.run t) ((s.enqueue b).setPc t .idle)

variable {s s' : Pool τ} {t : τ} {b : ℕ}

/-- An operation on a block the thread has a reference to goes on, or trips a sanity assertion. -/
theorem guarded_trans {a : Act τ} {body : Pool τ} (ha : ∀ u, a ≠ .run u)
    (hs : s.guarded t b body = some s')
    (hbody : s.pc t = .idle → (t, b) ∈ s.refs → Trans s a body) : Trans s a s' := by
  unfold guarded at hs
  split at hs
  · rename_i hg
    split at hs
    · simp only [Option.some.injEq] at hs; subst hs
      exact hbody hg.1 hg.2
    · rename_i hsane
      simp only [Option.some.injEq] at hs; subst hs
      exact .insane a t b ha hg.2 (Bool.eq_false_iff.2 hsane)
  · cases hs

theorem freeStep_trans (hpc : s.pc t = .idle) (hm : (t, b) ∈ s.refs) :
    Trans s (.free t b) (s.freeStep t b) := by
  unfold freeStep
  dsimp only
  split
  · exact .freeTrips t b hm ‹_›
  · split
    · exact .freeLast t b hpc hm ‹_›
    · exact .free t b hpc hm ‹_› ‹_›

theorem run_trans (hs : s.runStep t = some s') : Trans s (.run t) s' := by
  unfold runStep at hs
  cases hpc : s.pc t with
  | idle => simp [hpc] at hs
  | addRef b f p =>
    simp only [hpc] at hs
    split at hs
    · simp only [Option.some.injEq] at hs; subst hs
      exact .addRef t b f p hpc
    · rename_i hsane
      simp only [Option.some.injEq] at hs; subst hs
      exact .addRefInsane t b f p hpc (Bool.eq_false_iff.2 hsane)
  | install b f p =>
    simp only [hpc, Option.some.injEq] at hs; subst hs
    cases f with
    | none => exact .installNone t b p hpc
    | some f => exact .install t b f p hpc
  | destroy b =>
    simp only [hpc, Option.some.injEq] at hs; subst hs
    exact .destroy t b hpc
  | enqueue b =>
    simp only [hpc, Option.some.injEq] at hs; subst hs
    exact .enqueue t b hpc

/-- **Every step is one of these.** -/
theorem step_trans {a : Act τ} (hs : s.step a = some s') : Trans s a s' := by
  unfold step at hs
  split at hs
  · cases hs
  cases a with
  | alloc t f p =>
    simp only [allocStep] at hs
    split at hs
    · rename_i hpc
      split at hs
      · simp only [Option.some.injEq] at hs; subst hs
        exact .allocNull t f p hpc ‹_›
      · simp only [Option.some.injEq] at hs; subst hs
        exact .alloc t f p _ _ hpc ‹_›
    · cases hs
  | retain t b => exact guarded_trans (by rintro _ ⟨⟩) hs (.retain t b)
  | free t b => exact guarded_trans (by rintro _ ⟨⟩) hs freeStep_trans
  | setDestructor t b f p => exact guarded_trans (by rintro _ ⟨⟩) hs (.setDestructor t b f p)
  | pass t t' b =>
    simp only at hs
    split at hs
    · rename_i hg
      simp only [Option.some.injEq] at hs; subst hs
      exact .pass t t' b hg.1 hg.2
    · cases hs
  | run t => exact run_trans hs

end Transitions

/-- **Ownership of one block**: free, in transit with one thread, or referenced. -/
structure Owned (s : Pool τ) (b : ℕ) : Prop where
  sane : (s.elements b).sane = true
  counted : (s.header b).retainCount.toNat = s.live b
  free : b ∈ s.q → s.live b = 0
  transit : ∀ t, (s.pc t).transit = some b → b ∉ s.q ∧ s.live b = 0
  unique : ∀ t t', (s.pc t).transit = some b → (s.pc t').transit = some b → t = t'
  fresh : ∀ t f p, s.pc t = .install b f p → s.live b = 1 ∧ (t, b) ∈ s.refs
  cover : b ∈ s.q ∨ 0 < s.live b ∨ ∃ t, (s.pc t).transit = some b

/-- **Ownership of the `n` blocks.** -/
structure Inv (n : ℕ) (s : Pool τ) : Prop where
  size : s.queueSize = n
  running : s.tripped = false
  nodup : s.q.Nodup
  bound : ∀ b ∈ s.q, b < n
  held : ∀ x ∈ s.refs, x.2 < n
  moving : ∀ t b, (s.pc t).transit = some b → b < n
  owned : ∀ b < n, s.Owned b

/-- What a step does not touch of block `b`. -/
structure Same (s s' : Pool τ) (b : ℕ) : Prop where
  sane : (s'.elements b).sane = (s.elements b).sane
  counted : (s'.header b).retainCount = (s.header b).retainCount
  q : b ∈ s'.q ↔ b ∈ s.q
  live : s'.live b = s.live b
  refs : ∀ t, (t, b) ∈ s.refs → (t, b) ∈ s'.refs
  transit : ∀ t, (s'.pc t).transit = some b ↔ (s.pc t).transit = some b
  fresh : ∀ t f p, s'.pc t = .install b f p → s.pc t = .install b f p

/-- **The frame lemma.** -/
theorem Owned.frame {s s' : Pool τ} {b : ℕ} (h : s.Owned b) (hsame : Same s s' b) : s'.Owned b := by
  obtain ⟨hsane, hcount, hq, hlive, hrefs, htransit, hfresh⟩ := hsame
  refine ⟨by rw [hsane]; exact h.sane, by rw [hcount, hlive]; exact h.counted, ?_, ?_, ?_, ?_, ?_⟩
  · intro hb
    rw [hlive]
    exact h.free (hq.1 hb)
  · intro t ht
    rw [hlive, hq]
    exact h.transit t ((htransit t).1 ht)
  · intro t t' ht ht'
    exact h.unique t t' ((htransit t).1 ht) ((htransit t').1 ht')
  · intro t f p ht
    obtain ⟨h1, h2⟩ := h.fresh t f p (hfresh t f p ht)
    exact ⟨hlive.trans h1, hrefs t h2⟩
  · rcases h.cover with hc | hc | ⟨t, hc⟩
    · exact .inl (hq.2 hc)
    · exact .inr (.inl (hlive ▸ hc))
    · exact .inr (.inr ⟨t, (htransit t).2 hc⟩)

section Create

variable (n : ℕ) (elements : ℕ → Element)

/-- The state of `pool_create` after `i` iterations of its loop. -/
def created (i : ℕ) : Pool τ :=
  (List.range i).foldl createElement
    ⟨n, n, [], elements, fun _ => .idle, [], fun _ => none, fun _ => ⟨none, false, none⟩, [], false⟩

theorem created_succ (i : ℕ) : created (τ := τ) n elements (i + 1) =
    createElement (created n elements i) i := by
  unfold created
  rw [List.range_succ, List.foldl_append]
  rfl

/-- What the loop has done after `i` iterations. -/
structure Created (s : Pool τ) (i : ℕ) : Prop where
  q : s.q = List.range i
  queueSize : s.queueSize = n
  elements : ∀ b < i, s.elements b = ⟨⟨ELEMENT_HEADER_SANITY, 0, none, 0⟩, ELEMENT_TRAILER_SANITY⟩
  pc : s.pc = fun _ => .idle
  refs : s.refs = []
  releases : s.releases = []
  tripped : s.tripped = false

theorem created_loop {i : ℕ} (hi : i ≤ n) : Created n (created (τ := τ) n elements i) i := by
  induction i with
  | zero =>
    refine ⟨rfl, rfl, ?_, rfl, rfl, rfl, rfl⟩
    intro b hb
    omega
  | succ i ih =>
    obtain ⟨h1, h2, h3, h4, h5, h6, h7⟩ := ih (by omega)
    rw [created_succ]
    -- the queue has capacity `n`, so the enqueue of block `i` succeeds
    have hroom : (created (τ := τ) n elements i).q.length < (created (τ := τ) n elements i).queueSize := by
      rw [h1, h2, List.length_range]
      omega
    unfold createElement enqueue
    dsimp only
    rw [if_pos hroom]
    refine ⟨by rw [List.range_succ, ← h1], h2, ?_, h4, h5, h6, h7⟩
    intro b hb
    dsimp only
    rw [Function.update_apply]
    split
    · rfl
    · exact h3 b (by omega)

theorem created_create : Created n (create (τ := τ) n n elements) n := by
  obtain ⟨h1, h2, h3, h4, h5, h6, h7⟩ := created_loop (τ := τ) n elements (Nat.le_refl n)
  exact ⟨h1, h2, h3, h4, h5, h6, h7⟩

theorem Inv.create : Inv (τ := τ) n (create n n elements) := by
  obtain ⟨h1, h2, h3, h4, h5, -, h6⟩ := created_create (τ := τ) n elements
  generalize Pool.create (τ := τ) n n elements = s at h1 h2 h3 h4 h5 h6 ⊢
  have hlive : ∀ b, s.live b = 0 := by
    intro b
    unfold live
    rw [h5]
    rfl
  have htransit : ∀ t b, (s.pc t).transit ≠ some b := by
    intro t b ht
    rw [h4] at ht
    cases ht
  -- all blocks are in the free queue, and nobody has a reference
  refine ⟨h2, h6, h1 ▸ List.nodup_range, ?_, ?_, fun t b ht => absurd ht (htransit t b), ?_⟩
  · intro b hb
    rw [h1] at hb
    exact List.mem_range.1 hb
  · intro x hx
    rw [h5] at hx
    cases hx
  · intro b hb
    refine ⟨by rw [h3 b hb]; decide, ?_, fun _ => hlive b, fun t ht => absurd ht (htransit t b),
      fun t _ ht => absurd ht (htransit t b), ?_, ?_⟩
    · unfold header
      rw [h3 b hb, hlive]
      rfl
    · intro t f p ht
      rw [h4] at ht
      cases ht
    · exact .inl (h1 ▸ List.mem_range.2 hb)

end Create

section Steps

variable {n : ℕ} {s s' : Pool τ} {t : τ} {b : ℕ}

/-- What a step on block `b` leaves alone. -/
structure Local (s s' : Pool τ) (b : ℕ) : Prop where
  size : s'.queueSize = s.queueSize
  tripped : s'.tripped = s.tripped
  sane : ∀ c, (s'.elements c).sane = (s.elements c).sane
  counted : ∀ c, c ≠ b → (s'.header c).retainCount = (s.header c).retainCount
  q : ∀ c, c ≠ b → (c ∈ s'.q ↔ c ∈ s.q)
  live : ∀ c, c ≠ b → s'.live c = s.live c
  refs : ∀ x : τ × ℕ, x.2 ≠ b → (x ∈ s'.refs ↔ x ∈ s.refs)

/-- The same of a step of thread `t`. -/
structure Touches (s s' : Pool τ) (t : τ) (b : ℕ) : Prop extends Local s s' b where
  pc : ∀ u, u ≠ t → s'.pc u = s.pc u
  before : ∀ d, (s.pc t).transit = some d → d = b
  after : ∀ d, (s'.pc t).transit = some d → d = b
  fresh : ∀ d f p, s'.pc t = .install d f p → d = b

/-- **Local reasoning**: a step on block `b` keeps the invariant if it keeps it at `b`. -/
theorem Inv.touch (h : Inv n s) (hb : b < n) (ht : Touches s s' t b) (hnodup : s'.q.Nodup)
    (howned : s'.Owned b) : Inv n s' := by
  refine ⟨ht.size.trans h.size, ht.tripped.trans h.running, hnodup, ?_, ?_, ?_, ?_⟩
  · intro c hc
    by_cases hcb : c = b
    · rwa [hcb]
    · exact h.bound c ((ht.q c hcb).1 hc)
  · intro x hx
    by_cases hxb : x.2 = b
    · rwa [hxb]
    · exact h.held x ((ht.refs x hxb).1 hx)
  · intro u c hu
    by_cases hut : u = t
    · rw [hut] at hu
      rwa [ht.after c hu]
    · rw [ht.pc u hut] at hu
      exact h.moving u c hu
  · intro c hc
    by_cases hcb : c = b
    · rwa [hcb]
    refine (h.owned c hc).frame ⟨ht.sane c, ht.counted c hcb, ht.q c hcb, ht.live c hcb, ?_, ?_, ?_⟩
    · intro u hu
      exact (ht.refs (u, c) hcb).2 hu
    · intro u
      by_cases hut : u = t
      · rw [hut]
        exact ⟨fun hu => absurd (ht.after c hu) hcb, fun hu => absurd (ht.before c hu) hcb⟩
      · rw [ht.pc u hut]
    · intro u f p hu
      by_cases hut : u = t
      · rw [hut] at hu
        exact absurd (ht.fresh c f p hu) hcb
      · rwa [ht.pc u hut] at hu

/-- A step that moves no block and no reference. -/
theorem Inv.keep (h : Inv n s) (hsize : s'.queueSize = s.queueSize) (htrip : s'.tripped = s.tripped)
    (hq : s'.q = s.q) (hrefs : s'.refs = s.refs)
    (hsane : ∀ b, (s'.elements b).sane = (s.elements b).sane)
    (hcount : ∀ b, (s'.header b).retainCount = (s.header b).retainCount)
    (hpc : ∀ t, (s'.pc t).transit = (s.pc t).transit)
    (hfresh : ∀ t b f p, s'.pc t = .install b f p → s.pc t = .install b f p) : Inv n s' := by
  refine ⟨hsize.trans h.size, htrip.trans h.running, hq ▸ h.nodup, hq ▸ h.bound, hrefs ▸ h.held, ?_, ?_⟩
  · intro t b ht
    exact h.moving t b (hpc t ▸ ht)
  · intro b hb
    refine (h.owned b hb).frame ⟨hsane b, hcount b, by rw [hq], live_congr hrefs b, ?_, ?_, ?_⟩
    · intro t ht
      rw [hrefs]
      exact ht
    · intro t
      rw [hpc]
    · intro t f p ht
      exact hfresh t b f p ht

/-- A referenced block is neither free nor in transit. -/
theorem Owned.of_live (o : s.Owned b) (hlive : 0 < s.live b) :
    b ∉ s.q ∧ ∀ t, (s.pc t).transit ≠ some b := by
  constructor
  · intro hb
    have := o.free hb
    omega
  · intro t ht
    have := (o.transit t ht).2
    omega

/-- The free queue has room for a block it does not hold. -/
theorem Inv.length_lt (h : Inv n s) (hb : b < n) (hfree : b ∉ s.q) : s.q.length < n := by
  have hnodup : (b :: s.q).Nodup := List.nodup_cons.2 ⟨hfree, h.nodup⟩
  have hsub : b :: s.q ⊆ List.range n := by
    intro c hc
    rcases List.mem_cons.1 hc with rfl | hc
    · exact List.mem_range.2 hb
    · exact List.mem_range.2 (h.bound c hc)
  have hle := (List.subperm_of_subset hnodup hsub).length_le
  rw [List.length_cons, List.length_range] at hle
  omega

theorem Inv.writeDestructor (h : Inv n s) (b : ℕ) (f : Option ℕ) (p : ℕ) :
    Inv n (s.writeDestructor b f p) :=
  h.keep rfl rfl rfl rfl (fun c => sane_setHeader s b c rfl)
    (fun c => retainCount_writeDestructor s b c f p) (fun _ => rfl) fun _ _ _ _ ht => ht

/-- Between operations, a block is free or referenced. -/
theorem Inv.partition (h : Inv n s) (hidle : ∀ t, s.pc t = .idle) (hb : b < n) :
    b ∈ s.q ↔ ¬ 0 < (s.header b).retainCount.toNat := by
  have o := h.owned b hb
  rw [o.counted]
  constructor
  · intro hm
    have := o.free hm
    omega
  · intro hz
    rcases o.cover with hm | hl | ⟨t, ht⟩
    · exact hm
    · exact absurd hl hz
    · rw [hidle] at ht; cases ht

/-- A reference is added. -/
theorem local_fetchAdd (s : Pool τ) (t : τ) (b : ℕ) (pc : τ → Pc) :
    Local s { s.fetchAdd b with refs := (t, b) :: s.refs, pc := pc } b := by
  refine ⟨rfl, rfl, fun c => sane_setHeader s b c rfl, ?_, fun _ _ => Iff.rfl, ?_, ?_⟩
  · intro c hc
    exact (retainCount_fetchAdd s b c).trans (if_neg hc)
  · intro c hc
    exact live_cons_ne rfl hc
  · intro x hx
    exact mem_cons_refs hx

theorem Owned.not_install_of_dead (o : s.Owned b) (hzero : s.live b = 0) (u : τ) (f : Option ℕ) (p : ℕ) :
    s.pc u ≠ .install b f p := by
  intro hu
  have := (o.fresh u f p hu).1
  omega

/-- The enqueue of a released block, which finds room. -/
theorem Inv.enqueue_eq (h : Inv n s) (hpc : s.pc t = .enqueue b) :
    s.q.length < s.queueSize ∧ s.enqueue b = { s with q := s.q ++ [b] } := by
  have hold : (s.pc t).transit = some b := by rw [hpc]; rfl
  have hb := h.moving t b hold
  have hroom : s.q.length < s.queueSize := by
    rw [h.size]
    exact h.length_lt hb ((h.owned b hb).transit t hold).1
  exact ⟨hroom, if_pos hroom⟩

/-- The decrement finds 1 exactly if it drops the last reference, and never 0. -/
theorem Inv.count_iff (h : Inv n s) (hm : (t, b) ∈ s.refs) :
    (s.header b).retainCount ≠ 0 ∧ ((s.header b).retainCount = 1 ↔ s.live b = 1) := by
  have hcounted := (h.owned b (h.held _ hm)).counted
  have hpos := live_pos hm
  constructor
  · intro h0
    rw [h0] at hcounted
    simp at hcounted
    omega
  · rw [← hcounted]
    exact ⟨fun h1 => by rw [h1]; rfl, fun h1 => BitVec.eq_of_toNat_eq h1⟩

/-- The sanity words of a block in somebody's hands are right. -/
theorem Inv.sane (h : Inv n s) (hb : (t, b) ∈ s.refs ∨ (s.pc t).transit = some b) :
    (s.elements b).sane ≠ false := by
  have hlt : b < n := hb.elim (h.held (t, b)) (h.moving t b)
  rw [(h.owned b hlt).sane]
  decide

variable [DecidableEq τ]

/-- Nobody else can retain, release or pass on a block that is being handed out. -/
theorem Owned.not_fresh (o : s.Owned b) (hpc : s.pc t = .idle) (hm : (t, b) ∈ s.refs) (u : τ)
    (f : Option ℕ) (p : ℕ) : s.pc u ≠ .install b f p := by
  intro hu
  obtain ⟨h1, h2⟩ := o.fresh u f p hu
  have heq := eq_of_live_one h1 hm h2 rfl
  simp only [Prod.mk.injEq, and_true] at heq
  rw [heq, hpc] at hu
  cases hu

theorem pc_setPc (s : Pool τ) (t : τ) (pc : Pc) : (s.setPc t pc).pc t = pc := by
  simp [setPc]

/-- A reference is dropped. -/
theorem local_fetchSub (s : Pool τ) (t : τ) (b : ℕ) (pc : τ → Pc) :
    Local s { s.fetchSub b with refs := s.refs.erase (t, b), pc := pc } b := by
  refine ⟨rfl, rfl, fun c => sane_setHeader s b c rfl, ?_, fun _ _ => Iff.rfl, ?_, ?_⟩
  · intro c hc
    exact (retainCount_fetchSub s b c).trans (if_neg hc)
  · intro c hc
    exact live_erase_ne rfl hc
  · intro x hx
    exact mem_erase_refs hx

section Moves

variable {pc : Pc}

/-- A step that moves thread `t`, with no other block in hand before or after. -/
theorem Local.touches (hl : Local s s' b) (hpc : s'.pc = Function.update s.pc t pc)
    (hbefore : ∀ d, (s.pc t).transit = some d → d = b) (hafter : ∀ d, pc.transit = some d → d = b)
    (hfresh : ∀ d f p, pc = .install d f p → d = b) : Touches s s' t b := by
  have hself : s'.pc t = pc := by rw [hpc, Function.update_self]
  refine ⟨hl, ?_, hbefore, by rwa [hself], by rwa [hself]⟩
  intro u hu
  rw [hpc, Function.update_of_ne hu]

/-- A block nobody had in transit is in transit with the thread that moves. -/
theorem eq_of_transit (hpc : s'.pc = Function.update s.pc t pc)
    (hnone : ∀ u, (s.pc u).transit ≠ some b) (u : τ) (hu : (s'.pc u).transit = some b) : u = t := by
  by_contra hut
  rw [hpc, Function.update_of_ne hut] at hu
  exact hnone u hu

/-- The thread that had block `b` in transit lets it go. -/
theorem Owned.let_go (o : s.Owned b) (hpc : s'.pc = Function.update s.pc t pc)
    (hold : (s.pc t).transit = some b) (hnew : pc.transit = none) (u : τ) : (s'.pc u).transit ≠ some b := by
  intro hu
  by_cases hut : u = t
  · rw [hpc, hut, Function.update_self, hnew] at hu
    cases hu
  · rw [hpc, Function.update_of_ne hut] at hu
    exact hut (o.unique u t hu hold)

/-- Nobody is handing out block `b`, before or after. -/
theorem not_install (hpc : s'.pc = Function.update s.pc t pc) (hself : ∀ f p, pc ≠ .install b f p)
    (hnone : ∀ u f p, s.pc u ≠ .install b f p) (u : τ) (f : Option ℕ) (p : ℕ) :
    s'.pc u ≠ .install b f p := by
  by_cases hut : u = t
  · rw [hpc, hut, Function.update_self]
    exact hself f p
  · rw [hpc, Function.update_of_ne hut]
    exact hnone u f p

end Moves

/-- The dequeue of an allocation takes a block that nobody has a reference to. -/
theorem Inv.alloc {rest : List ℕ} {f : Option ℕ} {p : ℕ} (al : ℕ → Allocation) (h : Inv n s)
    (hpc : s.pc t = .idle) (hq : s.q = b :: rest) :
    Inv n { s.setPc t (.addRef b f p) with q := rest, allocations := al } := by
  have hb : b ∈ s.q := by rw [hq]; exact List.mem_cons_self
  have hnodup := h.nodup
  rw [hq, List.nodup_cons] at hnodup
  have o := h.owned b (h.bound b hb)
  have hzero := o.free hb
  generalize hs : ({ s.setPc t (.addRef b f p) with q := rest, allocations := al } : Pool τ) = s'
  have hpc' : s'.pc = Function.update s.pc t (.addRef b f p) := by rw [← hs]; rfl
  have hq' : s'.q = rest := by rw [← hs]
  have hlive : ∀ c, s'.live c = s.live c := live_congr (by rw [← hs]; rfl)
  have helem : s'.elements = s.elements := by rw [← hs]; rfl
  have hlocal : Local s s' b := by
    refine ⟨by rw [← hs]; rfl, by rw [← hs]; rfl, fun c => by rw [helem],
      fun c _ => by unfold header; rw [helem], ?_, fun c _ => hlive c, fun x _ => by rw [← hs]; rfl⟩
    intro c hc
    rw [hq', hq, List.mem_cons]
    simp [hc]
  refine h.touch (h.bound b hb) (hlocal.touches hpc' ?_ ?_ ?_) (hq' ▸ hnodup.2) ?_
  · intro d hd
    rw [hpc] at hd; cases hd
  · intro d hd
    exact (Option.some.inj hd).symm
  · rintro d f' p' ⟨⟩
  -- the block was free, so no other thread has it in transit
  have honly := eq_of_transit hpc' fun u hu => (o.transit u hu).1 hb
  have hfresh := not_install hpc' (by rintro _ _ ⟨⟩) (o.not_install_of_dead hzero)
  refine ⟨by rw [helem]; exact o.sane, ?_, ?_, ?_, ?_, fun u f p hu => absurd hu (hfresh u f p), ?_⟩
  · rw [hlive, ← o.counted]
    unfold header
    rw [helem]
  · intro _
    rw [hlive, hzero]
  · intro _ _
    rw [hq', hlive]
    exact ⟨hnodup.1, hzero⟩
  · intro u u' hu hu'
    rw [honly u hu, honly u' hu']
  · exact .inr (.inr ⟨t, by rw [hpc', Function.update_self]; rfl⟩)

/-- The increment of an allocation makes the block's first reference. -/
theorem Inv.addRef {f : Option ℕ} {p : ℕ} (h : Inv n s) (hpc : s.pc t = .addRef b f p) :
    Inv n { (s.fetchAdd b).setPc t (.install b f p) with refs := (t, b) :: s.refs } := by
  have hold : (s.pc t).transit = some b := by rw [hpc]; rfl
  have hb := h.moving t b hold
  have o := h.owned b hb
  obtain ⟨hfree, hzero⟩ := o.transit t hold
  have hlocal := local_fetchAdd s t b (Function.update s.pc t (.install b f p))
  have hcount := retainCount_fetchAdd s b b
  generalize hs : ({ (s.fetchAdd b).setPc t (.install b f p) with refs := (t, b) :: s.refs } : Pool τ) = s'
  have hlocal : Local s s' b := by rw [← hs]; exact hlocal
  have hcount : (s'.header b).retainCount = (s.header b).retainCount + 1 := by
    rw [← hs]
    exact hcount.trans (if_pos rfl)
  have hpc' : s'.pc = Function.update s.pc t (.install b f p) := by rw [← hs]; rfl
  have hq : s'.q = s.q := by rw [← hs]; rfl
  have hrefs : s'.refs = (t, b) :: s.refs := by rw [← hs]
  have hone : s'.live b = 1 := by rw [live_cons hrefs, hzero]
  refine h.touch hb (hlocal.touches hpc' ?_ ?_ ?_) (hq ▸ h.nodup) ?_
  · intro d hd
    rw [hold] at hd
    exact (Option.some.inj hd).symm
  · rintro d ⟨⟩
  · intro d f' p' hd
    injection hd with hd
    exact hd.symm
  have hnone := o.let_go hpc' hold rfl
  refine ⟨by rw [hlocal.sane]; exact o.sane, ?_, fun hm => absurd (hq ▸ hm) hfree,
    fun u hu => absurd hu (hnone u), fun u _ hu => absurd hu (hnone u), ?_, .inr (.inl (by omega))⟩
  · rw [hcount, hone, BitVec.toNat_add, o.counted, hzero]
    rfl
  · intro u f' p' hu
    by_cases hut : u = t
    · rw [hut]
      exact ⟨hone, by rw [hrefs]; exact List.mem_cons_self⟩
    · rw [hpc', Function.update_of_ne hut] at hu
      exact absurd hu (o.not_install_of_dead hzero u f' p')

/-- A step of an idle thread on a block it has a reference to, after which the block is
still referenced. -/
theorem Inv.touch_live (h : Inv n s) (hpc : s.pc t = .idle) (hm : (t, b) ∈ s.refs)
    (hl : Local s s' b) (hpc' : s'.pc = s.pc) (hq : s'.q = s.q) (hlive : 0 < s'.live b)
    (hcount : (s'.header b).retainCount.toNat = s'.live b) : Inv n s' := by
  have hb := h.held _ hm
  have o := h.owned b hb
  obtain ⟨hfree, hnone⟩ := o.of_live (live_pos hm)
  have htouch : Touches s s' t b := by
    have hidle : s'.pc = Function.update s.pc t .idle := by rw [hpc', ← hpc, Function.update_eq_self]
    refine hl.touches hidle ?_ ?_ ?_
    · intro d hd
      rw [hpc] at hd; cases hd
    · rintro d ⟨⟩
    · rintro d f p ⟨⟩
  refine h.touch hb htouch (hq ▸ h.nodup) ⟨by rw [hl.sane]; exact o.sane, hcount,
    fun hm' => absurd (hq ▸ hm') hfree, ?_, ?_, ?_, .inr (.inl hlive)⟩
  · intro u hu
    exact absurd (hpc' ▸ hu) (hnone u)
  · intro u _ hu
    exact absurd (hpc' ▸ hu) (hnone u)
  · intro u f p hu
    exact absurd (hpc' ▸ hu) (o.not_fresh hpc hm u f p)

/-- `pool_retain`. -/
theorem Inv.retain (h : Inv n s) (hpc : s.pc t = .idle) (hm : (t, b) ∈ s.refs)
    (hwrap : s.live b + 1 < 2 ^ 32) : Inv n { s.fetchAdd b with refs := (t, b) :: s.refs } := by
  have hlive : ({ s.fetchAdd b with refs := (t, b) :: s.refs } : Pool τ).live b = s.live b + 1 := live_cons rfl
  refine h.touch_live hpc hm (local_fetchAdd s t b s.pc) rfl rfl (by omega) ?_
  have hcount : (({ s.fetchAdd b with refs := (t, b) :: s.refs } : Pool τ).header b).retainCount =
      (s.header b).retainCount + 1 := (retainCount_fetchAdd s b b).trans (if_pos rfl)
  rw [hcount, BitVec.toNat_add, (h.owned b (h.held _ hm)).counted, hlive]
  exact Nat.mod_eq_of_lt hwrap

/-- A client hands a reference to another thread. -/
theorem Inv.pass {t' : τ} (h : Inv n s) (hpc : s.pc t = .idle) (hm : (t, b) ∈ s.refs) :
    Inv n { s with refs := (t', b) :: s.refs.erase (t, b) } := by
  -- the reference is dropped, then added
  obtain ⟨d, hd⟩ : ∃ d : Pool τ, d = { s with refs := s.refs.erase (t, b) } := ⟨_, rfl⟩
  have hdrop : d.refs = s.refs.erase (t, b) := by rw [hd]
  generalize hs : ({ s with refs := (t', b) :: s.refs.erase (t, b) } : Pool τ) = s'
  have hadd : s'.refs = (t', b) :: d.refs := by rw [hdrop, ← hs]
  have hlive : s'.live b = s.live b := by
    have h1 := live_erase hdrop hm
    have h2 := live_cons hadd
    omega
  have hpos := live_pos hm
  refine h.touch_live hpc hm ⟨by rw [← hs], by rw [← hs], fun c => by rw [← hs], fun c _ => by rw [← hs]; rfl,
    fun c _ => by rw [← hs], ?_, ?_⟩ (by rw [← hs]) (by rw [← hs]) (by omega) ?_
  · intro c hc
    exact (live_cons_ne hadd hc).trans (live_erase_ne hdrop hc)
  · intro x hx
    rw [hadd, mem_cons_refs hx, hdrop]
    exact mem_erase_refs hx
  · rw [hlive, ← (h.owned b (h.held _ hm)).counted, ← hs]
    rfl

/-- A release that leaves references. -/
theorem Inv.drop (h : Inv n s) (hpc : s.pc t = .idle) (hm : (t, b) ∈ s.refs) (hmore : s.live b ≠ 1) :
    Inv n { s.fetchSub b with refs := s.refs.erase (t, b) } := by
  have hlive : ({ s.fetchSub b with refs := s.refs.erase (t, b) } : Pool τ).live b + 1 = s.live b :=
    live_erase rfl hm
  have hpos := live_pos hm
  have hcounted := (h.owned b (h.held _ hm)).counted
  refine h.touch_live hpc hm (local_fetchSub s t b s.pc) rfl rfl (by omega) ?_
  have hcount : (({ s.fetchSub b with refs := s.refs.erase (t, b) } : Pool τ).header b).retainCount =
      (s.header b).retainCount - 1 := (retainCount_fetchSub s b b).trans (if_pos rfl)
  rw [hcount]
  bv_omega

/-- The release of the last reference. -/
theorem Inv.dropLast (h : Inv n s) (hpc : s.pc t = .idle) (hm : (t, b) ∈ s.refs) (hone : s.live b = 1) :
    Inv n (({ s.fetchSub b with refs := s.refs.erase (t, b) } : Pool τ).setPc t (.destroy b)) := by
  have hb := h.held _ hm
  have o := h.owned b hb
  obtain ⟨hfree, hnone⟩ := o.of_live (live_pos hm)
  have hlocal := local_fetchSub s t b (Function.update s.pc t (.destroy b))
  have hcount := retainCount_fetchSub s b b
  generalize hs : (({ s.fetchSub b with refs := s.refs.erase (t, b) } : Pool τ).setPc t (.destroy b)) = s'
  have hlocal : Local s s' b := by rw [← hs]; exact hlocal
  have hcount : (s'.header b).retainCount = (s.header b).retainCount - 1 := by
    rw [← hs]
    exact hcount.trans (if_pos rfl)
  have hpc' : s'.pc = Function.update s.pc t (.destroy b) := by rw [← hs]; rfl
  have hq : s'.q = s.q := by rw [← hs]; rfl
  have hrefs : s'.refs = s.refs.erase (t, b) := by rw [← hs]; rfl
  have hzero : s'.live b = 0 := by
    have := live_erase hrefs hm
    omega
  refine h.touch hb (hlocal.touches hpc' ?_ ?_ ?_) (hq ▸ h.nodup) ?_
  · intro d hd
    rw [hpc] at hd; cases hd
  · intro d hd
    exact (Option.some.inj hd).symm
  · rintro d f p ⟨⟩
  -- the block was referenced, so no other thread has it in transit
  have honly := eq_of_transit hpc' hnone
  have hfresh := not_install hpc' (by rintro _ _ ⟨⟩) (o.not_fresh hpc hm)
  refine ⟨by rw [hlocal.sane]; exact o.sane, ?_, fun _ => hzero, fun _ _ => ⟨hq ▸ hfree, hzero⟩, ?_,
    fun u f p hu => absurd hu (hfresh u f p), .inr (.inr ⟨t, by rw [hpc', Function.update_self]; rfl⟩)⟩
  · have hcounted := o.counted
    rw [hcount, hzero]
    bv_omega
  · intro u u' hu hu'
    rw [honly u hu, honly u' hu']

theorem Inv.enqueue (h : Inv n s) (hpc : s.pc t = .enqueue b) : Inv n ((s.enqueue b).setPc t .idle) := by
  have hold : (s.pc t).transit = some b := by rw [hpc]; rfl
  have hb := h.moving t b hold
  have o := h.owned b hb
  obtain ⟨hfree, hzero⟩ := o.transit t hold
  rw [(h.enqueue_eq hpc).2]
  generalize hs : (({ s with q := s.q ++ [b] } : Pool τ).setPc t .idle) = s'
  have hpc' : s'.pc = Function.update s.pc t .idle := by rw [← hs]; rfl
  have hq : s'.q = s.q ++ [b] := by rw [← hs]; rfl
  have hlive : ∀ c, s'.live c = s.live c := live_congr (by rw [← hs]; rfl)
  have helem : s'.elements = s.elements := by rw [← hs]; rfl
  -- only the place of this block changes
  have hlocal : Local s s' b := by
    refine ⟨by rw [← hs]; rfl, by rw [← hs]; rfl, fun c => by rw [helem],
      fun c _ => by unfold header; rw [helem], ?_, fun c _ => hlive c, fun x _ => by rw [← hs]; rfl⟩
    intro c hc
    rw [hq, List.mem_append, List.mem_singleton]
    simp [hc]
  refine h.touch hb (hlocal.touches hpc' ?_ ?_ ?_) ?_ ?_
  · intro d hd
    rw [hold] at hd
    exact (Option.some.inj hd).symm
  · rintro d ⟨⟩
  · rintro d f p ⟨⟩
  · rw [hq]
    exact List.Nodup.append h.nodup (List.nodup_singleton b) (by simpa using hfree)
  -- no thread has the block in hand any more
  have hnone := o.let_go hpc' hold rfl
  have hfresh := not_install hpc' (by rintro _ _ ⟨⟩) (o.not_install_of_dead hzero)
  refine ⟨by rw [helem]; exact o.sane, ?_, fun _ => by rw [hlive, hzero], fun u hu => absurd hu (hnone u),
    fun u _ hu => absurd hu (hnone u), fun u f p hu => absurd hu (hfresh u f p), .inl (by rw [hq]; simp)⟩
  rw [hlive, ← o.counted]
  unfold header
  rw [helem]

theorem Inv.setPc {pc : Pc} {retval : τ → Option ℕ} {releases : List Release} (h : Inv n s)
    (htransit : pc.transit = (s.pc t).transit) (hpc : ∀ b f p, pc ≠ .install b f p) :
    Inv n { s.setPc t pc with retval := retval, releases := releases } := by
  have hsame : ∀ u, u ≠ t → (s.setPc t pc).pc u = s.pc u := fun u hu => Function.update_of_ne hu _ _
  refine h.keep rfl rfl rfl rfl (fun _ => rfl) (fun _ => rfl) ?_ ?_
  · intro u
    by_cases hu : u = t
    · rw [hu, ← htransit]
      exact congrArg Pc.transit (pc_setPc s t pc)
    · exact congrArg Pc.transit (hsame u hu)
  · intro u b f p hb
    by_cases hu : u = t
    · rw [hu] at hb
      exact absurd ((pc_setPc s t pc).symm.trans hb) (hpc b f p)
    · exact (hsame u hu).symm.trans hb

/-- **Every step** keeps the invariant. -/
theorem step_inv {a : Act τ} (h : Inv n s) (hok : s.NoWrap a) (hs : s.step a = some s') : Inv n s' := by
  cases step_trans hs with
  | allocNull t f p =>
    exact h.keep rfl rfl rfl rfl (fun _ => rfl) (fun _ => rfl) (fun _ => rfl) fun _ _ _ _ ht => ht
  | alloc t f p b rest hpc hq => exact h.alloc _ hpc hq
  | retain t b hpc hm => exact h.retain hpc hm hok
  | free t b hpc hm h0 h1 => exact h.drop hpc hm fun hone => h1 ((h.count_iff hm).2.2 hone)
  | freeLast t b hpc hm h1 => exact h.dropLast hpc hm ((h.count_iff hm).2.1 h1)
  | freeTrips t b hm h0 => exact absurd h0 (h.count_iff hm).1
  | setDestructor t b f p => exact h.writeDestructor b f p
  | insane _ t b _ hm hsane => exact absurd hsane (h.sane (.inl hm))
  | pass t t' b hpc hm => exact h.pass hpc hm
  | addRef t b f p hpc => exact h.addRef hpc
  | addRefInsane t b f p hpc hsane => exact absurd hsane (h.sane (t := t) (.inr (by rw [hpc]; rfl)))
  | install t b f p hpc =>
    exact (h.writeDestructor b (some f) p).setPc (show Pc.idle.transit = (s.pc t).transit by rw [hpc]; rfl)
      (by rintro _ _ _ ⟨⟩)
  | installNone t b p hpc => exact h.setPc (by rw [hpc]; rfl) (by rintro _ _ _ ⟨⟩)
  | destroy t b hpc => exact h.setPc (by rw [hpc]; rfl) (by rintro _ _ _ ⟨⟩)
  | enqueue t b hpc => exact h.enqueue hpc

theorem reach_inv (h : Sys.Reach (system τ n) NoWrap s) : Inv n s := by
  refine h.inv ?_ ?_
  · rintro s ⟨elements, rfl⟩
    exact Inv.create n elements
  · intro s a s' hs hok hstep
    exact step_inv hs hok hstep

theorem reach_step {a : Act τ} (h : Sys.Reach (system τ n) Sys.Always s) (hs : s.step a = some s') :
    Sys.Reach (system τ n) Sys.Always s' := Sys.Reach.step (S := system τ n) h trivial hs

/-- The destructor call of a release. -/
theorem destroy_step (ht : s.tripped = false) (hpc : s.pc t = .destroy b) :
    ∃ s', s.step (.run t) = some s' ∧ s'.pc t = .enqueue b ∧ s'.q = s.q ∧ s'.queueSize = s.queueSize ∧
      s'.refs = s.refs ∧ s'.tripped = false := by
  have hs : ∃ releases, s.step (.run t) = some { s.setPc t (.enqueue b) with releases := releases } := by
    unfold step
    rw [if_neg (by simp [ht])]
    simp only [runStep, hpc]
    exact ⟨_, rfl⟩
  obtain ⟨releases, hs⟩ := hs
  exact ⟨_, hs, pc_setPc s t _, rfl, rfl, rfl, ht⟩

/-- The enqueue of a release, with room in the queue. -/
theorem enqueue_step (ht : s.tripped = false) (hpc : s.pc t = .enqueue b)
    (hroom : s.q.length < s.queueSize) :
    ∃ s', s.step (.run t) = some s' ∧ s'.pc t = .idle ∧ s'.q = s.q ++ [b] ∧ s'.refs = s.refs ∧
      s'.tripped = false := by
  refine ⟨({ s with q := s.q ++ [b] } : Pool τ).setPc t .idle, ?_, pc_setPc _ t _, rfl, rfl, ht⟩
  unfold step
  rw [if_neg (by simp [ht])]
  simp only [runStep, hpc, Pool.enqueue, if_pos hroom]

theorem create_reach {ok : Pool τ → Act τ → Prop} (elements : ℕ → Element) :
    Sys.Reach (system τ n) ok (create n n elements) := .init ⟨elements, rfl⟩

/-- Only the enqueue of a release puts a block into the free queue. -/
theorem mem_of_step {a : Act τ} (hs : s.step a = some s') (hb : b ∈ s'.q) (hfree : b ∉ s.q) :
    ∃ t, a = .run t ∧ s.pc t = .enqueue b := by
  cases step_trans hs with
  | alloc t f p c rest hpc hq => exact absurd (by rw [hq]; exact List.mem_cons_of_mem _ hb) hfree
  | enqueue t c hpc =>
    have hb : b ∈ (s.enqueue c).q := hb
    unfold Pool.enqueue at hb
    split at hb
    · rcases List.mem_append.1 hb with hb | hb
      · exact absurd hb hfree
      · rw [List.mem_singleton.1 hb]
        exact ⟨t, rfl, hpc⟩
    · exact absurd hb hfree
  | _ => exact absurd hb hfree

end Steps

end Pool

open Pool

variable {τ : Type} [DecidableEq τ]

/-- **What the pool promises of its `n` blocks.** -/
structure Conserved (n : ℕ) (s : Pool τ) : Prop where
  /-- A block that can be dequeued has no live reference, and when `pool_alloc` is about
  to return a block its new reference is the only one. -/
  handout : (∀ b ∈ s.q, s.live b = 0) ∧
    ∀ t b f p, s.pc t = .install b f p → ∀ x ∈ s.refs, x.2 = b → x = (t, b)
  once : s.q.Nodup
  /-- A release goes on to the enqueue exactly when it drops the last reference, -/
  released : (∀ t b s', s.step (.free t b) = some s' → (s'.pc t = .destroy b ↔ s'.live b = 0)) ∧
    ∀ t b, s.pc t = .destroy b ∨ s.pc t = .enqueue b → s.live b = 0
  /-- and nothing else enqueues. -/
  enqueued : ∀ a s' b, s.step a = some s' → b ∈ s'.q → b ∉ s.q → ∃ t, a = .run t ∧ s.pc t = .enqueue b
  /-- The enqueue finds room. -/
  room : ∀ t b, s.pc t = .enqueue b →
    s.q.length < s.queueSize ∧ ∃ s', s.step (.run t) = some s' ∧ s'.q = s.q ++ [b]
  /-- Between operations, the free and the referenced blocks partition the elements, -/
  partition : (∀ t, s.pc t = .idle) → (∀ b ∈ s.q, b < n) ∧
    ∀ b < n, (b ∈ s.q ↔ ¬ 0 < (s.header b).retainCount.toNat)
  /-- and `pool_alloc` returns null exactly when all are referenced. -/
  null : (∀ t, s.pc t = .idle) → ∀ t s', s.step (.alloc t none 0) = some s' →
    (s'.pc t = .idle ∧ s'.retval t = none ↔ ∀ b < n, 0 < (s.header b).retainCount.toNat)

/-- A release drops a reference, and goes on to the destructor call if it was the last. -/
theorem Pool.Inv.free_cases {n : ℕ} {s s' : Pool τ} (h : Inv n s) {t : τ} {b : ℕ}
    (hs : s.step (.free t b) = some s') : (t, b) ∈ s.refs ∧ s'.refs = s.refs.erase (t, b) ∧
      (s'.pc t = .destroy b ∧ s.live b = 1 ∨ s'.pc t = .idle ∧ s.live b ≠ 1) := by
  cases step_trans hs with
  | free _ _ hpc hm h0 h1 => exact ⟨hm, rfl, .inr ⟨hpc, fun hone => h1 ((h.count_iff hm).2.2 hone)⟩⟩
  | freeLast _ _ hpc hm h1 => exact ⟨hm, rfl, .inl ⟨pc_setPc _ t _, (h.count_iff hm).2.1 h1⟩⟩
  | freeTrips _ _ hm h0 => exact absurd h0 (h.count_iff hm).1
  | insane _ u c _ hm hsane => exact absurd hsane (h.sane (.inl hm))

theorem Pool.Inv.released {n : ℕ} {s s' : Pool τ} (h : Inv n s) {t : τ} {b : ℕ}
    (hs : s.step (.free t b) = some s') : s'.pc t = .destroy b ↔ s'.live b = 0 := by
  obtain ⟨hm, hrefs, ⟨hpc, hone⟩ | ⟨hpc, hmore⟩⟩ := h.free_cases hs
  · have hlive := live_erase hrefs hm
    simp only [hpc, true_iff]
    omega
  · have hlive := live_erase hrefs hm
    simp only [hpc, reduceCtorEq, false_iff]
    omega

theorem Pool.Inv.null {n : ℕ} {s s' : Pool τ} (h : Inv n s) (hidle : ∀ t, s.pc t = .idle) {t : τ}
    (hs : s.step (.alloc t none 0) = some s') :
    s'.pc t = .idle ∧ s'.retval t = none ↔ ∀ b < n, 0 < (s.header b).retainCount.toNat := by
  cases step_trans hs with
  | allocNull _ _ _ hpc hq =>
    simp only [hidle, Function.update_self, and_self, true_iff]
    intro b hb
    by_contra hz
    have hm := (h.partition hidle hb).2 hz
    rw [hq] at hm
    cases hm
  | alloc _ _ _ b rest hpc hq =>
    have hb : b ∈ s.q := by rw [hq]; exact List.mem_cons_self
    simp only [pc_setPc, reduceCtorEq, false_and, false_iff]
    intro hall
    exact (h.partition hidle (h.bound b hb)).1 hb (hall b (h.bound b hb))
  | insane _ u c _ hm hsane => exact absurd hsane (h.sane (.inl hm))

/-- **Pool conservation.** For every pool of `n` elements with a free queue of capacity `n`,
any threads and every interleaving in which no block gets 2³² live references, the pool
keeps its promises and no assertion trips. -/
theorem pool_conserves {n : ℕ} {s : Pool τ} (h : Sys.Reach (system τ n) NoWrap s) :
    Conserved n s ∧ s.tripped = false := by
  have hi := reach_inv h
  refine ⟨⟨⟨?_, ?_⟩, hi.nodup, ⟨fun t b s' hs => hi.released hs, ?_⟩, fun a s' b => mem_of_step, ?_,
    fun hidle => ⟨hi.bound, fun b hb => hi.partition hidle hb⟩, fun hidle t s' => hi.null hidle⟩, hi.running⟩
  · intro b hb
    exact (hi.owned b (hi.bound b hb)).free hb
  · intro t b f p ht x hx hxb
    obtain ⟨h1, h2⟩ := (hi.owned b (hxb ▸ hi.held x hx)).fresh t f p ht
    exact eq_of_live_one h1 h2 hx hxb
  · intro t b ht
    have htransit : (s.pc t).transit = some b := by rcases ht with ht | ht <;> rw [ht] <;> rfl
    exact ((hi.owned b (hi.moving t b htransit)).transit t htransit).2
  · intro t b ht
    have hroom := (hi.enqueue_eq ht).1
    obtain ⟨s', h1, _, h2, _⟩ := enqueue_step hi.running ht hroom
    exact ⟨hroom, s', h1, h2⟩

/-- Two threads, two blocks: a block is passed on and its last reference dropped. -/
theorem pool_conserves_two :
    ∃ s : Pool Bool, Sys.Reach (system Bool 2) NoWrap s ∧ s.pc true = .enqueue 0 ∧ s.q = [1] ∧
      s.q.length < s.queueSize := by
  have htrace : (Sys.exec (system Bool 2) NoWrap (create 2 2 fun _ => ⟨⟨0, 0, none, 0⟩, 0⟩)
      [.alloc false none 0, .run false, .run false, .retain false 0, .pass false true 0, .free false 0,
        .free true 0, .run true]).map
      (fun s => s.pc true == .enqueue 0 && s.q == [1]) = some true := by decide
  obtain ⟨s, hs, hp⟩ := (create_reach _).of_trace htrace
  simp only [Bool.and_eq_true, beq_iff_eq] at hp
  exact ⟨s, hs, hp.1, hp.2, ((pool_conserves hs).1.room true 0 hp.1).1⟩

/-- What `k` retains of one block by one thread do. -/
theorem Pool.retain_many {n b : ℕ} {s : Pool τ} {t : τ} (h : Sys.Reach (system τ n) Sys.Always s)
    (ht : s.tripped = false) (hpc : s.pc t = .idle) (hm : (t, b) ∈ s.refs)
    (hsane : (s.elements b).sane = true) (k : ℕ) :
    ∃ s', Sys.Reach (system τ n) Sys.Always s' ∧ s'.tripped = false ∧ s'.pc = s.pc ∧ (t, b) ∈ s'.refs ∧
      (s'.elements b).sane = true ∧ s'.live b = s.live b + k ∧ s'.q = s.q ∧ s'.queueSize = s.queueSize ∧
      (s'.header b).retainCount = (s.header b).retainCount + BitVec.ofNat 32 k := by
  induction k with
  | zero => exact ⟨s, h, ht, rfl, hm, hsane, rfl, rfl, rfl, by simp⟩
  | succ k ih =>
    obtain ⟨s₁, h1, h2, h3, h4, h5, h6, h7, h8, h9⟩ := ih
    refine ⟨{ s₁.fetchAdd b with refs := (t, b) :: s₁.refs }, h1.step trivial (a := .retain t b) ?_, h2, h3,
      List.mem_cons_of_mem _ h4, ?_, ?_, h7, h8, ?_⟩
    · show s₁.step (.retain t b) = _
      unfold step
      rw [if_neg (by simp [h2])]
      simp only [guarded, h3, hpc, h4, h5, and_self, if_true]
    · rw [← h5]
      exact sane_setHeader s₁ b b rfl
    · rw [live_cons (s := s₁) rfl, h6]
      omega
    · refine (retainCount_fetchAdd s₁ b b).trans ?_
      rw [if_pos rfl, h9, BitVec.add_assoc, BitVec.ofNat_add k 1]
      rfl

/-- The steps of a release whose decrement finds 1, up to its enqueue. -/
theorem Pool.release_last {n b : ℕ} {s : Pool τ} {t : τ} (h : Sys.Reach (system τ n) Sys.Always s)
    (ht : s.tripped = false) (hpc : s.pc t = .idle) (hm : (t, b) ∈ s.refs)
    (hsane : (s.elements b).sane = true) (hone : (s.header b).retainCount = 1)
    (hroom : s.q.length < s.queueSize) :
    ∃ s', Sys.Reach (system τ n) Sys.Always s' ∧ s'.tripped = false ∧ s'.pc t = .idle ∧
      s'.q = s.q ++ [b] ∧ s'.live b + 1 = s.live b := by
  have hfree : s.step (.free t b) =
      some (({ s.fetchSub b with refs := s.refs.erase (t, b) } : Pool τ).setPc t (.destroy b)) := by
    unfold step
    rw [if_neg (by simp [ht])]
    simp only [guarded, hpc, hm, hsane, and_self, if_true, freeStep, hone]
    rfl
  obtain ⟨s₁, d1, d2, d3, d4, d5, d6⟩ := destroy_step (s := ({ s.fetchSub b with
    refs := s.refs.erase (t, b) } : Pool τ).setPc t (.destroy b)) ht (pc_setPc _ t _)
  obtain ⟨s₂, e1, e2, e3, e4, e5⟩ := enqueue_step d6 d2 (by rw [d3, d4]; exact hroom)
  refine ⟨s₂, reach_step (reach_step (reach_step h hfree) d1) e1, e5, e2, ?_, ?_⟩
  · rw [e3, d3]
    rfl
  · exact live_erase (e4.trans d5) hm

/-- **The retain count wraps.** One thread, one block: after 2³² retains and a single
release, the block is in the free queue with 2³² references to it live, and the next
`pool_alloc` takes it. -/
theorem retain_count_wraps : ∃ s : Pool Unit, Sys.Reach (system Unit 1) Sys.Always s ∧
    (∀ t, s.pc t = .idle) ∧ s.q = [0] ∧ s.live 0 = 2 ^ 32 ∧
    ∃ s', s.step (.alloc () none 0) = some s' ∧ s'.pc () = .addRef 0 none 0 := by
  have htrace : (Sys.exec (system Unit 1) Sys.Always (create 1 1 fun _ => ⟨⟨0, 0, none, 0⟩, 0⟩)
      [.alloc () none 0, .run (), .run ()]).map
      (fun s => s.tripped == false && s.pc () == .idle && s.refs == [((), 0)] && (s.elements 0).sane &&
        s.q == [] && s.queueSize == 1 && (s.header 0).retainCount == 1) = some true := by decide
  obtain ⟨s, hs, hp⟩ := (create_reach _).of_trace htrace
  simp only [Bool.and_eq_true, beq_iff_eq] at hp
  obtain ⟨⟨⟨⟨⟨⟨h1, h2⟩, h3⟩, h4⟩, h5⟩, h6⟩, h7⟩ := hp
  have hm : ((), 0) ∈ s.refs := by rw [h3]; exact List.mem_cons_self
  have hlive : s.live 0 = 1 := by unfold live; rw [h3]; rfl
  obtain ⟨s₁, k1, k2, k3, k4, k5, k6, k7, k8, k9⟩ := retain_many hs h1 h2 hm h4 (2 ^ 32)
  -- the count is back at 1, so the release finds it there
  have hcount : (s₁.header 0).retainCount = 1 := by rw [k9, h7]; decide
  obtain ⟨s₂, e1, e2, e3, e4, e5⟩ := release_last k1 k2 (by rw [k3, h2]) k4 k5 hcount
    (by rw [k7, k8, h5, h6]; decide)
  have hq : s₂.q = [0] := by rw [e4, k7, h5]; rfl
  refine ⟨s₂, e1, fun _ => e3, hq, by omega, ?_⟩
  have hs : ∃ allocations, s₂.step (.alloc () none 0) =
      some { s₂.setPc () (.addRef 0 none 0) with q := [], allocations := allocations } := by
    unfold step
    rw [if_neg (by simp [e2])]
    simp only [allocStep, e3, if_true, hq]
    exact ⟨_, rfl⟩
  obtain ⟨allocations, hs⟩ := hs
  exact ⟨_, hs, pc_setPc s₂ () _⟩

end Cutils.Blocks
