import Cutils.Proof.PoolOwnership

/-!
# Which destructor a release calls

The destructor is a field of the block's header. `pool_alloc_blocking` writes it only when
it is given one, and `pool_free` does not clear it, so a block that is allocated without a
destructor keeps the one of an earlier allocation.

* `destructor_of_allocation`: in every run, a release calls the destructor of its own
  allocation exactly if the allocation wrote one or inherited none.
* `destructor_outlives_allocation`: the run in which it does not.
-/

namespace Cutils.Blocks

/-- A release called the destructor of its allocation if and only if the allocation wrote
one or inherited none. -/
def Release.Exact (r : Release) : Prop :=
  r.called = r.allocation.installed ↔ r.allocation.written = true ∨ r.allocation.inherited = none

namespace Pool

variable {τ : Type} {s s' : Pool τ} {b : ℕ}

/-- The header against what happened to the block since its current allocation. -/
structure Tracked (s : Pool τ) (b : ℕ) : Prop where
  written : (s.allocations b).written = true →
    (s.allocations b).installed = (s.header b).destructor.map (·, (s.header b).destructorPrivate)
  kept : (s.allocations b).written = false →
    (s.allocations b).installed = none ∧ (s.header b).destructor = (s.allocations b).inherited

/-- What a step leaves of a block's destructor. -/
structure SameDestructor (s s' : Pool τ) (b : ℕ) : Prop where
  destructor : (s'.header b).destructor = (s.header b).destructor
  destructorPrivate : (s'.header b).destructorPrivate = (s.header b).destructorPrivate
  allocation : s'.allocations b = s.allocations b

theorem Tracked.keep (h : s.Tracked b) (hs : SameDestructor s s' b) : s'.Tracked b := by
  obtain ⟨h1, h2, h3⟩ := hs
  constructor
  · rw [h1, h2, h3]
    exact h.written
  · rw [h1, h3]
    exact h.kept

/-- A header written with its destructor unchanged. -/
theorem sameDestructor_setHeader {c : ℕ} {h : Header} (h1 : h.destructor = (s.header c).destructor)
    (h2 : h.destructorPrivate = (s.header c).destructorPrivate) (b : ℕ) :
    SameDestructor s (s.setHeader c h) b := by
  have hh := header_setHeader s c b h
  by_cases hb : b = c
  · rw [if_pos hb] at hh
    exact ⟨by rw [hh, h1, hb], by rw [hh, h2, hb], rfl⟩
  · rw [if_neg hb] at hh
    exact ⟨by rw [hh], by rw [hh], rfl⟩

/-- An allocation starts with what the header holds. -/
theorem tracked_dequeue (h : s.Tracked b) {c : ℕ} (helem : s'.elements = s.elements)
    (hal : s'.allocations = Function.update s.allocations c ⟨(s.header c).destructor, false, none⟩) :
    s'.Tracked b := by
  have hh : ∀ d, s'.header d = s.header d := fun d => by unfold header; rw [helem]
  by_cases hb : b = c
  · subst hb
    constructor
    · intro hw
      rw [hal, Function.update_self] at hw
      cases hw
    · intro _
      rw [hal, Function.update_self, hh]
      exact ⟨rfl, rfl⟩
  · refine h.keep ⟨by rw [hh], by rw [hh], ?_⟩
    rw [hal, Function.update_of_ne hb]

theorem tracked_writeDestructor (h : s.Tracked b) (c : ℕ) (f : Option ℕ) (p : ℕ) :
    (s.writeDestructor c f p).Tracked b := by
  have hh : (s.writeDestructor c f p).header b =
      if b = c then { s.header c with destructor := f, destructorPrivate := p } else s.header b :=
    header_setHeader s c b _
  have hal : (s.writeDestructor c f p).allocations = Function.update s.allocations c
      { s.allocations c with written := true, installed := f.map (·, p) } := rfl
  by_cases hb : b = c
  · subst hb
    rw [if_pos rfl] at hh
    constructor
    · intro _
      rw [hal, Function.update_self, hh]
    · intro hw
      rw [hal, Function.update_self] at hw
      cases hw
  · rw [if_neg hb] at hh
    exact h.keep ⟨by rw [hh], by rw [hh], by rw [hal, Function.update_of_ne hb]⟩

/-- The destructor call of a release. -/
theorem Tracked.exact (h : s.Tracked b) : Release.Exact ⟨b, s.allocations b,
    (s.header b).destructor.map (·, (s.header b).destructorPrivate)⟩ := by
  unfold Release.Exact
  dsimp only
  cases hw : (s.allocations b).written with
  -- written since the allocation: what is called is what was installed last
  | true => simp [h.written hw]
  -- inherited: it is called, though nothing was installed
  | false =>
    obtain ⟨h1, h2⟩ := h.kept hw
    rw [h1, ← h2]
    simp

/-- Every block is tracked, and every release so far exact. -/
structure History (s : Pool τ) : Prop where
  tracked : ∀ b, s.Tracked b
  releases : ∀ r ∈ s.releases, r.Exact

theorem History.keep (h : History s) (hs : ∀ b, SameDestructor s s' b) (hr : s'.releases = s.releases) :
    History s' :=
  ⟨fun b => (h.tracked b).keep (hs b), hr ▸ h.releases⟩

theorem History.fetchAdd (h : History s) (c : ℕ) : History (s.fetchAdd c) :=
  h.keep (sameDestructor_setHeader rfl rfl) rfl

theorem History.fetchSub (h : History s) (c : ℕ) : History (s.fetchSub c) :=
  h.keep (sameDestructor_setHeader rfl rfl) rfl

theorem History.writeDestructor (h : History s) (c : ℕ) (f : Option ℕ) (p : ℕ) :
    History (s.writeDestructor c f p) :=
  ⟨fun b => tracked_writeDestructor (h.tracked b) c f p, h.releases⟩

variable [DecidableEq τ] {t : τ} {n : ℕ}

theorem step_history {a : Act τ} (h : History s) (hs : s.step a = some s') : History s' := by
  cases step_trans hs with
  | allocNull | insane | pass | addRefInsane | installNone => exact h.keep (fun _ => ⟨rfl, rfl, rfl⟩) rfl
  | alloc t f p b rest => exact ⟨fun c => tracked_dequeue (h.tracked c) rfl rfl, h.releases⟩
  | retain t b | addRef t b => exact (h.fetchAdd b).keep (fun _ => ⟨rfl, rfl, rfl⟩) rfl
  | free t b | freeLast t b | freeTrips t b => exact (h.fetchSub b).keep (fun _ => ⟨rfl, rfl, rfl⟩) rfl
  | setDestructor t b f p => exact h.writeDestructor b f p
  | install t b f p => exact (h.writeDestructor b (some f) p).keep (fun _ => ⟨rfl, rfl, rfl⟩) rfl
  -- the release that is recorded calls what the header holds
  | destroy t b =>
    refine ⟨fun c => (h.tracked c).keep ⟨rfl, rfl, rfl⟩, ?_⟩
    intro r hr
    rcases List.mem_append.1 hr with hr | hr
    · exact h.releases r hr
    · rw [List.mem_singleton.1 hr]
      exact (h.tracked b).exact
  | enqueue t b =>
    unfold enqueue
    split
    all_goals exact h.keep (fun _ => ⟨rfl, rfl, rfl⟩) rfl

/-- **A release calls its destructor once.** A decrement that finds 1 goes on to the
destructor call, which is recorded once, with the block's current allocation; no other step
calls a destructor. -/
structure CallsOnce (s : Pool τ) : Prop where
  last : ∀ t b s', s.step (.free t b) = some s' → s'.tripped = false →
    (s'.pc t = .destroy b ↔ (s.header b).retainCount = 1)
  once : ∀ t b s', s.pc t = .destroy b → s.step (.run t) = some s' →
    ∃ called, s'.releases = s.releases ++ [⟨b, s.allocations b, called⟩]
  only : ∀ a s', s.step a = some s' → (∀ t b, a = .run t → s.pc t ≠ .destroy b) →
    s'.releases = s.releases

theorem callsOnce (s : Pool τ) : CallsOnce s := by
  refine ⟨?_, ?_, ?_⟩
  · -- the decrement
    intro t b s' hs htrip
    cases step_trans hs with
    | free _ _ hpc hm h0 h1 =>
      refine ⟨?_, fun hone => absurd hone h1⟩
      intro hd
      cases hpc.symm.trans hd
    | freeLast _ _ hpc hm h1 => exact ⟨fun _ => h1, fun _ => pc_setPc _ t _⟩
    | freeTrips | insane => cases htrip
  · -- the destructor call
    intro t b s' hpc hs
    cases step_trans hs with
    | insane _ u c ha => exact absurd rfl (ha t)
    | destroy _ c hpc' =>
      rw [hpc] at hpc'
      cases hpc'
      exact ⟨_, rfl⟩
    | addRef _ _ _ _ hpc' | addRefInsane _ _ _ _ hpc' | install _ _ _ _ hpc' | installNone _ _ _ hpc'
    | enqueue _ _ hpc' =>
      rw [hpc] at hpc'
      cases hpc'
  · -- all other steps
    intro a s' hs hnot
    cases step_trans hs with
    | destroy t b hpc => exact absurd hpc (hnot t b rfl)
    | enqueue t b =>
      unfold enqueue
      split <;> rfl
    | _ => rfl

end Pool

open Pool

variable {τ : Type} [DecidableEq τ]

/-- **Destructors and allocations.** In every run, every release that dropped a block's
last reference called, once, the destructor installed by its own allocation (none if none
was), with the private pointer installed with it, if and only if a destructor was written
since that allocation or the header held none when the block was allocated. -/
theorem destructor_of_allocation {n : ℕ} {s : Pool τ} (h : Sys.Reach (system τ n) Sys.Always s) :
    CallsOnce s ∧ ∀ r ∈ s.releases, (r.called = r.allocation.installed ↔
      r.allocation.written = true ∨ r.allocation.inherited = none) := by
  have hhist : History s := by
    refine Sys.Reach.inv (I := History) ?_ ?_ h
    · rintro s ⟨elements, rfl⟩
      refine ⟨fun b => ⟨?_, fun _ => ⟨rfl, rfl⟩⟩, ?_⟩
      · intro hw
        have hw : false = true := hw
        cases hw
      have hnil : (create (τ := τ) n n elements).releases = [] := (created_create n elements).releases
      rw [hnil]
      intro r hr
      cases hr
    · intro s a s' hs _ hstep
      exact step_history hs hstep
  exact ⟨callsOnce s, hhist.releases⟩

/-- One block, allocated with destructor 7 and released, and allocated with destructor 5 and released: each release calls the
destructor of its own allocation, also where the header still has the other one. -/
theorem destructor_of_allocation_two : ∃ s : Pool Unit, Sys.Reach (system Unit 1) Sys.Always s ∧
    s.releases.map (·.allocation) = [⟨none, true, some (7, 3)⟩, ⟨some 7, true, some (5, 4)⟩] ∧
    s.releases.map (·.called) = [some (7, 3), some (5, 4)] := by
  have htrace : (Sys.exec (system Unit 1) Sys.Always (create 1 1 fun _ => ⟨⟨0, 0, none, 0⟩, 0⟩)
      [.alloc () (some 7) 3, .run (), .run (), .free () 0, .run (), .run (),
        .alloc () (some 5) 4, .run (), .run (), .free () 0, .run ()]).map
      (fun s => s.releases.map (·.allocation) == [⟨none, true, some (7, 3)⟩, ⟨some 7, true, some (5, 4)⟩]) =
      some true := by decide
  obtain ⟨s, hs, hp⟩ := (create_reach _).of_trace htrace
  have hal := beq_iff_eq.1 hp
  have hown : ∀ r ∈ s.releases, r.called = r.allocation.installed := by
    intro r hr
    refine ((destructor_of_allocation hs).2 r hr).2 (.inl ?_)
    have hmem := List.mem_map_of_mem (f := (·.allocation)) hr
    rw [hal] at hmem
    simp only [List.mem_cons, List.not_mem_nil, or_false] at hmem
    rcases hmem with h | h <;> rw [h]
  refine ⟨s, hs, hal, ?_⟩
  calc s.releases.map (·.called)
      = (s.releases.map (·.allocation)).map (·.installed) := by
        rw [List.map_map]
        exact List.map_congr_left hown
    _ = [some (7, 3), some (5, 4)] := by
        rw [hal]
        rfl

/-- **A destructor outlives its allocation.** One block: allocated with destructor 7 and
released, then allocated by `pool_alloc` and released. The second release calls 7 too. -/
theorem destructor_outlives_allocation : ∃ s : Pool Unit, Sys.Reach (system Unit 1) Sys.Always s ∧
    ∃ r ∈ s.releases, r.allocation.installed = none ∧ r.called = some (7, 3) := by
  have htrace : (Sys.exec (system Unit 1) Sys.Always (create 1 1 fun _ => ⟨⟨0, 0, none, 0⟩, 0⟩)
      [.alloc () (some 7) 3, .run (), .run (), .free () 0, .run (), .run (),
        .alloc () none 0, .run (), .run (), .free () 0, .run ()]).map
      (fun s => s.releases.any fun r => r.allocation.installed == none && r.called == some (7, 3)) =
      some true := by decide
  obtain ⟨s, hs, hp⟩ := (create_reach _).of_trace htrace
  obtain ⟨r, hr, hp⟩ := List.any_eq_true.1 hp
  simp only [Bool.and_eq_true, beq_iff_eq] at hp
  exact ⟨s, hs, r, hr, hp.1, hp.2⟩

end Cutils.Blocks
