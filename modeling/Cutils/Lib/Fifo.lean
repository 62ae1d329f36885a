import Mathlib.Data.List.Basic
import Mathlib.Data.List.DropRight

/-!
# Bounded queues and refinement

`Fifo α cap` is a queue of at most `cap` elements, that takes what fits (`append`) or drops the oldest
elements for new ones (`slide`). A device (`Device`) is a step
function on states that answers each operation, and may fail (`none`). A device
refines a specification when a relation between their states is kept by every
operation that meets a side condition and the answers agree; `refines_run` carries
this (and `keeps_run` an invariant) to whole sequences of operations, and `agrees_iff` makes the side condition exact.
`drain` pops until nothing comes.
-/

/-- A queue of at most `cap` elements, oldest first. -/
structure Fifo (α : Type*) (cap : ℕ) where
  items : List α
  fits : items.length ≤ cap

namespace Fifo

variable {α : Type*} {cap : ℕ}

/-- The empty queue. -/
def empty : Fifo α cap := ⟨[], Nat.zero_le _⟩

/-- The number of stored elements. -/
def count (q : Fifo α cap) : ℕ := q.items.length

/-- The number of elements that still fit. -/
def free (q : Fifo α cap) : ℕ := cap - q.count

/-- Append the elements of `xs` that fit, in order. -/
def append (q : Fifo α cap) (xs : List α) : Fifo α cap :=
  ⟨q.items ++ xs.take q.free, by
    have := q.fits
    have := List.length_take_le q.free xs
    simp only [List.length_append, free, count] at *
    omega⟩

/-- The oldest `k` elements, or all of them. -/
def oldest (q : Fifo α cap) (k : ℕ) : List α := q.items.take (min k q.count)

/-- Remove the oldest `k` elements, or all of them. -/
def discard (q : Fifo α cap) (k : ℕ) : Fifo α cap :=
  ⟨q.items.drop (min k q.count), by
    have := q.fits
    rw [List.length_drop]
    omega⟩

/-- Append all of `xs` and drop the oldest elements that no longer fit. -/
def slide (q : Fifo α cap) (xs : List α) : Fifo α cap :=
  ⟨(q.items ++ xs).rtake cap, by
    rw [List.rtake, List.length_drop]
    omega⟩

theorem count_discard (q : Fifo α cap) (k : ℕ) : (q.discard k).count = q.count - k := by
  simp only [count, discard, List.length_drop]
  omega

theorem cap_pos {q : Fifo α cap} (h : q.count ≠ 0) : 0 < cap :=
  lt_of_lt_of_le (Nat.pos_of_ne_zero h) q.fits

/-- **A sliding window does not see how its input was split.** -/
theorem slide_slide (q : Fifo α cap) (xs ys : List α) : (q.slide xs).slide ys = q.slide (xs ++ ys) := by
  have hitems : ((q.items ++ xs).rtake cap ++ ys).rtake cap = (q.items ++ (xs ++ ys)).rtake cap := by
    rw [← List.append_assoc]
    generalize q.items ++ xs = l
    unfold List.rtake
    rw [← List.drop_append_of_le_length (Nat.sub_le ..), List.drop_drop]
    congr 1
    simp only [List.length_drop, List.length_append]
    omega
  unfold slide
  congr 1

/-- New elements that fit the window push out as many as they need. -/
theorem items_slide {q : Fifo α cap} {xs : List α} (h : xs.length ≤ cap) :
    (q.slide xs).items = (q.discard (xs.length - q.free)).items ++ xs := by
  have hfits := q.fits
  have hk : min (xs.length - q.free) q.count = (q.items ++ xs).length - cap := by
    simp only [free, count, List.length_append] at *
    omega
  have hle : (q.items ++ xs).length - cap ≤ q.items.length := by
    rw [List.length_append]
    omega
  show (q.items ++ xs).drop ((q.items ++ xs).length - cap) = q.items.drop (min (xs.length - q.free) q.count) ++ xs
  rw [hk, List.drop_append_of_le_length hle]

theorem count_slide (q : Fifo α cap) (xs : List α) : (q.slide xs).count = min cap (q.count + xs.length) := by
  simp only [count, slide, List.rtake, List.length_drop, List.length_append]
  omega

theorem slide_nil (q : Fifo α cap) : q.slide [] = q := by
  have hitems : (q.items ++ []).rtake cap = q.items := by
    have := q.fits
    rw [List.append_nil, List.rtake, Nat.sub_eq_zero_of_le this, List.drop_zero]
  unfold slide
  congr 1

/-- An element that fits is the last one. -/
theorem items_append_one {q : Fifo α cap} (h : q.count < cap) (x : α) :
    (q.append [x]).items = q.items ++ [x] := by
  have hfree : [x].length ≤ q.free := by
    unfold free
    rw [List.length_singleton]
    omega
  show q.items ++ [x].take q.free = _
  rw [List.take_of_length_le hfree]

theorem items_discard_one {q : Fifo α cap} {x : α} {rest : List α} (h : q.items = x :: rest) :
    (q.discard 1).items = rest := by
  have hcount : 1 ≤ q.count := by
    unfold count
    rw [h, List.length_cons]
    omega
  show q.items.drop (min 1 q.count) = _
  rw [Nat.min_eq_left hcount, h]
  rfl

end Fifo

namespace Device

variable {σ τ ι ο : Type*}

/-- Run a list of operations and collect the answers. -/
def run (step : σ → ι → Option (σ × ο)) : σ → List ι → Option (σ × List ο)
  | s, [] => some (s, [])
  | s, i :: is =>
    (step s i).bind fun p => (run step p.1 is).map fun r => (r.1, p.2 :: r.2)

/-- `ok` holds of every operation, in the state it is applied to. -/
def Along (step : σ → ι → Option (σ × ο)) (ok : σ → ι → Prop) : σ → List ι → Prop
  | _, [] => True
  | s, i :: is => ok s i ∧ ∀ s' o, step s i = some (s', o) → Along step ok s' is

instance Along.decidable (step : σ → ι → Option (σ × ο)) (ok : σ → ι → Prop) [∀ s i, Decidable (ok s i)] :
    ∀ (s : σ) (is : List ι), Decidable (Along step ok s is)
  | _, [] => isTrue True.intro
  | s, i :: is =>
    have : Decidable (∀ s' o, step s i = some (s', o) → Along step ok s' is) :=
      match h : step s i with
      | none => isTrue fun _ _ hs => by cases hs
      | some p =>
        have := Along.decidable step ok p.1 is
        decidable_of_iff (Along step ok p.1 is)
          ⟨fun hp _ _ hs => by cases hs; exact hp, fun hp => hp p.1 p.2 rfl⟩
    inferInstanceAs (Decidable (_ ∧ _))

theorem Along.trivial (step : σ → ι → Option (σ × ο)) (is : List ι) (s : σ) : Along step (fun _ _ => True) s is := by
  induction is generalizing s with
  | nil => exact True.intro
  | cons i is ih => exact ⟨True.intro, fun s' _ _ => ih s'⟩

/-- **An invariant of runs**, kept by every operation that meets `ok`. -/
theorem keeps_run {step : σ → ι → Option (σ × ο)} {ok : σ → ι → Prop} {I : σ → Prop}
    (hstep : ∀ s i s' o, I s → ok s i → step s i = some (s', o) → I s') :
    ∀ is s s' os, I s → Along step ok s is → run step s is = some (s', os) → I s' := by
  intro is
  induction is with
  | nil =>
    intro s s' os hI _ hrun
    cases hrun
    exact hI
  | cons i is ih =>
    intro s s' os hI hok hrun
    obtain ⟨p, hp, hrest⟩ := Option.bind_eq_some_iff.1 hrun
    obtain ⟨r, hr, hrs⟩ := Option.map_eq_some_iff.1 hrest
    cases hrs
    exact ih p.1 r.1 r.2 (hstep s i p.1 p.2 hI hok.1 hp) (hok.2 _ _ hp) hr

/-- **Operations that do not fail** from states of an invariant: no sequence of them does. -/
theorem total_run {step : σ → ι → Option (σ × ο)} {I : σ → Prop}
    (htotal : ∀ s i, I s → ∃ s' o, step s i = some (s', o) ∧ I s') :
    ∀ is s, I s → ∃ s' os, run step s is = some (s', os) ∧ I s' := by
  intro is
  induction is with
  | nil => intro s hs; exact ⟨s, [], rfl, hs⟩
  | cons i is ih =>
    intro s hs
    obtain ⟨s₁, o, h1, hI⟩ := htotal s i hs
    obtain ⟨s₂, os, h2, hI₂⟩ := ih s₁ hI
    exact ⟨s₂, o :: os, by simp only [run, h1, Option.bind_some, h2, Option.map_some], hI₂⟩

/-- Two states that no sequence of operations tells apart. -/
def Alike (step : σ → ι → Option (σ × ο)) (s t : σ) : Prop :=
  ∀ is, (run step s is).map Prod.snd = (run step t is).map Prod.snd

/-- One operation answers alike, and what it leads to is alike. -/
theorem Alike.step {step : σ → ι → Option (σ × ο)} {s t s' t' : σ} {i : ι} {o p : ο} (h : Alike step s t)
    (hs : step s i = some (s', o)) (ht : step t i = some (t', p)) : o = p ∧ Alike step s' t' := by
  have hrun : ∀ is, ((run step s' is).map Prod.snd).map (o :: ·) = ((run step t' is).map Prod.snd).map (p :: ·) := by
    intro is
    have hcons := h (i :: is)
    simp only [run, hs, ht, Option.bind_some, Option.map_map] at hcons ⊢
    exact hcons
  have hhead : o = p := by
    have hnil := hrun []
    simp only [run, Option.map_some, Option.some.injEq, List.cons.injEq] at hnil
    exact hnil.1
  refine ⟨hhead, fun is => ?_⟩
  have hrest := hrun is
  rw [hhead] at hrest
  exact Option.map_injective (List.cons_injective) hrest

/-- **Two runs, the same answers.** A relation is kept by every operation that meets `ok` in both states, and the
operation fails in both or gives both the same answer. -/
theorem same_run {step : σ → ι → Option (σ × ο)} {ok : σ → ι → Prop} {R : σ → σ → Prop}
    (hstep : ∀ s t i, R s t → ok s i → ok t i → (step s i = none ∧ step t i = none) ∨
      ∃ s' t' o, step s i = some (s', o) ∧ step t i = some (t', o) ∧ R s' t') :
    ∀ is s t, R s t → Along step ok s is → Along step ok t is →
      (run step s is).map Prod.snd = (run step t is).map Prod.snd := by
  intro is
  induction is with
  | nil => intro s t _ _ _; rfl
  | cons i is ih =>
    intro s t hR hs ht
    rcases hstep s t i hR hs.1 ht.1 with ⟨hs₁, ht₁⟩ | ⟨s', t', o, hs₁, ht₁, hR'⟩
    · simp only [run, hs₁, ht₁]
    · have hrest := congrArg (Option.map (o :: ·)) (ih s' t' hR' (hs.2 _ _ hs₁) (ht.2 _ _ ht₁))
      simp only [Option.map_map] at hrest
      simp only [run, hs₁, ht₁, Option.bind_some, Option.map_map]
      exact hrest

/-- **A relation that operations keep**, with the same answers, relates states that are alike. -/
theorem alike_of_related {step : σ → ι → Option (σ × ο)} {R : σ → σ → Prop}
    (hstep : ∀ s t i, R s t → ∃ s' t' o, step s i = some (s', o) ∧ step t i = some (t', o) ∧ R s' t') :
    ∀ s t, R s t → Alike step s t :=
  fun s t hR is => same_run (fun s t i h _ _ => .inr (hstep s t i h)) is s t hR (.trivial step is s) (.trivial step is t)

/-- **Where operations do not fail**, states are alike if all runs from both have the same answers. -/
theorem alike_iff {step : σ → ι → Option (σ × ο)} {I : σ → Prop}
    (htotal : ∀ s i, I s → ∃ s' o, step s i = some (s', o) ∧ I s') {s t : σ} (hs : I s) (ht : I t) :
    Alike step s t ↔ ∀ is, ∃ s' t' os, run step s is = some (s', os) ∧ run step t is = some (t', os) := by
  constructor
  · intro h is
    obtain ⟨s', os, hs', -⟩ := total_run htotal is s hs
    obtain ⟨t', os', ht', -⟩ := total_run htotal is t ht
    have hsame : os = os' := by
      have hmap := h is
      rw [hs', ht'] at hmap
      exact Option.some.inj hmap
    exact ⟨s', t', os, hs', by rw [ht', hsame]⟩
  · intro h is
    obtain ⟨s', t', os, hs', ht'⟩ := h is
    rw [hs', ht', Option.map_some, Option.map_some]

/-- A total specification, as a device. -/
def runSpec (spec : τ → ι → τ × ο) : τ → List ι → τ × List ο
  | t, [] => (t, [])
  | t, i :: is => ((runSpec spec (spec t i).1 is).1, (spec t i).2 :: (runSpec spec (spec t i).1 is).2)

/-- **Refinement over whole runs.** If every operation that meets `ok` succeeds,
answers as the specification does and keeps `R`, so does every sequence of them. -/
theorem refines_run {step : σ → ι → Option (σ × ο)} {spec : τ → ι → τ × ο} {ok : σ → ι → Prop}
    {R : σ → τ → Prop}
    (hstep : ∀ s t i, R s t → ok s i → ∃ s', step s i = some (s', (spec t i).2) ∧ R s' (spec t i).1) :
    ∀ is s t, R s t → Along step ok s is →
      ∃ s', run step s is = some (s', (runSpec spec t is).2) ∧ R s' (runSpec spec t is).1 := by
  intro is
  induction is with
  | nil => intro s t hR _; exact ⟨s, rfl, hR⟩
  | cons i is ih =>
    intro s t hR hok
    obtain ⟨s₁, h1, hR1⟩ := hstep s t i hR hok.1
    obtain ⟨s₂, h2, hR2⟩ := ih s₁ _ hR1 (hok.2 _ _ h1)
    exact ⟨s₂, by simp only [run, h1, Option.bind_some, h2, Option.map_some, runSpec], hR2⟩

/-- `ok` holds of every operation, in the specification's state before it. -/
def Allowed (spec : τ → ι → τ × ο) (ok : τ → ι → Prop) : τ → List ι → Prop
  | _, [] => True
  | t, i :: is => ok t i ∧ Allowed spec ok (spec t i).1 is

/-- Operations that an invariant makes `ok`. -/
theorem allowed_of_inv {spec : τ → ι → τ × ο} {ok : τ → ι → Prop} {I : τ → Prop}
    (hstep : ∀ t i, I t → ok t i ∧ I (spec t i).1) : ∀ is t, I t → Allowed spec ok t is := by
  intro is
  induction is with
  | nil => intro t _; trivial
  | cons i is ih =>
    intro t hI
    obtain ⟨hok, hI'⟩ := hstep t i hI
    exact ⟨hok, ih _ hI'⟩

/-- **Refinement of allowed runs**, by operations that may also count on how many are left. -/
theorem refines_allowed {step : σ → ι → Option (σ × ο)} {spec : τ → ι → τ × ο} {ok : τ → ι → Prop}
    {R : ℕ → σ → τ → Prop}
    (hstep : ∀ n s t i, R (n + 1) s t → ok t i → ∃ s', step s i = some (s', (spec t i).2) ∧ R n s' (spec t i).1) :
    ∀ is s t, R is.length s t → Allowed spec ok t is →
      ∃ s', run step s is = some (s', (runSpec spec t is).2) ∧ R 0 s' (runSpec spec t is).1 := by
  intro is
  induction is with
  | nil => intro s t hR _; exact ⟨s, rfl, hR⟩
  | cons i is ih =>
    intro s t hR hok
    obtain ⟨s₁, h1, hR1⟩ := hstep _ s t i hR hok.1
    obtain ⟨s₂, h2, hR2⟩ := ih s₁ _ hR1 hok.2
    exact ⟨s₂, by simp only [run, h1, Option.bind_some, h2, Option.map_some, runSpec], hR2⟩

/-- **Refinement by a device that never fails.** -/
theorem simulates_run {impl : σ → ι → σ × ο} {spec : τ → ι → τ × ο} {R : σ → τ → Prop}
    (hstep : ∀ s t i, R s t → (impl s i).2 = (spec t i).2 ∧ R (impl s i).1 (spec t i).1) :
    ∀ is s t, R s t → (runSpec impl s is).2 = (runSpec spec t is).2 ∧ R (runSpec impl s is).1 (runSpec spec t is).1 := by
  intro is
  induction is with
  | nil => intro s t hR; exact ⟨rfl, hR⟩
  | cons i is ih =>
    intro s t hR
    obtain ⟨hans, hR1⟩ := hstep s t i hR
    obtain ⟨hrest, hR2⟩ := ih _ _ hR1
    exact ⟨by simp only [runSpec, hans, hrest], hR2⟩

/-- **Exactly when a device gives all of its specification's answers.** A part `f` of the answers always agrees, and
the states stay related; the rest of an answer agrees if and only if the operation is `ok`. -/
theorem answers_iff {ρ : Type*} {impl : σ → ι → σ × ο} {spec : τ → ι → τ × ο} {R : σ → τ → Prop} {D : ι → Prop}
    {ok : τ → ι → Prop} (f : ο → ρ)
    (hstep : ∀ s t i, R s t → D i → R (impl s i).1 (spec t i).1 ∧ f (impl s i).2 = f (spec t i).2 ∧
      ((impl s i).2 = (spec t i).2 ↔ ok t i)) :
    ∀ is s t, R s t → (∀ i ∈ is, D i) → R (runSpec impl s is).1 (runSpec spec t is).1 ∧
      (runSpec impl s is).2.map f = (runSpec spec t is).2.map f ∧
      ((runSpec impl s is).2 = (runSpec spec t is).2 ↔ Allowed spec ok t is) := by
  intro is
  induction is with
  | nil => intro s t hR _; exact ⟨hR, rfl, by simp [runSpec, Allowed]⟩
  | cons i is ih =>
    intro s t hR hdom
    obtain ⟨hR1, hf, hiff⟩ := hstep s t i hR (hdom i List.mem_cons_self)
    obtain ⟨hR2, hmap, hrest⟩ := ih _ _ hR1 fun j hj => hdom j (List.mem_cons_of_mem _ hj)
    refine ⟨hR2, ?_, ?_⟩
    · simp only [runSpec, List.map_cons, hf, hmap]
    · simp only [runSpec, Allowed, List.cons.injEq, hiff, hrest]

/-- **Exactly when a device answers as its specification does.** As long as the operations
left `fit`, an operation that meets `ok` refines the specification's and one that does not
gives another answer: then the answers of a whole sequence agree if and only if every
operation of it meets `ok`. -/
theorem agrees_iff {step : σ → ι → Option (σ × ο)} {spec : τ → ι → τ × ο} {ok : σ → ι → Prop}
    {fit : σ → τ → List ι → Prop} {R : σ → τ → Prop}
    (hstep : ∀ s t i is, R s t → fit s t (i :: is) → ok s i →
      ∃ s', step s i = some (s', (spec t i).2) ∧ R s' (spec t i).1 ∧ fit s' (spec t i).1 is)
    (hbad : ∀ s t i is, R s t → fit s t (i :: is) → ¬ ok s i →
      ∀ s' o, step s i = some (s', o) → o ≠ (spec t i).2) :
    ∀ is s t, R s t → fit s t is →
      ((run step s is).map Prod.snd = some (runSpec spec t is).2 ↔ Along step ok s is) := by
  intro is
  induction is with
  | nil => intro s t _ _; simp [run, runSpec, Along]
  | cons i is ih =>
    intro s t hR hfit
    by_cases hok : ok s i
    · obtain ⟨s₁, h1, hR1, hfit1⟩ := hstep s t i is hR hfit hok
      have hrest := ih s₁ _ hR1 hfit1
      have hrun : (run step s (i :: is)).map Prod.snd =
          ((run step s₁ is).map Prod.snd).map ((spec t i).2 :: ·) := by
        simp only [run, h1, Option.bind_some, Option.map_map]
        rfl
      have halong : Along step ok s (i :: is) ↔ Along step ok s₁ is := by
        constructor
        · intro h
          exact h.2 _ _ h1
        · intro h
          refine ⟨hok, ?_⟩
          intro s' o hs
          rw [h1, Option.some.injEq, Prod.mk.injEq] at hs
          rwa [← hs.1]
      rw [halong, ← hrest, hrun]
      cases (run step s₁ is).map Prod.snd with
      | none => simp
      | some os => simp [runSpec]
    · constructor
      · intro h
        -- the answer of this operation is not the specification's
        obtain ⟨r, hr, hos⟩ := Option.map_eq_some_iff.1 h
        simp only [run] at hr
        obtain ⟨p, hp, hr⟩ := Option.bind_eq_some_iff.1 hr
        obtain ⟨r', -, hr'⟩ := Option.map_eq_some_iff.1 hr
        rw [← hr'] at hos
        injection hos with hans
        exact absurd hans (hbad s t i is hR hfit hok p.1 p.2 hp)
      · intro h
        exact absurd h.1 hok

section Drain

variable {α : Type*} {pop : σ → σ × Option α}

/-- Pop until nothing comes; none if that is not seen in `fuel` pops. -/
def drain (pop : σ → σ × Option α) : ℕ → σ → Option (List α)
  | 0, _ => none
  | fuel + 1, s =>
    match (pop s).2 with
    | none => some []
    | some x => (drain pop fuel (pop s).1).map (x :: ·)

/-- **Draining a device that pops from a list** gives the list. -/
theorem drain_eq {R : σ → List α → Prop}
    (hstep : ∀ s q, R s q → (pop s).2 = q.head? ∧ R (pop s).1 q.tail) :
    ∀ q s fuel, R s q → q.length < fuel → drain pop fuel s = some q := by
  intro q
  induction q with
  | nil =>
    intro s fuel hR hfuel
    obtain ⟨fuel, rfl⟩ := Nat.exists_eq_succ_of_ne_zero (Nat.ne_of_gt hfuel)
    have hnone : (pop s).2 = none := (hstep s [] hR).1
    simp only [drain, hnone]
  | cons x q ih =>
    intro s fuel hR hfuel
    obtain ⟨fuel, rfl⟩ := Nat.exists_eq_succ_of_ne_zero (Nat.ne_of_gt (Nat.zero_lt_of_lt hfuel))
    obtain ⟨hx, hR'⟩ := hstep s (x :: q) hR
    have hsome : (pop s).2 = some x := hx
    simp only [drain, hsome]
    rw [ih (pop s).1 fuel hR' (Nat.lt_of_succ_lt_succ hfuel), Option.map_some]

end Drain

end Device
