import Cutils.Lib.Count
import Cutils.Lib.History
import Cutils.Lib.Simulation

/-!
# Objects behind a mutex

A call of a monitor locks the mutex, goes through a section of small steps on the object, unlocks, and goes on without
the object. A lock attempt may fail while the mutex is held, and the call then goes on as if it had it (`lockFails`);
the unlock frees the mutex whoever holds it.

`Monitor.Whole` says that a section that runs by itself does what a whole call does; `rest` is what is left of it to do.

* `Monitor.linearizable`: in every run in which no lock attempt fails, sections in steps are as good as whole calls.
-/

open History

/-- `enter`: where the section of a call begins. `step`: one of its steps, none at its end. `leave`: the call's answer. -/
structure Monitor (σ ι κ ο : Type*) where
  enter : ι → κ
  step : σ → κ → Option (σ × κ)
  leave : κ → ο

namespace Monitor

variable {σ ι κ ο : Type*}

/-- Where a call is: before its lock, in its section, past its unlock, or back. -/
inductive Pc (κ ο : Type*)
  | lock
  | inside (k : κ)
  | outside (answer : ο)
  | returned (answer : ο)
  deriving DecidableEq, Repr

/-- The answer of a call that is back. -/
def Pc.back {κ ο : Type*} : Pc κ ο → Option ο
  | .returned answer => some answer
  | _ => none

structure Call (ι κ ο : Type*) where
  request : ι
  pc : Pc κ ο
  deriving DecidableEq, Repr

structure Threads (σ ι κ ο : Type*) where
  object : σ
  owner : Option ℕ
  calls : List (Call ι κ ο)

inductive Act (ι : Type*)
  | call (request : ι)
  | lock (i : ℕ)
  | lockFails (i : ℕ)
  | run (i : ℕ)

namespace Threads

variable (M : Monitor σ ι κ ο) (s : Threads σ ι κ ο)

def setPc (i : ℕ) (c : Call ι κ ο) (pc : Pc κ ο) : Threads σ ι κ ο :=
  { s with calls := s.calls.set i { c with pc := pc } }

@[simp] theorem setPc_owner (i : ℕ) (c : Call ι κ ο) (pc : Pc κ ο) : (s.setPc i c pc).owner = s.owner := rfl

/-- The next step of call `i`, in its section or past it. -/
def runStep (i : ℕ) (c : Call ι κ ο) : Option (Threads σ ι κ ο) :=
  match c.pc with
  | .inside k =>
    match M.step s.object k with
    | some (object, k') => some { s.setPc i c (.inside k') with object := object }
    | none => some { s.setPc i c (.outside (M.leave k)) with owner := none }
  | .outside answer => some (s.setPc i c (.returned answer))
  | _ => none

def lockStep (i : ℕ) (c : Call ι κ ο) : Option (Threads σ ι κ ο) :=
  match c.pc, s.owner with
  | .lock, none => some { s.setPc i c (.inside (M.enter c.request)) with owner := some i }
  | _, _ => none

def lockFailsStep (i : ℕ) (c : Call ι κ ο) : Option (Threads σ ι κ ο) :=
  match c.pc, s.owner with
  | .lock, some _ => some (s.setPc i c (.inside (M.enter c.request)))
  | _, _ => none

def step : Act ι → Option (Threads σ ι κ ο)
  | .call request => some { s with calls := s.calls ++ [⟨request, .lock⟩] }
  | .lock i => s.calls[i]?.bind (s.lockStep M i)
  | .lockFails i => s.calls[i]?.bind (s.lockFailsStep M i)
  | .run i => s.calls[i]?.bind (s.runStep M i)

/-- **No lock attempt fails.** -/
def LockWorks (_ : Threads σ ι κ ο) : Act ι → Prop
  | .lockFails _ => False
  | _ => True

instance : (a : Act ι) → Decidable (s.LockWorks a)
  | .call _ | .lock _ | .run _ => .isTrue trivial
  | .lockFails _ => .isFalse id

/-- What call `i` adds to the history in a step. -/
def events (i : ℕ) (c : Call ι κ ο) : List (Event ι (ι × ο) ο) :=
  match c.pc with
  | .inside k =>
    match M.step s.object k with
    | some _ => []
    | none => [.effect i (c.request, M.leave k)]
  | .outside answer => [.returned i answer]
  | _ => []

/-- The history goes on with a step. -/
def note (a : Act ι) (_ : Threads σ ι κ ο) (h : List (Event ι (ι × ο) ο)) : List (Event ι (ι × ο) ο) :=
  match a with
  | .call request => h ++ [.invoked s.calls.length request]
  | .run i => h ++ ((s.calls[i]?).map (s.events M i)).getD []
  | _ => h

end Threads

/-- Any number of calls at an object that starts as `s₀`. -/
def system (M : Monitor σ ι κ ο) (s₀ : σ) : Sys.System (Threads σ ι κ ο) (Act ι) :=
  ⟨fun s => s = ⟨s₀, none, []⟩, Threads.step M⟩

/-- The same, with the history of the calls. -/
abbrev watched (M : Monitor σ ι κ ο) (s₀ : σ) :
    Sys.System (Threads σ ι κ ο × List (Event ι (ι × ο) ο)) (Act ι) :=
  (M.system s₀).recorded [] (Threads.note M)

/-- **Sections are whole calls**: `rest` is what is left to do from inside a section. -/
structure Whole (M : Monitor σ ι κ ο) (call : σ → ι → σ × ο) where
  rest : σ → κ → σ × ο
  enter : ∀ s x, rest s (M.enter x) = call s x
  step : ∀ {s s' k k'}, M.step s k = some (s', k') → rest s' k' = rest s k
  leave : ∀ {s k}, M.step s k = none → rest s k = (s, M.leave k)

/-- An effect is a whole call, with its answer. -/
def does (call : σ → ι → σ × ο) (s : σ) (e : ι × ο) (s' : σ) : Prop := call s e.1 = (s', e.2)

/-- What a history says of call `i`. -/
def Told (h : List (Event ι (ι × ο) ο)) (i : ℕ) (c : Call ι κ ο) : Prop :=
  match c.pc with
  | .lock | .inside _ => ofCall i h = [.invoked i c.request]
  | .outside answer => ofCall i h = [.invoked i c.request, .effect i (c.request, answer)]
  | .returned answer =>
    ofCall i h = [.invoked i c.request, .effect i (c.request, answer), .returned i answer]

namespace Threads

variable {M : Monitor σ ι κ ο} {call : σ → ι → σ × ο} {s₀ t : σ} {s s' : Threads σ ι κ ο} {a : Act ι}
  {h : List (Event ι (ι × ο) ο)} {i : ℕ} {c : Call ι κ ο}

/-- The object is what the effects led to, or on its way to what the call that has the mutex will have it be. -/
def Stands (W : Whole M call) (s : Threads σ ι κ ο) (t : σ) : Prop :=
  match s.owner with
  | none => s.object = t
  | some i => ∃ c k, s.calls[i]? = some c ∧ c.pc = .inside k ∧ W.rest s.object k = call t c.request

/-- **The invariant.** -/
structure Linear (W : Whole M call) (s₀ : σ) (s : Threads σ ι κ ο) (h : List (Event ι (ι × ο) ο)) : Prop where
  leads : ∃ t, Leads (does call) s₀ h t ∧ s.Stands W t
  owner : ∀ i c k, s.calls[i]? = some c → c.pc = .inside k → s.owner = some i
  told : ∀ i c, s.calls[i]? = some c → Told h i c
  fresh : ∀ i, s.calls.length ≤ i → ofCall i h = []

/-- What is told of a call does not change with the events of others. -/
theorem told_append {es : List (Event ι (ι × ο) ο)} (ht : Told h i c) (hes : ofCall i es = []) : Told (h ++ es) i c := by
  have hof : ofCall i (h ++ es) = ofCall i h := by rw [ofCall_append, hes, List.append_nil]
  unfold Told at *
  rw [hof]
  exact ht

variable {W : Whole M call}

/-- Call `i` moves, with events of its own. -/
theorem Linear.move (hL : Linear W s₀ s h) (hc : s.calls[i]? = some c) {pc : Pc κ ο} {object : σ} {owner : Option ℕ}
    {es : List (Event ι (ι × ο) ο)} (hes : ∀ j, j ≠ i → ofCall j es = [])
    (hleads : ∃ t, Leads (does call) s₀ (h ++ es) t ∧
      Stands W { s.setPc i c pc with object := object, owner := owner } t)
    (hself : ∀ k, pc = .inside k → owner = some i)
    (hother : ∀ j d k, j ≠ i → s.calls[j]? = some d → d.pc = .inside k → owner = some j)
    (htold : Told (h ++ es) i { c with pc := pc }) :
    Linear W s₀ { s.setPc i c pc with object := object, owner := owner } (h ++ es) := by
  refine ⟨hleads, ?_, ?_, ?_⟩
  · intro j d k hd hk
    rcases List.get_set hd with ⟨rfl, rfl⟩ | ⟨hj, hd⟩
    · exact hself k hk
    · exact hother j d k hj hd hk
  · intro j d hd
    rcases List.get_set hd with ⟨rfl, rfl⟩ | ⟨hj, hd⟩
    · exact htold
    · exact told_append (hL.told j d hd) (hes j hj)
  · intro j hj
    have hlen : s.calls.length ≤ j := by
      have hlen : (s.calls.set i _).length ≤ j := hj
      rwa [List.length_set] at hlen
    have hne : j ≠ i := by
      rintro rfl
      exact absurd (List.getElem?_eq_some_iff.1 hc).1 (Nat.not_lt.2 hlen)
    rw [ofCall_append, hL.fresh j hlen, hes j hne]
    rfl

theorem linear_init (W : Whole M call) (s₀ : σ) : Linear W s₀ ⟨s₀, none, []⟩ [] :=
  ⟨⟨s₀, .nil, rfl⟩, nofun, nofun, fun _ _ => rfl⟩

/-- A new call. -/
theorem Linear.begin (hL : Linear W s₀ s h) (request : ι) :
    Linear W s₀ { s with calls := s.calls ++ [⟨request, .lock⟩] } (h ++ [.invoked s.calls.length request]) := by
  obtain ⟨⟨t, hl, hst⟩, howner, htold, hfresh⟩ := hL
  refine ⟨⟨t, hl.invoked _ _, ?_⟩, ?_, ?_, ?_⟩
  · unfold Stands at *
    dsimp only
    cases ho : s.owner with
    | none =>
      rw [ho] at hst
      exact hst
    | some i =>
      rw [ho] at hst
      obtain ⟨c, k, hc, hrest⟩ := hst
      exact ⟨c, k, by rw [List.getElem?_append_left (List.getElem?_eq_some_iff.1 hc).1]; exact hc, hrest⟩
  · intro j d k hd hk
    rcases List.get_append_singleton hd with ⟨-, rfl⟩ | hd
    · cases hk
    · exact howner j d k hd hk
  · intro j d hd
    rcases List.get_append_singleton hd with ⟨rfl, rfl⟩ | hd
    · show ofCall _ (h ++ _) = _
      rw [ofCall_append, hfresh _ (Nat.le_refl _), ofCall_invoked]
      rfl
    · refine told_append (htold j d hd) (ofCall_other ?_)
      exact Nat.ne_of_gt (List.getElem?_eq_some_iff.1 hd).1
  · intro j hj
    have hj : s.calls.length + 1 ≤ j := by
      have hlen : (s.calls ++ [_]).length ≤ j := hj
      rwa [List.length_append] at hlen
    rw [ofCall_append, hfresh j (Nat.le_of_succ_le hj), ofCall_other (Nat.ne_of_lt hj)]
    rfl

/-- A call takes the mutex. -/
theorem Linear.lock (hL : Linear W s₀ s h) (hc : s.calls[i]? = some c) (hpc : c.pc = .lock) (ho : s.owner = none) :
    Linear W s₀ { s.setPc i c (.inside (M.enter c.request)) with owner := some i } h := by
  obtain ⟨t, hl, hst⟩ := hL.leads
  unfold Stands at hst
  rw [ho] at hst
  have htold := hL.told i c hc
  rw [← List.append_nil h] at hl htold ⊢
  refine hL.move hc (fun _ _ => rfl) ⟨t, hl, _, _, List.get_set_self hc, rfl, ?_⟩ (fun _ _ => rfl) ?_ ?_
  · have hst : s.object = t := hst
    rw [← hst]
    exact W.enter s.object c.request
  · intro j d k _ hd hk
    have hj := hL.owner j d k hd hk
    rw [ho] at hj
    cases hj
  · unfold Told at *
    rw [hpc] at htold
    exact htold

/-- A call goes on in its section. -/
theorem Linear.inside (hL : Linear W s₀ s h) (hc : s.calls[i]? = some c) {k k' : κ} {object : σ}
    (hpc : c.pc = .inside k) (hs : M.step s.object k = some (object, k')) :
    Linear W s₀ { s.setPc i c (.inside k') with object := object } h := by
  have ho := hL.owner i c k hc hpc
  obtain ⟨t, hl, hst⟩ := hL.leads
  unfold Stands at hst
  rw [ho] at hst
  obtain ⟨c', k₀, hc', hpc', hrest⟩ := hst
  obtain rfl := Option.some.inj (hc.symm.trans hc')
  obtain rfl : k = k₀ := Pc.inside.inj (hpc.symm.trans hpc')
  have htold := hL.told i c hc
  rw [← List.append_nil h] at hl htold ⊢
  refine hL.move hc (fun _ _ => rfl) ⟨t, hl, ?_⟩ (fun _ _ => ho) (fun j d k _ hd hk => hL.owner j d k hd hk) ?_
  · unfold Stands
    rw [setPc_owner, ho]
    exact ⟨_, _, List.get_set_self hc, rfl, (W.step hs).trans hrest⟩
  · unfold Told at *
    rw [hpc] at htold
    exact htold

/-- A call takes effect as it unlocks. -/
theorem Linear.unlock (hL : Linear W s₀ s h) (hc : s.calls[i]? = some c) {k : κ} (hpc : c.pc = .inside k)
    (hs : M.step s.object k = none) :
    Linear W s₀ { s.setPc i c (.outside (M.leave k)) with owner := none }
      (h ++ [.effect i (c.request, M.leave k)]) := by
  have ho := hL.owner i c k hc hpc
  obtain ⟨t, hl, hst⟩ := hL.leads
  unfold Stands at hst
  rw [ho] at hst
  obtain ⟨c', k₀, hc', hpc', hrest⟩ := hst
  obtain rfl := Option.some.inj (hc.symm.trans hc')
  obtain rfl : k = k₀ := Pc.inside.inj (hpc.symm.trans hpc')
  have hdoes : does call t (c.request, M.leave k) s.object := hrest.symm.trans (W.leave hs)
  have htold := hL.told i c hc
  refine hL.move hc (fun j hj => ofCall_other (Ne.symm hj)) ⟨s.object, hl.effect i _ hdoes, rfl⟩ nofun ?_ ?_
  · intro j d k' hj hd hk
    exact absurd (Option.some.inj (ho.symm.trans (hL.owner j d k' hd hk))) (Ne.symm hj)
  · unfold Told at *
    rw [hpc] at htold
    show ofCall i (h ++ _) = _
    rw [ofCall_append, htold, ofCall_effect]
    rfl

/-- A call returns. -/
theorem Linear.finish (hL : Linear W s₀ s h) (hc : s.calls[i]? = some c) {answer : ο} (hpc : c.pc = .outside answer) :
    Linear W s₀ (s.setPc i c (.returned answer)) (h ++ [.returned i answer]) := by
  obtain ⟨t, hl, hst⟩ := hL.leads
  have htold := hL.told i c hc
  refine hL.move hc (fun j hj => ofCall_other (Ne.symm hj)) ⟨t, hl.returned i _, ?_⟩ nofun
    (fun j d k _ hd hk => hL.owner j d k hd hk) ?_
  · unfold Stands at *
    dsimp only
    cases ho : s.owner with
    | none =>
      rw [ho] at hst
      exact hst
    | some j =>
      rw [ho] at hst
      obtain ⟨d, k, hd, hk, hrest⟩ := hst
      have hne : i ≠ j := by
        rintro rfl
        rw [Option.some.inj (hc.symm.trans hd), hk] at hpc
        cases hpc
      exact ⟨d, k, (List.getElem?_set_ne hne).trans hd, hk, hrest⟩
  · unfold Told at *
    rw [hpc] at htold
    show ofCall i (h ++ _) = _
    rw [ofCall_append, htold, ofCall_returned]
    rfl

/-- **One step** keeps the invariant. -/
theorem step_linear (hL : Linear W s₀ s h) (hok : s.LockWorks a) (hs : s.step M a = some s') :
    Linear W s₀ s' (note M s a s' h) := by
  cases a with
  | call request =>
    obtain rfl := Option.some.inj hs
    exact hL.begin request
  | lock i =>
    obtain ⟨c, hc, hs⟩ := Option.bind_eq_some_iff.1 hs
    unfold lockStep at hs
    split at hs
    · rename_i hpc ho
      obtain rfl := Option.some.inj hs
      exact hL.lock hc hpc ho
    · cases hs
  | lockFails i => exact hok.elim
  | run i =>
    obtain ⟨c, hc, hs⟩ := Option.bind_eq_some_iff.1 hs
    have hnote : note M s (.run i) s' h = h ++ s.events M i c := by simp only [note, hc, Option.map_some, Option.getD_some]
    rw [hnote]
    unfold runStep at hs
    unfold events
    cases hpc : c.pc with
    | inside k =>
      rw [hpc] at hs
      dsimp only at hs ⊢
      cases hstep : M.step s.object k with
      | some r =>
        rw [hstep] at hs
        obtain rfl := Option.some.inj hs
        rw [List.append_nil]
        exact hL.inside hc hpc hstep
      | none =>
        rw [hstep] at hs
        obtain rfl := Option.some.inj hs
        exact hL.unlock hc hpc hstep
    | outside answer =>
      rw [hpc] at hs
      obtain rfl := Option.some.inj hs
      exact hL.finish hc hpc
    | lock | returned answer =>
      rw [hpc] at hs
      cases hs

end Threads

/-- **Linearizability.** In every run in which no lock attempt fails: the effects of the calls, each a whole call with
its answer, lead to what the object is whenever the mutex is free; one call at a time is in its section; and each call
takes effect once, between its invocation and its return, with the answer that it returns. -/
theorem linearizable {M : Monitor σ ι κ ο} {call : σ → ι → σ × ο} (W : Whole M call) {s₀ : σ}
    {p : Threads σ ι κ ο × List (Event ι (ι × ο) ο)}
    (hr : Sys.Reach (M.watched s₀) (Sys.onState Threads.LockWorks) p) : Threads.Linear W s₀ p.1 p.2 := by
  refine Sys.Reach.recorded_inv ?_ ?_ hr
  · rintro s rfl
    exact Threads.linear_init W s₀
  · intro s h a s' _ hL hok hs
    exact Threads.step_linear hL hok hs

end Monitor
