import Cutils.Lib.Count
import Cutils.Lib.History
import Cutils.Lib.Simulation
import Cutils.Proof.EventFlagPorts
import Cutils.Spec.EventFlagThreads

/-!
# An event flag with threads is one whose calls are whole

A history of a flag has its calls as they are made, with what the caller's variable holds, as they take effect, in the
way that `reference` has it, and as they return. `Told` is what it says of a call. `Trans` lists what a step can do
(`step_trans`). A flag word that loses flags meets no wait that it did not meet before (`satisfied_and`), and one that
gets flags comes with a broadcast, so that no thread sleeps whose flags are set.

* `event_flag_linearizable`: every run is one of whole calls, and nobody sleeps past a send.
* `signal_waits_le_sends`: of a signal, no more waits succeed than there are sends.
-/

namespace Cutils.EventFlag

open History
open TsQueue (Timespec WAIT_FOREVER Rval)

/-- The call, with what the caller's variable holds. -/
def Request.op (actual : Option UInt32) : Request → Op
  | .send flagBits => .send flagBits
  | .clear flagBits => .clear flagBits
  | .wait requiredFlags waitType _ => .wait requiredFlags waitType actual 0

/-- What the caller sees of a call that succeeds; only a wait has a variable. -/
def Request.obs (actual : Option UInt32) : Request → Obs
  | .wait _ _ _ => ⟨true, actual⟩
  | _ => ⟨true, none⟩

/-- It is a wait, and its flags are not set. -/
def Request.unmet (val : UInt32) : Request → Prop
  | .wait requiredFlags waitType _ => satisfied val requiredFlags waitType = false
  | _ => False

abbrev Event := History.Event (Request × Option UInt32) (Op × Obs) Bool

/-- An effect on the flag word: what the call means, with success. -/
def does (val : UInt32) (e : Op × Obs) (val' : UInt32) : Prop := reference val e.1 = (val', e.2) ∧ e.2.retval = true

/-- The call that makes a step. -/
def Act.caller : Act → Option ℕ
  | .call .. => none
  | .lock i _ | .lockTimeout i _ | .acquire i | .run i _ | .wake i | .timeout i _ => some i

/-- Under the mutex. -/
def Pc.locked : Pc → Bool
  | .critical | .unlock _ => true
  | _ => false

/-- What call `i` adds to the history when it becomes `c'`. -/
def Call.events (i : ℕ) (c c' : Call) : List Event :=
  match c.pc, c'.pc with
  | .critical, .unlock true => [.effect i (c.request.op c.actual, c.request.obs c'.actual)]
  | .returned _, _ => []
  | _, .returned retval => [.returned i retval]
  | _, _ => []

namespace Threads

/-- The history after a step. -/
def note (s : Threads) (a : Act) (s' : Threads) (h : List Event) : List Event :=
  match a with
  | .call request actual _ => h ++ [.invoked s.calls.length (request, actual)]
  | a => match (a.caller).bind fun i => (s.calls[i]?).bind fun c => (s'.calls[i]?).map fun c' => c.events i c' with
    | some es => h ++ es
    | none => h

/-- Threads at a flag, with the history of their calls. -/
def watched : Sys.System (Threads × List Event) Act := system.recorded [] note

end Threads

/-- At a moment since it was made, the flags of call `i` were not set. -/
def Missed (h : List Event) (i : ℕ) (c : Call) : Prop := During does 0 h i (c.request, c.actual) c.request.unmet

/-- **What a history says of call `i`**, at a flag whose word is `val`. -/
def Told (val : UInt32) (h : List Event) (i : ℕ) (c : Call) : Prop :=
  match c.pc with
  | .unlock true => ∃ actual, ofCall i h =
      [.invoked i (c.request, actual), .effect i (c.request.op actual, c.request.obs c.actual)]
  | .returned true => ∃ actual, ofCall i h =
      [.invoked i (c.request, actual), .effect i (c.request.op actual, c.request.obs c.actual), .returned i true]
  | .returned false => ofCall i h = [.invoked i (c.request, c.actual), .returned i false]
  -- a thread that sleeps has nothing to wake up for
  | .waiting _ => ofCall i h = [.invoked i (c.request, c.actual)] ∧ Missed h i c ∧ c.request.unmet val
  | .waking _ | .unlock false => ofCall i h = [.invoked i (c.request, c.actual)] ∧ Missed h i c
  | .lock | .locking | .critical => ofCall i h = [.invoked i (c.request, c.actual)]

/-- A word that loses flags meets no more. -/
theorem satisfied_and {val requiredFlags : UInt32} {waitType : WaitType} (mask : UInt32)
    (h : satisfied val requiredFlags waitType = false) : satisfied (val &&& mask) requiredFlags waitType = false := by
  have hswap : val &&& mask &&& requiredFlags = val &&& requiredFlags &&& mask := by
    rw [UInt32.and_assoc, UInt32.and_comm mask, ← UInt32.and_assoc]
  cases waitType with
  | waitOr | waitOrClear =>
    simp only [satisfied, bne_eq_false_iff_eq] at h ⊢
    rw [hswap, h, UInt32.zero_and]
  | waitAnd | waitAndClear =>
    simp only [satisfied, beq_eq_false_iff_ne] at h ⊢
    intro hall
    refine h ?_
    -- all of the flags are among those of the smaller word
    calc val &&& requiredFlags = val &&& (val &&& mask &&& requiredFlags) := by rw [hall]
      _ = val &&& mask &&& requiredFlags := by rw [← UInt32.and_assoc, ← UInt32.and_assoc, UInt32.and_self]
      _ = requiredFlags := hall

theorem Request.unmet_and {request : Request} {val : UInt32} (mask : UInt32) (h : request.unmet val) :
    request.unmet (val &&& mask) := by
  cases request with
  | wait requiredFlags waitType waitMs => exact satisfied_and mask h
  | _ => exact h.elim

namespace Threads

variable {s s' : Threads} {a : Act} {i : ℕ} {c : Call} {now ts : Timespec}

/-- The moves of a call that do not touch the word, and have no event. -/
inductive Quiet : Act → Pc → Pc → Prop
  | lock (a : Act) : Quiet a .lock .critical
  | block (a : Act) : Quiet a .lock .locking
  | acquire (a : Act) : Quiet a .locking .critical
  | resume (a : Act) : Quiet a (.waking .zero) .critical
  | expire (a : Act) (rval : Rval) (hr : rval ≠ .zero) : Quiet a (.waking rval) (.unlock false)
  | wake (i : ℕ) (abstime : Option Timespec) : Quiet (.wake i) (.waiting abstime) (.waking .zero)
  | timeout (i : ℕ) (now : Timespec) (abstime : Option Timespec) :
      Quiet (.timeout i now) (.waiting abstime) (.waking .timedOut)

/-- Everything a step can do. -/
inductive Trans (s : Threads) : Act → Threads → Prop
  | call (request : Request) (actual : Option UInt32) (ts : Timespec) :
      Trans s (.call request actual ts) { s with calls := s.calls ++ [⟨request, entryTs ts request, actual, .lock⟩] }
  | quiet (a : Act) (i : ℕ) (c : Call) (pc : Pc) (owner : Option ℕ) (ha : a.caller = some i) (hc : s.calls[i]? = some c)
      (hpc : Quiet a c.pc pc) (ho : pc.locked = true → s.owner = none ∧ owner = some i)
      (ho' : pc.locked = false → owner = s.owner) : Trans s a { s.setCall i c pc with owner := owner }
  | refuse (a : Act) (i : ℕ) (c : Call) (ha : a.caller = some i) (hc : s.calls[i]? = some c)
      (hpc : c.pc = .lock ∨ c.pc = .locking) : Trans s a (s.setCall i c (.returned false))
  | send (i : ℕ) (ts : Timespec) (c : Call) (flagBits : UInt32) (hc : s.calls[i]? = some c) (hpc : c.pc = .critical)
      (hr : c.request = .send flagBits) :
      Trans s (.run i ts) (broadcast { s.setCall i c (.unlock true) with val := pthreadSend s.val flagBits })
  | clear (i : ℕ) (ts : Timespec) (c : Call) (flagBits : UInt32) (hc : s.calls[i]? = some c) (hpc : c.pc = .critical)
      (hr : c.request = .clear flagBits) :
      Trans s (.run i ts) { s.setCall i c (.unlock true) with val := pthreadClear s.val flagBits }
  | met (i : ℕ) (ts : Timespec) (c : Call) (requiredFlags : UInt32) (waitType : WaitType) (waitMs : UInt32)
      (hc : s.calls[i]? = some c) (hpc : c.pc = .critical) (hr : c.request = .wait requiredFlags waitType waitMs)
      (hmet : satisfied s.val requiredFlags waitType = true) :
      Trans s (.run i ts) { s.setCall i { c with actual := report c.actual (s.val &&& requiredFlags) } (.unlock true) with
        val := if waitType.clears then s.val &&& ~~~(s.val &&& requiredFlags) else s.val }
  | sleep (i : ℕ) (ts : Timespec) (c : Call) (abstime : Option Timespec) (hc : s.calls[i]? = some c)
      (hpc : c.pc = .critical) (hmiss : c.request.unmet s.val) :
      Trans s (.run i ts) { s.setCall i c (.waiting abstime) with owner := none }
  | inval (i : ℕ) (ts : Timespec) (c : Call) (hc : s.calls[i]? = some c) (hpc : c.pc = .critical)
      (hmiss : c.request.unmet s.val) : Trans s (.run i ts) (s.setCall i c (.unlock false))
  | unlock (i : ℕ) (ts : Timespec) (c : Call) (retval : Bool) (hc : s.calls[i]? = some c) (hpc : c.pc = .unlock retval) :
      Trans s (.run i ts) { s.setCall i c (.returned retval) with owner := none }

theorem lock_trans (ha : a.caller = some i) (hc : s.calls[i]? = some c) (hs : s.lockStep i c now = some s') :
    Trans s a s' := by
  unfold lockStep at hs
  cases hpc : c.pc with
  | lock =>
    have hblock : Trans s a (s.setCall i c .locking) :=
      .quiet a i c .locking s.owner ha hc (hpc ▸ .block a) nofun fun _ => rfl
    have hrefuse : Trans s a (s.setCall i c (.returned false)) := .refuse a i c ha hc (.inl hpc)
    simp only [hpc] at hs
    split at hs
    · rename_i ho
      simp only [Option.some.injEq] at hs; subst hs
      exact .quiet a i c .critical (some i) ha hc (hpc ▸ .lock a) (fun _ => ⟨ho, rfl⟩) nofun
    · simp only [Option.some.injEq] at hs; subst hs
      -- the mutex is held
      unfold lockHeld
      split
      · exact hblock
      · exact hblock
      · split
        · exact hrefuse
        · split
          · exact hrefuse
          · exact hblock
  | _ => simp [hpc] at hs

theorem acquire_trans (hc : s.calls[i]? = some c) (hs : s.acquireStep i c = some s') : Trans s (.acquire i) s' := by
  unfold acquireStep at hs
  split at hs
  · rename_i ho
    split at hs
    · rename_i hpc
      simp only [Option.some.injEq] at hs; subst hs
      exact .quiet _ i c .critical (some i) rfl hc (hpc ▸ .acquire _) (fun _ => ⟨ho, rfl⟩) nofun
    · rename_i hpc
      simp only [Option.some.injEq] at hs; subst hs
      exact .quiet _ i c .critical (some i) rfl hc (hpc ▸ .resume _) (fun _ => ⟨ho, rfl⟩) nofun
    · rename_i rval hr hpc
      simp only [Option.some.injEq] at hs; subst hs
      exact .quiet _ i c (.unlock false) (some i) rfl hc (hpc ▸ .expire _ rval (by rintro rfl; exact hr rfl))
        (fun _ => ⟨ho, rfl⟩) nofun
    · cases hs
  · cases hs

theorem loop_trans (hc : s.calls[i]? = some c) (hpc : c.pc = .critical) {requiredFlags waitMs : UInt32}
    {waitType : WaitType} (hr : c.request = .wait requiredFlags waitType waitMs) :
    Trans s (.run i ts) (s.loopStep i c requiredFlags waitType waitMs ts) := by
  unfold loopStep
  simp only [checkFlags_eq, waited]
  by_cases hsat : satisfied s.val requiredFlags waitType = true
  · simp only [hsat, if_true]
    exact .met i ts c requiredFlags waitType waitMs hc hpc hr hsat
  · have hmiss : c.request.unmet s.val := by
      rw [hr]
      exact Bool.eq_false_iff.2 hsat
    simp only [hsat, Bool.false_eq_true, if_false]
    split
    · split
      · exact .sleep i ts c _ hc hpc hmiss
      · exact .inval i ts c hc hpc hmiss
    · exact .sleep i ts c none hc hpc hmiss

theorem run_trans (hc : s.calls[i]? = some c) (hs : s.runStep i c ts = some s') : Trans s (.run i ts) s' := by
  unfold runStep at hs
  cases hpc : c.pc with
  | critical =>
    simp only [hpc] at hs
    split at hs
    · rename_i flagBits hr
      simp only [Option.some.injEq] at hs; subst hs
      exact .send i ts c flagBits hc hpc hr
    · rename_i flagBits hr
      simp only [Option.some.injEq] at hs; subst hs
      exact .clear i ts c flagBits hc hpc hr
    · rename_i hr
      simp only [Option.some.injEq] at hs; subst hs
      exact loop_trans hc hpc hr
  | unlock retval =>
    simp only [hpc, Option.some.injEq] at hs; subst hs
    exact .unlock i ts c retval hc hpc
  | _ => simp [hpc] at hs

/-- **Every step is one of these.** -/
theorem step_trans (hs : s.step a = some s') : Trans s a s' := by
  cases a with
  | call request actual ts =>
    simp only [step] at hs
    split at hs
    · simp only [Option.some.injEq] at hs; subst hs
      exact .call request actual ts
    · cases hs
  | lock i now =>
    simp only [step] at hs
    split at hs
    · obtain ⟨c, hc, hs⟩ := Option.bind_eq_some_iff.1 hs
      exact lock_trans rfl hc hs
    · cases hs
  | lockTimeout i now =>
    simp only [step] at hs
    split at hs
    · obtain ⟨c, hc, hs⟩ := Option.bind_eq_some_iff.1 hs
      unfold lockTimeoutStep at hs
      split at hs
      · rename_i hpc hr
        split at hs
        · simp only [Option.some.injEq] at hs; subst hs
          exact .refuse _ i c rfl hc (.inr hpc)
        · cases hs
      · cases hs
    · cases hs
  | acquire i =>
    obtain ⟨c, hc, hs⟩ := Option.bind_eq_some_iff.1 hs
    exact acquire_trans hc hs
  | run i ts =>
    simp only [step] at hs
    split at hs
    · obtain ⟨c, hc, hs⟩ := Option.bind_eq_some_iff.1 hs
      exact run_trans hc hs
    · cases hs
  | wake i =>
    obtain ⟨c, hc, hs⟩ := Option.bind_eq_some_iff.1 hs
    unfold wakeStep at hs
    split at hs
    · rename_i abstime hpc
      simp only [Option.some.injEq] at hs; subst hs
      exact .quiet _ i c (.waking .zero) s.owner rfl hc (hpc ▸ .wake i abstime) nofun fun _ => rfl
    · cases hs
  | timeout i now =>
    simp only [step] at hs
    split at hs
    · obtain ⟨c, hc, hs⟩ := Option.bind_eq_some_iff.1 hs
      unfold timeoutStep at hs
      split at hs
      · rename_i abstime hpc
        split at hs
        · simp only [Option.some.injEq] at hs; subst hs
          exact .quiet _ i c (.waking .timedOut) s.owner rfl hc (hpc ▸ .timeout i now _) nofun fun _ => rfl
        · cases hs
      · cases hs
    · cases hs

end Threads

/-- What is told of a call does not change with the events of others, and with the word only if the call sleeps. -/
theorem Told.append {val val' : UInt32} {h es : List Event} {i : ℕ} {c : Call} (ht : Told val h i c)
    (hes : ofCall i es = []) (hval : ∀ abstime, c.pc = .waiting abstime → c.request.unmet val → c.request.unmet val') :
    Told val' (h ++ es) i c := by
  have hof : ofCall i (h ++ es) = ofCall i h := by rw [ofCall_append, hes, List.append_nil]
  unfold Told at *
  rw [hof]
  cases hpc : c.pc with
  | waiting abstime =>
    rw [hpc] at ht
    exact ⟨ht.1, ht.2.1.append es, hval abstime hpc ht.2.2⟩
  | waking rval =>
    rw [hpc] at ht
    exact ⟨ht.1, ht.2.append es⟩
  | unlock retval =>
    rw [hpc] at ht
    cases retval with
    | true => exact ht
    | false => exact ⟨ht.1, ht.2.append es⟩
  | returned retval =>
    rw [hpc] at ht
    cases retval <;> exact ht
  | _ =>
    rw [hpc] at ht
    exact ht

/-- A call that is woken. -/
theorem Told.wakeUp {val : UInt32} {h : List Event} {i : ℕ} {c : Call} (ht : Told val h i c) :
    Told val h i c.wakeUp := by
  unfold Call.wakeUp
  cases hpc : c.pc with
  | waiting abstime =>
    unfold Told at ht
    rw [hpc] at ht
    exact ⟨ht.1, ht.2.1⟩
  | _ => exact ht

namespace Threads

variable {s s' : Threads} {h : List Event} {a : Act} {i : ℕ} {c : Call}

/-- **The invariant.** -/
structure Linear (s : Threads) (h : List Event) : Prop where
  word : Leads does 0 h s.val
  owner : ∀ i c, s.calls[i]? = some c → c.pc.locked = true → s.owner = some i
  told : ∀ i c, s.calls[i]? = some c → Told s.val h i c
  fresh : ∀ i, s.calls.length ≤ i → ofCall i h = []

/-- What a step of call `i` adds to the history. -/
theorem note_caller {c' : Call} (ha : a.caller = some i) (hc : s.calls[i]? = some c) (hc' : s'.calls[i]? = some c') :
    note s a s' h = h ++ c.events i c' := by
  cases a with
  | call => cases ha
  | _ =>
    cases ha
    simp only [note, Act.caller, Option.bind_some, hc, hc', Option.map_some]

/-- Call `i` moves, and what it adds to the history is told. -/
theorem Linear.move (hL : Linear s h) (ha : a.caller = some i) (hc : s.calls[i]? = some c) {d : Call}
    (hcalls : s'.calls = s.calls.set i d) {es : List Event} (hev : c.events i d = es)
    (hes : ∀ j, j ≠ i → ofCall j es = []) (hword : Leads does 0 (h ++ es) s'.val)
    (hnew : d.pc.locked = true → s'.owner = some i)
    (hsame : c.pc.locked = true ∨ s.owner = none ∨ s'.owner = s.owner)
    (hval : ∀ (j : ℕ) (e : Call) (abstime : Option Timespec), s.calls[j]? = some e → e.pc = .waiting abstime →
      e.request.unmet s.val → e.request.unmet s'.val) (htold : Told s'.val (h ++ es) i d) : Linear s' (note s a s' h) := by
  have hself : s'.calls[i]? = some d := by rw [hcalls]; exact List.get_set_self hc
  rw [note_caller ha hc hself, hev]
  refine ⟨hword, ?_, ?_, ?_⟩
  · intro j e he hlocked
    rw [hcalls] at he
    rcases List.get_set he with ⟨rfl, rfl⟩ | ⟨hij, he⟩
    · exact hnew hlocked
    · have hown := hL.owner j e he hlocked
      rcases hsame with hsame | hsame | hsame
      · rw [hL.owner i c hc hsame, Option.some.injEq] at hown
        exact absurd hown.symm hij
      · rw [hsame] at hown
        cases hown
      · rw [hsame, hown]
  · intro j e he
    rw [hcalls] at he
    rcases List.get_set he with ⟨rfl, rfl⟩ | ⟨hij, he⟩
    · exact htold
    · exact (hL.told j e he).append (hes j hij) fun abstime => hval j e abstime he
  · intro j hj
    have hlen : s'.calls.length = s.calls.length := by rw [hcalls]; exact List.length_set
    have hij : j ≠ i := by
      rintro rfl
      exact absurd (List.getElem?_eq_some_iff.1 hc).1 (by omega)
    rw [ofCall_append, hL.fresh j (hlen ▸ hj), hes j hij, List.append_nil]

/-- Call `i` moves and adds nothing. -/
theorem Linear.silent (hL : Linear s h) (ha : a.caller = some i) (hc : s.calls[i]? = some c) {d : Call}
    (hcalls : s'.calls = s.calls.set i d) (hev : c.events i d = []) (hword : s'.val = s.val)
    (hnew : d.pc.locked = true → s'.owner = some i)
    (hsame : c.pc.locked = true ∨ s.owner = none ∨ s'.owner = s.owner) (htold : Told s.val h i d) :
    Linear s' (note s a s' h) := by
  refine hL.move ha hc hcalls hev (fun _ _ => rfl) ?_ hnew hsame ?_ ?_
  · rw [List.append_nil, hword]
    exact hL.word
  · intro j e abstime he hpc hmiss
    rwa [hword]
  · rwa [List.append_nil, hword]

/-- **A broadcast** wakes all that sleep. -/
theorem Linear.broadcast (hL : Linear s h) : Linear s.broadcast h ∧
    ∀ (j : ℕ) (e : Call) (abstime : Option Timespec), s.broadcast.calls[j]? = some e → e.pc ≠ .waiting abstime := by
  have hget : ∀ (j : ℕ) (e : Call), s.broadcast.calls[j]? = some e → ∃ d, s.calls[j]? = some d ∧ d.wakeUp = e := by
    intro j e he
    simp only [Threads.broadcast, List.getElem?_map, Option.map_eq_some_iff] at he
    exact he
  refine ⟨⟨hL.word, ?_, ?_, ?_⟩, ?_⟩
  · intro j e he hlocked
    obtain ⟨d, hd, rfl⟩ := hget j e he
    refine hL.owner j d hd ?_
    cases hpc : d.pc with
    | waiting abstime => simp only [Call.wakeUp, hpc] at hlocked; cases hlocked
    | _ => simpa only [Call.wakeUp, hpc] using hlocked
  · intro j e he
    obtain ⟨d, hd, rfl⟩ := hget j e he
    exact (hL.told j d hd).wakeUp
  · intro j hj
    refine hL.fresh j ?_
    simpa [Threads.broadcast] using hj
  · intro j e abstime he hpc
    obtain ⟨d, hd, rfl⟩ := hget j e he
    cases hd' : d.pc with
    | waiting t => simp only [Call.wakeUp, hd'] at hpc; cases hpc
    | _ => simp only [Call.wakeUp, hd'] at hpc; cases hpc

/-- A move that does not touch the word. -/
theorem Linear.quiet {pc : Pc} {owner : Option ℕ} (hL : Linear s h) (ha : a.caller = some i) (hc : s.calls[i]? = some c)
    (hpc : Quiet a c.pc pc) (ho : pc.locked = true → s.owner = none ∧ owner = some i)
    (ho' : pc.locked = false → owner = s.owner) :
    Linear { s.setCall i c pc with owner := owner } (note s a { s.setCall i c pc with owner := owner } h) := by
  have htold := hL.told i c hc
  obtain ⟨request, ts, actual, old⟩ := c
  have hev : (⟨request, ts, actual, old⟩ : Call).events i ⟨request, ts, actual, pc⟩ = [] := by
    cases hpc <;> rfl
  refine hL.silent ha hc rfl hev rfl (fun hlocked => (ho hlocked).2) ?_ ?_
  · cases hlocked : pc.locked with
    | true => exact .inr (.inl (ho hlocked).1)
    | false => exact .inr (.inr (ho' hlocked))
  · cases hpc with
    | lock | block | acquire => exact htold
    | resume => exact htold.1
    | expire => exact htold
    | wake | timeout => exact ⟨htold.1, htold.2.1⟩

/-- A call takes effect. -/
theorem Linear.act (hL : Linear s h) (ha : a.caller = some i) (hc : s.calls[i]? = some c) (hpc : c.pc = .critical)
    (actual : Option UInt32) (hcalls : s'.calls = s.calls.set i { c with actual := actual, pc := .unlock true })
    (howner : s'.owner = s.owner) (hdoes : does s.val (c.request.op c.actual, c.request.obs actual) s'.val)
    (hval : ∀ (j : ℕ) (e : Call) (abstime : Option Timespec), s.calls[j]? = some e → e.pc = .waiting abstime →
      e.request.unmet s.val → e.request.unmet s'.val) : Linear s' (note s a s' h) := by
  have htold := hL.told i c hc
  have hcrit : c.pc.locked = true := by rw [hpc]; rfl
  unfold Told at htold
  rw [hpc] at htold
  have hev : c.events i { c with actual := actual, pc := .unlock true } =
      [.effect i (c.request.op c.actual, c.request.obs actual)] := by
    unfold Call.events
    rw [hpc]
  refine hL.move ha hc hcalls hev (fun j hj => ofCall_other (Ne.symm hj)) (hL.word.effect i _ hdoes)
    (fun _ => howner.trans (hL.owner i c hc hcrit)) (.inl hcrit) hval ⟨c.actual, ?_⟩
  rw [ofCall_append, htold, ofCall_effect]
  rfl

/-- A call that cannot go on sees its flags not set. -/
theorem Linear.miss (hL : Linear s h) (hc : s.calls[i]? = some c) (hpc : c.pc = .critical)
    (hmiss : c.request.unmet s.val) : ofCall i h = [.invoked i (c.request, c.actual)] ∧ Missed h i c := by
  have htold := hL.told i c hc
  unfold Told at htold
  rw [hpc] at htold
  exact ⟨htold, h, [], s.val, (List.append_nil h).symm, htold, hL.word, hmiss⟩

/-- **Every step** keeps the history true. -/
theorem step_linear (hL : Linear s h) (hs : s.step a = some s') : Linear s' (note s a s' h) := by
  cases step_trans hs with
  | call request actual ts =>
    have hother : ∀ i, i ≠ s.calls.length → ofCall i [(.invoked s.calls.length (request, actual) : Event)] = [] :=
      fun i hi => ofCall_other (Ne.symm hi)
    refine ⟨hL.word.invoked _ _, ?_, ?_, ?_⟩
    · intro j e he hlocked
      rcases List.get_append_singleton he with ⟨-, rfl⟩ | he
      · cases hlocked
      · exact hL.owner j e he hlocked
    · intro j e he
      rcases List.get_append_singleton he with ⟨rfl, rfl⟩ | he
      · show ofCall _ (h ++ _) = _
        rw [ofCall_append, hL.fresh _ (Nat.le_refl _), ofCall_invoked]
        rfl
      · have hj := (List.getElem?_eq_some_iff.1 he).1
        exact (hL.told j e he).append (hother j (Nat.ne_of_lt hj)) fun _ _ hmiss => hmiss
    · intro j hj
      have hj : s.calls.length + 1 ≤ j := by
        have hlen : (s.calls ++ [_]).length ≤ j := hj
        simpa using hlen
      show ofCall j (h ++ _) = []
      rw [ofCall_append, hL.fresh j (by omega), hother j (by omega), List.append_nil]
  | quiet a i c pc owner ha hc hpc ho ho' => exact hL.quiet ha hc hpc ho ho'
  | refuse a i c ha hc hpc =>
    have htold := hL.told i c hc
    obtain ⟨request, ts, actual, old⟩ := c
    have hold : ofCall i h = [.invoked i (request, actual)] ∧
        (⟨request, ts, actual, old⟩ : Call).events i ⟨request, ts, actual, .returned false⟩ = [.returned i false] := by
      rcases hpc with rfl | rfl
      · exact ⟨htold, rfl⟩
      · exact ⟨htold, rfl⟩
    refine hL.move ha hc rfl hold.2 (fun j hj => ofCall_other (Ne.symm hj)) (hL.word.returned i false)
      (fun hlocked => absurd hlocked Bool.false_ne_true)
      (.inr (.inr rfl)) (fun _ _ _ _ _ hmiss => hmiss) ?_
    show ofCall i (h ++ _) = _
    rw [ofCall_append, hold.1, ofCall_returned]
    rfl
  | send i ts c flagBits hc hpc hr =>
    -- as if the sleeping calls were woken first
    obtain ⟨hL₁, hnone⟩ := hL.broadcast
    have hwake : c.wakeUp = c := by simp only [Call.wakeUp, hpc]
    have hc₁ : s.broadcast.calls[i]? = some c := by
      simp only [Threads.broadcast, List.getElem?_map, hc, Option.map_some, hwake]
    generalize hs' : broadcast { s.setCall i c (.unlock true) with val := pthreadSend s.val flagBits } = s'
    have hcalls : s'.calls = s.broadcast.calls.set i { c with actual := c.actual, pc := .unlock true } := by
      rw [← hs']
      exact List.map_set
    have hdoes : does s.broadcast.val (c.request.op c.actual, c.request.obs c.actual) s'.val := by
      rw [hr, ← hs']
      exact ⟨rfl, rfl⟩
    have hlinear : Linear s' (note s.broadcast (.run i ts) s' h) :=
      hL₁.act rfl hc₁ hpc c.actual hcalls (by rw [← hs']; rfl) hdoes
        fun j e abstime he hwait => absurd hwait (hnone j e abstime he)
    have hself : s'.calls[i]? = some { c with actual := c.actual, pc := .unlock true } := by
      rw [hcalls]
      exact List.get_set_self hc₁
    rw [note_caller rfl hc₁ hself] at hlinear
    rw [note_caller rfl hc hself]
    exact hlinear
  | clear i ts c flagBits hc hpc hr =>
    refine hL.act rfl hc hpc c.actual rfl rfl ?_ fun _ _ _ _ _ hmiss => Request.unmet_and _ hmiss
    rw [hr]
    exact ⟨rfl, rfl⟩
  | met i ts c requiredFlags waitType waitMs hc hpc hr hmet =>
    refine hL.act rfl hc hpc (report c.actual (s.val &&& requiredFlags)) rfl rfl ?_ ?_
    · rw [hr]
      refine ⟨?_, rfl⟩
      simp only [Request.op, reference, hmet, if_true]
      rfl
    · intro j e abstime he hwait hmiss
      show e.request.unmet (if waitType.clears then _ else _)
      split
      · exact Request.unmet_and _ hmiss
      · exact hmiss
  | sleep i ts c abstime hc hpc hmiss =>
    obtain ⟨hof, hmissed⟩ := hL.miss hc hpc hmiss
    refine hL.silent rfl hc rfl ?_ rfl
      (fun hlocked => absurd hlocked Bool.false_ne_true) (.inl (by rw [hpc]; rfl)) ⟨hof, hmissed, hmiss⟩
    unfold Call.events
    rw [hpc]
  | inval i ts c hc hpc hmiss =>
    obtain ⟨hof, hmissed⟩ := hL.miss hc hpc hmiss
    have hcrit : c.pc.locked = true := by rw [hpc]; rfl
    refine hL.silent rfl hc rfl ?_ rfl (fun _ => hL.owner i c hc hcrit) (.inl hcrit) ⟨hof, hmissed⟩
    unfold Call.events
    rw [hpc]
  | unlock i ts c retval hc hpc =>
    have htold := hL.told i c hc
    obtain ⟨request, ts, actual, old⟩ := c
    obtain rfl : old = _ := hpc
    have hev : (⟨request, ts, actual, .unlock retval⟩ : Call).events i ⟨request, ts, actual, .returned retval⟩ =
        [.returned i retval] := rfl
    refine hL.move rfl hc rfl hev (fun j hj => ofCall_other (Ne.symm hj)) (hL.word.returned i retval)
      (fun hlocked => absurd hlocked Bool.false_ne_true) (.inl rfl)
      (fun _ _ _ _ _ hmiss => hmiss) ?_
    cases retval with
    | true =>
      obtain ⟨actual', hof⟩ := htold
      refine ⟨actual', ?_⟩
      rw [ofCall_append, hof, ofCall_returned]
      rfl
    | false =>
      show ofCall i (h ++ _) = _
      rw [ofCall_append, htold.1, ofCall_returned]
      rfl

theorem reach_linear {p : Threads × List Event} {ok : Threads → Act → Prop}
    (h : Sys.Reach watched (Sys.onState ok) p) : Linear p.1 p.2 := by
  refine Sys.Reach.recorded_inv ?_ ?_ h
  · rintro s rfl
    exact ⟨.nil, nofun, nofun, fun _ _ => rfl⟩
  · intro s h a s' _ hL _ hs
    exact step_linear hL hs

end Threads

open Threads

/-- **An event flag is linearizable, and nobody sleeps past a send.** For any number of sends, clears and waits of any
kind, with any deadlines and clock readings, in any order: the history is that of whole calls, one after the other, each
between its invocation and its return, exactly if the call returns true; the flag word is what they lead to. A wait that
returns true reports and clears what its caller asked for; one that has given up under the mutex missed its flags at a
moment in between, and one that sleeps misses them now. -/
theorem event_flag_linearizable (s : Threads) (h : List Event)
    (hr : Sys.Reach Threads.watched (Sys.onState Sys.Always) (s, h)) :
    Leads does 0 h s.val ∧ (∀ (i : ℕ) (c : Call), s.calls[i]? = some c → c.pc.locked = true → s.owner = some i) ∧
      ∀ i c, s.calls[i]? = some c → Told s.val h i c := by
  have hL := reach_linear hr
  exact ⟨hL.word, hL.owner, hL.told⟩

instance (p : Threads × List Event) (a : Act) : Decidable (Sys.onState Sys.Always p a) := .isTrue trivial

/-- A wait for two flags sleeps through the first send, and comes back with the second; another one that does not sleep
finds the mutex held. -/
theorem event_flag_linearizable_three : ∃ (s : Threads) (h : List Event),
    Sys.Reach Threads.watched (Sys.onState Sys.Always) (s, h) ∧ s.val = 4 ∧
    h = [.invoked 0 (.wait 3 .waitAndClear WAIT_FOREVER, some 9), .invoked 1 (.send 1, none),
      .invoked 2 (.wait 1 .waitOr NO_SLEEP, none), .effect 1 (.send 1, ⟨true, none⟩), .returned 2 false,
      .returned 1 true, .invoked 3 (.send 6, none), .effect 3 (.send 6, ⟨true, none⟩), .returned 3 true,
      .effect 0 (.wait 3 .waitAndClear (some 9) 0, ⟨true, some 3⟩), .returned 0 true] ∧ Leads does 0 h s.val := by
  have htrace : (Sys.exec Threads.watched (Sys.onState Sys.Always) (⟨0, none, []⟩, [])
      [.call (.wait 3 .waitAndClear WAIT_FOREVER) (some 9) ⟨1, 0⟩, .lock 0 ⟨1, 0⟩, .run 0 ⟨1, 0⟩,
        .call (.send 1) none ⟨1, 0⟩, .lock 1 ⟨1, 0⟩, .call (.wait 1 .waitOr NO_SLEEP) none ⟨1, 0⟩, .run 1 ⟨1, 0⟩,
        .lock 2 ⟨1, 0⟩, .run 1 ⟨1, 0⟩, .acquire 0, .run 0 ⟨1, 0⟩, .call (.send 6) none ⟨1, 0⟩, .lock 3 ⟨1, 0⟩,
        .run 3 ⟨1, 0⟩, .run 3 ⟨1, 0⟩, .acquire 0, .run 0 ⟨1, 0⟩, .run 0 ⟨1, 0⟩]).map
      (fun p => p.1.val == 4 && p.2 == [.invoked 0 (.wait 3 .waitAndClear WAIT_FOREVER, some 9), .invoked 1 (.send 1, none),
        .invoked 2 (.wait 1 .waitOr NO_SLEEP, none), .effect 1 (.send 1, ⟨true, none⟩), .returned 2 false,
        .returned 1 true, .invoked 3 (.send 6, none), .effect 3 (.send 6, ⟨true, none⟩), .returned 3 true,
        .effect 0 (.wait 3 .waitAndClear (some 9) 0, ⟨true, some 3⟩), .returned 0 true]) = some true := by decide +kernel
  have hinit : Sys.Reach Threads.watched (Sys.onState Sys.Always) (⟨0, none, []⟩, []) := .init ⟨rfl, rfl⟩
  obtain ⟨⟨s, h⟩, hs, hp⟩ := hinit.of_trace htrace
  simp only [Bool.and_eq_true, beq_iff_eq] at hp
  exact ⟨s, h, hs, hp.1, hp.2, (event_flag_linearizable s h hs).1⟩

/-- The call has done what it is for. -/
def Pc.succeeded : Pc → Bool
  | .unlock true | .returned true => true
  | _ => false

namespace Threads

variable {s s' : Threads} {a : Act} {i : ℕ} {c : Call}

/-- The calls for `request` that have succeeded. -/
def succeeded (s : Threads) (request : Request) : ℕ := s.calls.countP fun c => c.request == request && c.pc.succeeded

/-- Only signals are sent, and waited for. -/
def OnlySignals (_ : Threads) : Act → Prop
  | .call request _ _ => request = signalSend ∨ request = signalWait
  | _ => True

structure Signals (s : Threads) : Prop where
  requests : ∀ c ∈ s.calls, c.request = signalSend ∨ c.request = signalWait
  bit : s.val = 0 ∨ s.val = 1
  count : s.succeeded signalWait + s.val.toNat ≤ s.succeeded signalSend

theorem succeeded_set {d : Call} (hc : s.calls[i]? = some c) (hcalls : s'.calls = s.calls.set i d)
    (hreq : d.request = c.request) (request : Request) :
    s'.succeeded request + (if c.request = request ∧ c.pc.succeeded = true then 1 else 0) =
      s.succeeded request + (if c.request = request ∧ d.pc.succeeded = true then 1 else 0) := by
  unfold succeeded
  rw [hcalls]
  have h := List.countP_set_add (fun c => c.request == request && c.pc.succeeded) hc (y := d)
  simp only [Bool.and_eq_true, beq_iff_eq, hreq] at h
  exact h

theorem succeeded_broadcast (s : Threads) (request : Request) : s.broadcast.succeeded request = s.succeeded request := by
  unfold succeeded Threads.broadcast
  simp only [List.countP_map]
  refine List.countP_congr fun c _ => ?_
  unfold Call.wakeUp Function.comp
  cases hpc : c.pc <;> simp [hpc, Pc.succeeded]

/-- A call moves, and one that succeeds is counted. -/
theorem Signals.move {d : Call} (h : Signals s) (hc : s.calls[i]? = some c) (hcalls : s'.calls = s.calls.set i d)
    (hreq : d.request = c.request) (hbit : s'.val = 0 ∨ s'.val = 1)
    (hcount : (if d.request = signalWait ∧ d.pc.succeeded = true then 1 else 0) +
        (if c.request = signalSend ∧ c.pc.succeeded = true then 1 else 0) + s'.val.toNat ≤
      (if c.request = signalWait ∧ c.pc.succeeded = true then 1 else 0) +
        (if d.request = signalSend ∧ d.pc.succeeded = true then 1 else 0) + s.val.toNat) : Signals s' := by
  have h1 := h.count
  have h2 := succeeded_set hc hcalls hreq signalWait
  have h3 := succeeded_set hc hcalls hreq signalSend
  refine ⟨?_, hbit, ?_⟩
  · intro e he
    rw [hcalls] at he
    rcases List.mem_or_eq_of_mem_set he with he | rfl
    · exact h.requests e he
    · rw [hreq]
      exact h.requests c (List.mem_of_getElem? hc)
  · rw [hreq] at hcount
    omega

/-- A call that is no nearer to success. -/
theorem Signals.still {d : Call} (h : Signals s) (hc : s.calls[i]? = some c) (hcalls : s'.calls = s.calls.set i d)
    (hreq : d.request = c.request) (hval : s'.val = s.val) (hpc : d.pc.succeeded = c.pc.succeeded) : Signals s' := by
  refine h.move hc hcalls hreq (by rw [hval]; exact h.bit) ?_
  rw [hreq, hval, hpc]

theorem Signals.broadcast (h : Signals s) : Signals s.broadcast := by
  refine ⟨?_, h.bit, ?_⟩
  · intro e he
    obtain ⟨d, hd, rfl⟩ := List.mem_map.1 he
    have hreq : d.wakeUp.request = d.request := by
      unfold Call.wakeUp
      split <;> rfl
    rw [hreq]
    exact h.requests d hd
  · rw [succeeded_broadcast, succeeded_broadcast]
    exact h.count

theorem Signals.step (h : Signals s) (hp : s.OnlySignals a) (hs : s.step a = some s') : Signals s' := by
  cases step_trans hs with
  | call request actual ts =>
    have hnew : ∀ r, ({ s with calls := s.calls ++ [⟨request, entryTs ts request, actual, .lock⟩] } : Threads).succeeded r =
        s.succeeded r := by
      intro r
      unfold succeeded
      rw [List.countP_append, List.countP_singleton]
      simp [Pc.succeeded]
    refine ⟨?_, h.bit, by rw [hnew, hnew]; exact h.count⟩
    intro e he
    rcases List.mem_append.1 he with he | he
    · exact h.requests e he
    · rw [List.mem_singleton.1 he]
      exact hp
  | quiet a i c pc owner ha hc hpc ho ho' =>
    refine h.still hc rfl rfl rfl ?_
    obtain ⟨request, ts, actual, old⟩ := c
    cases hpc <;> rfl
  | refuse a i c ha hc hpc =>
    refine h.still hc rfl rfl rfl ?_
    rcases hpc with hpc | hpc <;> rw [hpc] <;> rfl
  | send i ts c flagBits hc hpc hr =>
    have hone : flagBits = 1 := by
      rcases h.requests c (List.mem_of_getElem? hc) with hreq | hreq
      · rw [hr] at hreq
        cases hreq
        rfl
      · rw [hr] at hreq
        cases hreq
    subst hone
    have hval : pthreadSend s.val 1 = 1 := by
      rcases h.bit with hbit | hbit <;> rw [hbit] <;> rfl
    refine (h.move hc rfl rfl (.inr hval) ?_ : Signals { s.setCall i c (.unlock true) with val := _ }).broadcast
    have hsend : c.request = signalSend := hr
    simp only [hpc, hsend, Pc.succeeded]
    rcases h.bit with hbit | hbit <;> rw [hbit] <;> decide
  | clear i ts c flagBits hc hpc hr =>
    rcases h.requests c (List.mem_of_getElem? hc) with hreq | hreq <;> rw [hr] at hreq <;> cases hreq
  | met i ts c requiredFlags waitType waitMs hc hpc hr hmet =>
    have hwait : c.request = signalWait := by
      rcases h.requests c (List.mem_of_getElem? hc) with hreq | hreq
      · rw [hr] at hreq
        cases hreq
      · exact hreq
    rw [hr] at hwait
    cases hwait
    -- the signal is there, and is taken
    have hone : s.val = 1 := by
      rcases h.bit with hbit | hbit
      · rw [hbit] at hmet
        cases hmet
      · exact hbit
    refine h.move hc rfl rfl (.inl (by rw [hone]; rfl)) ?_
    simp only [hr, hpc, hone, Pc.succeeded]
    decide
  | sleep i ts c abstime hc hpc hmiss => exact h.still hc rfl rfl rfl (by rw [hpc]; rfl)
  | inval i ts c hc hpc hmiss => exact h.still hc rfl rfl rfl (by rw [hpc]; rfl)
  | unlock i ts c retval hc hpc =>
    refine h.still hc rfl rfl rfl ?_
    rw [hpc]
    cases retval <;> rfl

theorem reach_signals (h : Sys.Reach system OnlySignals s) : Signals s := by
  refine h.inv ?_ ?_
  · rintro s rfl
    exact ⟨nofun, .inl rfl, Nat.le_refl 0⟩
  · intro s a s' hs hp hstep
    exact hs.step hp hstep

end Threads

/-- **A signal is there for one wait.** Where threads only send a signal and wait for it, in any order: no more waits have
succeeded than sends, the pending signal included, and no wait sleeps while the signal is pending. -/
theorem signal_waits_le_sends (s : Threads) (hr : Sys.Reach Threads.system Threads.OnlySignals s) :
    s.succeeded signalWait + s.val.toNat ≤ s.succeeded signalSend ∧
      ∀ c ∈ s.calls, c.request = signalWait → (∃ abstime, c.pc = .waiting abstime) → s.val = 0 := by
  have hS := reach_signals hr
  refine ⟨hS.count, ?_⟩
  rintro c hmem hreq ⟨abstime, hpc⟩
  obtain ⟨i, hc⟩ := List.mem_iff_getElem?.1 hmem
  obtain ⟨h, hh⟩ := hr.recorded [] note
  have htold := (reach_linear hh).told i c hc
  unfold Told at htold
  rw [hpc] at htold
  have hmiss := htold.2.2
  rw [hreq] at hmiss
  rcases hS.bit with hbit | hbit
  · exact hbit
  · have hmiss : satisfied s.val 1 .waitOrClear = false := hmiss
    rw [hbit] at hmiss
    cases hmiss

instance (s : Threads) : DecidablePred s.OnlySignals
  | .call request _ _ => inferInstanceAs (Decidable (request = signalSend ∨ request = signalWait))
  | .lock .. | .lockTimeout .. | .acquire _ | .run .. | .wake _ | .timeout .. => instDecidableTrue

/-- Two waits and one send: both waits are woken, and the second one sleeps again. -/
theorem signal_waits_le_sends_one : ∃ s : Threads, Sys.Reach Threads.system Threads.OnlySignals s ∧
    s.succeeded signalWait = 1 ∧ s.succeeded signalSend = 1 ∧
    s.calls[1]? = some ⟨signalWait, ⟨0, 0⟩, none, .waiting none⟩ ∧ s.val = 0 := by
  have htrace : (Sys.exec Threads.system Threads.OnlySignals ⟨0, none, []⟩
      [.call signalWait none ⟨1, 0⟩, .lock 0 ⟨1, 0⟩, .run 0 ⟨1, 0⟩, .call signalWait none ⟨1, 0⟩, .lock 1 ⟨1, 0⟩,
        .run 1 ⟨1, 0⟩, .call signalSend none ⟨1, 0⟩, .lock 2 ⟨1, 0⟩, .run 2 ⟨1, 0⟩, .run 2 ⟨1, 0⟩, .acquire 0,
        .run 0 ⟨1, 0⟩, .run 0 ⟨1, 0⟩, .acquire 1, .run 1 ⟨1, 0⟩]).map
      (fun s => s.succeeded signalWait == 1 && s.succeeded signalSend == 1 &&
        s.calls[1]? == some ⟨signalWait, ⟨0, 0⟩, none, .waiting none⟩) = some true := by decide +kernel
  have hinit : Sys.Reach Threads.system Threads.OnlySignals ⟨0, none, []⟩ := .init rfl
  obtain ⟨s, hs, hp⟩ := hinit.of_trace htrace
  simp only [Bool.and_eq_true, beq_iff_eq] at hp
  obtain ⟨⟨hwait, hsend⟩, hcall⟩ := hp
  exact ⟨s, hs, hwait, hsend, hcall, (signal_waits_le_sends s hs).2 _ (List.mem_of_getElem? hcall) rfl ⟨none, rfl⟩⟩

end Cutils.EventFlag
