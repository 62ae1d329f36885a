import Cutils.Lib.Fair
import Cutils.Proof.EventFlagLinear
import Mathlib.Data.Prod.Lex

/-!
# Calls at an event flag come to an end

A broadcast wakes every call that sleeps, and each send makes one: `work` counts the sends that are still to come, and then
the steps that the calls have left. Each step of a thread but its spurious wake-ups lowers it, so that a run without more
calls and spurious wake-ups comes to an end, and in a fair one the calls that are not back then sleep for flags that
are not set.

* `event_flag_live`: the end of a fair run; a signal that was sent has then served a wait, or is still there.
-/

namespace Cutils.EventFlag

open TsQueue (Timespec WAIT_FOREVER Rval)

/-- The thread whose own step this is; calls, wake-ups and timeouts come from outside. -/
def Act.thread : Act → Option ℕ
  | .lock i _ | .acquire i | .run i _ => some i
  | _ => none

/-- No new call, no spurious wake-up. -/
def Act.quiet : Act → Bool
  | .call .. | .wake _ => false
  | _ => true

/-- A bound on the steps that a call has left, as long as there is no broadcast. -/
def Pc.work : Pc → ℕ
  | .lock => 6
  | .locking => 5
  | .waking .zero => 5
  | .critical => 4
  | .waiting _ => 3
  | .waking _ => 2
  | .unlock _ => 1
  | .returned _ => 0

/-- The broadcast of a call is to come. -/
def Call.toSend (c : Call) : Bool :=
  match c.request, c.pc with
  | .send _, .unlock _ | .send _, .returned _ => false
  | .send _, _ => true
  | _, _ => false

namespace Threads

variable {s s' : Threads} {a : Act} {i : ℕ} {c : Call}

/-- The sends that are to come, and a bound on the steps without them. -/
def work (s : Threads) : ℕ ×ₗ ℕ := toLex (s.calls.countP Call.toSend, (s.calls.map (·.pc.work)).sum)

/-- A call that moves on, and sends no more than before. -/
theorem work_move {d : Call} (hc : s.calls[i]? = some c) (hcalls : s'.calls = s.calls.set i d)
    (hsend : d.toSend = true → c.toSend = true) (hlt : d.pc.work < c.pc.work) : s'.work < s.work := by
  have hcount := List.countP_set_add Call.toSend hc (y := d)
  have hsum := List.sum_map_set_add (·.pc.work) hc (y := d)
  unfold work
  rw [Prod.Lex.toLex_lt_toLex, hcalls]
  have hle : (if d.toSend = true then 1 else 0) ≤ if c.toSend = true then 1 else 0 := by
    split
    · rename_i hd
      rw [if_pos (hsend hd)]
    · exact Nat.zero_le _
  rcases Nat.lt_or_ge ((s.calls.set i d).countP Call.toSend) (s.calls.countP Call.toSend) with h | h
  · exact .inl h
  · exact .inr ⟨by omega, by dsimp only at hsum ⊢; omega⟩

/-- A broadcast is the last of its call. -/
theorem work_broadcast {d : Call} (hc : s.calls[i]? = some c) (hcalls : s'.calls = s.calls.set i d)
    (hsend : c.toSend = true) (hsent : d.toSend = false) : s'.broadcast.work < s.work := by
  have hcount := List.countP_set_add Call.toSend hc (y := d)
  rw [if_pos hsend, hsent, if_neg Bool.false_ne_true] at hcount
  have hwoken : s'.broadcast.calls.countP Call.toSend = s'.calls.countP Call.toSend := by
    unfold broadcast
    rw [List.countP_map]
    refine List.countP_congr fun e _ => ?_
    unfold Function.comp Call.wakeUp
    cases hpc : e.pc with
    | waiting abstime => cases hr : e.request <;> simp [Call.toSend, hr, hpc]
    | _ => rfl
  unfold work
  rw [Prod.Lex.toLex_lt_toLex, hwoken, hcalls]
  exact .inl (by dsimp only; omega)

/-- **Every step** but a new call and a spurious wake-up lowers the work that is left. -/
theorem step_work (ha : a.quiet = true) (hs : s.step a = some s') : s'.work < s.work := by
  cases step_trans hs with
  | call => cases ha
  | quiet a i c pc owner ha' hc hpc ho ho' =>
    obtain ⟨request, ts, actual, old⟩ := c
    have hsend : (⟨request, ts, actual, pc⟩ : Call).toSend = true → (⟨request, ts, actual, old⟩ : Call).toSend = true := by
      intro h
      cases request with
      | send flagBits => cases hpc <;> first | exact h | cases h
      | _ => cases h
    refine work_move hc rfl hsend ?_
    cases hpc with
    | wake => cases ha
    | expire a rval hr =>
      cases rval with
      | zero => exact absurd rfl hr
      | _ => exact Nat.lt_succ_self 1
    | _ => simp [Pc.work]
  | refuse a i c ha' hc hpc =>
    refine work_move hc rfl (fun h => ?_) ?_
    · obtain ⟨request, ts, actual, old⟩ := c
      cases request <;> cases h
    · rcases hpc with hpc | hpc <;> rw [hpc] <;> exact Nat.succ_pos _
  | send i ts c flagBits hc hpc hr =>
    exact work_broadcast (d := { c with pc := .unlock true }) hc rfl (by simp [Call.toSend, hr, hpc])
      (by simp [Call.toSend, hr])
  | sleep i ts c abstime hc hpc hmiss =>
    refine work_move hc rfl (fun h => ?_) ?_
    · -- it is a wait
      cases hr : c.request with
      | wait requiredFlags waitType waitMs =>
        rw [hr] at h
        cases h
      | _ =>
        rw [hr] at hmiss
        exact hmiss.elim
    · rw [hpc]
      simp [Pc.work]
  | clear i ts c flagBits hc hpc hr | met i ts c requiredFlags waitType waitMs hc hpc hr hmet
  | inval i ts c hc hpc hmiss | unlock i ts c retval hc hpc =>
    refine work_move hc rfl (fun h => ?_) ?_
    · unfold Call.toSend at h
      cases hr : c.request <;> simp [hr] at h
    · rw [hpc]
      simp [Pc.work]

/-- Who has the mutex is under it. -/
def Owned (s : Threads) : Prop := ∀ i, s.owner = some i → ∃ c, s.calls[i]? = some c ∧ c.pc.locked = true

theorem Owned.move {d : Call} (h : Owned s) (hc : s.calls[i]? = some c) (hcalls : s'.calls = s.calls.set i d)
    (howner : s'.owner = s.owner) (hkeep : c.pc.locked = true → d.pc.locked = true) : Owned s' := by
  intro j hj
  rw [howner] at hj
  obtain ⟨e, he, hlocked⟩ := h j hj
  rw [hcalls]
  by_cases hij : i = j
  · subst hij
    rw [hc] at he
    obtain rfl := Option.some.inj he
    exact ⟨d, List.get_set_self hc, hkeep hlocked⟩
  · exact ⟨e, by rw [List.getElem?_set_ne hij, he], hlocked⟩

theorem Owned.broadcast (h : Owned s) : Owned s.broadcast := by
  intro j hj
  obtain ⟨e, he, hlocked⟩ := h j hj
  refine ⟨e.wakeUp, ?_, ?_⟩
  · unfold Threads.broadcast
    rw [List.getElem?_map, he]
    rfl
  · unfold Call.wakeUp
    cases hpc : e.pc with
    | waiting abstime =>
      rw [hpc] at hlocked
      cases hlocked
    | _ => exact hlocked

theorem step_owned (h : Owned s) (hs : s.step a = some s') : Owned s' := by
  cases step_trans hs with
  | call request actual ts =>
    intro j hj
    obtain ⟨e, he, hlocked⟩ := h j hj
    exact ⟨e, by rw [List.getElem?_append_left (List.getElem?_eq_some_iff.1 he).1, he], hlocked⟩
  | quiet a i c pc owner ha hc hpc ho ho' =>
    cases hlocked : pc.locked with
    | true =>
      intro j hj
      have hj : owner = some j := hj
      rw [(ho hlocked).2] at hj
      obtain rfl := Option.some.inj hj
      exact ⟨_, List.get_set_self hc, hlocked⟩
    | false =>
      refine h.move hc rfl (ho' hlocked) fun hold => ?_
      obtain ⟨request, ts, actual, old⟩ := c
      cases hpc <;> cases hold
  | refuse a i c ha hc hpc =>
    refine h.move hc rfl rfl fun hold => ?_
    rcases hpc with hpc | hpc <;> rw [hpc] at hold <;> cases hold
  | send i ts c flagBits hc hpc hr =>
    exact (h.move hc rfl rfl fun _ => rfl : Owned { s.setCall i c (.unlock true) with val := _ }).broadcast
  | clear i ts c flagBits hc | met i ts c requiredFlags waitType waitMs hc | inval i ts c hc =>
    exact h.move hc rfl rfl fun _ => rfl
  | sleep | unlock =>
    intro j hj
    cases hj

/-- Thread `i` can make a step. -/
def ready (i : ℕ) (s : Threads) : Prop := ∃ a : Act, a.thread = some i ∧ (s.step a).isSome = true

def takes (i : ℕ) (a : Option Act) : Prop := ∃ b, a = some b ∧ b.thread = some i

/-- A call under the mutex can go on. -/
theorem runs_of_locked (ts : Timespec) (hlocked : c.pc.locked = true) : (s.runStep i c ts).isSome = true := by
  unfold runStep
  cases hpc : c.pc with
  | critical => cases hr : c.request <;> rfl
  | unlock retval => rfl
  | _ =>
    rw [hpc] at hlocked
    cases hlocked

/-- **Where nobody can make a step**: the mutex is free, and who is not back waits. -/
theorem idle_of_not_ready (howned : Owned s) (hexcl : ∀ i c, s.calls[i]? = some c → c.pc.locked = true → s.owner = some i)
    (hno : ∀ i, ¬ ready i s) :
    s.owner = none ∧ ∀ c ∈ s.calls, (∃ retval, c.pc = .returned retval) ∨ ∃ abstime, c.pc = .waiting abstime := by
  have hown : s.owner = none := by
    cases ho : s.owner with
    | none => rfl
    | some i =>
      obtain ⟨c, hc, hlocked⟩ := howned i ho
      refine absurd ⟨.run i ⟨0, 0⟩, rfl, ?_⟩ (hno i)
      show ((s.calls[i]?).bind fun c => s.runStep i c ⟨0, 0⟩).isSome = true
      rw [hc]
      exact runs_of_locked _ hlocked
  refine ⟨hown, fun c hc => ?_⟩
  obtain ⟨i, hi⟩ := List.mem_iff_getElem?.1 hc
  have hacquire : (s.acquireStep i c).isSome = true → False := by
    intro hstep
    refine hno i ⟨.acquire i, rfl, ?_⟩
    show ((s.calls[i]?).bind (s.acquireStep i)).isSome = true
    rw [hi]
    exact hstep
  unfold acquireStep at hacquire
  rw [if_pos hown] at hacquire
  cases hpc : c.pc with
  | returned retval => exact .inl ⟨retval, rfl⟩
  | waiting abstime => exact .inr ⟨abstime, rfl⟩
  | critical | unlock retval =>
    have hlocked := hexcl i c hi (by rw [hpc]; rfl)
    rw [hown] at hlocked
    cases hlocked
  | lock =>
    refine absurd ⟨.lock i ⟨0, 0⟩, rfl, ?_⟩ (hno i)
    show ((s.calls[i]?).bind fun c => s.lockStep i c ⟨0, 0⟩).isSome = true
    rw [hi, Option.bind_some]
    unfold lockStep
    rw [hpc]
    dsimp only
    rw [if_pos hown]
    rfl
  | locking =>
    rw [hpc] at hacquire
    exact absurd rfl hacquire
  | waking rval =>
    rw [hpc] at hacquire
    cases rval <;> exact absurd rfl hacquire

/-- Who is back or waits makes no step. -/
theorem not_ready (h : ∀ c ∈ s.calls, (∃ retval, c.pc = .returned retval) ∨ ∃ abstime, c.pc = .waiting abstime) :
    ¬ ready i s := by
  rintro ⟨a, ha, hstep⟩
  obtain ⟨s', hs⟩ := Option.isSome_iff_exists.1 hstep
  have hno : ∀ (j : ℕ) (d : Call), s.calls[j]? = some d →
      (∃ retval, d.pc = .returned retval) ∨ ∃ abstime, d.pc = .waiting abstime :=
    fun j d hd => h d (List.mem_of_getElem? hd)
  cases step_trans hs with
  | call => cases ha
  | quiet a j d pc owner ha' hd hpc =>
    obtain ⟨request, ts, actual, old⟩ := d
    rcases hno j _ hd with ⟨retval, rfl⟩ | ⟨abstime, rfl⟩
    · cases hpc
    · cases hpc <;> cases ha
  | refuse a j d ha' hd hpc =>
    rcases hno j d hd with ⟨retval, hback⟩ | ⟨abstime, hwait⟩
    · rw [hback] at hpc
      rcases hpc with hpc | hpc <;> cases hpc
    · rw [hwait] at hpc
      rcases hpc with hpc | hpc <;> cases hpc
  | send j ts d _ hd hpc | clear j ts d _ hd hpc | met j ts d _ _ _ hd hpc | sleep j ts d _ hd hpc | inval j ts d hd hpc
  | unlock j ts d _ hd hpc =>
    rcases hno j d hd with ⟨retval, hback⟩ | ⟨abstime, hwait⟩
    · rw [hpc] at hback
      cases hback
    · rw [hpc] at hwait
      cases hwait

/-- **A flag come to rest**: nobody has the mutex, and each call is back, or sleeps for flags that are not set. -/
structure Settled (s : Threads) : Prop where
  owner : s.owner = none
  calls : ∀ c ∈ s.calls, (∃ retval, c.pc = .returned retval) ∨ (∃ abstime, c.pc = .waiting abstime) ∧ c.request.unmet s.val

theorem settled_of_not_ready (h : Sys.Reach system Sys.Always s) (hno : ∀ i, ¬ ready i s) : Settled s := by
  obtain ⟨hist, hh⟩ := h.recorded [] note
  have hL : Linear s hist := reach_linear hh
  have howned : Owned s := by
    refine Sys.Reach.inv (I := Owned) ?_ (fun s a s' hs _ hstep => step_owned hs hstep) h
    rintro s rfl j hj
    cases hj
  obtain ⟨hown, hcalls⟩ := idle_of_not_ready howned hL.owner hno
  refine ⟨hown, fun c hc => (hcalls c hc).imp_right fun hwait => ⟨hwait, ?_⟩⟩
  obtain ⟨i, hi⟩ := List.mem_iff_getElem?.1 hc
  obtain ⟨abstime, hpc⟩ := hwait
  have htold := hL.told i c hi
  unfold Told at htold
  rw [hpc] at htold
  exact htold.2.2

/-- A call that moves on, no nearer to success. -/
theorem succeeded_still {d : Call} (hc : s.calls[i]? = some c) (hcalls : s'.calls = s.calls.set i d)
    (hreq : d.request = c.request) (hpc : d.pc.succeeded = c.pc.succeeded) (request : Request) :
    s'.succeeded request = s.succeeded request := by
  have h := succeeded_set hc hcalls hreq request
  rw [hpc] at h
  exact Nat.add_right_cancel h

/-- A signal that was sent is there, or has served a wait. -/
def Delivered (s : Threads) : Prop := s.val = 0 → 0 < s.succeeded signalSend → 0 < s.succeeded signalWait

theorem Delivered.step (h : Delivered s) (hS : Signals s) (hp : s.OnlySignals a) (hs : s.step a = some s') :
    Delivered s' := by
  have hstill : ∀ {s₁ : Threads} {i : ℕ} {c d : Call}, s.calls[i]? = some c → s₁.calls = s.calls.set i d →
      d.request = c.request → s₁.val = s.val → d.pc.succeeded = c.pc.succeeded → Delivered s₁ := by
    intro s₁ i c d hc hcalls hreq hval hpc
    unfold Delivered
    rw [succeeded_still hc hcalls hreq hpc, succeeded_still hc hcalls hreq hpc, hval]
    exact h
  cases step_trans hs with
  | call request actual ts =>
    have hnew : ∀ r, ({ s with calls := s.calls ++ [⟨request, entryTs ts request, actual, .lock⟩] } : Threads).succeeded r =
        s.succeeded r := by
      intro r
      unfold succeeded
      rw [List.countP_append, List.countP_singleton]
      simp [Pc.succeeded]
    unfold Delivered
    rw [hnew, hnew]
    exact h
  | quiet a i c pc owner ha hc hpc ho ho' =>
    refine hstill hc rfl rfl rfl ?_
    obtain ⟨request, ts, actual, old⟩ := c
    cases hpc <;> rfl
  | refuse a i c ha hc hpc =>
    refine hstill hc rfl rfl rfl ?_
    rcases hpc with hpc | hpc <;> rw [hpc] <;> rfl
  | send i ts c flagBits hc hpc hr =>
    -- the signal is there
    intro hzero
    have hzero : pthreadSend s.val flagBits = 0 := hzero
    rcases hS.requests c (List.mem_of_getElem? hc) with hreq | hreq
    · rw [hr] at hreq
      cases hreq
      rcases hS.bit with hbit | hbit <;> rw [hbit] at hzero <;> cases hzero
    · rw [hr] at hreq
      cases hreq
  | clear i ts c flagBits hc hpc hr =>
    rcases hS.requests c (List.mem_of_getElem? hc) with hreq | hreq <;> rw [hr] at hreq <;> cases hreq
  | met i ts c requiredFlags waitType waitMs hc hpc hr hmet =>
    intro _ _
    have hwait : c.request = signalWait := by
      rcases hS.requests c (List.mem_of_getElem? hc) with hreq | hreq
      · rw [hr] at hreq
        cases hreq
      · exact hreq
    exact List.one_le_countP (List.get_set_self hc) (by simp [hwait, Pc.succeeded])
  | sleep i ts c abstime hc hpc hmiss => exact hstill hc rfl rfl rfl (by rw [hpc]; rfl)
  | inval i ts c hc hpc hmiss => exact hstill hc rfl rfl rfl (by rw [hpc]; rfl)
  | unlock i ts c retval hc hpc =>
    refine hstill hc rfl rfl rfl ?_
    rw [hpc]
    cases retval <;> rfl

theorem reach_delivered (h : Sys.Reach system OnlySignals s) : Signals s ∧ Delivered s := by
  refine Sys.Reach.inv (I := fun s => Signals s ∧ Delivered s) ?_ ?_ h
  · rintro s rfl
    exact ⟨⟨nofun, .inl rfl, Nat.le_refl 0⟩, fun _ hpos => absurd hpos (Nat.lt_irrefl 0)⟩
  · rintro s a s' ⟨hS, hD⟩ hp hs
    exact ⟨hS.step hp hs, hD.step hS hp hs⟩

/-- A signal that was sent and has served no wait leaves nobody asleep. -/
theorem Settled.served (h : Settled s) (hS : Signals s) (hD : Delivered s) (hsent : 0 < s.succeeded signalSend)
    (hnone : s.succeeded signalWait = 0) : ∀ c ∈ s.calls, ∃ retval, c.pc = .returned retval := by
  intro c hc
  refine (h.calls c hc).resolve_right ?_
  rintro ⟨-, hmiss⟩
  rcases hS.bit with hbit | hbit
  · have hpos := hD hbit hsent
    omega
  · rcases hS.requests c hc with hreq | hreq
    · rw [hreq] at hmiss
      exact hmiss
    · rw [hreq] at hmiss
      have hmiss : satisfied s.val 1 .waitOrClear = false := hmiss
      rw [hbit] at hmiss
      cases hmiss

end Threads

open Cutils.EventFlag.Threads

/-- **Liveness.** In every fair run, finite or infinite, of sends, clears and waits of any kind: once there are no more calls
and no more spurious wake-ups, the run comes to rest, with nobody under the mutex, and each call back or asleep for flags
that are not set. Of a signal: if one was sent, a wait was served, or all are back. -/
theorem event_flag_live (r : Sys.Run system.resting (Sys.awake Sys.Always)) (hfair : r.Fair ready takes) (t : ℕ)
    (hquiet : ∀ t' ≥ t, ∀ a, r.act t' = some a → a.quiet = true) :
    ∃ t₀ ≥ t, (∀ t' ≥ t₀, r.state t' = r.state t₀) ∧ Settled (r.state t₀) ∧
      ((∀ t' a, r.act t' = some a → (r.state t').OnlySignals a) → 0 < (r.state t₀).succeeded signalSend →
        0 < (r.state t₀).succeeded signalWait ∨ ∀ c ∈ (r.state t₀).calls, ∃ retval, c.pc = .returned retval) := by
  have hreach : ∀ t, Sys.Reach system Sys.Always (r.state t) := fun t => (r.reach t).of_resting
  have hdown : ∀ t' ≥ t, ∀ a, r.act t' = some a → (r.state (t' + 1)).work < (r.state t').work := by
    intro t' ht' a ha
    have hs := r.step t'
    rw [ha] at hs
    exact step_work (hquiet t' ht' a ha) hs
  obtain ⟨t₀, hle, hstays, hno⟩ := r.comes_to_rest hfair (fun i => by rintro ⟨b, hb, -⟩; cases hb) work hdown
  have hsettled := settled_of_not_ready (hreach t₀) hno
  refine ⟨t₀, hle, hstays, hsettled, fun hsignals hsent => ?_⟩
  obtain ⟨hS, hD⟩ := reach_delivered (r.reach_of_acts hsignals t₀)
  rcases Nat.eq_zero_or_pos ((r.state t₀).succeeded signalWait) with hnone | hpos
  · exact .inr (hsettled.served hS hD hsent hnone)
  · exact .inl hpos

/-- Two waits and one send: both waits are woken, and the second one sleeps again. -/
theorem event_flag_live_signal : ∃ s : Threads, Sys.Reach system Sys.Always s ∧ Settled s ∧
    s.calls.map (·.pc) = [.returned true, .waiting none, .returned true] := by
  have htrace : (Sys.exec system Sys.Always ⟨0, none, []⟩
      [.call signalWait none ⟨1, 0⟩, .lock 0 ⟨1, 0⟩, .run 0 ⟨1, 0⟩, .call signalWait none ⟨1, 0⟩, .lock 1 ⟨1, 0⟩,
        .run 1 ⟨1, 0⟩, .call signalSend none ⟨1, 0⟩, .lock 2 ⟨1, 0⟩, .run 2 ⟨1, 0⟩, .run 2 ⟨1, 0⟩, .acquire 0,
        .run 0 ⟨1, 0⟩, .run 0 ⟨1, 0⟩, .acquire 1, .run 1 ⟨1, 0⟩]).map
      (fun s => s.calls.map (·.pc) == [.returned true, .waiting none, .returned true]) = some true := by decide +kernel
  have hinit : Sys.Reach system Sys.Always ⟨0, none, []⟩ := .init rfl
  obtain ⟨s, hs, hp⟩ := hinit.of_trace htrace
  have hp := beq_iff_eq.1 hp
  obtain ⟨r, t, hr⟩ := hs.rest
  have hidle : ∀ c ∈ s.calls, (∃ retval, c.pc = .returned retval) ∨ ∃ abstime, c.pc = .waiting abstime := by
    intro c hc
    have hmem := List.mem_map_of_mem (f := (·.pc)) hc
    rw [hp] at hmem
    simp only [List.mem_cons, List.not_mem_nil, or_false] at hmem
    rcases hmem with hpc | hpc | hpc
    · exact .inl ⟨_, hpc⟩
    · exact .inr ⟨_, hpc⟩
    · exact .inl ⟨_, hpc⟩
  have hfair : r.Fair ready takes := r.fair_of_rest (fun t' ht' => (hr t' ht').1) fun i => not_ready hidle
  have hquiet : ∀ t' ≥ t, ∀ a, r.act t' = some a → a.quiet = true := by
    intro t' ht' a ha
    rw [(hr t' ht').2] at ha
    cases ha
  obtain ⟨t₀, hle, -, hsettled, -⟩ := event_flag_live r hfair t hquiet
  rw [(hr t₀ hle).1] at hsettled
  exact ⟨s, hs, hsettled, hp⟩

end Cutils.EventFlag
