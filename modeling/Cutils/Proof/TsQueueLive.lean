import Cutils.Lib.Fair
import Cutils.Proof.TsQueueLinear
import Cutils.Proof.TsQueueWakeup

/-!
# Calls at a thread-safe queue come to an end

A signal wakes one call, and a call signals once; so each step of a thread but its spurious wake-ups lowers `work`, and a run
in which there are no more calls and no more spurious wake-ups comes to an end. If it is fair, nobody holds the mutex then,
and who has not returned sleeps at a queue that has nothing for it (`no_lost_wakeup`).

* `ts_queue_live`: the end of a fair run; with as many takes as puts, give or take the slots, everybody is served.
-/

namespace Cutils.TsQueue

variable {w : ℕ} {α : Type}

/-- The thread whose own step this is; calls, wake-ups and timeouts come from outside. -/
def Act.thread : Act α → Option ℕ
  | .lock i _ | .acquire i | .run i _ => some i
  | _ => none

/-- No new call, no spurious wake-up. -/
def Act.quiet : Act α → Bool
  | .call _ _ _ | .wake _ => false
  | _ => true

/-- A bound on the steps that a call has left, with those of the one that it signals. -/
def Pc.work : Pc α → ℕ
  | .lock => 7
  | .locking _ | .signalled => 6
  | .waking .timedOut => 3
  | .waking _ => 6
  | .loop .timedOut => 2
  | .loop _ => 5
  | .waiting => 4
  | .unlock _ => 1
  | .returned _ => 0

/-- The call has taken effect. -/
def Obs.served : Obs α → Bool
  | .enqueued retval => retval
  | .dequeued item => item.isSome
  | .count _ => false

def Pc.served : Pc α → Bool
  | .unlock retval | .returned retval => retval.served
  | _ => false

/-- Nothing has gone against the call. -/
def Pc.unhurt : Pc α → Bool
  | .loop rval | .waking rval => rval == .zero
  | .unlock retval | .returned retval => retval.served
  | _ => true

namespace Threads

variable {s s' : Threads w α} {i : ℕ} {c : Call α} {woken : Option ℕ}

/-- A bound on the steps that are left. -/
def work (s : Threads w α) : ℕ := (s.calls.map (·.pc.work)).sum

theorem work_setCall (hc : s.calls[i]? = some c) (pc : Pc α) :
    (s.setCall i c pc).work + c.pc.work = s.work + pc.work :=
  List.sum_map_set_add _ hc

/-- A call that moves on. -/
theorem work_move (hc : s.calls[i]? = some c) {pc pc' : Pc α} (hpc : c.pc = pc) (hlt : pc'.work < pc.work)
    {q : Queue w α} {o : Option ℕ} : work { s.setCall i c pc' with owner := o, q := q } < s.work := by
  have h := work_setCall hc pc'
  rw [hpc] at h
  show (s.setCall i c pc').work < s.work
  omega

/-- A signal gives its call two steps more. -/
theorem work_signal {k : Side} (hs : s.signal k woken = some s') : s'.work ≤ s.work + 2 := by
  rcases signal_cases hs with ⟨j, d, hd, -, hpc, rfl⟩ | ⟨-, rfl⟩
  · have h := work_setCall hd .signalled
    rw [hpc] at h
    have h4 : (Pc.waiting : Pc α).work = 4 := rfl
    have h6 : (Pc.signalled : Pc α).work = 6 := rfl
    omega
  · exact Nat.le_add_right _ _

/-- A call that takes effect and signals. -/
theorem work_effect {k : Side} {retval : Obs α} {rval : Rval} {q : Queue w α} (hc : s.calls[i]? = some c)
    (hpc : c.pc = .loop rval) (hrval : rval ≠ .timedOut)
    (hs : signal { s.setCall i c (.unlock retval) with q := q } k woken = some s') : s'.work < s.work := by
  have h := work_setCall hc (.unlock retval)
  have h5 : c.pc.work = 5 := by
    rw [hpc]
    cases rval with
    | timedOut => exact absurd rfl hrval
    | _ => rfl
  have h1 : (Pc.unlock retval).work = 1 := rfl
  have hsig := work_signal hs
  have hq : work { s.setCall i c (.unlock retval) with q := q } = (s.setCall i c (.unlock retval)).work := rfl
  omega

/-- A step of a call at its wait loop or in front of its unlock. -/
theorem run_cases (hc : s.calls[i]? = some c) (hs : s.step (.run i woken) = some s') :
    (∃ rval, c.pc = .loop rval ∧ Looped s i c rval woken s') ∨
      ∃ retval, c.pc = .unlock retval ∧ s' = { s.setCall i c (.returned retval) with owner := none } := by
  have hs : (s.calls[i]?).bind (fun c => s.runStep i c woken) = some s' := hs
  rw [hc, Option.bind_some] at hs
  cases hpc : c.pc with
  | loop rval => exact .inl ⟨rval, rfl, looped hpc hs⟩
  | unlock retval =>
    simp only [runStep, hpc, Option.some.injEq] at hs
    exact .inr ⟨retval, rfl, hs.symm⟩
  | _ => simp [runStep, hpc] at hs

/-- **Every step** but a new call and a spurious wake-up lowers the work that is left. -/
theorem step_work {a : Act α} (h : Sound s) (ha : a.quiet = true) (hs : s.step a = some s') : s'.work < s.work := by
  by_cases hrun : ∃ i woken, a = .run i woken
  · obtain ⟨i, woken, rfl⟩ := hrun
    obtain ⟨c, hc, -⟩ := Option.bind_eq_some_iff.1 hs
    rcases run_cases hc hs with ⟨rval, hpc, hloop⟩ | ⟨retval, hpc, rfl⟩
    · cases hloop with
      | sleep hb hrval =>
        refine work_move (q := s.q) hc hpc ?_
        cases rval with
        | timedOut => exact absurd rfl hrval
        | _ => exact Nat.lt_succ_self 4
      | spin hb hd => exact absurd (h.deadlines c (List.mem_of_getElem? hc)) hd
      | put x s' hr hrval hb hs => exact work_effect hc hpc hrval hs
      | take s' hr hrval hb hs => exact work_effect hc hpc (by rw [hrval]; exact Rval.noConfusion) hs
      | giveUp hr => exact work_move (q := s.q) (o := s.owner) hc hpc (by cases rval <;> simp [Pc.work])
    · exact work_move (q := s.q) hc hpc (by simp [Pc.work])
  · cases step_trans hs with
    | call | wake => cases ha
    | lockFree i c tm hc hpc | lockInvalid i c tm hc hpc | acquireSignalled i c hc hpc =>
      exact work_move (q := s.q) hc hpc (by simp [Pc.work])
    | lockWait i c tm hc hpc | lockTimeout i c now deadline hc hpc | acquireLock i c deadline hc hpc =>
      exact work_move (q := s.q) hc hpc (by simp [Pc.work])
    | acquireWoken i c rval hc hpc => exact work_move (q := s.q) hc hpc (by cases rval <;> simp [Pc.work])
    | timeout i c now hc hpc => exact work_move (q := s.q) (o := s.owner) hc hpc (by simp [Pc.work])
    | _ => exact absurd ⟨_, _, rfl⟩ hrun

/-- **What a queue's calls have come to**: as many items are there as puts have taken effect and takes have not; and a call
that waits for ever is not turned away. -/
structure Level (s : Threads w α) : Prop where
  balance : s.q.stored + s.callsAt Pc.served .consumer = s.callsAt Pc.served .producer
  unhurt : ∀ c ∈ s.calls, c.waitMs = WAIT_FOREVER → c.pc.unhurt = true
  room : 0 < s.q.size.toNat

/-- A call that moves on without effect. -/
theorem Level.move (h : Level s) (hc : s.calls[i]? = some c) {pc : Pc α} {owner : Option ℕ}
    (hserved : pc.served = c.pc.served) (hunhurt : c.waitMs = WAIT_FOREVER → c.pc.unhurt = true → pc.unhurt = true) :
    Level { s.setCall i c pc with owner := owner } := by
  have hsame : ∀ k, (s.setCall i c pc).callsAt Pc.served k = s.callsAt Pc.served k := by
    intro k
    have hcount := callsAt_setCall Pc.served k hc pc
    rw [hserved] at hcount
    exact Nat.add_right_cancel hcount
  refine ⟨?_, ?_, h.room⟩
  · show s.q.stored + (s.setCall i c pc).callsAt Pc.served .consumer = (s.setCall i c pc).callsAt Pc.served .producer
    rw [hsame, hsame]
    exact h.balance
  · intro d hd hms
    rcases List.mem_or_eq_of_mem_set hd with hd | rfl
    · exact h.unhurt d hd hms
    · exact hunhurt hms (h.unhurt c (List.mem_of_getElem? hc) hms)

theorem Level.signal {k : Side} (h : Level s) (hs : s.signal k woken = some s') : Level s' := by
  rcases signal_cases hs with ⟨j, d, hd, -, hpc, rfl⟩ | ⟨-, rfl⟩
  · exact h.move hd (by rw [hpc]; rfl) fun _ _ => rfl
  · exact h

/-- A call that takes effect. -/
theorem Level.effect (h : Level s) (hc : s.calls[i]? = some c) {rval : Rval} (hpc : c.pc = .loop rval) {retval : Obs α}
    (hretval : retval.served = true) {q : Queue w α} (hsize : q.size = s.q.size)
    (hstored : q.stored + (c.request.side == .consumer).toNat = s.q.stored + (c.request.side == .producer).toNat) :
    Level { s.setCall i c (.unlock retval) with q := q } := by
  have hcount : ∀ k, (s.setCall i c (.unlock retval)).callsAt Pc.served k =
      s.callsAt Pc.served k + (c.request.side == k).toNat := by
    intro k
    have h := callsAt_setCall Pc.served k hc (.unlock retval)
    have h1 : (Pc.unlock retval).served = true := hretval
    have h2 : (Pc.loop rval : Pc α).served = false := rfl
    rw [hpc, h1, h2, Bool.and_false, Bool.and_true] at h
    exact h
  refine ⟨?_, ?_, hsize ▸ h.room⟩
  · show q.stored + (s.setCall i c (.unlock retval)).callsAt Pc.served .consumer =
      (s.setCall i c (.unlock retval)).callsAt Pc.served .producer
    have hbalance := h.balance
    rw [hcount, hcount]
    omega
  · intro d hd hms
    rcases List.mem_or_eq_of_mem_set hd with hd | rfl
    · exact h.unhurt d hd hms
    · exact hretval

/-- A step of a call that has the mutex. -/
theorem Level.run (hsound : Sound s) (h : Level s) (hc : s.calls[i]? = some c) (hs : s.step (.run i woken) = some s') :
    Level s' := by
  have hun := h.unhurt c (List.mem_of_getElem? hc)
  rcases run_cases hc hs with ⟨rval, hpc, hloop⟩ | ⟨retval, hpc, rfl⟩
  · rw [hpc] at hun
    have hzero : c.waitMs = WAIT_FOREVER → rval = .zero := fun hms => beq_iff_eq.1 (hun hms)
    have hnot : (Pc.loop rval : Pc α).served = false := rfl
    cases hloop with
    | sleep hb hrval => exact h.move hc (by rw [hpc]; rfl) fun _ _ => rfl
    | spin hb hd => exact h.move hc (by rw [hpc]; rfl) fun hms _ => absurd (.inl hms) hd
    | put x s' hr hrval hb hs =>
      have hput := (hsound.counters.put hb x).2.1
      exact (h.effect (q := s.q.put x) hc hpc rfl rfl (by rw [hr]; exact hput)).signal hs
    | take s' hr hrval hb hs =>
      have htake := (hsound.counters.take hb).2.1
      exact (h.effect (q := s.q.take.1) hc hpc rfl rfl (by rw [hr]; exact htake)).signal hs
    | giveUp hr =>
      refine h.move hc ?_ fun hms _ => absurd (hzero hms) hr
      rw [hpc, hnot]
      cases c.request <;> rfl
  · rw [hpc] at hun
    exact h.move hc (by rw [hpc]; rfl) fun hms _ => hun hms

theorem step_level {a : Act α} (hsound : Sound s) (h : Level s) (hs : s.step a = some s') : Level s' := by
  by_cases hrun : ∃ i woken, a = .run i woken
  · obtain ⟨i, woken, rfl⟩ := hrun
    obtain ⟨c, hc, -⟩ := Option.bind_eq_some_iff.1 hs
    exact h.run hsound hc hs
  · cases step_trans hs with
    | call request waitMs ts hts =>
      have hsame : ∀ k, callsAt { s with calls := s.calls ++ [⟨request, waitMs, queueDeadline w ts waitMs, .lock⟩] }
          Pc.served k = s.callsAt Pc.served k := by
        intro k
        unfold callsAt
        rw [List.countP_append]
        simp [Pc.served]
      refine ⟨?_, ?_, h.room⟩
      · rw [hsame, hsame]
        exact h.balance
      · intro c hc hms
        rcases List.mem_append.1 hc with hc | hc
        · exact h.unhurt c hc hms
        · rw [List.mem_singleton.1 hc]
          rfl
    | lockFree i c tm hc hpc | lockInvalid i c tm hc hpc | acquireSignalled i c hc hpc | wake i c hc hpc =>
      exact h.move hc (by rw [hpc]; rfl) fun _ _ => rfl
    | lockWait i c tm hc hpc | lockTimeout i c now deadline hc hpc | acquireLock i c deadline hc hpc =>
      exact h.move hc (by rw [hpc]; rfl) fun _ _ => rfl
    | acquireWoken i c rval hc hpc =>
      refine h.move hc (by rw [hpc]; rfl) fun _ hun => ?_
      rw [hpc] at hun
      exact hun
    | timeout i c now hc hpc =>
      refine h.move hc (by rw [hpc]; rfl) fun hms _ => ?_
      -- there are no timeouts of a call that waits for ever
      have hs : (if now.valid then (s.calls[i]?).bind fun c => s.timeoutStep i c now else none) = some _ := hs
      split at hs
      · rw [hc, Option.bind_some] at hs
        unfold timeoutStep at hs
        rw [hpc] at hs
        simp [hms] at hs
      · cases hs
    | _ => exact absurd ⟨_, _, rfl⟩ hrun

theorem init_level (h : (system w α).init s) : Level s := by
  obtain ⟨ptrArray, size, hinit, -, hcalls⟩ := h
  have hpos := Nat.pos_of_isPowerOfTwo (isPowerOfTwo_of_init hinit)
  unfold init at hinit
  split at hinit
  · cases hinit
  · have hq := (Option.some.inj hinit).symm
    refine ⟨?_, ?_, ?_⟩
    · unfold callsAt
      rw [hcalls, hq]
      rfl
    · intro c hc
      rw [hcalls] at hc
      cases hc
    · rw [hq]
      exact hpos

theorem reach_level (h : Sys.Reach (system w α) AssumedFits s) : Excl s ∧ Sound s ∧ Level s := by
  refine ⟨reach_excl (fun _ _ hok => hok.1.1) h, ?_⟩
  refine Sys.Reach.inv (I := fun s => Sound s ∧ Level s) (fun s hs => ⟨init_sound hs, init_level hs⟩) ?_ h
  rintro s a s' ⟨hsound, hlevel⟩ hok hs
  exact ⟨step_sound hsound hok.1.2 hs, step_level hsound hlevel hs⟩

/-- Thread `i` can make a step. -/
def ready (i : ℕ) (s : Threads w α) : Prop := ∃ a : Act α, a.thread = some i ∧ s.LockWorks a ∧ (s.step a).isSome = true

def takes (i : ℕ) (a : Option (Act α)) : Prop := ∃ b, a = some b ∧ b.thread = some i

/-- A signal always finds its way. -/
theorem signal_some (s : Threads w α) (k : Side) : ∃ woken, (s.signal k woken).isSome = true := by
  by_cases hany : s.calls.any (·.waitsOn k) = true
  · obtain ⟨c, hc, hwaits⟩ := List.any_eq_true.1 hany
    obtain ⟨j, hj⟩ := List.mem_iff_getElem?.1 hc
    refine ⟨some j, ?_⟩
    unfold signal
    dsimp only
    rw [hj, Option.bind_some, if_pos hwaits]
    rfl
  · refine ⟨none, ?_⟩
    unfold signal
    dsimp only
    rw [if_neg hany]
    rfl

/-- A call that has the mutex can go on. -/
theorem runs_of_critical (hcrit : c.pc.critical = true) : ∃ woken, (s.runStep i c woken).isSome = true := by
  cases hpc : c.pc with
  | unlock retval =>
    refine ⟨none, ?_⟩
    unfold runStep
    rw [hpc]
    rfl
  | loop rval =>
    unfold runStep
    rw [hpc]
    dsimp only
    split
    · exact ⟨none, by split <;> rfl⟩
    · cases c.request with
      | enqueue x =>
        dsimp only
        split
        · exact signal_some _ _
        · exact ⟨none, rfl⟩
      | dequeue =>
        dsimp only
        split
        · exact signal_some _ _
        · exact ⟨none, rfl⟩
  | _ =>
    rw [hpc] at hcrit
    cases hcrit

/-- **Where nobody can make a step**: the mutex is free, and who is not back waits. -/
theorem idle_of_not_ready (hexcl : Excl s) (hno : ∀ i, ¬ ready i s) :
    s.owner = none ∧ ∀ c ∈ s.calls, (∃ retval, c.pc = .returned retval) ∨ c.pc = .waiting := by
  have hown : s.owner = none := by
    cases ho : s.owner with
    | none => rfl
    | some i =>
      obtain ⟨c, hc, hcrit⟩ := hexcl.owned i ho
      obtain ⟨woken, hrun⟩ := runs_of_critical (s := s) (i := i) hcrit
      refine absurd ⟨.run i woken, rfl, trivial, ?_⟩ (hno i)
      show ((s.calls[i]?).bind fun c => s.runStep i c woken).isSome = true
      rw [hc]
      exact hrun
  refine ⟨hown, fun c hc => ?_⟩
  obtain ⟨i, hi⟩ := List.mem_iff_getElem?.1 hc
  have hacquire : (s.acquireStep i c).isSome = true → False := by
    intro hstep
    refine hno i ⟨.acquire i, rfl, trivial, ?_⟩
    show ((s.calls[i]?).bind (s.acquireStep i)).isSome = true
    rw [hi]
    exact hstep
  unfold acquireStep at hacquire
  rw [if_pos hown] at hacquire
  cases hpc : c.pc with
  | returned retval => exact .inl ⟨retval, rfl⟩
  | waiting => exact .inr rfl
  | loop rval | unlock retval =>
    have hcrit := hexcl.critical i c hi (by rw [hpc]; rfl)
    rw [hown] at hcrit
    cases hcrit
  | lock =>
    refine absurd ⟨.lock i ⟨0, 0⟩, rfl, .inl hown, ?_⟩ (hno i)
    show ((s.calls[i]?).bind fun c => s.lockStep i c ⟨0, 0⟩).isSome = true
    rw [hi, Option.bind_some]
    unfold lockStep
    rw [hpc]
    dsimp only
    rw [if_pos hown]
    rfl
  | locking deadline | signalled | waking rval =>
    rw [hpc] at hacquire
    exact absurd rfl hacquire

/-- **A queue come to rest**: nobody has the mutex, and each call is back, or sleeps at a queue that has nothing for it. -/
structure Settled (s : Threads w α) : Prop where
  owner : s.owner = none
  calls : ∀ c ∈ s.calls, (∃ retval, c.pc = .returned retval) ∨ c.pc = .waiting ∧ s.q.available c.request.side = 0

theorem settled_of_not_ready (h : Sys.Reach (system w α) AssumedFits s) (hno : ∀ i, ¬ ready i s) : Settled s := by
  obtain ⟨hown, hcalls⟩ := idle_of_not_ready (reach_level h).1 hno
  refine ⟨hown, fun c hc => (hcalls c hc).imp_right fun hwait => ⟨hwait, ?_⟩⟩
  obtain ⟨i, hi⟩ := List.mem_iff_getElem?.1 hc
  have hpos : 0 < s.callsAt Pc.isWaiting c.request.side := callsAt_pos _ _ hi rfl (by rw [hwait]; rfl)
  have hnone : s.callsAt Pc.isSignalled c.request.side = 0 := by
    unfold callsAt
    rw [List.countP_eq_zero]
    intro d hd
    rcases hcalls d hd with ⟨retval, hpc⟩ | hpc
    · simp [hpc, Pc.isSignalled]
    · simp [hpc, Pc.isSignalled]
  cases hside : c.request.side with
  | consumer =>
    rw [hside] at hpos hnone
    exact Nat.le_zero.1 (hnone ▸ (no_lost_wakeup w α).1 s (h.mono fun _ _ hok => hok.1) hown hpos)
  | producer =>
    rw [hside] at hpos hnone
    exact Nat.le_zero.1 (hnone ▸ (no_lost_wakeup w α).2 s h hown hpos)

/-- Who is back or waits makes no step. -/
theorem not_ready (h : ∀ c ∈ s.calls, c.pc.isWaiting = true ∨ ∃ retval, c.pc = .returned retval) : ¬ ready i s := by
  rintro ⟨a, ha, -, hstep⟩
  obtain ⟨s', hs⟩ := Option.isSome_iff_exists.1 hstep
  have hno : ∀ (j : ℕ) (d : Call α), s.calls[j]? = some d → d.pc.isWaiting = true ∨ ∃ retval, d.pc = .returned retval :=
    fun j d hd => h d (List.mem_of_getElem? hd)
  cases step_trans hs with
  | call | lockTimeout | wake | timeout => cases ha
  | lockFree j d _ hd hpc | lockWait j d _ hd hpc | lockInvalid j d _ hd hpc | acquireLock j d _ hd hpc
  | acquireSignalled j d hd hpc | acquireWoken j d _ hd hpc | wait j d _ _ hd hpc | spin j d _ _ hd hpc
  | put j d _ _ _ _ hd hpc | take j d _ _ hd hpc | giveUp j d _ _ _ hd hpc | unlock j d _ _ hd hpc =>
    rcases hno j d hd with hwait | ⟨retval, hback⟩
    · rw [hpc] at hwait
      cases hwait
    · rw [hpc] at hback
      cases hback

/-- How many calls of a side there are. -/
def callsOf (s : Threads w α) (k : Side) : ℕ := s.calls.countP (·.request.side == k)

/-- **With as many takes as puts**, give or take the slots, nobody is left behind. -/
theorem Settled.served (h : Settled s) (hlevel : Level s) (hcounters : Counters s.q)
    (hforever : ∀ c ∈ s.calls, c.waitMs = WAIT_FOREVER) (hputs : s.callsOf .consumer ≤ s.callsOf .producer)
    (htakes : s.callsOf .producer ≤ s.callsOf .consumer + s.q.size.toNat) :
    ∀ c ∈ s.calls, ∃ retval, c.pc = .returned retval ∧ retval.served = true := by
  have hback : ∀ c ∈ s.calls, ∀ retval, c.pc = .returned retval → retval.served = true := by
    intro c hc retval hpc
    have hun := hlevel.unhurt c hc (hforever c hc)
    rw [hpc] at hun
    exact hun
  -- a side that has something is back, all of it
  have hall : ∀ k, s.q.available k ≠ 0 → s.callsAt Pc.served k = s.callsOf k := by
    intro k hne
    refine List.countP_congr fun c hc => ?_
    rcases h.calls c hc with ⟨retval, hpc⟩ | ⟨-, hzero⟩
    · have hserved : c.pc.served = true := by
        rw [hpc]
        exact hback c hc retval hpc
      rw [hserved, Bool.and_true]
    · by_cases hk : c.request.side = k
      · exact absurd (hk ▸ hzero) hne
      · simp [hk]
  have hbalance := hlevel.balance
  have hroom := hlevel.room
  have hfits := hcounters.fits
  have hstored : s.q.available .consumer = s.q.stored := rfl
  have hfree : s.q.available .producer = s.q.size.toNat - s.q.stored := rfl
  have hstored_le : s.q.stored ≤ s.q.size.toNat := by
    unfold Queue.stored
    omega
  intro c hc
  rcases h.calls c hc with ⟨retval, hpc⟩ | ⟨hpc, hzero⟩
  · exact ⟨retval, hpc, hback c hc retval hpc⟩
  · exfalso
    have hlt : s.callsAt Pc.served c.request.side < s.callsOf c.request.side :=
      List.countP_lt_countP (fun d _ hd => (Bool.and_eq_true_iff.1 hd).1) hc (by simp [hpc, Pc.served]) (beq_self_eq_true _)
    cases hside : c.request.side with
    | consumer =>
      rw [hside] at hzero hlt
      have := hall .producer (by omega)
      omega
    | producer =>
      rw [hside] at hzero hlt
      have := hall .consumer (by omega)
      omega

end Threads

open Threads

/-- **Liveness.** In every fair run, finite or infinite, in which the lock works, deadlines are valid and no full test wraps:
once there are no more calls and no more spurious wake-ups, the run comes to rest, with nobody in the critical section, and
each call back or asleep at a queue that is empty, or full, for it. If all calls wait for ever, and there are no more takes than
puts and no more puts than takes and slots, every call is back and was served. -/
theorem ts_queue_live (w : ℕ) (α : Type) (r : Sys.Run (system w α).resting (Sys.awake AssumedFits))
    (hfair : r.Fair ready takes) (t : ℕ) (hquiet : ∀ t' ≥ t, ∀ a, r.act t' = some a → a.quiet = true) :
    ∃ t₀ ≥ t, (∀ t' ≥ t₀, r.state t' = r.state t₀) ∧ Settled (r.state t₀) ∧
      ((∀ c ∈ (r.state t₀).calls, c.waitMs = WAIT_FOREVER) →
        (r.state t₀).callsOf .consumer ≤ (r.state t₀).callsOf .producer →
        (r.state t₀).callsOf .producer ≤ (r.state t₀).callsOf .consumer + (r.state t₀).q.size.toNat →
        ∀ c ∈ (r.state t₀).calls, ∃ retval, c.pc = .returned retval ∧ retval.served = true) := by
  have hreach : ∀ t, Sys.Reach (system w α) AssumedFits (r.state t) := fun t => (r.reach t).of_resting
  have hdown : ∀ t' ≥ t, ∀ a, r.act t' = some a → (r.state (t' + 1)).work < (r.state t').work := by
    intro t' ht' a ha
    have hs := r.step t'
    rw [ha] at hs
    exact step_work (reach_level (hreach t')).2.1 (hquiet t' ht' a ha) hs
  obtain ⟨t₀, hle, hstays, hno⟩ := r.comes_to_rest hfair (fun i => by rintro ⟨b, hb, -⟩; cases hb) work hdown
  have hsettled := settled_of_not_ready (hreach t₀) hno
  obtain ⟨-, hsound, hlevel⟩ := reach_level (hreach t₀)
  exact ⟨t₀, hle, hstays, hsettled, hsettled.served hlevel hsound.counters⟩

/-- A take sleeps, is signalled, finds the queue empty again and sleeps again, until the second put. -/
theorem ts_queue_live_two : ∃ s : Threads 64 ℕ, Sys.Reach (system 64 ℕ) AssumedFits s ∧ s.calls.length = 4 ∧
    Settled s ∧ ∀ c ∈ s.calls, ∃ retval, c.pc = .returned retval ∧ retval.served = true := by
  have htrace : (Sys.exec (system 64 ℕ)
      (fun s a => s.Assumed a ∧ s.q.tail.toNat + s.q.size.toNat < 2 ^ 64) fresh
      [.call .dequeue WAIT_FOREVER ⟨1, 0⟩, .lock 0 ⟨1, 0⟩, .run 0 none,
        .call (.enqueue 7) WAIT_FOREVER ⟨1, 0⟩, .call .dequeue WAIT_FOREVER ⟨1, 0⟩, .lock 1 ⟨1, 0⟩, .run 1 (some 0),
        .run 1 none, .lock 2 ⟨1, 0⟩, .run 2 none, .run 2 none, .acquire 0, .run 0 none,
        .call (.enqueue 8) WAIT_FOREVER ⟨1, 0⟩, .lock 3 ⟨1, 0⟩, .run 3 (some 0), .run 3 none, .acquire 0, .run 0 none,
        .run 0 none]).map
      (fun s => s.calls.map (fun c => (c.request.side, c.waitMs, c.pc)) ==
        [(.consumer, WAIT_FOREVER, .returned (.dequeued (some 8))), (.producer, WAIT_FOREVER, .returned (.enqueued true)),
          (.consumer, WAIT_FOREVER, .returned (.dequeued (some 7))),
          (.producer, WAIT_FOREVER, .returned (.enqueued true))]) = some true := by decide +kernel
  obtain ⟨s, hs, hp⟩ := fresh_reach.of_trace htrace
  have hp := beq_iff_eq.1 hp
  have hfits : Sys.Reach (system 64 ℕ) AssumedFits s := by
    refine hs.mono ?_
    rintro s a ⟨hok, hfit⟩
    refine ⟨hok, ?_⟩
    cases a with
    | run i woken => exact fun _ _ _ _ _ => hfit
    | _ => exact trivial
  have hall : ∀ c ∈ s.calls, c.waitMs = WAIT_FOREVER ∧ ∃ retval, c.pc = .returned retval := by
    intro c hc
    have hmem := List.mem_map_of_mem (f := fun c => (c.request.side, c.waitMs, c.pc)) hc
    rw [hp] at hmem
    simp only [List.mem_cons, Prod.mk.injEq, List.not_mem_nil, or_false] at hmem
    rcases hmem with ⟨-, hms, hpc⟩ | ⟨-, hms, hpc⟩ | ⟨-, hms, hpc⟩ | ⟨-, hms, hpc⟩
    all_goals exact ⟨hms, _, hpc⟩
  obtain ⟨r, t, hr⟩ := hfits.rest
  have hfair : r.Fair ready takes :=
    r.fair_of_rest (fun t' ht' => (hr t' ht').1) fun i => not_ready fun c hc => .inr (hall c hc).2
  have hquiet : ∀ t' ≥ t, ∀ a, r.act t' = some a → a.quiet = true := by
    intro t' ht' a ha
    rw [(hr t' ht').2] at ha
    cases ha
  obtain ⟨t₀, hle, -, hsettled, hserved⟩ := ts_queue_live 64 ℕ r hfair t hquiet
  rw [(hr t₀ hle).1] at hsettled hserved
  have hsides : ∀ k, s.callsOf k = ([.consumer, .producer, .consumer, .producer] : List Side).countP (· == k) := by
    intro k
    have hmap := congrArg (List.map Prod.fst) hp
    rw [List.map_map] at hmap
    have hmap : s.calls.map (·.request.side) = [.consumer, .producer, .consumer, .producer] := hmap
    rw [← hmap, List.countP_map]
    rfl
  refine ⟨s, hfits, ?_, hsettled, hserved (fun c hc => (hall c hc).1) ?_ ?_⟩
  · have hlen := congrArg List.length hp
    rwa [List.length_map] at hlen
  · rw [hsides, hsides]
    decide
  · rw [hsides, hsides]
    exact Nat.le_add_right 2 _

end Cutils.TsQueue
