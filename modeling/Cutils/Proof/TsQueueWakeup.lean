import Cutils.Lib.Count
import Cutils.Proof.TsQueueFifo
import Cutils.Proof.TsQueueMutex

/-!
# No lost wake-up at a thread-safe queue

For each side of the queue, `Awake`: if a call of that side waits un-signalled, then what it
waits for (stored items, or free slots) is covered by the signalled calls of that side and by
the one that holds the mutex and has not looked yet. One signal per operation is enough for
this, since every operation adds one item or one slot, and a call goes to sleep only when
nothing is there.

For the producers the last step needs that a producer that finds the queue full is right, and
the full test `tail + size <= head` wraps.

* `no_lost_wakeup`: the consumers never sleep beside an item that no signalled consumer will
  take; the producers never beside a slot, as long as no full test wraps.
* `producer_sleeps_beside_free_slot`: the run in which it does.
-/

namespace Cutils.TsQueue

def Pc.isSignalled {α : Type} : Pc α → Bool
  | .signalled => true
  | _ => false

/-- At the wait loop with nothing against it: the call takes what it finds, or sleeps. -/
def Pc.isReady {α : Type} : Pc α → Bool
  | .loop .zero => true
  | _ => false

/-- The stored items; neither counter wraps before the other stops it. -/
def Queue.stored {w : ℕ} {α : Type} (q : Queue w α) : ℕ := q.head.toNat - q.tail.toNat

/-- What side `k` waits for: items, or free slots. -/
def Queue.available {w : ℕ} {α : Type} (q : Queue w α) : Side → ℕ
  | .consumer => q.stored
  | .producer => q.size.toNat - q.stored

section Counters

variable {w : ℕ} {α : Type} {q : Queue w α}

/-- The counters as numbers: at most `size` items between them. -/
structure Counters (q : Queue w α) : Prop where
  le : q.tail.toNat ≤ q.head.toNat
  fits : q.head.toNat ≤ q.tail.toNat + q.size.toNat

/-- A queue that does not look full has room, and its head counter too. -/
theorem Counters.room (h : Counters q) (hfull : q.isFull = false) :
    q.head.toNat < q.tail.toNat + q.size.toNat ∧ q.head.toNat + 1 < 2 ^ w := by
  have hfit : q.tail.toNat + q.size.toNat < 2 ^ w := by
    by_contra hwrap
    rw [isFull_of_wrap h.le (by omega)] at hfull
    cases hfull
  unfold Queue.isFull at hfull
  rw [decide_eq_false_iff_not, BitVec.le_def, BitVec.toNat_add, Nat.mod_eq_of_lt hfit] at hfull
  omega

theorem Counters.put (h : Counters q) (hfull : q.isFull = false) (x : α) :
    Counters (q.put x) ∧ (q.put x).available .consumer = q.available .consumer + 1 ∧
      (q.put x).available .producer + 1 = q.available .producer := by
  obtain ⟨h1, h2⟩ := h.room hfull
  have hle := h.le
  have hhead : (q.put x).head.toNat = q.head.toNat + 1 := toNat_add_one h2
  have htail : (q.put x).tail = q.tail := rfl
  have hsize : (q.put x).size = q.size := rfl
  refine ⟨⟨by rw [hhead, htail]; omega, by rw [hhead, htail, hsize]; omega⟩, ?_, ?_⟩
  all_goals
    simp only [Queue.available, Queue.stored, hhead, htail, hsize]
    omega

theorem Counters.take (h : Counters q) (hempty : q.isEmpty = false) :
    Counters q.take.1 ∧ q.take.1.available .consumer + 1 = q.available .consumer ∧
      q.take.1.available .producer = q.available .producer + 1 := by
  have hlt : q.tail.toNat < q.head.toNat := by
    unfold Queue.isEmpty at hempty
    rw [decide_eq_false_iff_not, ge_iff_le, BitVec.le_def] at hempty
    omega
  have hfits := h.fits
  have hmax := q.head.isLt
  have htail : q.take.1.tail.toNat = q.tail.toNat + 1 := toNat_add_one (by omega)
  have hhead : q.take.1.head = q.head := rfl
  have hsize : q.take.1.size = q.size := rfl
  refine ⟨⟨by rw [hhead, htail]; omega, by rw [hhead, htail, hsize]; omega⟩, ?_, ?_⟩
  all_goals
    simp only [Queue.available, Queue.stored, hhead, htail, hsize]
    omega

/-- A consumer that finds the queue empty is right. -/
theorem available_of_isEmpty (hempty : q.isEmpty = true) : q.available .consumer = 0 := by
  unfold Queue.isEmpty at hempty
  rw [decide_eq_true_eq, ge_iff_le, BitVec.le_def] at hempty
  exact Nat.sub_eq_zero_of_le hempty

/-- A producer that finds it full is right, while the test does not wrap. -/
theorem available_of_isFull (hfit : q.tail.toNat + q.size.toNat < 2 ^ w) (hfull : q.isFull = true) :
    q.available .producer = 0 := by
  unfold Queue.isFull at hfull
  rw [decide_eq_true_eq, BitVec.le_def, BitVec.toNat_add, Nat.mod_eq_of_lt hfit] at hfull
  simp only [Queue.available, Queue.stored]
  omega

end Counters

namespace Threads

variable {w : ℕ} {α : Type} {s s' : Threads w α} {i : ℕ} {c : Call α}

/-- The calls of side `k` at a place `p` of the code. -/
def callsAt (s : Threads w α) (p : Pc α → Bool) (k : Side) : ℕ :=
  s.calls.countP fun c => c.request.side == k && p c.pc

/-- **No lost wake-up** on side `k`, also while a call holds the mutex. -/
def Awake (s : Threads w α) (k : Side) : Prop :=
  0 < s.callsAt Pc.isWaiting k → s.q.available k ≤ s.callsAt Pc.isSignalled k + s.callsAt Pc.isReady k

section Counts

variable (p : Pc α → Bool) (k : Side)

/-- Moving call `i` moves at most one count. -/
theorem callsAt_setCall (hc : s.calls[i]? = some c) (pc : Pc α) :
    (s.setCall i c pc).callsAt p k + (c.request.side == k && p c.pc).toNat =
      s.callsAt p k + (c.request.side == k && p pc).toNat := by
  have hone : ∀ b : Bool, b.toNat = if b = true then 1 else 0 := by intro b; cases b <;> rfl
  rw [hone, hone]
  exact List.countP_set_add _ hc

/-- A call of the other side does not count. -/
theorem callsAt_setCall_ne (hc : s.calls[i]? = some c) (pc : Pc α) (hk : c.request.side ≠ k) :
    (s.setCall i c pc).callsAt p k = s.callsAt p k := by
  have h := callsAt_setCall p k hc pc
  have hne : (c.request.side == k) = false := by simpa using hk
  simpa [hne] using h

/-- A call of this side. -/
theorem callsAt_setCall_eq (hc : s.calls[i]? = some c) (pc : Pc α) (hk : c.request.side = k) :
    (s.setCall i c pc).callsAt p k + (p c.pc).toNat = s.callsAt p k + (p pc).toNat := by
  have h := callsAt_setCall p k hc pc
  simpa [hk] using h

theorem callsAt_pos (hc : s.calls[i]? = some c) (hk : c.request.side = k) (hp : p c.pc = true) :
    0 < s.callsAt p k :=
  List.one_le_countP hc (by simp [hk, hp])

end Counts

/-- Only the counts and the queue matter; a call that has just started does not count. -/
theorem Awake.congr {k : Side} (h : s.Awake k) (hq : s'.q = s.q)
    (hcalls : ∀ p, p Pc.lock = false → s'.callsAt p k = s.callsAt p k) : s'.Awake k := by
  unfold Awake
  rw [hq, hcalls _ rfl, hcalls _ rfl, hcalls _ rfl]
  exact h

/-- A call that moves and does not go to sleep, nor forgets that it was signalled. -/
theorem Awake.move {k : Side} {pc : Pc α} {owner : Option ℕ} (h : s.Awake k) (hc : s.calls[i]? = some c)
    (hsleep : pc.isWaiting = false)
    (hkeep : (c.pc.isSignalled || c.pc.isReady) = true → (pc.isSignalled || pc.isReady) = true) :
    Awake { s.setCall i c pc with owner := owner } k := by
  refine Awake.congr (s := s.setCall i c pc) ?_ rfl fun _ _ => rfl
  by_cases hk : c.request.side = k
  · have h1 := callsAt_setCall_eq Pc.isWaiting k hc pc hk
    have h2 := callsAt_setCall_eq Pc.isSignalled k hc pc hk
    have h3 := callsAt_setCall_eq Pc.isReady k hc pc hk
    have hpc : ∀ d : Pc α, d.isSignalled.toNat + d.isReady.toNat = (d.isSignalled || d.isReady).toNat := by
      intro d
      rcases d with _ | _ | r | _ | _ | _ | _ | _
      case loop => cases r <;> rfl
      all_goals rfl
    have hle : (c.pc.isSignalled || c.pc.isReady).toNat ≤ (pc.isSignalled || pc.isReady).toNat := by
      cases hb : (c.pc.isSignalled || c.pc.isReady) with
      | true => rw [hkeep hb]
      | false => exact Nat.zero_le _
    rw [← hpc, ← hpc] at hle
    rw [hsleep] at h1
    intro hpos
    have := h (by simp only [Bool.toNat_false] at h1; omega)
    show s.q.available k ≤ _
    omega
  · exact h.congr rfl fun p _ => callsAt_setCall_ne p k hc pc hk

/-- A call that goes to sleep, because nothing is there. -/
theorem Awake.sleep {k : Side} (h : s.Awake k) (hc : s.calls[i]? = some c)
    (hnone : c.request.side = k → s.q.available k = 0) :
    Awake { s.setCall i c .waiting with owner := none } k := by
  refine Awake.congr (s := s.setCall i c .waiting) ?_ rfl fun _ _ => rfl
  by_cases hk : c.request.side = k
  · intro _
    show s.q.available k ≤ _
    rw [hnone hk]
    exact Nat.zero_le _
  · exact h.congr rfl fun p _ => callsAt_setCall_ne p k hc _ hk

/-- What a signal to side `k` does to the counts. -/
theorem signal_counts {k : Side} {woken : Option ℕ} (hs : s.signal k woken = some s') :
    s'.q = s.q ∧ (∀ k' p, k' ≠ k → s'.callsAt p k' = s.callsAt p k') ∧
      s'.callsAt Pc.isReady k = s.callsAt Pc.isReady k ∧
      (s'.callsAt Pc.isWaiting k = 0 ∨
        0 < s.callsAt Pc.isWaiting k ∧ s'.callsAt Pc.isSignalled k = s.callsAt Pc.isSignalled k + 1) := by
  rcases signal_cases hs with ⟨j, c, hc, hk, hpc, rfl⟩ | ⟨hany, rfl⟩
  · refine ⟨rfl, ?_, ?_, .inr ⟨callsAt_pos _ k hc hk (by rw [hpc]; rfl), ?_⟩⟩
    · intro k' p hk'
      exact callsAt_setCall_ne p k' hc _ (by rw [hk]; exact hk'.symm)
    · have h := callsAt_setCall_eq Pc.isReady k hc .signalled hk
      rwa [hpc] at h
    · have h := callsAt_setCall_eq Pc.isSignalled k hc .signalled hk
      rwa [hpc] at h
  · refine ⟨rfl, fun _ _ _ => rfl, rfl, .inl ?_⟩
    unfold callsAt
    rw [List.countP_eq_zero]
    intro c hc
    have := List.any_eq_false.1 hany c hc
    simpa [Call.waitsOn] using this

/-- An operation of side `k` uses up one of what it waits for, and was ready to. -/
theorem Awake.use {k k' : Side} {rval : Rval} {retval : Obs α} {q : Queue w α} {woken : Option ℕ}
    (h : s.Awake k) (hc : s.calls[i]? = some c) (hpc : c.pc = .loop rval) (hk : c.request.side = k)
    (hav : q.available k + 1 = s.q.available k) (hne : k ≠ k')
    (hs : signal { s.setCall i c (.unlock retval) with q := q } k' woken = some s') : s'.Awake k := by
  obtain ⟨hq, hcalls, -, -⟩ := signal_counts hs
  have hq : s'.q = q := hq
  have h1 := callsAt_setCall_eq Pc.isWaiting k hc (.unlock retval) hk
  have h2 := callsAt_setCall_eq Pc.isSignalled k hc (.unlock retval) hk
  have h3 := callsAt_setCall_eq Pc.isReady k hc (.unlock retval) hk
  rw [hpc] at h1 h2 h3
  have hready : (Pc.loop rval : Pc α).isReady.toNat ≤ 1 := Bool.toNat_le _
  simp only [Pc.isWaiting, Pc.isSignalled, Bool.toNat_false] at h1 h2
  have hun : (Pc.unlock retval : Pc α).isReady.toNat = 0 := rfl
  intro hpos
  rw [hq, hcalls k _ hne, hcalls k _ hne]
  rw [hcalls k _ hne] at hpos
  have hpos : 0 < (s.setCall i c (.unlock retval)).callsAt Pc.isWaiting k := hpos
  have := h (by omega)
  show q.available k ≤ (s.setCall i c (.unlock retval)).callsAt _ k + (s.setCall i c (.unlock retval)).callsAt _ k
  omega

/-- An operation of side `k` makes one of what the other side waits for, and signals it. -/
theorem Awake.make {k : Side} {retval : Obs α} {q : Queue w α} {woken : Option ℕ} (h : s.Awake k)
    (hc : s.calls[i]? = some c) (hk : c.request.side ≠ k) (hav : q.available k = s.q.available k + 1)
    (hs : signal { s.setCall i c (.unlock retval) with q := q } k woken = some s') : s'.Awake k := by
  obtain ⟨hq, -, hready, hwoken⟩ := signal_counts hs
  have hq : s'.q = q := hq
  have hsame : ∀ p, (s.setCall i c (.unlock retval)).callsAt p k = s.callsAt p k :=
    fun p => callsAt_setCall_ne p k hc _ hk
  intro hpos
  rcases hwoken with hzero | ⟨hwait, hsig⟩
  · omega
  · have hwait : 0 < (s.setCall i c (.unlock retval)).callsAt Pc.isWaiting k := hwait
    have hsig : s'.callsAt Pc.isSignalled k =
      (s.setCall i c (.unlock retval)).callsAt Pc.isSignalled k + 1 := hsig
    have hready : s'.callsAt Pc.isReady k = (s.setCall i c (.unlock retval)).callsAt Pc.isReady k := hready
    rw [hsame] at hwait hsig hready
    have := h hwait
    rw [hq, hav, hsig, hready]
    omega

/-- The counters, and that no timed wait has an invalid deadline. -/
structure Sound (s : Threads w α) : Prop where
  counters : Counters s.q
  deadlines : ∀ c ∈ s.calls, c.waitMs = WAIT_FOREVER ∨ c.deadline.valid = true

theorem Sound.move {pc : Pc α} {owner : Option ℕ} {q : Queue w α} (h : Sound s) (hc : s.calls[i]? = some c)
    (hq : Counters q) : Sound { s.setCall i c pc with owner := owner, q := q } := by
  refine ⟨hq, ?_⟩
  intro d hd
  rcases List.mem_or_eq_of_mem_set hd with hd | rfl
  · exact h.deadlines d hd
  · exact h.deadlines c (List.mem_of_getElem? hc)

theorem Sound.signal {k : Side} {woken : Option ℕ} (h : Sound s) (hs : s.signal k woken = some s') :
    Sound s' := by
  rcases signal_cases hs with ⟨j, c, hc, -, -, rfl⟩ | ⟨-, rfl⟩
  · exact h.move hc h.counters
  · exact h

theorem step_sound {a : Act α} (h : Sound s) (hok : s.DeadlinesValid a) (hs : s.step a = some s') :
    Sound s' := by
  cases step_trans hs with
  | call request waitMs ts hts =>
    refine ⟨h.counters, ?_⟩
    intro c hc
    rcases List.mem_append.1 hc with hc | hc
    · exact h.deadlines c hc
    · rw [List.mem_singleton.1 hc]
      exact hok
  -- the queue changes, and a call of the other side may be woken
  | put i c rval woken x s' hc hpc hr hb hs => exact (h.move hc (h.counters.put hb x).1).signal hs
  | take i c woken s' hc hpc hr hb hs => exact (h.move hc (h.counters.take hb).1).signal hs
  -- the steps that leave the queue alone
  | lockFree i c tm hc | lockWait i c tm hc | lockInvalid i c tm hc | lockTimeout i c now deadline hc
  | acquireLock i c deadline hc | acquireSignalled i c hc | acquireWoken i c rval hc
  | wait i c rval woken hc | spin i c rval woken hc | giveUp i c rval woken retval hc
  | unlock i c woken retval hc | wake i c hc | timeout i c now hc => exact h.move hc h.counters

/-- **Every step** keeps side `k` awake, if a call of that side that goes to sleep is right to. -/
theorem step_awake {a : Act α} {k : Side} (hsound : Sound s) (h : s.Awake k)
    (hright : ∀ i woken c rval, a = .run i woken → s.calls[i]? = some c → c.request.side = k →
      c.pc = .loop rval → s.blocked k = true → s.q.available k = 0)
    (hs : s.step a = some s') : s'.Awake k := by
  cases step_trans hs with
  | call request waitMs ts hts =>
    refine h.congr rfl ?_
    intro p hp
    unfold callsAt
    rw [List.countP_append, List.countP_singleton]
    simp [hp]
  | put i c rval woken x s' hc hpc hr hb hs =>
    obtain ⟨-, h1, h2⟩ := hsound.counters.put hb x
    have hside : c.request.side = .producer := by rw [hr]; rfl
    cases k with
    | producer => exact h.use hc hpc hside h2 (by simp) hs
    | consumer => exact h.make hc (by rw [hside]; simp) h1 hs
  | take i c woken s' hc hpc hr hb hs =>
    obtain ⟨-, h1, h2⟩ := hsound.counters.take hb
    have hside : c.request.side = .consumer := by rw [hr]; rfl
    cases k with
    | producer => exact h.make hc (by rw [hside]; simp) h2 hs
    | consumer => exact h.use hc hpc hside h1 (by simp) hs
  | wait i c rval woken hc hpc hb =>
    refine h.sleep hc ?_
    intro hk
    exact hright i woken c rval rfl hc hk hpc (hk ▸ hb)
  | spin i c rval woken hc hpc hd =>
    -- excluded: every deadline is valid
    rcases hsound.deadlines c (List.mem_of_getElem? hc) with hw | hw
    · exact absurd hw hd.1
    · rw [hw] at hd; cases hd.2
  | giveUp i c rval woken retval hc hpc hr =>
    refine h.move hc rfl ?_
    rw [hpc]
    cases rval with
    | zero => exact absurd rfl hr
    | timedOut => simp [Pc.isSignalled, Pc.isReady]
    | inval => simp [Pc.isSignalled, Pc.isReady]
  | lockFree i c tm hc hpc | lockWait i c tm hc hpc | lockInvalid i c tm hc hpc
  | lockTimeout i c now deadline hc hpc | acquireLock i c deadline hc hpc | acquireSignalled i c hc hpc
  | acquireWoken i c rval hc hpc | unlock i c woken retval hc hpc | wake i c hc hpc
  | timeout i c now hc hpc =>
    refine h.move hc rfl ?_
    rw [hpc]
    simp [Pc.isSignalled, Pc.isReady]

theorem init_sound (h : (system w α).init s) : Sound s := by
  obtain ⟨ptrArray, size, hinit, -, hcalls⟩ := h
  have hq : s.q = ⟨ptrArray, size, 0, 0, 0⟩ := by
    unfold init at hinit
    split at hinit
    · cases hinit
    · exact (Option.some.inj hinit).symm
  refine ⟨?_, ?_⟩
  · rw [hq]
    exact ⟨Nat.le_refl _, Nat.le_add_right _ _⟩
  · intro c hc
    rw [hcalls] at hc; cases hc

theorem init_awake (h : (system w α).init s) (k : Side) : s.Awake k := by
  obtain ⟨_, _, -, -, hcalls⟩ := h
  intro hpos
  unfold callsAt at hpos
  rw [hcalls] at hpos
  cases hpos

/-- While nobody holds the mutex, nobody is ready. -/
theorem Excl.ready (h : Excl s) (ho : s.owner = none) (k : Side) : s.callsAt Pc.isReady k = 0 := by
  unfold callsAt
  rw [List.countP_eq_zero]
  intro c hc hp
  obtain ⟨i, hi⟩ := List.getElem?_of_mem hc
  have hcrit : c.pc.critical = true := by
    simp only [Bool.and_eq_true] at hp
    cases hpc : c.pc with
    | loop r => rfl
    | _ => simp [hpc, Pc.isReady] at hp
  have := h.critical i c hi hcrit
  rw [ho] at this; cases this

/-- The assumptions on the mutex and the deadlines. -/
def Assumed (s : Threads w α) (a : Act α) : Prop := s.LockWorks a ∧ s.DeadlinesValid a

/-- With them, and with full tests that do not wrap. -/
def AssumedFits (s : Threads w α) (a : Act α) : Prop := s.Assumed a ∧ s.FullTestFits a

/-- **The invariant over runs**, for a side that is right to sleep. -/
theorem reach_awake {k : Side} {ok : Threads w α → Act α → Prop} (hok : ∀ s a, ok s a → s.Assumed a)
    (hright : ∀ s a i woken c rval, ok s a → a = .run i woken → s.calls[i]? = some c → c.request.side = k →
      c.pc = .loop rval → s.blocked k = true → s.q.available k = 0)
    (h : Sys.Reach (system w α) ok s) (ho : s.owner = none) (hwait : 0 < s.callsAt Pc.isWaiting k) :
    s.q.available k ≤ s.callsAt Pc.isSignalled k := by
  have hboth : Sound s ∧ s.Awake k := by
    refine Sys.Reach.inv (I := fun s => Sound s ∧ s.Awake k) ?_ ?_ h
    · intro s hs
      exact ⟨init_sound hs, init_awake hs k⟩
    · rintro s a s' ⟨h1, h2⟩ ha hs
      exact ⟨step_sound h1 (hok s a ha).2 hs,
        step_awake h1 h2 (fun i woken c rval => hright s a i woken c rval ha) hs⟩
  have hex := reach_excl (fun s a ha => (hok s a ha).1) h
  have := hboth.2 hwait
  rw [hex.ready ho] at this
  exact this

end Threads

open Threads

/-- **No lost wake-up.** For any number of producers and consumers with any `wait_ms`, at every
reachable state in which nobody holds the mutex: if a consumer waits un-signalled, the stored items
are at most the signalled consumers that have not resumed; and in the runs in which no producer
tests its wait condition with `tail + size` past `2 ^ w`, if a producer waits un-signalled, the
free slots are at most the signalled producers that have not resumed. -/
theorem no_lost_wakeup (w : ℕ) (α : Type) :
    (∀ s : Threads w α, Sys.Reach (system w α) Assumed s → s.owner = none →
      0 < s.callsAt Pc.isWaiting .consumer → s.q.stored ≤ s.callsAt Pc.isSignalled .consumer) ∧
    (∀ s : Threads w α, Sys.Reach (system w α) AssumedFits s → s.owner = none →
      0 < s.callsAt Pc.isWaiting .producer →
        s.q.size.toNat - s.q.stored ≤ s.callsAt Pc.isSignalled .producer) := by
  constructor
  · intro s h
    refine reach_awake (fun _ _ hok => hok) ?_ h
    intro s a i woken c rval _ _ _ _ _ hblocked
    exact available_of_isEmpty hblocked
  · intro s h
    refine reach_awake (fun _ _ hok => hok.1) ?_ h
    intro s a i woken c rval hok ha hc hside hpc hblocked
    subst ha
    exact available_of_isFull (hok.2 c rval hc hside hpc) hblocked

instance {w : ℕ} {α : Type} (s : Threads w α) : (a : Act α) → Decidable (s.DeadlinesValid a)
  | .call _ waitMs ts =>
    inferInstanceAs (Decidable (waitMs = WAIT_FOREVER ∨ (queueDeadline w ts waitMs).valid = true))
  | .lock _ _ | .lockTimeout _ _ | .acquire _ | .run _ _ | .wake _ | .timeout _ _ => isTrue trivial

instance {w : ℕ} {α : Type} (s : Threads w α) (a : Act α) : Decidable (s.Assumed a) :=
  inferInstanceAs (Decidable (_ ∧ _))

/-- Two consumers wait for an item that one is signalled for; two producers wait for a slot that
one is signalled for. -/
theorem no_lost_wakeup_two :
    (∃ s : Threads 64 ℕ, Sys.Reach (system 64 ℕ) Assumed s ∧ s.callsAt Pc.isWaiting .consumer = 1 ∧
      s.q.stored = 1 ∧ s.q.stored ≤ s.callsAt Pc.isSignalled .consumer) ∧
    (∃ s : Threads 64 ℕ, Sys.Reach (system 64 ℕ) AssumedFits s ∧ s.callsAt Pc.isWaiting .producer = 1 ∧
      s.q.size.toNat - s.q.stored = 1 ∧
        s.q.size.toNat - s.q.stored ≤ s.callsAt Pc.isSignalled .producer) := by
  constructor
  · have htrace : (Sys.exec (system 64 ℕ) Assumed fresh
        [.call .dequeue WAIT_FOREVER ⟨1, 0⟩, .lock 0 ⟨1, 0⟩, .run 0 none,
          .call .dequeue WAIT_FOREVER ⟨1, 0⟩, .lock 1 ⟨1, 0⟩, .run 1 none,
          .call (.enqueue 7) 0 ⟨1, 0⟩, .lock 2 ⟨1, 0⟩, .run 2 (some 0), .run 2 none]).map
        (fun s => s.owner == none && s.callsAt Pc.isWaiting .consumer == 1 && s.q.stored == 1) =
        some true := by decide
    obtain ⟨s, hs, hp⟩ := fresh_reach.of_trace htrace
    simp only [Bool.and_eq_true, beq_iff_eq] at hp
    obtain ⟨⟨ho, hwait⟩, hstored⟩ := hp
    exact ⟨s, hs, hwait, hstored, (no_lost_wakeup 64 ℕ).1 s hs ho (by rw [hwait]; decide)⟩
  · have htrace : (Sys.exec (system 64 ℕ)
        (fun s a => s.Assumed a ∧ s.q.tail.toNat + s.q.size.toNat < 2 ^ 64) fresh
        [.call (.enqueue 5) 0 ⟨1, 0⟩, .lock 0 ⟨1, 0⟩, .run 0 none, .run 0 none,
          .call (.enqueue 6) 0 ⟨1, 0⟩, .lock 1 ⟨1, 0⟩, .run 1 none, .run 1 none,
          .call (.enqueue 7) WAIT_FOREVER ⟨1, 0⟩, .lock 2 ⟨1, 0⟩, .run 2 none,
          .call (.enqueue 8) WAIT_FOREVER ⟨1, 0⟩, .lock 3 ⟨1, 0⟩, .run 3 none,
          .call .dequeue 0 ⟨1, 0⟩, .lock 4 ⟨1, 0⟩, .run 4 (some 2), .run 4 none]).map
        (fun s => s.owner == none && s.callsAt Pc.isWaiting .producer == 1 &&
          s.q.size.toNat - s.q.stored == 1) = some true := by decide
    obtain ⟨s, hs, hp⟩ := fresh_reach.of_trace htrace
    simp only [Bool.and_eq_true, beq_iff_eq] at hp
    obtain ⟨⟨ho, hwait⟩, hfree⟩ := hp
    have hfits : Sys.Reach (system 64 ℕ) AssumedFits s := by
      refine hs.mono ?_
      rintro s a ⟨hok, hfit⟩
      refine ⟨hok, ?_⟩
      cases a with
      | run i woken => exact fun _ _ _ _ _ => hfit
      | _ => exact trivial
    exact ⟨s, hfits, hwait, hfree, (no_lost_wakeup 64 ℕ).2 s hfits ho (by rw [hwait]; decide)⟩

namespace Threads

variable {w : ℕ} {α : Type} {s : Threads w α}

/-- State `s` with queue `q` and one more call, at `pc`. -/
def withCall (s : Threads w α) (q : Queue w α) (owner : Option ℕ) (request : Request α) (waitMs : UInt32)
    (pc : Pc α) : Threads w α :=
  ⟨q, owner, s.calls ++ [⟨request, waitMs, queueDeadline w ⟨0, 0⟩ waitMs, pc⟩]⟩

/-- Every call is back. -/
def AllBack (s : Threads w α) : Prop := ∀ c ∈ s.calls, ∃ retval, c.pc = .returned retval

section WithCall

variable {q : Queue w α} {owner : Option ℕ} {request : Request α} {waitMs : UInt32} {pc : Pc α}

theorem getElem?_withCall : (s.withCall q owner request waitMs pc).calls[s.calls.length]? =
    some ⟨request, waitMs, queueDeadline w ⟨0, 0⟩ waitMs, pc⟩ :=
  List.getElem?_concat_length

theorem setCall_withCall (pc' : Pc α) :
    (s.withCall q owner request waitMs pc).setCall s.calls.length
      ⟨request, waitMs, queueDeadline w ⟨0, 0⟩ waitMs, pc⟩ pc' = s.withCall q owner request waitMs pc' := by
  simp [withCall, setCall]

/-- The last call runs; nobody else waits. -/
theorem signal_withCall {k : Side} (hback : s.AllBack)
    (hpc : pc.isWaiting = false) :
    (s.withCall q owner request waitMs pc).signal k none = some (s.withCall q owner request waitMs pc) := by
  have hany : (s.withCall q owner request waitMs pc).calls.any (·.waitsOn k) = false := by
    rw [List.any_eq_false]
    intro c hc
    rcases List.mem_append.1 hc with hc | hc
    · obtain ⟨retval, hret⟩ := hback c hc
      simp [Call.waitsOn, hret, Pc.isWaiting]
    · rw [List.mem_singleton.1 hc]
      simp [Call.waitsOn, hpc]
  unfold signal
  simp [hany]

end WithCall

theorem reach_step {s' : Threads w α} {a : Act α} (h : Sys.Reach (system w α) Assumed s) (ha : s.Assumed a)
    (hs : s.step a = some s') : Sys.Reach (system w α) Assumed s' :=
  Sys.Reach.step (S := system w α) h ha hs

/-- A call starts and takes the free mutex. -/
theorem reach_enter (h : Sys.Reach (system w α) Assumed s) (ho : s.owner = none) (request : Request α)
    (waitMs : UInt32) (hms : waitMs = WAIT_FOREVER ∨ (queueDeadline w ⟨0, 0⟩ waitMs).valid = true) :
    Sys.Reach (system w α) Assumed (s.withCall s.q (some s.calls.length) request waitMs (.loop .zero)) := by
  have h1 : Sys.Reach (system w α) Assumed (s.withCall s.q none request waitMs .lock) := by
    refine reach_step (a := .call request waitMs ⟨0, 0⟩) h ⟨trivial, hms⟩ ?_
    simp [step, Timespec.valid, withCall, ho]
  refine reach_step (a := .lock s.calls.length ⟨0, 0⟩) h1 ⟨.inl rfl, trivial⟩ ?_
  have hvalid : (⟨0, 0⟩ : Timespec).valid = true := rfl
  have hown : (s.withCall s.q none request waitMs .lock).owner = none := rfl
  simp only [step, hvalid, if_true, getElem?_withCall, Option.bind_some, lockStep, hown, setCall_withCall]
  rfl

/-- The queue after an operation that found what it waits for. -/
def result (q : Queue w α) : Request α → Queue w α
  | .enqueue x => q.put x
  | .dequeue => q.take.1

/-- The last call finds what it waits for, takes it and returns. -/
theorem reach_serve (h : Sys.Reach (system w α) Assumed s) (ho : s.owner = none) (hback : s.AllBack)
    (request : Request α) (hfree : s.blocked request.side = false) :
    ∃ s', Sys.Reach (system w α) Assumed s' ∧ s'.owner = none ∧ s'.AllBack ∧ s'.q = result s.q request := by
  have h1 := reach_enter h ho request WAIT_FOREVER (.inl rfl)
  have h2 : ∃ obs, Sys.Reach (system w α) Assumed
      (s.withCall (result s.q request) (some s.calls.length) request WAIT_FOREVER (.unlock obs)) := by
    have hsig : ∀ q' obs k,
        signal (s.withCall q' (some s.calls.length) request WAIT_FOREVER (.unlock obs)) k none =
        some (s.withCall q' (some s.calls.length) request WAIT_FOREVER (.unlock obs)) :=
      fun q' obs k => signal_withCall hback rfl
    cases request with
    | enqueue x =>
      refine ⟨.enqueued true, reach_step (a := .run s.calls.length none) h1 ⟨trivial, trivial⟩ ?_⟩
      have hb : (s.withCall s.q (some s.calls.length) (.enqueue x) WAIT_FOREVER (.loop .zero)).blocked
        .producer = false := hfree
      simp only [step, getElem?_withCall, Option.bind_some, runStep, Request.side, hb, Bool.false_eq_true,
        false_and, if_false, setCall_withCall]
      exact hsig _ _ _
    | dequeue =>
      refine ⟨.dequeued (some s.q.take.2),
        reach_step (a := .run s.calls.length none) h1 ⟨trivial, trivial⟩ ?_⟩
      have hb : (s.withCall s.q (some s.calls.length) .dequeue WAIT_FOREVER (.loop .zero)).blocked
        .consumer = false := hfree
      simp only [step, getElem?_withCall, Option.bind_some, runStep, Request.side, hb, Bool.false_eq_true,
        false_and, if_false, setCall_withCall]
      exact hsig _ _ _
  obtain ⟨obs, h2⟩ := h2
  refine ⟨s.withCall (result s.q request) none request WAIT_FOREVER (.returned obs),
    reach_step (a := .run s.calls.length none) h2 ⟨trivial, trivial⟩ ?_, rfl, ?_, rfl⟩
  · simp only [step, getElem?_withCall, Option.bind_some, runStep, setCall_withCall]
    rfl
  · intro c hc
    rcases List.mem_append.1 hc with hc | hc
    · exact hback c hc
    · rw [List.mem_singleton.1 hc]
      exact ⟨obs, rfl⟩

/-- Every call is back, and both counters are at `p`. -/
structure Rested (s : Threads w α) (size : BitVec w) (p : ℕ) : Prop where
  reach : Sys.Reach (system w α) Assumed s
  owner : s.owner = none
  back : s.AllBack
  drained : Drained s.q size p

/-- An item is enqueued and dequeued, `k` times. -/
theorem Rested.pairs {size : BitVec w} {p k : ℕ} (h : Rested s size p) (hpos : 0 < size.toNat)
    (hfit : p + k + size.toNat ≤ 2 ^ w) (x : α) : ∃ s' : Threads w α, Rested s' size (p + k) := by
  induction k generalizing s p with
  | zero => exact ⟨s, h⟩
  | succ k ih =>
    obtain ⟨hfull, hempty, hdrained⟩ := h.drained.free hpos (by omega) x
    obtain ⟨s₁, h1, h2, h3, h4⟩ := reach_serve h.reach h.owner h.back (.enqueue x) hfull
    have hfree : s₁.blocked .consumer = false := by
      show s₁.q.isEmpty = false
      rw [h4]
      exact hempty
    obtain ⟨s₂, k1, k2, k3, k4⟩ := reach_serve h1 h2 h3 .dequeue hfree
    have hrested : Rested s₂ size (p + 1) := by
      refine ⟨k1, k2, k3, ?_⟩
      rw [k4, h4]
      exact hdrained
    obtain ⟨s₃, h'⟩ := ih hrested (by omega)
    exact ⟨s₃, by rwa [Nat.add_assoc, Nat.add_comm 1 k] at h'⟩

end Threads

/-- **A producer sleeps beside a free slot.** With 32-bit counters and one slot: after 2³² - 1
items have come and gone, a producer finds the empty queue full and waits, un-signalled. -/
theorem producer_sleeps_beside_free_slot : ∃ s : Threads 32 ℕ, Sys.Reach (system 32 ℕ) Assumed s ∧
    s.owner = none ∧ 0 < s.callsAt Pc.isWaiting .producer ∧
      s.callsAt Pc.isSignalled .producer < s.q.size.toNat - s.q.stored := by
  have h0 : Rested (⟨⟨fun _ => 0, 1, 0, 0, 0⟩, none, []⟩ : Threads 32 ℕ) 1 0 :=
    ⟨.init ⟨fun _ => 0, 1, rfl, rfl, rfl⟩, rfl, fun _ => List.not_mem_nil.elim, ⟨rfl, rfl, rfl, rfl⟩⟩
  have hfit : 0 + (2 ^ 32 - 1) + (1 : BitVec 32).toNat ≤ 2 ^ 32 := by decide
  obtain ⟨s, h⟩ := h0.pairs (by decide) hfit 7
  have h1 := reach_enter h.reach h.owner (.enqueue 7) WAIT_FOREVER (.inl rfl)
  -- `tail + size` is 0, so the empty queue looks full
  have hfull : s.q.isFull = true := by
    refine isFull_of_wrap (by rw [h.drained.head, h.drained.tail]) ?_
    rw [h.drained.tail, h.drained.size]
    decide
  have h2 : Sys.Reach (system 32 ℕ) Assumed
      (s.withCall s.q none (.enqueue 7) WAIT_FOREVER .waiting) := by
    refine reach_step (a := .run s.calls.length none) h1 ⟨trivial, trivial⟩ ?_
    have hb : (s.withCall s.q (some s.calls.length) (.enqueue 7) WAIT_FOREVER (.loop .zero)).blocked
      .producer = true := hfull
    simp only [step, getElem?_withCall, Option.bind_some, runStep, Request.side, hb, setCall_withCall]
    rfl
  have hnone : (s.withCall s.q none (.enqueue 7) WAIT_FOREVER .waiting).callsAt Pc.isSignalled .producer = 0 := by
    unfold callsAt
    rw [List.countP_eq_zero]
    intro c hc
    rcases List.mem_append.1 hc with hc | hc
    · obtain ⟨retval, hret⟩ := h.back c hc
      simp [hret, Pc.isSignalled]
    · rw [List.mem_singleton.1 hc]
      simp [Pc.isSignalled]
  refine ⟨_, h2, rfl, callsAt_pos _ _ getElem?_withCall rfl rfl, ?_⟩
  show _ < s.q.size.toNat - s.q.stored
  rw [hnone, Queue.stored, h.drained.head, h.drained.tail, h.drained.size]
  decide

end Cutils.TsQueue
