import Cutils.Proof.TsQueueFifo
import Cutils.Spec.TsQueueTimed

/-!
# When timed waits on a thread-safe queue end

The wait loops end on `ETIMEDOUT` only. The deadline is the sum of the clock reading and `wait_ms`, field by field: if
the nanoseconds carry, the deadline is invalid, every wait returns `EINVAL`, and the loop goes on for ever with the mutex
held (`waitLoop_spins`). Otherwise the first wait that reaches the deadline ends it (`waitLoop_ends`).

* `enqueue_noSleep`, `dequeue_noSleep`: with `NO_SLEEP` the calls are those of `Spec/TsQueue.lean`.
* `ts_queue_timed_waits_end_iff`: the calls end by their deadline if and only if the nanoseconds do not carry.
-/

namespace Cutils.TsQueue

variable {w : ℕ} {α : Type} {blocked : Queue w α → Bool} {waitMs : UInt32} {ts d : Timespec}

/-- A time in nanoseconds. -/
def Timespec.ns (t : Timespec) : ℤ := t.sec * 1000000000 + t.nsec

theorem Timespec.reached_iff {now : Timespec} (hd : d.valid = true) (hnow : now.valid = true) :
    d.reached now = true ↔ d.ns ≤ now.ns := by
  simp only [valid, Bool.and_eq_true, decide_eq_true_eq] at hd hnow
  simp only [reached, ns, Bool.or_eq_true, Bool.and_eq_true, decide_eq_true_eq, beq_iff_eq]
  omega

section Loop

/-- **An invalid deadline**: the loop does not end. -/
theorem waitLoop_spins (hms : waitMs ≠ WAIT_FOREVER) (hd : d.valid = false) {q : Queue w α} (hq : blocked q = true)
    {rval : Rval} (hr : rval ≠ .timedOut) (es : List (Waited w α)) : waitLoop blocked waitMs d (rval, q) es = none := by
  induction es generalizing rval with
  | nil => simp [waitLoop, hq, hr]
  | cons e es ih =>
    have hwait : condTimedwait d q e = (.inval, q) := by simp [condTimedwait, hd]
    simp only [waitLoop, hq, bne_iff_ne.2 hr, Bool.and_self, if_true, if_neg hms, hwait]
    exact ih (by simp)

/-- Wait `e` ends by its deadline. -/
def Waited.expires (e : Waited w α) (d : Timespec) : Bool := d.reached e.now || !e.woken

/-- **A valid deadline**: the first wait that ends by it ends the loop. -/
theorem waitLoop_ends (hms : waitMs ≠ WAIT_FOREVER) (hd : d.valid = true) {q : Queue w α} (hq : blocked q = true)
    {es : List (Waited w α)} (hes : ∀ e ∈ es, blocked e.q = true) (hexp : ∃ e ∈ es, e.expires d = true) :
    ∃ e ∈ es, waitLoop blocked waitMs d (.zero, q) es = some (.timedOut, e.q) := by
  induction es generalizing q with
  | nil =>
    obtain ⟨e, he, -⟩ := hexp
    cases he
  | cons e es ih =>
    have hstep : waitLoop blocked waitMs d (.zero, q) (e :: es) =
        waitLoop blocked waitMs d (condTimedwait d q e) es := by
      simp [waitLoop, hq, hms]
    rw [hstep]
    by_cases hfirst : e.expires d = true
    · have hwait : condTimedwait d q e = (.timedOut, e.q) := by
        unfold Waited.expires at hfirst
        simp [condTimedwait, hd, hfirst]
      rw [hwait]
      refine ⟨e, List.mem_cons_self, ?_⟩
      cases es <;> simp [waitLoop]
    · have hwait : condTimedwait d q e = (.zero, e.q) := by
        unfold Waited.expires at hfirst
        simp [condTimedwait, hd, hfirst]
      obtain ⟨e', he', hexp'⟩ := hexp
      have hrest : ∃ e ∈ es, e.expires d = true := by
        rcases List.mem_cons.1 he' with rfl | he'
        · exact absurd hexp' hfirst
        · exact ⟨e', he', hexp'⟩
      rw [hwait]
      obtain ⟨e'', he'', hend⟩ := ih (hes e List.mem_cons_self) (fun e he => hes e (List.mem_cons_of_mem _ he)) hrest
      exact ⟨e'', List.mem_cons_of_mem _ he'', hend⟩

/-- Nothing to wait for. -/
theorem waitLoop_free {q : Queue w α} (hq : blocked q = false) (es : List (Waited w α)) :
    waitLoop blocked waitMs d (.zero, q) es = some (.zero, q) := by
  cases es <;> simp [waitLoop, hq]

end Loop

section NoSleep

theorem queueDeadline_noSleep (w : ℕ) (ts : Timespec) : queueDeadline w ts 0 = ts := by
  simp [queueDeadline, WAIT_FOREVER]

/-- **An enqueue with `NO_SLEEP`**, whose wait begins no earlier than its clock reading. -/
theorem enqueue_noSleep {q : Queue w α} (item : α) {e : Waited w α} (hts : ts.valid = true)
    (hnow : ts.reached e.now = true) (hq : e.q = q) : q.enqueueTimed item ts 0 [e] = some (q.enqueue (some item)) := by
  unfold Queue.enqueueTimed Queue.enqueue
  rw [queueDeadline_noSleep]
  by_cases hfull : q.isFull = true
  · simp [waitLoop, condTimedwait, WAIT_FOREVER, hfull, hts, hnow, hq, Queue.noSleep]
  · rw [Bool.not_eq_true] at hfull
    simp [waitLoop_free hfull, hfull, Queue.noSleep]

theorem dequeue_noSleep {q : Queue w α} {e : Waited w α} (hts : ts.valid = true) (hnow : ts.reached e.now = true)
    (hq : e.q = q) : q.dequeueTimed ts 0 [e] = some q.dequeue := by
  unfold Queue.dequeueTimed Queue.dequeue
  rw [queueDeadline_noSleep]
  by_cases hempty : q.isEmpty = true
  · simp [waitLoop, condTimedwait, WAIT_FOREVER, hempty, hts, hnow, hq, Queue.noSleep]
  · rw [Bool.not_eq_true] at hempty
    simp [waitLoop_free hempty, hempty, Queue.noSleep]

end NoSleep

/-- `(long)wait_ms % 1000` is at most the milliseconds of `wait_ms`. Where `long` has 32 bits, a `wait_ms` from 2³¹ on is
negative there, and the deadline early. -/
theorem tmod_le (hw : 32 ≤ w) (waitMs : UInt32) :
    (BitVec.ofNat w waitMs.toNat).toInt.tmod 1000 ≤ ((waitMs.toNat % 1000 : ℕ) : ℤ) := by
  have hlt : waitMs.toNat < 2 ^ w := lt_of_lt_of_le waitMs.toNat_lt (Nat.pow_le_pow_right (by decide) hw)
  have hnat : (BitVec.ofNat w waitMs.toNat).toNat = waitMs.toNat := by
    rw [BitVec.toNat_ofNat, Nat.mod_eq_of_lt hlt]
  rw [BitVec.toInt_eq_toNat_cond, hnat]
  split
  · rw [Int.tmod_eq_emod_of_nonneg (Int.natCast_nonneg _)]
    exact le_of_eq (by push_cast; rfl)
  · have hneg : (waitMs.toNat : ℤ) - ((2 ^ w : ℕ) : ℤ) = -(((2 ^ w - waitMs.toNat : ℕ)) : ℤ) := by
      omega
    have hpos := Int.tmod_nonneg 1000 (Int.natCast_nonneg (2 ^ w - waitMs.toNat))
    rw [hneg, Int.neg_tmod]
    omega

/-- The deadline is never after the clock reading and `wait_ms`. -/
theorem queueDeadline_le (hw : 32 ≤ w) (hms : waitMs ≠ WAIT_FOREVER) :
    (queueDeadline w ts waitMs).ns ≤ ts.ns + waitMs.toNat * 1000000 := by
  have hmod := tmod_le hw waitMs
  unfold queueDeadline Timespec.ns
  rw [if_pos hms]
  dsimp only
  rw [UInt32.toNat_div, show (1000 : UInt32).toNat = 1000 from rfl]
  omega

/-- `(long)wait_ms % 1000`, in nanoseconds, goes into the reading's second. -/
def NoCarry (w : ℕ) (ts : Timespec) (waitMs : UInt32) : Prop :=
  0 ≤ ts.nsec + (BitVec.ofNat w waitMs.toNat).toInt.tmod 1000 * 1000000 ∧
    ts.nsec + (BitVec.ofNat w waitMs.toNat).toInt.tmod 1000 * 1000000 < 1000000000

instance (w : ℕ) (ts : Timespec) (waitMs : UInt32) : Decidable (NoCarry w ts waitMs) :=
  inferInstanceAs (Decidable (_ ∧ _))

theorem queueDeadline_valid_iff (hms : waitMs ≠ WAIT_FOREVER) :
    (queueDeadline w ts waitMs).valid = true ↔ NoCarry w ts waitMs := by
  unfold queueDeadline Timespec.valid NoCarry
  rw [if_pos hms, Bool.and_eq_true, decide_eq_true_eq, decide_eq_true_eq]

section Ends

variable (q : Queue w α) (ts : Timespec) (waitMs : UInt32)

/-- The clock passes the reading at entry and `wait_ms`: a wait begins after that, or sleeps until its deadline. -/
def Passed (es : List (Waited w α)) : Prop :=
  ∃ e ∈ es, e.woken = false ∨ ts.ns + waitMs.toNat * 1000000 ≤ e.now.ns

/-- The waits of a caller whose wait condition stays, with readings of the clock. -/
def Stays (blocked : Queue w α → Bool) (es : List (Waited w α)) : Prop :=
  ∀ e ∈ es, blocked e.q = true ∧ e.now.valid = true

/-- **The dequeue ends**: however it is woken while the queue stays empty, once the clock passes entry and `wait_ms` it
has returned false, and left the queue as it was. -/
def DequeueEnds : Prop := ∀ es, Stays Queue.isEmpty es → Passed ts waitMs es →
  ∃ e ∈ es, q.dequeueTimed ts waitMs es = some (e.q, none)

/-- The enqueue ends, while the queue stays full. -/
def EnqueueEnds (item : α) : Prop := ∀ es, Stays Queue.isFull es → Passed ts waitMs es →
  ∃ e ∈ es, q.enqueueTimed item ts waitMs es = some (e.q, false)

variable {q ts waitMs}

/-- **Both calls end** if and only if their deadline is valid; `f` is what they do after the loop. -/
theorem ends_iff {β : Type} {f : Rval × Queue w α → β} {g : Queue w α → β} (hf : ∀ q, f (.timedOut, q) = g q)
    (hw : 32 ≤ w) (hts : ts.valid = true) (hms : waitMs ≠ WAIT_FOREVER) (hq : blocked q = true) :
    (∀ es, Stays blocked es → Passed ts waitMs es → ∃ e ∈ es,
      (waitLoop blocked waitMs (queueDeadline w ts waitMs) (.zero, q) es).map f = some (g e.q)) ↔
      (queueDeadline w ts waitMs).valid = true := by
  constructor
  · intro hends
    by_contra hd
    -- nothing wakes the first wait
    obtain ⟨e, -, hend⟩ := hends [⟨ts, false, q⟩] (by simp [Stays, hq, hts]) ⟨_, List.mem_singleton_self _, .inl rfl⟩
    rw [waitLoop_spins hms (by simpa using hd) hq (by simp)] at hend
    cases hend
  · rintro hd es hstays ⟨e, he, hpass⟩
    have hexp : e.expires (queueDeadline w ts waitMs) = true := by
      unfold Waited.expires
      rcases hpass with hsleep | hpass
      · simp [hsleep]
      · have hle : (queueDeadline w ts waitMs).ns ≤ ts.ns + waitMs.toNat * 1000000 := queueDeadline_le hw hms
        rw [(Timespec.reached_iff hd (hstays e he).2).2 (hle.trans hpass)]
        rfl
    obtain ⟨e', he', hend⟩ := waitLoop_ends hms hd hq (fun e he => (hstays e he).1) ⟨e, he, hexp⟩
    exact ⟨e', he', by rw [hend, Option.map_some, hf]⟩

end Ends

/-- **Timed waits end.** For every queue, every finite `wait_ms` and every clock reading at entry, where `long` has at
least 32 bits: a dequeue on a queue that stays empty, and an enqueue on one that stays full, have returned false with
the queue unchanged once the clock passes entry and `wait_ms`, if and only if the sum of the reading's nanoseconds and
of the milliseconds of `wait_ms` is in range. -/
theorem ts_queue_timed_waits_end_iff (w : ℕ) (hw : 32 ≤ w) (α : Type) (q : Queue w α) (item : α) (waitMs : UInt32)
    (hms : waitMs ≠ WAIT_FOREVER) (ts : Timespec) (hts : ts.valid = true) :
    (q.isEmpty = true → (DequeueEnds q ts waitMs ↔ NoCarry w ts waitMs)) ∧
      (q.isFull = true → (EnqueueEnds q ts waitMs item ↔ NoCarry w ts waitMs)) := by
  rw [← queueDeadline_valid_iff hms]
  refine ⟨fun hq => ?_, fun hq => ?_⟩
  · unfold DequeueEnds Queue.dequeueTimed
    exact ends_iff (g := fun q => (q, none)) (fun _ => rfl) hw hts hms hq
  · unfold EnqueueEnds Queue.enqueueTimed
    exact ends_iff (g := fun q => (q, false)) (fun _ => rfl) hw hts hms hq

/-- Two seconds after a whole second, on an empty queue and on a full one. -/
theorem ts_queue_timed_waits_end_iff_round :
    DequeueEnds (⟨fun _ => 0, 2, 0, 0, 0⟩ : Queue 64 ℕ) ⟨5, 0⟩ 2000 ∧
      EnqueueEnds (⟨fun _ => 0, 2, 2, 2, 0⟩ : Queue 64 ℕ) ⟨5, 0⟩ 2000 7 :=
  ⟨((ts_queue_timed_waits_end_iff 64 (by decide) ℕ _ 7 2000 (by decide) ⟨5, 0⟩ rfl).1 rfl).2 (by decide),
    ((ts_queue_timed_waits_end_iff 64 (by decide) ℕ _ 7 2000 (by decide) ⟨5, 0⟩ rfl).2 rfl).2 (by decide)⟩

/-- Half a second at 0.6 s past a second: the deadline has 1.1 * 10^9 nanoseconds, and the dequeue on the empty queue
does not return, whatever happens in its waits. -/
theorem ts_queue_timed_wait_spins :
    (∀ es, (⟨fun _ => 0, 2, 0, 0, 0⟩ : Queue 64 ℕ).dequeueTimed ⟨5, 600000000⟩ 500 es = none) ∧
      ¬ DequeueEnds (⟨fun _ => 0, 2, 0, 0, 0⟩ : Queue 64 ℕ) ⟨5, 600000000⟩ 500 := by
  have hspins : ∀ es, (⟨fun _ => 0, 2, 0, 0, 0⟩ : Queue 64 ℕ).dequeueTimed ⟨5, 600000000⟩ 500 es = none := by
    intro es
    unfold Queue.dequeueTimed
    rw [waitLoop_spins (by decide) (by decide) rfl (by decide)]
    rfl
  refine ⟨hspins, fun hends => ?_⟩
  obtain ⟨e, -, hend⟩ := hends [⟨⟨9, 0⟩, false, ⟨fun _ => 0, 2, 0, 0, 0⟩⟩] (by simp [Stays]; decide)
    ⟨_, List.mem_singleton_self _, .inl rfl⟩
  rw [hspins] at hend
  cases hend

end Cutils.TsQueue
