import Cutils.Proof.TsQueueWakeup

/-!
# The wait conditions of a thread-safe queue and its counters

`head` and `tail` wrap around at `2 ^ w`; the number of items is their distance. `tail <= head` holds in every state
(`reach_counters`), since the full test `tail + size <= head` stops every enqueue once `tail + size` wraps, before
`head` does.

* `ts_queue_conditions_iff`: in every state of every interleaving of whole critical sections, both wait conditions say what
  they should if and only if `tail + size` does not wrap.
* `ts_queue_full_when_empty`: the state in which an empty queue looks full.
-/

namespace Cutils.TsQueue

variable {w : ℕ} {α : Type}

/-- The items stored, `head - tail` modulo `2 ^ w`. -/
def Queue.items (q : Queue w α) : ℕ := (q.head - q.tail).toNat

section Conditions

variable {q : Queue w α} (h : Counters q)
include h

theorem Counters.items : q.items = q.head.toNat - q.tail.toNat :=
  BitVec.toNat_sub_of_le (BitVec.le_def.2 h.le)

theorem Counters.items_le : q.items ≤ q.size.toNat := by
  have hfits := h.fits
  rw [h.items]
  omega

/-- The empty test is right. -/
theorem Counters.isEmpty_iff : q.isEmpty = true ↔ q.items = 0 := by
  have hle := h.le
  unfold Queue.isEmpty
  rw [h.items, decide_eq_true_eq, ge_iff_le, BitVec.le_def]
  omega

/-- **The full test is right** if and only if it does not wrap. -/
theorem Counters.isFull_iff :
    (q.isFull = true ↔ q.items = q.size.toNat) ↔ q.tail.toNat + q.size.toNat < 2 ^ w := by
  have hle := h.le
  have hfits := h.fits
  have hhead := q.head.isLt
  constructor
  · intro hright
    by_contra hwrap
    -- a full queue would have its head counter at `2 ^ w` or beyond
    have hfull := hright.1 (isFull_of_wrap hle (Nat.le_of_not_lt hwrap))
    rw [h.items] at hfull
    omega
  · intro hfit
    unfold Queue.isFull
    rw [h.items, decide_eq_true_eq, BitVec.le_def, BitVec.toNat_add, Nat.mod_eq_of_lt hfit]
    omega

end Conditions

namespace Threads

variable {s s' : Threads w α}

theorem signal_queue {k : Side} {woken : Option ℕ} (hs : s.signal k woken = some s') : s'.q = s.q := by
  rcases signal_cases hs with ⟨j, c, -, -, -, rfl⟩ | ⟨-, rfl⟩
  · rfl
  · rfl

/-- **Every step** keeps the counters apart by at most the size: an enqueue has seen the full test fail, and a dequeue
the empty test. -/
theorem step_counters {a : Act α} (h : Counters s.q) (hs : s.step a = some s') : Counters s'.q := by
  cases step_trans hs with
  | put i c rval woken x s' hc hpc hr hb hs =>
    rw [signal_queue hs]
    exact (h.put hb x).1
  | take i c woken s' hc hpc hr hb hs =>
    rw [signal_queue hs]
    exact (h.take hb).1
  | _ => exact h

theorem reach_counters {ok : Threads w α → Act α → Prop} (h : Sys.Reach (system w α) ok s) : Counters s.q :=
  h.inv (fun _ hi => (init_sound hi).counters) fun _ _ _ h _ hs => step_counters h hs

end Threads

open Threads

/-- **The wait conditions and the counters.** For every width, every accepted size and every interleaving of enqueues
and dequeues, with any waits and each critical section a step: at most `size` items are stored, and the wait condition
of a dequeue says that there is none and that of an enqueue that there are `size`, if and only if `tail + size` is below
`2 ^ w`. -/
theorem ts_queue_conditions_iff (w : ℕ) (α : Type) (s : Threads w α) (h : Sys.Reach (system w α) Sys.Always s) :
    s.q.items ≤ s.q.size.toNat ∧
      ((s.q.isEmpty = true ↔ s.q.items = 0) ∧ (s.q.isFull = true ↔ s.q.items = s.q.size.toNat) ↔
        s.q.tail.toNat + s.q.size.toNat < 2 ^ w) := by
  have hc := reach_counters h
  refine ⟨hc.items_le, ?_⟩
  rw [← hc.isFull_iff]
  exact and_iff_right hc.isEmpty_iff

/-- Five items come and go, and four more come. -/
def refill : List (Act ℕ) :=
  ((List.range 5).flatMap fun k => [.call (.enqueue k) WAIT_FOREVER ⟨1, 0⟩, .lock (2 * k) ⟨1, 0⟩, .run (2 * k) none,
    .run (2 * k) none, .call .dequeue 0 ⟨1, 0⟩, .lock (2 * k + 1) ⟨1, 0⟩, .run (2 * k + 1) none,
    .run (2 * k + 1) none]) ++
  (List.range 4).flatMap fun k => [.call (.enqueue k) 0 ⟨1, 0⟩, .lock (10 + k) ⟨1, 0⟩, .run (10 + k) none,
    .run (10 + k) none]

/-- A queue of four slots that is full, all of its slots used for the second time. -/
theorem ts_queue_conditions_iff_full : ∃ s : Threads 32 ℕ, Sys.Reach (system 32 ℕ) Sys.Always s ∧ s.q.size = 4 ∧
    s.q.head = 9 ∧ s.q.tail = 5 ∧ s.q.isFull = true ∧ s.q.isEmpty = false := by
  have h : Sys.Reach (system 32 ℕ) Sys.Always ⟨⟨fun _ => 0, 4, 0, 0, 0⟩, none, []⟩ :=
    .init ⟨fun _ => 0, 4, rfl, rfl, rfl⟩
  have htrace : (Sys.exec (system 32 ℕ) Sys.Always ⟨⟨fun _ => 0, 4, 0, 0, 0⟩, none, []⟩ refill).map
      (fun s => s.q.size == 4 && s.q.head == 9 && s.q.tail == 5) = some true := by decide +kernel
  obtain ⟨s, hs, hp⟩ := h.of_trace htrace
  simp only [Bool.and_eq_true, beq_iff_eq] at hp
  obtain ⟨⟨hsize, hhead⟩, htail⟩ := hp
  have hitems : s.q.items = 4 := by
    unfold Queue.items
    rw [hhead, htail]
    rfl
  obtain ⟨hempty, hfull⟩ := (ts_queue_conditions_iff 32 ℕ s hs).2.2 (by rw [htail, hsize]; decide)
  refine ⟨s, hs, hsize, hhead, htail, hfull.2 (by rw [hitems, hsize]; rfl), ?_⟩
  rw [← Bool.not_eq_true, hempty, hitems]
  exact Nat.succ_ne_zero 3

/-- **An empty queue that looks full.** With 32-bit counters and four slots, after 2³² - 4 items have come and gone:
`tail + size` is 0, so the wait condition of an enqueue holds. -/
theorem ts_queue_full_when_empty : ∃ s : Threads 32 ℕ, Sys.Reach (system 32 ℕ) Sys.Always s ∧ s.q.size = 4 ∧
    s.q.items = 0 ∧ s.q.isFull = true ∧ ¬ (s.q.isFull = true ↔ s.q.items = s.q.size.toNat) := by
  have h0 : Rested (⟨⟨fun _ => 0, 4, 0, 0, 0⟩, none, []⟩ : Threads 32 ℕ) 4 0 :=
    ⟨.init ⟨fun _ => 0, 4, rfl, rfl, rfl⟩, rfl, fun _ => List.not_mem_nil.elim, ⟨rfl, rfl, rfl, rfl⟩⟩
  obtain ⟨s, h⟩ := h0.pairs (k := 2 ^ 32 - 4) (by decide) (by decide) 7
  have hreach : Sys.Reach (system 32 ℕ) Sys.Always s := h.reach.mono fun _ _ _ => trivial
  have hitems : s.q.items = 0 := by
    rw [(reach_counters hreach).items, h.drained.head, h.drained.tail, Nat.sub_self]
  have hfull : s.q.isFull = true := by
    refine isFull_of_wrap (by rw [h.drained.head, h.drained.tail]) ?_
    rw [h.drained.tail, h.drained.size]
    decide
  refine ⟨s, hreach, h.drained.size, hitems, hfull, ?_⟩
  intro hright
  have h4 := hright.1 hfull
  rw [hitems, h.drained.size] at h4
  exact absurd h4 (by decide)

end Cutils.TsQueue
