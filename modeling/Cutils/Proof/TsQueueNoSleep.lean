import Cutils.Proof.TsQueueFifo

/-!
# Calls at a thread-safe queue that do not wait

What `ts_queue_enqueue` and `ts_queue_dequeue` do with `NO_SLEEP`, for a queue that stands for a `Fifo`: an enqueue is
refused by a full queue, and by any queue once `tail + size` wraps.
-/

namespace Cutils.TsQueue

variable {w n : ℕ} {α : Type} {q : Queue w α} {f : Fifo α n}

/-- The sizes of the queues there are. -/
theorem isPowerOfTwo_of_init {ptrArray : ℕ → α} {size : BitVec w} {mutexNew condInit : Bool}
    (h : init ptrArray size mutexNew condInit = some q) : size.toNat.isPowerOfTwo := by
  by_contra hpow
  rw [← pow_iff, Bool.not_eq_true] at hpow
  unfold init at h
  rw [if_pos (by rw [hpow]; rfl)] at h
  cases h

/-- An enqueue that does not wait, while the full test does not wrap. -/
theorem Refines.enqueue_room (h : Refines q f) (hfit : q.tail.toNat + q.size.toNat < 2 ^ w) (hroom : f.count < n)
    (x : α) : ∃ q', q.enqueue (some x) = (q', true) ∧ Refines q' (f.append [x]) ∧ q'.tail = q.tail := by
  have hnot : q.isFull = false := by simpa [hroom] using h.isFull hfit
  have hhead : q.head.toNat + 1 < 2 ^ w := by
    have h1 := h.counters
    have h2 := h.size
    omega
  exact ⟨q.put x, by simp [Queue.enqueue, Queue.noSleep, hnot], h.put hroom hhead x, rfl⟩

theorem Refines.enqueue_full (h : Refines q f) (hfit : q.tail.toNat + q.size.toNat < 2 ^ w) (hfull : ¬ f.count < n)
    (x : α) : q.enqueue (some x) = (q, false) := by
  have hyes : q.isFull = true := (h.isFull hfit).2 hfull
  simp [Queue.enqueue, Queue.noSleep, hyes]

/-- Once the full test wraps, there is room and the queue refuses. -/
theorem Refines.enqueue_wrap (h : Refines q f) (hwrap : ¬ q.tail.toNat + q.size.toNat < 2 ^ w) (x : α) :
    q.enqueue (some x) = (q, false) ∧ f.count < n := by
  have h1 := h.counters
  have h2 := h.size
  have h3 := q.head.isLt
  have hfull := isFull_of_wrap (by omega) (Nat.le_of_not_lt hwrap)
  exact ⟨by simp [Queue.enqueue, Queue.noSleep, hfull], by omega⟩

theorem Refines.dequeue_cons (h : Refines q f) {x : α} {rest : List α} (hf : f.items = x :: rest) :
    q.isEmpty = false ∧ ∃ q', q.take = (q', x) ∧ q.dequeue = (q', some x) ∧ Refines q' (f.discard 1) := by
  have hnot : q.isEmpty = false := by
    rw [← Bool.not_eq_true, h.isEmpty, hf]
    simp
  obtain ⟨hx, hR⟩ := h.take hf
  exact ⟨hnot, q.take.1, Prod.ext rfl hx, by simp [Queue.dequeue, Queue.noSleep, hnot, hx], hR⟩

theorem Refines.dequeue_nil (h : Refines q f) (hf : f.items = []) : q.isEmpty = true ∧ q.dequeue = (q, none) := by
  have hyes := h.isEmpty.2 hf
  exact ⟨hyes, by simp [Queue.dequeue, Queue.noSleep, hyes]⟩

end Cutils.TsQueue
