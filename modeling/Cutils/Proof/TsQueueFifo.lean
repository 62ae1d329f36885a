import Cutils.Lib.Cyclic
import Cutils.Lib.Fifo
import Cutils.Spec.TsQueue

/-!
# The thread-safe queue is a bounded queue of pointers

`init` accepts exactly the powers of two, for which the mask `size - 1` is the modulus.
`Refines` relates a queue to the `Fifo` it stands for. The full test `tail + size <= head`
wraps once `tail + size` reaches `2 ^ w`, before `head` does, and then every enqueue is
refused.

* `init_accepts`: the sizes `ts_queue_init` accepts.
* `ts_queue_agrees_fifo`: with fewer than `2 ^ w` enqueues, the answers of a sequence of
  calls are the queue's if and only if every enqueue is made with `tail + size < 2 ^ w`.
* `empty_queue_refuses`: an empty queue of two slots that refuses.
-/

namespace Cutils.TsQueue

open Cyclic

variable {w n : ℕ} {α : Type}

/-- **The queue a `ts_queue_t` stands for.** -/
def fifoCall (f : Fifo α n) : Op α → Fifo α n × Obs α
  | .enqueue x => if f.count < n then (f.append [x], .enqueued true) else (f, .enqueued false)
  | .dequeue => match f.items with
    | [] => (f, .dequeued none)
    | x :: _ => (f.discard 1, .dequeued (some x))
  | .getCount => (f, .count f.count)

/-- The full test of an enqueue does not wrap. -/
def TestFits (q : Queue w α) : Op α → Prop
  | .enqueue _ => q.tail.toNat + q.size.toNat < 2 ^ w
  | _ => True

instance (q : Queue w α) : ∀ op, Decidable (TestFits q op)
  | .enqueue _ => inferInstanceAs (Decidable (_ < _))
  | .dequeue | .getCount => inferInstanceAs (Decidable True)

/-- The answer of an enqueue that stored its item. -/
def Obs.accepted : Obs α → Bool
  | .enqueued retval => retval
  | _ => false

/-- The number of items a sequence of calls enqueues. -/
def enqueues (f : Fifo α n) (ops : List (Op α)) : ℕ := (Device.runSpec fifoCall f ops).2.countP Obs.accepted

/-- Queue `q` stands for `f`. -/
structure Refines (q : Queue w α) (f : Fifo α n) : Prop where
  size : q.size.toNat = n
  pow : n.isPowerOfTwo
  counters : q.head.toNat = q.tail.toNat + f.count
  count : q.count.toNat = f.count
  holds : Holds n q.ppPtrArray q.tail.toNat f.items

section Mask

/-- The width is positive if some size fits. -/
theorem toNat_one_of_lt {m : ℕ} (h : m < 2 ^ w) (hm : 0 < m) : (1#w).toNat = 1 := by
  rw [BitVec.toNat_ofNat]
  exact Nat.mod_eq_of_lt (by omega)

theorem toNat_sub_one {x : BitVec w} (hx : 0 < x.toNat) : (x - 1).toNat = x.toNat - 1 := by
  have h1 : (1#w).toNat = 1 := toNat_one_of_lt x.isLt hx
  have hle : 1#w ≤ x := by rw [BitVec.le_def, h1]; exact hx
  exact (BitVec.toNat_sub_of_le hle).trans (by rw [h1])

theorem toNat_add_one {x : BitVec w} (hx : x.toNat + 1 < 2 ^ w) : (x + 1).toNat = x.toNat + 1 := by
  have h1 : (1#w).toNat = 1 := toNat_one_of_lt hx (by omega)
  rw [BitVec.toNat_add]
  have h2 : (1 : BitVec w).toNat = 1 := h1
  rw [h2, Nat.mod_eq_of_lt hx]

/-- **The sizes `ts_queue_init` accepts** are the powers of two. -/
theorem pow_iff (size : BitVec w) :
    (0 < size && size &&& (size - 1) == 0) = true ↔ size.toNat.isPowerOfTwo := by
  rw [← Nat.ne_zero_and_sub_one_eq_zero_iff_isPowerOfTwo]
  simp only [Bool.and_eq_true, decide_eq_true_eq, beq_iff_eq, BitVec.lt_def, ← BitVec.toNat_inj,
    BitVec.toNat_and]
  have hzero : (0 : BitVec w).toNat = 0 := BitVec.toNat_ofNat 0 w ▸ Nat.zero_mod _
  rw [hzero]
  constructor
  · rintro ⟨h1, h2⟩
    exact ⟨by omega, by rwa [toNat_sub_one h1] at h2⟩
  · rintro ⟨h1, h2⟩
    have hpos : 0 < size.toNat := by omega
    exact ⟨hpos, by rwa [toNat_sub_one hpos]⟩

/-- For these, the mask is the modulus. -/
theorem slot_eq (q : Queue w α) (hpow : q.size.toNat.isPowerOfTwo) (p : BitVec w) :
    q.slot p = p.toNat % q.size.toNat := by
  obtain ⟨k, hk⟩ := hpow
  have hpos : 0 < q.size.toNat := by rw [hk]; exact Nat.two_pow_pos k
  unfold Queue.slot
  rw [BitVec.toNat_and, toNat_sub_one hpos, hk, Nat.and_two_pow_sub_one_eq_mod]

end Mask

variable {q : Queue w α} {f : Fifo α n}

theorem Refines.isEmpty (h : Refines q f) : q.isEmpty = true ↔ f.items = [] := by
  have h1 := h.counters
  unfold Queue.isEmpty
  rw [decide_eq_true_eq, ge_iff_le, BitVec.le_def, ← List.length_eq_zero_iff]
  unfold Fifo.count at h1
  omega

/-- The full test, while `tail + size` does not wrap. -/
theorem Refines.isFull (h : Refines q f) (hfit : q.tail.toNat + q.size.toNat < 2 ^ w) :
    q.isFull = true ↔ ¬ f.count < n := by
  have h1 := h.counters
  have h2 := h.size
  unfold Queue.isFull
  rw [decide_eq_true_eq, BitVec.le_def, BitVec.toNat_add, Nat.mod_eq_of_lt hfit]
  omega

/-- Once it has wrapped, the queue looks full, whatever it holds. -/
theorem isFull_of_wrap (htail : q.tail.toNat ≤ q.head.toNat)
    (hwrap : 2 ^ w ≤ q.tail.toNat + q.size.toNat) : q.isFull = true := by
  have h1 := q.size.isLt
  have h2 := q.tail.isLt
  unfold Queue.isFull
  rw [decide_eq_true_eq, BitVec.le_def, BitVec.toNat_add, Nat.mod_eq_sub_mod hwrap,
    Nat.mod_eq_of_lt (by omega)]
  omega

theorem Refines.put (h : Refines q f) (hroom : f.count < n) (hhead : q.head.toNat + 1 < 2 ^ w) (x : α) :
    Refines (q.put x) (f.append [x]) := by
  have hitems := Fifo.items_append_one hroom x
  have hcount : (f.append [x]).count = f.count + 1 := by
    unfold Fifo.count
    rw [hitems, List.length_append]
    rfl
  have hsize := q.size.isLt
  have hslot : q.slot q.head = q.head.toNat % n := by
    rw [slot_eq q (h.size ▸ h.pow), h.size]
  refine ⟨h.size, h.pow, ?_, ?_, ?_⟩
  · rw [hcount]
    show (q.head + 1).toNat = _
    rw [toNat_add_one hhead, h.counters]
    rfl
  · rw [hcount]
    show (q.count + 1).toNat = _
    rw [toNat_add_one (by rw [h.count]; have := h.size; omega), h.count]
  · rw [hitems]
    show Holds n (Function.update q.ppPtrArray (q.slot q.head) x) q.tail.toNat _
    rw [hslot]
    have hlen : q.tail.toNat + f.items.length = q.head.toNat := h.counters.symm
    apply Holds.append
    · -- the slot of `head` is none of those in use
      have hroom : q.tail.toNat + f.items.length + 1 ≤ q.tail.toNat + n := by
        unfold Fifo.count at hroom
        omega
      refine h.holds.keep (Nat.le_refl _) hroom ?_
      intro i hi
      rw [Function.update_of_ne]
      have := hi 0 (by omega)
      rwa [hlen, Nat.add_zero] at this
    · intro k y hk
      cases k with
      | zero =>
        simp only [List.getElem?_cons_zero, Option.some.injEq] at hk
        rw [hlen, Nat.add_zero, Function.update_self, hk]
      | succ k => simp at hk

theorem Refines.take (h : Refines q f) {x : α} {rest : List α} (hf : f.items = x :: rest) :
    q.take.2 = x ∧ Refines q.take.1 (f.discard 1) := by
  have hcount : f.count = rest.length + 1 := by unfold Fifo.count; rw [hf]; rfl
  have hcounters := h.counters
  have hhead := q.head.isLt
  have hitems := Fifo.items_discard_one hf
  have hcount' : (f.discard 1).count = rest.length := by unfold Fifo.count; rw [hitems]
  have htail : (q.tail + 1).toNat = q.tail.toNat + 1 := toNat_add_one (by omega)
  constructor
  · show q.ppPtrArray (q.slot q.tail) = x
    rw [slot_eq q (h.size ▸ h.pow), h.size]
    exact h.holds 0 x (by rw [hf]; rfl)
  · refine ⟨h.size, h.pow, ?_, ?_, ?_⟩
    · show q.head.toNat = (q.tail + 1).toNat + _
      rw [htail, hcount', hcounters, hcount]
      omega
    · show (q.count - 1).toNat = _
      rw [toNat_sub_one (by rw [h.count]; omega), h.count, hcount, hcount']
      rfl
    · show Holds n q.ppPtrArray (q.tail + 1).toNat _
      have hdrop := h.holds.drop 1
      rw [hf] at hdrop
      rw [htail, hitems]
      exact hdrop

/-- The head counter does not wrap in the calls left. -/
def Budget (q : Queue w α) (f : Fifo α n) (ops : List (Op α)) : Prop :=
  q.head.toNat + enqueues f ops < 2 ^ w

/-- **One call**, while the full test does not wrap. -/
theorem call_refines (op : Op α) (ops : List (Op α)) (h : Refines q f) (hfit : Budget q f (op :: ops))
    (hok : TestFits q op) :
    ∃ q', q.call op = some (q', (fifoCall f op).2) ∧ Refines q' (fifoCall f op).1 ∧
      Budget q' (fifoCall f op).1 ops := by
  unfold Budget at *
  have hsplit : enqueues f (op :: ops) =
      enqueues (fifoCall f op).1 ops + if (fifoCall f op).2.accepted then 1 else 0 := by
    unfold enqueues
    simp only [Device.runSpec, List.countP_cons]
  rw [hsplit] at hfit
  cases op with
  | enqueue x =>
    -- the full test is right, as it does not wrap
    have hfull := h.isFull hok
    by_cases hroom : f.count < n
    · have hnot : q.isFull = false := by simpa [hroom] using hfull
      simp only [fifoCall, if_pos hroom, Obs.accepted, if_true] at hfit ⊢
      have hhead : q.head.toNat + 1 < 2 ^ w := by omega
      refine ⟨q.put x, ?_, h.put hroom hhead x, ?_⟩
      · simp [Queue.call, Queue.enqueue, Queue.noSleep, hnot]
      · show (q.head + 1).toNat + _ < _
        rw [toNat_add_one hhead]
        omega
    · have hyes : q.isFull = true := hfull.2 hroom
      simp only [fifoCall, if_neg hroom, Obs.accepted] at hfit ⊢
      exact ⟨q, by simp [Queue.call, Queue.enqueue, Queue.noSleep, hyes], h, by simpa using hfit⟩
  | dequeue =>
    cases hf : f.items with
    | nil =>
      have hyes := h.isEmpty.2 hf
      simp only [fifoCall, hf, Obs.accepted] at hfit ⊢
      exact ⟨q, by simp [Queue.call, Queue.dequeue, Queue.noSleep, hyes], h, by simpa using hfit⟩
    | cons x rest =>
      have hnot : q.isEmpty = false := by
        rw [← Bool.not_eq_true, h.isEmpty, hf]
        simp
      obtain ⟨hx, hR⟩ := h.take hf
      simp only [fifoCall, hf, Obs.accepted] at hfit ⊢
      refine ⟨q.take.1, ?_, hR, ?_⟩
      · simp [Queue.call, Queue.dequeue, Queue.noSleep, hnot, hx]
      · show q.head.toNat + _ < _
        simpa using hfit
  | getCount =>
    refine ⟨q, ?_, h, by simpa [fifoCall, Obs.accepted] using hfit⟩
    simp [Queue.call, Queue.getCount, fifoCall, h.count]

/-- An enqueue whose full test wraps is refused, and there was room. -/
theorem call_refuses (op : Op α) (h : Refines q f) (hbad : ¬ TestFits q op) {q' : Queue w α} {o : Obs α}
    (hs : q.call op = some (q', o)) : o ≠ (fifoCall f op).2 := by
  cases op with
  | enqueue x =>
    have hwrap : 2 ^ w ≤ q.tail.toNat + q.size.toNat := Nat.le_of_not_lt hbad
    have h1 := h.counters
    have h2 := h.size
    have h3 := q.head.isLt
    have hfull := isFull_of_wrap (by omega) hwrap
    have hroom : f.count < n := by omega
    simp only [Queue.call, Queue.enqueue, Queue.noSleep, hfull, if_true, ne_eq, not_true_eq_false, if_false,
      Option.some.injEq, Prod.mk.injEq] at hs
    rw [← hs.2]
    simp [fifoCall, hroom]
  | dequeue => exact absurd trivial hbad
  | getCount => exact absurd trivial hbad

/-- A queue that was just initialised stands for the empty one. -/
theorem init_refines (ptrArray : ℕ → α) {size : BitVec w} (hpow : size.toNat.isPowerOfTwo) :
    ∃ q₀, init ptrArray size true true = some q₀ ∧ q₀.head.toNat = 0 ∧
      Refines q₀ (Fifo.empty : Fifo α size.toNat) := by
  have hzero : (0 : BitVec w).toNat = 0 := BitVec.toNat_ofNat 0 w ▸ Nat.zero_mod _
  refine ⟨⟨ptrArray, size, 0, 0, 0⟩, ?_, hzero, rfl, hpow, ?_, hzero, Holds.nil _ _⟩
  · unfold init
    rw [(pow_iff size).2 hpow]
    rfl
  · rw [hzero]
    rfl

/-- **The thread-safe queue against a bounded queue.** `ts_queue_init` returns null for every
size that is not a power of two. For every other size and every sequence of `NO_SLEEP` calls
that enqueues fewer than `2 ^ w` items, every answer is the one of a FIFO queue of capacity
`size` if and only if every enqueue is called with `tail + size < 2 ^ w`. -/
theorem ts_queue_agrees_fifo (ptrArray : ℕ → α) (size : BitVec w) :
    (¬ size.toNat.isPowerOfTwo → ∀ mutexNew condInit, init ptrArray size mutexNew condInit = none) ∧
    (size.toNat.isPowerOfTwo → ∃ q₀, init ptrArray size true true = some q₀ ∧
      ∀ ops, enqueues (Fifo.empty : Fifo α size.toNat) ops < 2 ^ w →
        ((Device.run Queue.call q₀ ops).map Prod.snd =
            some (Device.runSpec fifoCall (Fifo.empty : Fifo α size.toNat) ops).2 ↔
          Device.Along Queue.call TestFits q₀ ops)) := by
  constructor
  · -- the size is tested first
    intro hpow mutexNew condInit
    unfold init
    rw [if_pos]
    rw [← pow_iff, Bool.not_eq_true] at hpow
    rw [hpow]
    rfl
  · intro hpow
    obtain ⟨q₀, hinit, hhead, hR⟩ := init_refines ptrArray hpow
    refine ⟨q₀, hinit, ?_⟩
    intro ops hfew
    have hfit : Budget q₀ (Fifo.empty : Fifo α size.toNat) ops := by
      unfold Budget
      rw [hhead, Nat.zero_add]
      exact hfew
    -- right answers as long as the test fits, and a wrong one at the first enqueue where it does not
    exact Device.agrees_iff (fun q f op ops h hfit hok => call_refines op ops h hfit hok)
      (fun q f op ops h _ hbad q' o hs => call_refuses op h hbad hs) ops q₀ Fifo.empty hR hfit

/-- Two slots: a third item finds no room, and the slot of the first is used again. -/
theorem ts_queue_agrees_fifo_two :
    init (fun _ => 0) (3 : BitVec 32) true true = none ∧
      ∃ q₀, init (fun _ => 0) (2 : BitVec 32) true true = some q₀ ∧
        (Device.run Queue.call q₀ [.enqueue 7, .enqueue 8, .enqueue 9, .dequeue, .enqueue 9, .dequeue, .dequeue]).map
            Prod.snd =
          some [.enqueued true, .enqueued true, .enqueued false, .dequeued (some 7), .enqueued true,
            .dequeued (some 8), .dequeued (some 9)] := by
  have hthree : ¬ (3 : BitVec 32).toNat.isPowerOfTwo := by
    rw [← pow_iff]
    decide
  obtain ⟨q₀, hinit, hiff⟩ := (ts_queue_agrees_fifo (fun _ => 0) (2 : BitVec 32)).2 ⟨1, rfl⟩
  refine ⟨(ts_queue_agrees_fifo (fun _ => 0) (3 : BitVec 32)).1 hthree true true, q₀, hinit, ?_⟩
  obtain rfl := Option.some.inj hinit
  exact (hiff [.enqueue 7, .enqueue 8, .enqueue 9, .dequeue, .enqueue 9, .dequeue, .dequeue] (by decide)).2 (by decide)

/-- An enqueue and a dequeue, `k` times. -/
def pairs (x : α) : ℕ → List (Op α)
  | 0 => []
  | k + 1 => .enqueue x :: .dequeue :: pairs x k

def Op.isEnqueue : Op α → Bool
  | .enqueue _ => true
  | _ => false

/-- Both counters at `p`, nothing stored. -/
structure Drained (q : Queue w α) (size : BitVec w) (p : ℕ) : Prop where
  size : q.size = size
  head : q.head.toNat = p
  tail : q.tail.toNat = p
  count : q.count = 0

/-- A pair of calls on an empty queue finds room and then an item, and moves both counters on
by one. -/
theorem Drained.free {q : Queue w α} {size : BitVec w} {p : ℕ} (h : Drained q size p)
    (hpos : 0 < size.toNat) (hfit : p + size.toNat < 2 ^ w) (x : α) :
    q.isFull = false ∧ (q.put x).isEmpty = false ∧ Drained (q.put x).take.1 size (p + 1) := by
  have hhead : (q.head + 1).toNat = p + 1 := by rw [toNat_add_one (by rw [h.head]; omega), h.head]
  have htail : (q.tail + 1).toNat = p + 1 := by rw [toNat_add_one (by rw [h.tail]; omega), h.tail]
  refine ⟨?_, ?_, h.size, hhead, htail, ?_⟩
  · unfold Queue.isFull
    rw [decide_eq_false_iff_not, BitVec.le_def, BitVec.toNat_add, h.tail, h.head, h.size,
      Nat.mod_eq_of_lt hfit]
    omega
  · unfold Queue.isEmpty
    rw [decide_eq_false_iff_not, ge_iff_le, BitVec.le_def]
    show ¬ (q.head + 1).toNat ≤ q.tail.toNat
    rw [hhead, h.tail]
    omega
  · show q.count + 1 - 1 = 0
    rw [h.count, BitVec.add_sub_cancel]

theorem call_enqueue {q : Queue w α} (hfull : q.isFull = false) (x : α) :
    q.call (.enqueue x) = some (q.put x, .enqueued true) := by
  simp [Queue.call, Queue.enqueue, Queue.noSleep, hfull]

theorem call_dequeue {q : Queue w α} (hempty : q.isEmpty = false) :
    q.call .dequeue = some (q.take.1, .dequeued (some q.take.2)) := by
  simp [Queue.call, Queue.dequeue, Queue.noSleep, hempty]

theorem Drained.pairs {q : Queue w α} {size : BitVec w} {p k : ℕ} (h : Drained q size p)
    (hpos : 0 < size.toNat) (hfit : p + k + size.toNat ≤ 2 ^ w) (x : α) :
    ∃ r, Device.run Queue.call q (pairs x k) = some r ∧ Drained r.1 size (p + k) := by
  induction k generalizing q p with
  | zero => exact ⟨_, rfl, h⟩
  | succ k ih =>
    obtain ⟨hfull, hempty, hdrained⟩ := h.free hpos (by omega) x
    obtain ⟨r, hr, hd⟩ := ih hdrained (by omega)
    refine ⟨(r.1, .enqueued true :: .dequeued (some (q.put x).take.2) :: r.2), ?_, ?_⟩
    · simp only [TsQueue.pairs, Device.run, call_enqueue hfull, call_dequeue hempty, hr, Option.bind_some,
        Option.map_some]
    · rwa [Nat.add_assoc, Nat.add_comm 1 k] at hd

theorem countP_pairs (x : α) (k : ℕ) : (pairs x k).countP Op.isEnqueue = k := by
  induction k with
  | zero => rfl
  | succ k ih =>
    unfold pairs
    rw [List.countP_cons_of_pos rfl, List.countP_cons_of_neg (by simp [Op.isEnqueue]), ih]

/-- **An empty queue that refuses.** With 32-bit counters and two slots: after 2³² - 2
enqueues, each followed by a dequeue, the queue is empty and refuses the next enqueue. -/
theorem empty_queue_refuses : ∃ (q₀ q : Queue 32 ℕ) (ops : List (Op ℕ)) (obs : List (Obs ℕ)),
    init (fun _ => 0) 2 true true = some q₀ ∧
      ops.countP Op.isEnqueue + 1 < 2 ^ 32 ∧
      Device.run Queue.call q₀ ops = some (q, obs) ∧ q.head = q.tail ∧ q.getCount = 0 ∧
      q.call (.enqueue 7) = some (q, .enqueued false) := by
  have h0 : Drained (⟨fun _ => 0, 2, 0, 0, 0⟩ : Queue 32 ℕ) 2 0 := ⟨rfl, rfl, rfl, rfl⟩
  have hpos : 0 < (2 : BitVec 32).toNat := by decide
  have hfit : 0 + (2 ^ 32 - 2) + (2 : BitVec 32).toNat ≤ 2 ^ 32 := by decide
  obtain ⟨r, hr, hd⟩ := h0.pairs hpos hfit 7
  refine ⟨_, r.1, pairs 7 (2 ^ 32 - 2), r.2, rfl, ?_, hr, ?_, ?_, ?_⟩
  · rw [countP_pairs]
    decide
  · rw [← BitVec.toNat_inj, hd.head, hd.tail]
  · unfold Queue.getCount
    rw [hd.count]
    rfl
  · have hwrap : 2 ^ 32 ≤ r.1.tail.toNat + r.1.size.toNat := by
      rw [hd.tail, hd.size]
      decide
    have hfull := isFull_of_wrap (by rw [hd.head, hd.tail]) hwrap
    simp [Queue.call, Queue.enqueue, Queue.noSleep, hfull]

end Cutils.TsQueue
