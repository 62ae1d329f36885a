import Cutils.Lib.Fifo
import Cutils.Proof.RingMemory

/-!
# The ring buffer, used by one thread, is a bounded byte queue

`fifoCall` is the purpose of each operation on a queue of capacity `size`.
`Refines` relates a buffer to the queue it stands for, and every operation whose
64-bit offsets do not wrap keeps the relation and answers as the queue does
(`call_refines`). `ring_buffer_refines_fifo` carries this to every sequence of calls
on a buffer whose offsets start at 0, whatever its size and memory.
-/

namespace Cutils.Ring

open Cyclic

variable {n : UInt32}

/-- **The queue a ring buffer stands for.** -/
def fifoCall (q : Fifo UInt8 n.toNat) : Op → Fifo UInt8 n.toNat × Obs
  | .write data size => (q.append (firstN data size.toNat), .wrote (min size.toNat q.free))
  | .get length peek =>
    (if peek then q else q.discard length.toNat, .got (q.oldest length.toNat))
  | .clear length => (q.discard length.toNat, .done)
  | .reset _ => (Fifo.empty, .done)

/-- The write of `op`, if it is one, does not wrap the 64-bit write offset. -/
def OffsetsFit (b : RingBuffer) : Op → Prop
  | .write _ size => b.writeOffset.toNat + (MIN size b.getBytesAvailableForWrite).toNat < 2 ^ 64
  | _ => True

instance (b : RingBuffer) : ∀ op, Decidable (OffsetsFit b op)
  | .write _ _ => inferInstanceAs (Decidable (_ < _))
  | .get _ _ | .clear _ | .reset _ => inferInstanceAs (Decidable True)

/-- Buffer `b` stands for queue `q`. -/
structure Refines (b : RingBuffer) (q : Fifo UInt8 n.toNat) : Prop where
  size : b.size = n
  offsets : b.writeOffset.toNat = b.readOffset.toNat + q.count
  holds : Holds n.toNat b.data b.readOffset.toNat q.items

variable {b : RingBuffer} {q : Fifo UInt8 n.toNat}

theorem Refines.toNat_read (h : Refines b q) : b.getBytesAvailableForRead.toNat = q.count := by
  have h1 := h.offsets
  have h2 := q.fits
  have h3 := n.toNat_lt
  unfold RingBuffer.getBytesAvailableForRead
  rw [toNat_bytesAvailableForRead (by omega) (by unfold Fifo.count at h1; omega)]
  omega

theorem Refines.toNat_write (h : Refines b q) : b.getBytesAvailableForWrite.toNat = q.free := by
  have h1 := h.offsets
  have h2 := q.fits
  unfold RingBuffer.getBytesAvailableForWrite
  unfold Fifo.free
  unfold Fifo.count at *
  rw [h.size, toNat_bytesAvailableForWrite (by omega) (by omega)]
  omega

theorem Refines.isFull (h : Refines b q) : b.isFull = true ↔ q.free = 0 := by
  unfold RingBuffer.isFull
  rw [beq_iff_eq, ← UInt32.toNat_inj, h.toNat_write]
  rfl

theorem Refines.isEmpty (h : Refines b q) : b.isEmpty = true ↔ q.count = 0 := by
  unfold RingBuffer.isEmpty
  rw [beq_iff_eq, ← UInt32.toNat_inj, h.toNat_read]
  rfl

/-- A read from the read offset returns early if there is nothing to read. -/
theorem Refines.early_iff (h : Refines b q) :
    (b.isEmpty || !locationInDataRange b.readOffset.toUInt32 b.getCurrentDataRange) = true ↔ q.count = 0 := by
  constructor
  · intro hempty
    simp only [Bool.or_eq_true, h.isEmpty] at hempty
    rcases hempty with hz | hz
    · exact hz
    · simp only [locationInDataRange, RingBuffer.getCurrentDataRange, lt_self_iff_false, decide_false,
        Bool.not_false, Bool.true_and, Bool.not_eq_true', decide_eq_false_iff_not,
        UInt32.lt_iff_toNat_lt, h.toNat_read] at hz
      simpa using hz
  · intro hz
    simp [h.isEmpty.2 hz]

/-- Moving the read offset over the oldest `k` bytes removes them. -/
theorem Refines.advance (h : Refines b q) {k : UInt32} {len : ℕ} (hk : k.toNat = min len q.count) :
    Refines { b with readOffset := b.readOffset + k.toUInt64 } (q.discard len) := by
  have h1 := h.offsets
  have hw := b.writeOffset.toNat_lt
  have hr : (b.readOffset + k.toUInt64).toNat = b.readOffset.toNat + k.toNat := by
    rw [UInt64.toNat_add, UInt32.toNat_toUInt64]
    omega
  refine ⟨h.size, ?_, ?_⟩
  · simp only [hr, Fifo.count, Fifo.discard, List.length_drop] at *
    omega
  · simp only [hr, Fifo.discard, hk]
    exact h.holds.drop _

/-- The memory after both copies of a write of `btw` bytes: the old contents, then the new bytes. -/
theorem Refines.write_holds (h : Refines b q) (data : ℕ → UInt8) {size btw f : UInt32} (hn : 0 < n.toNat)
    (hf : f.toNat = b.writeOffset.toNat % n.toNat) (hb : btw.toNat = min size.toNat q.free) :
    Holds n.toNat (if btw > n - f then writeSecond n f btw (writeFirst n f btw size b.data data) data
      else writeFirst n f btw size b.data data) b.readOffset.toNat (q.items ++ firstN data btw.toNat) := by
  have h1 := h.offsets
  have hfits : b.writeOffset.toNat + btw.toNat ≤ b.readOffset.toNat + n.toNat := by
    have := q.fits
    unfold Fifo.free Fifo.count at *
    omega
  have hR : b.readOffset.toNat + q.items.length ≤ b.writeOffset.toNat := h1.ge
  have hlen : b.readOffset.toNat + q.items.length = b.writeOffset.toNat := h1.symm
  obtain ⟨hk, hnew⟩ := writeFirst_holds hn hf (hb.trans_le (Nat.min_le_left _ _)) hR hfits h.holds
  split
  · rename_i hwrap
    rw [gt_iff_lt, UInt32.lt_iff_toNat_lt] at hwrap
    rw [Nat.min_eq_right hwrap.le] at hnew
    obtain ⟨hk2, hnew2⟩ := writeSecond_holds hn hf hwrap hR hfits hk hnew
    exact hk2.append (hlen ▸ hnew2)
  · rename_i hwrap
    rw [gt_iff_lt, UInt32.lt_iff_toNat_lt, not_lt] at hwrap
    rw [Nat.min_eq_left hwrap] at hnew
    exact hk.append (hlen ▸ hnew)

/-- **A write** appends the bytes that fit and returns their number. -/
theorem Refines.writeData (h : Refines b q) (data : ℕ → UInt8) (size : UInt32)
    (hfit : OffsetsFit b (.write data size)) :
    ∃ b' ret note, b.writeData data size = some (b', ret, note) ∧ ret.toNat = min size.toNat q.free ∧
      Refines b' (q.append (firstN data size.toNat)) := by
  have h1 := h.offsets
  unfold RingBuffer.writeData
  by_cases hfull : (b.isFull || size == 0) = true
  · -- nothing fits, or nothing is given
    have h0 : min size.toNat q.free = 0 := by
      simp only [Bool.or_eq_true, beq_iff_eq, h.isFull] at hfull
      rcases hfull with hz | hz
      · omega
      · rw [hz]; simp
    have hq : q.append (firstN data size.toNat) = q := by
      have : (firstN data size.toNat).take q.free = [] := by
        rw [take_firstN, h0]; rfl
      simp only [Fifo.append, this, List.append_nil]
    rw [if_pos hfull, h0, hq]
    exact ⟨b, 0, none, rfl, rfl, h⟩
  · rw [if_neg hfull]
    have hfree : q.free ≠ 0 := fun h0 => hfull (by simp [h.isFull.2 h0])
    have hn : 0 < n.toNat := by unfold Fifo.free at hfree; omega
    obtain ⟨f, hf, hfw⟩ := bufferWriteOffset_eq hn b.writeOffset
    rw [← h.size] at hf
    have hb : (MIN size b.getBytesAvailableForWrite).toNat = min size.toNat q.free := by
      rw [toNat_MIN, h.toNat_write]
    simp only [OffsetsFit, hb] at hfit
    simp only [hf, Option.bind_eq_bind, Option.bind_some]
    refine ⟨_, _, _, rfl, hb, h.size, ?_, ?_⟩
    · simp only [Fifo.count, Fifo.append, List.length_append, take_firstN, length_firstN] at *
      rw [UInt64.toNat_add, UInt32.toNat_toUInt64, hb]
      omega
    · have hm := h.write_holds data hn hfw hb
      simp only [Fifo.append, take_firstN, h.size]
      rwa [hb] at hm

/-- **A read** returns at most two regions of the buffer, which are the oldest bytes,
and moves the read offset over them unless it only peeks. -/
theorem Refines.getData (h : Refines b q) (length : UInt32) (peek : Bool) :
    ∃ b' d note, b.getData length peek = some (b', d, note) ∧ d.entryCount ≤ 2 ∧
      d.totalBytes.toNat = min length.toNat q.count ∧
      copyRingDataToBuffer b.data d = q.oldest length.toNat ∧
      Refines b' (if peek then q else q.discard length.toNat) := by
  unfold RingBuffer.getData RingBuffer.getDataAtRange
  by_cases hempty : (b.isEmpty || !locationInDataRange b.readOffset.toUInt32 b.getCurrentDataRange) = true
  · have h0 : q.count = 0 := h.early_iff.1 hempty
    have hd : q.discard length.toNat = q := by simp [Fifo.discard, h0]
    rw [if_pos hempty]
    refine ⟨b, _, _, rfl, by simp [RingBufferData.zero], by rw [h0, Nat.min_zero]; rfl, ?_, ?_⟩
    · simp [copyRingDataToBuffer, RingBufferData.zero, Fifo.oldest, h0]
    · rw [hd, ite_self]; exact h
  · rw [if_neg hempty]
    have hcount : q.count ≠ 0 := fun h0 => hempty (h.early_iff.2 h0)
    have hle := q.fits
    have hn : 0 < n.toNat := Fifo.cap_pos hcount
    have hmove : b.readOffset.toUInt32 - b.getCurrentDataRange.location = 0 := by
      simp [RingBuffer.getCurrentDataRange]
    have hb : (MIN length b.getCurrentDataRange.length).toNat = min length.toNat q.count := by
      rw [toNat_MIN, RingBuffer.getCurrentDataRange, h.toNat_read]
    obtain ⟨f, hf, hfr⟩ := bufferReadOffset_eq hn b.readOffset
    rw [← h.size] at hf
    have hreg : Regions n b.readOffset.toNat (MIN length b.getCurrentDataRange.length).toNat
        (readRegions b.size f (MIN length b.getCurrentDataRange.length)) := by
      rw [h.size]; exact readRegions_ok hn hfr
    simp only [hmove, hf, Option.bind_eq_bind, Option.bind_some]
    refine ⟨_, _, _, rfl, ?_, ?_, ?_, ?_⟩
    · rcases hreg.count with hc | hc <;> omega
    · rw [hreg.total, hb]
    · rw [hreg.bytes h.holds (by rw [hb]; exact Nat.min_le_right _ _)
        (by rw [hb]; unfold Fifo.count; omega), hb, Fifo.oldest]
    · cases peek with
      | true => exact h
      | false => exact h.advance hb

theorem Refines.clear (h : Refines b q) (length : UInt32) :
    Refines (b.clearData length) (q.discard length.toNat) :=
  h.advance (by rw [toNat_MIN, RingBuffer.getCurrentDataRange, h.toNat_read])

theorem Refines.reset (h : Refines b q) (offset : UInt32) :
    Refines (b.resetAtOffset offset) (Fifo.empty : Fifo UInt8 n.toNat) :=
  ⟨h.size, by simp [RingBuffer.resetAtOffset, Fifo.empty, Fifo.count], Holds.nil _ _⟩

/-- **One call** answers as the queue does and keeps the relation. -/
theorem call_refines (b : RingBuffer) (q : Fifo UInt8 n.toNat) (op : Op) (h : Refines b q)
    (hfit : OffsetsFit b op) :
    ∃ b', b.call op = some (b', (fifoCall q op).2) ∧ Refines b' (fifoCall q op).1 := by
  cases op with
  | write data size =>
    obtain ⟨b', ret, note, hw, hret, hR⟩ := h.writeData data size hfit
    exact ⟨b', by simp [RingBuffer.call, hw, hret, fifoCall], hR⟩
  | get length peek =>
    obtain ⟨b', d, note, hg, -, -, hbytes, hR⟩ := h.getData length peek
    exact ⟨b', by simp [RingBuffer.call, hg, hbytes, fifoCall], hR⟩
  | clear length => exact ⟨_, rfl, h.clear length⟩
  | reset offset => exact ⟨_, rfl, h.reset offset⟩

/-- **Sequential use of the ring buffer is a bounded byte queue.** For every buffer
whose offsets start at 0 (size 0 included) and every sequence of calls whose 64-bit
offsets do not wrap: no modulus by zero is evaluated (the run succeeds), every answer
is the queue's, the buffer stands for the queue's contents afterwards, its two counts
add up to its size, and a read returns at most two regions with the oldest bytes. -/
theorem ring_buffer_refines_fifo (b₀ : RingBuffer) (hr : b₀.readOffset = 0) (hw : b₀.writeOffset = 0)
    (ops : List Op) (hfit : Device.Along RingBuffer.call OffsetsFit b₀ ops) :
    let spec := Device.runSpec fifoCall (Fifo.empty : Fifo UInt8 b₀.size.toNat) ops
    ∃ b, Device.run RingBuffer.call b₀ ops = some (b, spec.2) ∧ Refines b spec.1 ∧
      b.getBytesAvailableForRead.toNat + b.getBytesAvailableForWrite.toNat = b₀.size.toNat ∧
      ∀ length peek, ∃ b' d note, b.getData length peek = some (b', d, note) ∧ d.entryCount ≤ 2 ∧
        d.totalBytes.toNat = min length.toNat spec.1.count ∧
        copyRingDataToBuffer b.data d = spec.1.oldest length.toNat := by
  intro spec
  have h0 : Refines b₀ (Fifo.empty : Fifo UInt8 b₀.size.toNat) :=
    ⟨rfl, by rw [hr, hw]; rfl, Holds.nil _ _⟩
  obtain ⟨b, hrun, hR⟩ := Device.refines_run call_refines ops b₀ Fifo.empty h0 hfit
  refine ⟨b, hrun, hR, ?_, ?_⟩
  · have := spec.1.fits
    rw [hR.toNat_read, hR.toNat_write, Fifo.free]
    exact Nat.add_sub_cancel' this
  · intro length peek
    obtain ⟨b', d, note, hg, h2, ht, hbytes, -⟩ := hR.getData length peek
    exact ⟨b', d, note, hg, h2, ht, hbytes⟩

/-- Two bytes of three fit a buffer of two; they come out in order. -/
theorem ring_buffer_refines_fifo_two :
    ∃ b, Device.run RingBuffer.call ⟨2, 0, 0, fun _ => 0, 0, none, none⟩
      [.write (fun i => i.toUInt8 + 7) 3, .get 1 false, .get 5 true, .clear 1, .reset 9] =
        some (b, [.wrote 2, .got [7], .got [8], .done, .done]) := by
  obtain ⟨b, h, -⟩ := ring_buffer_refines_fifo ⟨2, 0, 0, fun _ => 0, 0, none, none⟩ rfl rfl
    [.write (fun i => i.toUInt8 + 7) 3, .get 1 false, .get 5 true, .clear 1, .reset 9] (by decide)
  exact ⟨b, h⟩

end Cutils.Ring
