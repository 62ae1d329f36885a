import Cutils.Proof.RingFifo
import Mathlib.Data.Nat.Prime.Basic

/-!
# What a created ring buffer remembers

`create_ring_buffer` sets the size and the data of a ring buffer, and leaves the offsets, the context and the observers
as the memory had them. Two such buffers can be told apart by their calls exactly where these fields make a
difference: the calls show the low halves of the offsets, and the high halves count for the slots if the size does
not divide 2^32.

* `alike_of_sameLow`: low halves are enough, if the size does.
* `offsets_eq`: otherwise whole offsets are not hidden; a counter is seen when it wraps around at 2^64.
* `create_ring_buffer_fresh_iff`: exactly when the old contents of the memory do not matter.
-/

namespace Cutils.Ring

open Cyclic Device

variable {b b₁ b₂ : RingBuffer}

section Low

/-- The same but for the high halves of the offsets. -/
structure SameLow (b₁ b₂ : RingBuffer) : Prop where
  size : b₁.size = b₂.size
  data : b₁.data = b₂.data
  ctx : b₁.ctx = b₂.ctx
  onRead : b₁.onDataReadAtRange = b₂.onDataReadAtRange
  onWritten : b₁.onDataWrittenAtRange = b₂.onDataWrittenAtRange
  read : b₁.readOffset.toUInt32 = b₂.readOffset.toUInt32
  write : b₁.writeOffset.toUInt32 = b₂.writeOffset.toUInt32

theorem SameLow.availableForRead (h : SameLow b₁ b₂) : b₁.getBytesAvailableForRead = b₂.getBytesAvailableForRead := by
  simp only [RingBuffer.getBytesAvailableForRead, bytesAvailableForRead, UInt64.toUInt32_sub, h.read, h.write]

theorem SameLow.availableForWrite (h : SameLow b₁ b₂) :
    b₁.getBytesAvailableForWrite = b₂.getBytesAvailableForWrite := by
  have havail := h.availableForRead
  simp only [RingBuffer.getBytesAvailableForRead] at havail
  simp only [RingBuffer.getBytesAvailableForWrite, bytesAvailableForWrite, havail, h.size]

theorem SameLow.queries (h : SameLow b₁ b₂) : b₁.queries = b₂.queries := by
  simp only [RingBuffer.queries, RingBuffer.isEmpty, RingBuffer.isFull, RingBuffer.getSize, RingBuffer.getTotalRange,
    RingBuffer.getCurrentDataRange, RingBuffer.getOffsets, RingBuffer.getCallbackContext, h.availableForRead,
    h.availableForWrite, h.size, h.read, h.write, h.ctx]

/-- The slot of an offset is that of its low half, if the size divides 2^32. -/
theorem slot_low {size : UInt32} (hdvd : size.toNat ∣ 2 ^ 32) {x y : UInt64} (h : x.toUInt32 = y.toUInt32) :
    (x % size.toUInt64).toUInt32 = (y % size.toUInt64).toUInt32 := by
  have hs : 0 < size.toNat := Nat.pos_of_dvd_of_pos hdvd (by decide)
  have hlow := congrArg UInt32.toNat h
  rw [UInt64.toNat_toUInt32, UInt64.toNat_toUInt32] at hlow
  apply UInt32.toNat_inj.1
  rw [slot_eq hs, slot_eq hs, ← Nat.mod_mod_of_dvd _ hdvd, hlow, Nat.mod_mod_of_dvd _ hdvd]

/-- Advancing both read offsets by as much. -/
theorem SameLow.advance (h : SameLow b₁ b₂) (k : UInt32) :
    SameLow { b₁ with readOffset := b₁.readOffset + k.toUInt64 }
      { b₂ with readOffset := b₂.readOffset + k.toUInt64 } :=
  { h with read := by simp only [UInt64.toUInt32_add, h.read] }

theorem SameLow.clearData (h : SameLow b₁ b₂) (length : UInt32) :
    SameLow (b₁.clearData length) (b₂.clearData length) := by
  unfold RingBuffer.clearData RingBuffer.getCurrentDataRange
  rw [h.availableForRead]
  exact h.advance _

theorem SameLow.writeData (h : SameLow b₁ b₂) (hdvd : b₁.size.toNat ∣ 2 ^ 32) (data : ℕ → UInt8) (size : UInt32) :
    ∃ b₁' b₂' r, b₁.writeData data size = some (b₁', r) ∧ b₂.writeData data size = some (b₂', r) ∧
      SameLow b₁' b₂' := by
  have hs : b₁.size ≠ 0 := size_ne_zero (Nat.pos_of_dvd_of_pos hdvd (by decide))
  have hfull : b₁.isFull = b₂.isFull := by
    simp only [RingBuffer.isFull, h.availableForWrite]
  -- the slot depends on the low half of the offset only
  have hslot : bufferWriteOffset b₁.size b₁.writeOffset = bufferWriteOffset b₁.size b₂.writeOffset := by
    unfold bufferWriteOffset
    rw [slot_low hdvd h.write]
  by_cases hearly : (b₂.isFull || size == 0) = true
  · refine ⟨b₁, b₂, (0, none), ?_, ?_, h⟩
    · rw [RingBuffer.writeData, hfull, if_pos hearly]
    · rw [RingBuffer.writeData, if_pos hearly]
  · obtain ⟨f, hf⟩ : ∃ f, bufferWriteOffset b₁.size b₂.writeOffset = some f := ⟨_, if_neg hs⟩
    simp only [RingBuffer.writeData, hfull, if_neg hearly, hslot, ← h.size, hf, Option.bind_eq_bind, Option.bind_some,
      h.availableForWrite, h.data, h.ctx, h.onWritten, h.write]
    refine ⟨_, _, _, rfl, rfl, ?_⟩
    exact ⟨rfl, rfl, rfl, h.onRead, rfl, h.read, by simp only [UInt64.toUInt32_add, h.write]⟩

theorem SameLow.getDataAtRange (h : SameLow b₁ b₂) (hdvd : b₁.size.toNat ∣ 2 ^ 32) (requested : DataRange)
    (peek : Bool) :
    ∃ b₁' b₂' r, b₁.getDataAtRange requested peek = some (b₁', r) ∧ b₂.getDataAtRange requested peek = some (b₂', r) ∧
      SameLow b₁' b₂' := by
  have hs : b₁.size ≠ 0 := size_ne_zero (Nat.pos_of_dvd_of_pos hdvd (by decide))
  have hcurrent : b₁.getCurrentDataRange = b₂.getCurrentDataRange := by
    simp only [RingBuffer.getCurrentDataRange, h.read, h.availableForRead]
  have hempty : b₁.isEmpty = b₂.isEmpty := by
    simp only [RingBuffer.isEmpty, h.availableForRead]
  -- the slot depends on the low half of the offset only, as the size divides 2 ^ 32
  have hslot : ∀ move, bufferReadOffsetWithOffset b₁.size b₁.readOffset move =
      bufferReadOffsetWithOffset b₁.size b₂.readOffset move := by
    intro move
    have hlow : (b₁.readOffset + move.toUInt64).toUInt32 = (b₂.readOffset + move.toUInt64).toUInt32 := by
      simp only [UInt64.toUInt32_add, h.read]
    unfold bufferReadOffsetWithOffset
    rw [slot_low hdvd hlow]
  by_cases hearly : (b₂.isEmpty || !locationInDataRange requested.location b₂.getCurrentDataRange) = true
  · refine ⟨b₁, b₂, (RingBufferData.zero, none), ?_, ?_, h⟩
    · unfold RingBuffer.getDataAtRange
      rw [hempty, hcurrent, if_pos hearly]
    · unfold RingBuffer.getDataAtRange
      rw [if_pos hearly]
  · obtain ⟨f, hf⟩ : ∃ f, bufferReadOffsetWithOffset b₁.size b₂.readOffset
        (requested.location - b₂.getCurrentDataRange.location) = some f := ⟨_, if_neg hs⟩
    simp only [RingBuffer.getDataAtRange, hempty, hcurrent, if_neg hearly, hslot, ← h.size, hf, Option.bind_eq_bind,
      Option.bind_some, h.ctx, h.onRead]
    refine ⟨_, _, _, rfl, rfl, ?_⟩
    cases peek with
    | true => exact h
    -- the read offset moves on, in both by as much
    | false => exact ⟨rfl, h.data, rfl, rfl, h.onWritten, (h.advance _).read, h.write⟩

/-- **Low halves are enough** if the size divides 2^32. -/
theorem alike_of_sameLow (h : SameLow b₁ b₂) (hdvd : b₁.size.toNat ∣ 2 ^ 32) : Alike RingBuffer.use b₁ b₂ := by
  refine alike_of_related (R := fun s t => SameLow s t ∧ s.size = b₁.size) ?_ b₁ b₂ ⟨h, rfl⟩
  rintro s t op ⟨hst, hsize⟩
  rw [← hsize] at hdvd
  cases op with
  | write data size =>
    obtain ⟨s', t', r, hs, ht, hst'⟩ := hst.writeData hdvd data size
    obtain ⟨mem, w, rfl⟩ := writeData_buffer hs
    refine ⟨_, t', .wrote r.1 r.2, ?_, ?_, hst', hsize⟩
    · simp only [RingBuffer.use, hs, Option.map_some]
    · simp only [RingBuffer.use, ht, Option.map_some]
  | get length peek =>
    obtain ⟨s', t', r, hs, ht, hst'⟩ := hst.getDataAtRange hdvd ⟨s.readOffset.toUInt32, length⟩ peek
    refine ⟨s', t', .got r.1.entryCount r.1.totalBytes (copyRingDataToBuffer s.data r.1) r.2, ?_, ?_, hst', ?_⟩
    · simp only [RingBuffer.use, RingBuffer.getData, hs, Option.map_some]
    · simp only [RingBuffer.use, RingBuffer.getData, ← hst.read, ht, hst.data, Option.map_some]
    · rcases getDataAtRange_buffer hs with rfl | rfl <;> exact hsize
  | getAt requested peek =>
    obtain ⟨s', t', r, hs, ht, hst'⟩ := hst.getDataAtRange hdvd requested peek
    refine ⟨s', t', .got r.1.entryCount r.1.totalBytes (copyRingDataToBuffer s.data r.1) r.2, ?_, ?_, hst', ?_⟩
    · simp only [RingBuffer.use, hs, Option.map_some]
    · simp only [RingBuffer.use, ht, hst.data, Option.map_some]
    · rcases getDataAtRange_buffer hs with rfl | rfl <;> exact hsize
  | clear length => exact ⟨_, _, _, rfl, rfl, hst.clearData length, hsize⟩
  | query => exact ⟨s, t, _, rfl, by rw [hst.queries]; rfl, hst, hsize⟩

end Low

section Pass

/-- Both copies of a write, as one copy around the end. -/
theorem stored_eq {size f k : UInt32} (hf : f.toNat < size.toNat) (mem data : ℕ → UInt8) :
    (if k > size - f then writeSecond size f k (writeFirst size f k k mem data) data
      else writeFirst size f k k mem data) = copyAround size.toNat mem f.toNat data k.toNat := by
  have hrem := toNat_remaining hf
  have hk := k.toNat_lt
  unfold copyAround writeSecond writeFirst
  simp only [gt_iff_lt, UInt32.lt_iff_toNat_lt, hrem, lt_self_iff_false, if_false]
  by_cases hwrap : size.toNat - f.toNat < k.toNat
  · have hrest : (k - (size - f)).toNat = k.toNat - (size.toNat - f.toNat) := by
      rw [UInt32.toNat_sub, hrem]
      omega
    rw [if_pos hwrap, if_pos hwrap, if_pos (by omega), hrest]
  · rw [if_neg hwrap, if_neg hwrap, if_neg (by omega)]

theorem MIN_self (k : UInt32) : MIN k k = k := if_neg (UInt32.lt_irrefl k)

/-- The buffer after a write that fits. -/
def RingBuffer.stored (b : RingBuffer) (data : ℕ → UInt8) (k : UInt32) : RingBuffer :=
  { b with
    data := copyAround b.size.toNat b.data (b.writeOffset.toNat % b.size.toNat) data k.toNat
    writeOffset := b.writeOffset + k.toUInt64 }

/-- **A write that fits**, whatever the offsets are. -/
theorem use_write {k : UInt32} (data : ℕ → UInt8) (hk : 0 < k.toNat)
    (hfit : b.getBytesAvailableForRead.toNat + k.toNat ≤ b.size.toNat) :
    b.use (.write data k) = some (b.stored data k,
      .wrote k (b.onDataWrittenAtRange.map (⟨·, b.ctx, ⟨b.writeOffset.toUInt32, k⟩⟩))) := by
  have hs : 0 < b.size.toNat := by omega
  have hroom : b.getBytesAvailableForWrite.toNat = b.size.toNat - b.getBytesAvailableForRead.toNat := by
    have := b.size.toNat_lt
    show (b.size - b.getBytesAvailableForRead).toNat = _
    rw [UInt32.toNat_sub]
    omega
  have hmin : MIN k b.getBytesAvailableForWrite = k := by
    apply UInt32.toNat_inj.1
    rw [toNat_MIN, hroom]
    omega
  have hearly : ¬ (b.isFull || k == 0) = true := by
    intro hearly
    simp only [RingBuffer.isFull, Bool.or_eq_true, beq_iff_eq, ← UInt32.toNat_inj, hroom, UInt32.toNat_zero] at hearly
    omega
  obtain ⟨f, hf, hslot⟩ := bufferWriteOffset_eq hs b.writeOffset
  have hlt : f.toNat < b.size.toNat := by
    rw [hslot]
    exact Nat.mod_lt _ hs
  simp only [RingBuffer.use, RingBuffer.writeData, if_neg hearly, hf, hmin, Option.bind_eq_bind, Option.bind_some,
    stored_eq hlt, hslot, Option.map_some]
  rfl

theorem available_stored (b : RingBuffer) (data : ℕ → UInt8) (k : UInt32) :
    (b.stored data k).getBytesAvailableForRead = b.getBytesAvailableForRead + k := by
  simp only [RingBuffer.getBytesAvailableForRead, RingBuffer.stored, bytesAvailableForRead, UInt64.toUInt32_sub,
    UInt64.toUInt32_add, UInt32.toUInt32_toUInt64]
  rw [UInt32.sub_eq_add_neg, UInt32.sub_eq_add_neg, UInt32.add_assoc, UInt32.add_comm k, ← UInt32.add_assoc]

/-- **A read of a full buffer**, whatever the offsets are. -/
theorem use_get (hs : 0 < b.size.toNat) (hfull : b.getBytesAvailableForRead = b.size) :
    ∃ ec, b.use (.get b.size true) = some (b, .got ec b.size
      (firstN (fun j => b.data ((b.readOffset.toNat + j) % b.size.toNat)) b.size.toNat)
      (b.onDataReadAtRange.map (⟨·, b.ctx, ⟨b.readOffset.toUInt32, b.size⟩⟩))) := by
  have hearly : ¬ (b.isEmpty || !locationInDataRange b.readOffset.toUInt32 b.getCurrentDataRange) = true := by
    simp only [RingBuffer.isEmpty, locationInDataRange, RingBuffer.getCurrentDataRange, hfull, UInt32.sub_self,
      UInt32.lt_iff_toNat_lt, ← UInt32.toNat_inj, Bool.or_eq_true, beq_iff_eq, lt_self_iff_false, decide_false,
      Bool.not_false, Bool.true_and, Bool.not_eq_true', decide_eq_false_iff_not, UInt32.toNat_zero]
    omega
  have hmove : b.readOffset.toUInt32 - b.getCurrentDataRange.location = 0 := by
    simp [RingBuffer.getCurrentDataRange]
  have hmin : MIN b.size b.getCurrentDataRange.length = b.size := by
    rw [RingBuffer.getCurrentDataRange, hfull, MIN_self]
  obtain ⟨f, hf, hslot⟩ := bufferReadOffset_eq hs b.readOffset
  have hreg : Regions b.size b.readOffset.toNat b.size.toNat (readRegions b.size f b.size) := readRegions_ok hs hslot
  have hholds : Holds b.size.toNat b.data b.readOffset.toNat
      (firstN (fun j => b.data ((b.readOffset.toNat + j) % b.size.toNat)) b.size.toNat) := by
    intro k x hk
    have hlt : k < b.size.toNat := by
      by_contra hge
      rw [List.getElem?_eq_none (by rw [length_firstN]; omega)] at hk
      cases hk
    rw [getElem?_firstN _ hlt, Option.some.injEq] at hk
    exact hk
  have hbytes := hreg.bytes hholds (by rw [length_firstN]) le_rfl
  rw [List.take_of_length_le (by rw [length_firstN])] at hbytes
  have htotal : (readRegions b.size f b.size).totalBytes = b.size := UInt32.toNat_inj.1 hreg.total
  simp only [RingBuffer.use, RingBuffer.getData, RingBuffer.getDataAtRange, if_neg hearly, hmove, hf, hmin,
    Option.bind_eq_bind, Option.bind_some, Option.map_some, if_true, hbytes, htotal]
  exact ⟨_, rfl⟩

/-- An empty buffer after `k` zeros have passed through it. -/
def RingBuffer.passed (b : RingBuffer) (k : UInt32) : RingBuffer :=
  { b.stored (fun _ => 0) k with readOffset := b.readOffset + k.toUInt64 }

theorem available_passed (b : RingBuffer) (k : UInt32) :
    (b.passed k).getBytesAvailableForRead = b.getBytesAvailableForRead := by
  simp only [RingBuffer.getBytesAvailableForRead, RingBuffer.passed, RingBuffer.stored, bytesAvailableForRead]
  have hr := b.readOffset.toNat_lt
  have hw := b.writeOffset.toNat_lt
  have hk := k.toUInt64.toNat_lt
  apply UInt32.toNat_inj.1
  simp only [UInt64.toNat_toUInt32, UInt64.toNat_sub, UInt64.toNat_add]
  omega

/-- Buffers that are alike and empty stay alike when zeros pass through them. -/
theorem alike_passed {k : UInt32} (h : Alike RingBuffer.use b₁ b₂) (hk : 0 < k.toNat)
    (hempty₁ : b₁.getBytesAvailableForRead = 0) (hk₁ : k.toNat ≤ b₁.size.toNat)
    (hempty₂ : b₂.getBytesAvailableForRead = 0) (hk₂ : k.toNat ≤ b₂.size.toNat) :
    Alike RingBuffer.use (b₁.passed k) (b₂.passed k) := by
  have huse : ∀ b : RingBuffer, b.getBytesAvailableForRead = 0 → k.toNat ≤ b.size.toNat →
      ∃ o, b.use (.write (fun _ => 0) k) = some (b.stored (fun _ => 0) k, o) ∧
        (b.stored (fun _ => 0) k).use (.clear k) = some (b.passed k, .done) := by
    intro b hempty hkb
    have hwrite := use_write (fun _ => 0) hk (show b.getBytesAvailableForRead.toNat + k.toNat ≤ _ by
      rw [hempty, UInt32.toNat_zero]
      omega)
    have hall : (b.stored (fun _ => 0) k).clearData k = b.passed k := by
      simp only [RingBuffer.clearData, RingBuffer.getCurrentDataRange, available_stored, hempty, UInt32.zero_add,
        MIN_self]
      rfl
    exact ⟨_, hwrite, congrArg (fun b' => some (b', Answer.done)) hall⟩
  obtain ⟨o₁, hwrite₁, hclear₁⟩ := huse b₁ hempty₁ hk₁
  obtain ⟨o₂, hwrite₂, hclear₂⟩ := huse b₂ hempty₂ hk₂
  exact ((h.step hwrite₁ hwrite₂).2.step hclear₁ hclear₂).2

/-- An empty buffer with zeros in all of its slots, and offsets that are counted on. -/
structure Zeroed (n : UInt32) (b : RingBuffer) (r w : ℕ) : Prop where
  size : b.size = n
  read : b.readOffset.toNat = r % 2 ^ 64
  write : b.writeOffset.toNat = w % 2 ^ 64
  empty : b.getBytesAvailableForRead = 0
  zero : ∀ i < n.toNat, b.data i = 0

variable {n : UInt32} {r w r₁ w₁ r₂ w₂ : ℕ}

/-- Zeros that fill the buffer are everywhere. -/
theorem copyAround_all (mem : ℕ → UInt8) {s i : ℕ} (hs : s < n.toNat) (hi : i < n.toNat) :
    copyAround n.toNat mem s (fun _ => 0) n.toNat i = 0 := by
  unfold copyAround
  split
  · simp only [copy]
    by_cases hlow : i < s
    · rw [if_pos (by omega)]
    · rw [if_neg (by omega), if_pos (by omega)]
  · simp only [copy]
    rw [if_pos (by omega)]

/-- Zeros leave zeros as they are. -/
theorem copyAround_zero (mem : ℕ → UInt8) (s len : ℕ) {i : ℕ} (h : mem i = 0) :
    copyAround n.toNat mem s (fun _ => 0) len i = 0 := by
  unfold copyAround copy
  split
  · simp only
    split
    · rfl
    · split
      · rfl
      · exact h
  · simp only
    split
    · rfl
    · exact h

theorem toNat_counted {x : UInt64} {a : ℕ} (h : x.toNat = a % 2 ^ 64) (k : UInt32) :
    (x + k.toUInt64).toNat = (a + k.toNat) % 2 ^ 64 := by
  rw [UInt64.toNat_add, UInt32.toNat_toUInt64, h, Nat.mod_add_mod]

/-- A buffer that was filled with zeros and emptied. -/
theorem zeroed_fill (hn : 0 < b.size.toNat) (hempty : b.getBytesAvailableForRead = 0) :
    Zeroed b.size (b.passed b.size) (b.readOffset.toNat + b.size.toNat) (b.writeOffset.toNat + b.size.toNat) where
  size := rfl
  read := toNat_counted (Nat.mod_eq_of_lt b.readOffset.toNat_lt).symm b.size
  write := toNat_counted (Nat.mod_eq_of_lt b.writeOffset.toNat_lt).symm b.size
  empty := by rw [available_passed, hempty]
  zero i hi := copyAround_all b.data (Nat.mod_lt _ hn) hi

theorem Zeroed.passed (h : Zeroed n b r w) (k : UInt32) : Zeroed n (b.passed k) (r + k.toNat) (w + k.toNat) where
  size := h.size
  read := toNat_counted h.read k
  write := toNat_counted h.write k
  empty := by rw [available_passed, h.empty]
  zero i hi := by
    simp only [RingBuffer.passed, RingBuffer.stored, h.size]
    exact copyAround_zero _ _ _ (h.zero i hi)

/-- **Any number of zeros** can pass through buffers that are alike. -/
theorem alike_advance (hn : 0 < n.toNat) (t : ℕ) (h : Alike RingBuffer.use b₁ b₂) (h₁ : Zeroed n b₁ r₁ w₁)
    (h₂ : Zeroed n b₂ r₂ w₂) : ∃ b₁' b₂', Alike RingBuffer.use b₁' b₂' ∧ Zeroed n b₁' (r₁ + t) (w₁ + t) ∧
      Zeroed n b₂' (r₂ + t) (w₂ + t) := by
  induction t with
  | zero => exact ⟨b₁, b₂, h, h₁, h₂⟩
  | succ t ih =>
    obtain ⟨b₁', b₂', h', h₁', h₂'⟩ := ih
    have hone : (1 : UInt32).toNat = 1 := rfl
    refine ⟨b₁'.passed 1, b₂'.passed 1, ?_, h₁'.passed 1, h₂'.passed 1⟩
    exact alike_passed h' (by omega) h₁'.empty (by rw [h₁'.size]; omega) h₂'.empty (by rw [h₂'.size]; omega)

end Pass

section Probe

variable {n : UInt32} {r w r₁ w₁ r₂ w₂ : ℕ}

/-- One byte, wherever it is stored. -/
theorem copyAround_one (mem : ℕ → UInt8) {s : ℕ} (hs : s < n.toNat) (x : UInt8) (i : ℕ) :
    copyAround n.toNat mem s (fun _ => x) 1 i = if i = s then x else mem i := by
  unfold copyAround copy
  rw [if_neg (by omega)]
  by_cases hi : i = s
  · rw [if_pos (by omega), if_pos hi]
  · rw [if_neg (by omega), if_neg hi]

/-- **A mark in a full buffer**: all but one byte are zeros, and a read of everything shows how far the mark is from
the read offset, on the slots. -/
theorem Zeroed.probe (h : Zeroed n b r w) (hn : 2 ≤ n.toNat) :
    ∃ b' o b'' o' ec note, b.use (.write (fun _ => 0) (n - 1)) = some (b', o) ∧
      b'.use (.write (fun _ => 1) 1) = some (b'', o') ∧
      b''.use (.get n true) = some (b'', .got ec n (firstN (fun j =>
        if (r % 2 ^ 64 + j) % n.toNat = (w + (n.toNat - 1)) % 2 ^ 64 % n.toNat then 1 else 0) n.toNat) note) := by
  have hone : (1 : UInt32).toNat = 1 := rfl
  have hpred : (n - 1).toNat = n.toNat - 1 := by
    have := n.toNat_lt
    rw [UInt32.toNat_sub, hone]
    omega
  obtain ⟨rfl, hread, hwrite, hempty, hzero⟩ := h
  have havail : (b.stored (fun _ => 0) (b.size - 1)).getBytesAvailableForRead = b.size - 1 := by
    rw [available_stored, hempty, UInt32.zero_add]
  have hfull : ((b.stored (fun _ => 0) (b.size - 1)).stored (fun _ => 1) 1).getBytesAvailableForRead = b.size := by
    rw [available_stored, havail, UInt32.sub_add_cancel]
  have hzeros := use_write (b := b) (k := b.size - 1) (fun _ => 0) (by omega)
    (by rw [hempty, UInt32.toNat_zero]; omega)
  have hmark := use_write (b := b.stored (fun _ => 0) (b.size - 1)) (k := 1) (fun _ => 1) (by omega)
    (by rw [havail]; show (b.size - 1).toNat + _ ≤ b.size.toNat; omega)
  obtain ⟨ec, hget⟩ := use_get (b := (b.stored (fun _ => 0) (b.size - 1)).stored (fun _ => 1) 1)
    (show 0 < b.size.toNat by omega) hfull
  -- the mark is the one byte that is not zero
  have hbyte : ∀ i < b.size.toNat, ((b.stored (fun _ => 0) (b.size - 1)).stored (fun _ => 1) 1).data i =
      if i = (w + (b.size.toNat - 1)) % 2 ^ 64 % b.size.toNat then 1 else 0 := by
    intro i hi
    have hslot : (b.writeOffset + (b.size - 1).toUInt64).toNat % b.size.toNat =
        (w + (b.size.toNat - 1)) % 2 ^ 64 % b.size.toNat := by
      rw [toNat_counted hwrite, hpred]
    show copyAround b.size.toNat _ ((b.writeOffset + (b.size - 1).toUInt64).toNat % b.size.toNat) (fun _ => 1) 1 i = _
    rw [copyAround_one _ (Nat.mod_lt _ (by omega)), hslot]
    split
    · rfl
    · exact copyAround_zero _ _ _ (hzero i hi)
  have hbytes : firstN (fun j => ((b.stored (fun _ => 0) (b.size - 1)).stored (fun _ => 1) 1).data
      ((b.readOffset.toNat + j) % b.size.toNat)) b.size.toNat = firstN (fun j =>
        if (r % 2 ^ 64 + j) % b.size.toNat = (w + (b.size.toNat - 1)) % 2 ^ 64 % b.size.toNat then 1 else 0)
        b.size.toNat := by
    refine List.map_congr_left fun j _ => ?_
    rw [hbyte _ (Nat.mod_lt _ (by omega)), hread]
  exact ⟨_, _, _, _, ec, _, hzeros, hmark,
    hget.trans (congrArg (fun bytes => some (_, Answer.got ec b.size bytes _)) hbytes)⟩

/-- Buffers that are alike have their marks as far from their read offsets. -/
theorem alike_distance (hn : 2 ≤ n.toNat) (h : Alike RingBuffer.use b₁ b₂) (h₁ : Zeroed n b₁ r₁ w₁)
    (h₂ : Zeroed n b₂ r₂ w₂) (j : ℕ) (hj : j < n.toNat)
    (hmark : (r₁ % 2 ^ 64 + j) % n.toNat = (w₁ + (n.toNat - 1)) % 2 ^ 64 % n.toNat) :
    (r₂ % 2 ^ 64 + j) % n.toNat = (w₂ + (n.toNat - 1)) % 2 ^ 64 % n.toNat := by
  obtain ⟨_, _, _, _, _, _, hzeros₁, hmark₁, hget₁⟩ := h₁.probe hn
  obtain ⟨_, _, _, _, _, _, hzeros₂, hmark₂, hget₂⟩ := h₂.probe hn
  obtain ⟨hgot, -⟩ := ((h.step hzeros₁ hzeros₂).2.step hmark₁ hmark₂).2.step hget₁ hget₂
  injection hgot with _ _ hbytes _
  have hbyte := congrArg (fun l => l[j]?) hbytes
  simp only [getElem?_firstN _ hj, Option.some.injEq, if_pos hmark] at hbyte
  by_contra hother
  rw [if_neg hother] at hbyte
  cases hbyte

/-- A size that divides no power of two up to 2^32 divides none. -/
theorem dvd_of_dvd_pow (hdvd : n.toNat ∣ 2 * 2 ^ 64) : n.toNat ∣ 2 ^ 32 := by
  have hlt := n.toNat_lt
  obtain ⟨k, -, hk⟩ := (Nat.dvd_prime_pow Nat.prime_two).1 (show n.toNat ∣ 2 ^ 65 from hdvd)
  rw [hk] at hlt ⊢
  exact pow_dvd_pow 2 (Nat.pow_lt_pow_iff_right (by decide) |>.1 hlt).le

/-- The distances of the marks of buffers that are alike, after any number of bytes. -/
theorem alike_dist (hn : 2 ≤ n.toNat) (h : Alike RingBuffer.use b₁ b₂) (hsize₁ : b₁.size = n) (hsize₂ : b₂.size = n)
    (hempty₁ : b₁.getBytesAvailableForRead = 0) (hempty₂ : b₂.getBytesAvailableForRead = 0) {t : ℕ}
    (ht : n.toNat ≤ t) :
    ((b₁.writeOffset.toNat + (n.toNat - 1)) % 2 ^ 64 + t) % 2 ^ 64 + (b₂.readOffset.toNat + t) % 2 ^ 64 ≡
      ((b₂.writeOffset.toNat + (n.toNat - 1)) % 2 ^ 64 + t) % 2 ^ 64 + (b₁.readOffset.toNat + t) % 2 ^ 64
        [MOD n.toNat] := by
  have hfill₁ := zeroed_fill (b := b₁) (by rw [hsize₁]; omega) hempty₁
  have hfill₂ := zeroed_fill (b := b₂) (by rw [hsize₂]; omega) hempty₂
  have hfill := alike_passed (k := n) h (by omega) hempty₁ (by rw [hsize₁]) hempty₂ (by rw [hsize₂])
  rw [hsize₁] at hfill₁
  rw [hsize₂] at hfill₂
  obtain ⟨b₁', b₂', h', h₁', h₂'⟩ := alike_advance (by omega) (t - n.toNat) hfill hfill₁ hfill₂
  have hshift : ∀ a, a + n.toNat + (t - n.toNat) = a + t := by
    intro a
    omega
  have hmark : ∀ a, (a + t + (n.toNat - 1)) % 2 ^ 64 = ((a + (n.toNat - 1)) % 2 ^ 64 + t) % 2 ^ 64 := by
    intro a
    rw [Nat.mod_add_mod, Nat.add_right_comm]
  rw [hshift, hshift] at h₁' h₂'
  have hdist := dist_modEq (by omega) (alike_distance hn h' h₁' h₂')
  rw [hmark, hmark] at hdist
  exact hdist

theorem low_of_empty (h : b.getBytesAvailableForRead = 0) :
    b.readOffset.toNat % 2 ^ 32 = b.writeOffset.toNat % 2 ^ 32 := by
  have hlow := congrArg UInt32.toNat h
  have hr := b.readOffset.toNat_lt
  have hw := b.writeOffset.toNat_lt
  simp only [RingBuffer.getBytesAvailableForRead, bytesAvailableForRead, UInt64.toNat_toUInt32, UInt64.toNat_sub,
    UInt32.toNat_zero] at hlow
  omega

/-- **Whole offsets are not hidden** if the size does not divide 2^32. -/
theorem offsets_eq (h : Alike RingBuffer.use b₁ b₂) (hn : 0 < n.toNat) (hsize₁ : b₁.size = n) (hsize₂ : b₂.size = n)
    (hempty₁ : b₁.getBytesAvailableForRead = 0) (hempty₂ : b₂.getBytesAvailableForRead = 0)
    (hdvd : ¬ n.toNat ∣ 2 ^ 32) : b₁.readOffset = b₂.readOffset ∧ b₁.writeOffset = b₂.writeOffset := by
  have hlt := n.toNat_lt
  have htwo : 2 ≤ n.toNat := by
    by_contra hone
    rw [show n.toNat = 1 by omega] at hdvd
    exact hdvd (one_dvd _)
  have hr₁ := b₁.readOffset.toNat_lt
  have hr₂ := b₂.readOffset.toNat_lt
  have hw₁ := b₁.writeOffset.toNat_lt
  have hw₂ := b₂.writeOffset.toNat_lt
  -- the mark is never where the read offset is
  have hne : (b₁.writeOffset.toNat + (n.toNat - 1)) % 2 ^ 64 ≠ b₁.readOffset.toNat := by
    have hlow := low_of_empty hempty₁
    omega
  obtain ⟨hwrite, hread⟩ := counters_eq (N := 2 ^ 64) (by decide) (Nat.mod_lt _ (by decide)) hr₁
    (Nat.mod_lt _ (by decide)) hr₂ hne (fun hd => hdvd (dvd_of_dvd_pow hd))
    fun t ht => alike_dist htwo h hsize₁ hsize₂ hempty₁ hempty₂ (t := t) (by omega)
  refine ⟨UInt64.toNat_inj.1 hread.symm, UInt64.toNat_inj.1 ?_⟩
  omega

end Probe

section Create

variable {params : CreateParams} {old : RingBuffer}

theorem createRingBuffer_eq (h : createRingBuffer params old = some b) :
    ∃ data, params.data = some data ∧ b = { old with data := data, size := params.sizeInBytes } := by
  obtain ⟨_, -, h⟩ := Option.bind_eq_some_iff.1 h
  obtain ⟨data, hdata, h⟩ := Option.bind_eq_some_iff.1 h
  cases h
  exact ⟨data, hdata, rfl⟩

/-- **Contents of the memory that make no difference**: what calls show, and whole offsets where slots depend on them. -/
structure Agree (size : UInt32) (old₁ old₂ : RingBuffer) : Prop where
  empty : old₁.readOffset.toUInt32 = old₁.writeOffset.toUInt32
  read : old₁.readOffset.toUInt32 = old₂.readOffset.toUInt32
  write : old₁.writeOffset.toUInt32 = old₂.writeOffset.toUInt32
  ctx : old₁.ctx = old₂.ctx
  onRead : old₁.onDataReadAtRange = old₂.onDataReadAtRange
  onWritten : old₁.onDataWrittenAtRange = old₂.onDataWrittenAtRange
  high : size.toNat ∣ 2 ^ 32 ∨ old₁.readOffset = old₂.readOffset ∧ old₁.writeOffset = old₂.writeOffset

/-- What calls show of the context and the observers of empty buffers. -/
theorem alike_observers (h : Alike RingBuffer.use b₁ b₂) (hsize : b₁.size = b₂.size) (hn : 0 < b₁.size.toNat)
    (hempty₁ : b₁.getBytesAvailableForRead = 0) (hempty₂ : b₂.getBytesAvailableForRead = 0) :
    b₁.onDataWrittenAtRange = b₂.onDataWrittenAtRange ∧ b₁.onDataReadAtRange = b₂.onDataReadAtRange := by
  have hcallback : ∀ {o p : Option Callback} {c d : ℕ} {r s : DataRange},
      o.map (⟨·, c, r⟩ : Callback → Notification) = p.map (⟨·, d, s⟩) → o = p := by
    intro o p c d r s hmap
    cases o <;> cases p <;> simp_all
  have hfill : ∀ b : RingBuffer, 0 < b.size.toNat → b.getBytesAvailableForRead = 0 → b.use (.write (fun _ => 0) b.size) =
      some (b.stored (fun _ => 0) b.size,
        .wrote b.size (b.onDataWrittenAtRange.map (⟨·, b.ctx, ⟨b.writeOffset.toUInt32, b.size⟩⟩))) := by
    intro b hb hempty
    exact use_write _ hb (by rw [hempty, UInt32.toNat_zero]; omega)
  have hread : ∀ b : RingBuffer, 0 < b.size.toNat → b.getBytesAvailableForRead = 0 →
      ∃ ec bytes, (b.stored (fun _ => 0) b.size).use (.get b.size true) = some (b.stored (fun _ => 0) b.size,
        .got ec b.size bytes (b.onDataReadAtRange.map (⟨·, b.ctx, ⟨b.readOffset.toUInt32, b.size⟩⟩))) := by
    intro b hb hempty
    obtain ⟨ec, hget⟩ := use_get (b := b.stored (fun _ => 0) b.size) hb (by
      rw [available_stored, hempty, UInt32.zero_add]
      rfl)
    exact ⟨ec, _, hget⟩
  have hwrite₂ := hfill b₂ (hsize ▸ hn) hempty₂
  obtain ⟨ec₁, bytes₁, hread₁⟩ := hread b₁ hn hempty₁
  obtain ⟨ec₂, bytes₂, hread₂⟩ := hread b₂ (hsize ▸ hn) hempty₂
  rw [← hsize] at hwrite₂ hread₂
  obtain ⟨hwrote, h'⟩ := h.step (hfill b₁ hn hempty₁) hwrite₂
  obtain ⟨hgot, -⟩ := h'.step hread₁ hread₂
  injection hwrote with _ hnote
  injection hgot with _ _ _ hnote'
  exact ⟨hcallback hnote, hcallback hnote'⟩

/-- Calls on a buffer with a size do not fail. -/
theorem use_total (hs : b.size ≠ 0) (op : Use) : ∃ b' o, b.use op = some (b', o) ∧ b'.size ≠ 0 := by
  have hread : ∀ requested peek, ∃ b' r, b.getDataAtRange requested peek = some (b', r) ∧ b'.size ≠ 0 := by
    intro requested peek
    have hsome : ∃ b' r, b.getDataAtRange requested peek = some (b', r) := by
      unfold RingBuffer.getDataAtRange bufferReadOffsetWithOffset
      simp only [if_neg hs, Option.bind_eq_bind, Option.bind_some]
      split <;> exact ⟨_, _, rfl⟩
    obtain ⟨b', r, hget⟩ := hsome
    refine ⟨b', r, hget, ?_⟩
    rcases getDataAtRange_buffer hget with rfl | rfl <;> exact hs
  cases op with
  | write data size =>
    have hsome : ∃ b' r, b.writeData data size = some (b', r) := by
      unfold RingBuffer.writeData bufferWriteOffset
      simp only [if_neg hs, Option.bind_eq_bind, Option.bind_some]
      split <;> exact ⟨_, _, rfl⟩
    obtain ⟨b', r, hwrite⟩ := hsome
    obtain ⟨mem, w, rfl⟩ := writeData_buffer hwrite
    exact ⟨_, _, congrArg (Option.map _) hwrite, hs⟩
  | get length peek =>
    obtain ⟨b', r, hget, hs'⟩ := hread ⟨b.readOffset.toUInt32, length⟩ peek
    exact ⟨b', _, congrArg (Option.map _) hget, hs'⟩
  | getAt requested peek =>
    obtain ⟨b', r, hget, hs'⟩ := hread requested peek
    exact ⟨b', _, congrArg (Option.map _) hget, hs'⟩
  | clear length => exact ⟨_, _, rfl, hs⟩
  | query => exact ⟨b, _, rfl, hs⟩

/-- **Creation**: two contents of the memory before it cannot be told apart by any calls afterwards, and both buffers
are empty, if and only if they agree. -/
theorem create_ring_buffer_fresh_iff (params : CreateParams) (hsize : 0 < params.sizeInBytes.toNat)
    (old₁ old₂ b₁ b₂ : RingBuffer) (h₁ : createRingBuffer params old₁ = some b₁)
    (h₂ : createRingBuffer params old₂ = some b₂) :
    ((∀ ops, ∃ s₁ s₂ answers, Device.run RingBuffer.use b₁ ops = some (s₁, answers) ∧
        Device.run RingBuffer.use b₂ ops = some (s₂, answers)) ∧
      b₁.isEmpty = true ∧ b₂.isEmpty = true) ↔ Agree params.sizeInBytes old₁ old₂ := by
  obtain ⟨data, hdata, rfl⟩ := createRingBuffer_eq h₁
  obtain ⟨data', hdata', rfl⟩ := createRingBuffer_eq h₂
  rw [hdata, Option.some.injEq] at hdata'
  subst hdata'
  have hs : params.sizeInBytes ≠ 0 := size_ne_zero hsize
  rw [← Device.alike_iff (I := fun b => b.size ≠ 0) (fun b op hb => use_total hb op) hs hs]
  constructor
  · rintro ⟨halike, hempty₁, hempty₂⟩
    have hnone₁ := eq_of_beq hempty₁
    have hnone₂ := eq_of_beq hempty₂
    obtain ⟨hwritten, hread⟩ := alike_observers halike rfl hsize hnone₁ hnone₂
    have hlow : old₁.readOffset.toUInt32 = old₁.writeOffset.toUInt32 := by
      apply UInt32.toNat_inj.1
      rw [UInt64.toNat_toUInt32, UInt64.toNat_toUInt32]
      exact low_of_empty hnone₁
    obtain ⟨hqueries, -⟩ := Device.Alike.step (i := .query) halike rfl rfl
    injection hqueries with hqueries
    have hoffsets := congrArg Queries.offsets hqueries
    simp only [RingBuffer.queries, RingBuffer.getOffsets, Prod.mk.injEq] at hoffsets
    refine ⟨hlow, hoffsets.2.1, hoffsets.2.2, congrArg Queries.callbackContext hqueries, hread, hwritten, ?_⟩
    by_cases hdvd : params.sizeInBytes.toNat ∣ 2 ^ 32
    · exact .inl hdvd
    · have hwhole := offsets_eq halike hsize rfl rfl hnone₁ hnone₂ hdvd
      exact .inr hwhole
  · intro h
    have hempty : ∀ old : RingBuffer, old.readOffset.toUInt32 = old.writeOffset.toUInt32 →
        RingBuffer.isEmpty { old with data := data, size := params.sizeInBytes } = true := by
      intro old hlow
      simp only [RingBuffer.isEmpty, RingBuffer.getBytesAvailableForRead, bytesAvailableForRead, UInt64.toUInt32_sub,
        hlow, UInt32.sub_self, beq_self_eq_true]
    refine ⟨?_, hempty old₁ h.empty, hempty old₂ (by rw [← h.read, ← h.write, h.empty])⟩
    rcases h.high with hdvd | ⟨hr, hw⟩
    · exact alike_of_sameLow ⟨rfl, rfl, h.ctx, h.onRead, h.onWritten, h.read, h.write⟩ hdvd
    · intro ops
      rw [hr, hw, h.ctx, h.onRead, h.onWritten]

/-- A buffer of four bytes in memory that was used before, and in memory that is zeroed. -/
theorem create_ring_buffer_fresh_iff_four :
    (∀ ops, ∃ s₁ s₂ answers,
      ((createRingBuffer ⟨some 1, some fun _ => 0, 4⟩ ⟨9, 0, 0, fun _ => 7, 0, none, none⟩).bind fun b =>
        Device.run RingBuffer.use b ops) = some (s₁, answers) ∧
      ((createRingBuffer ⟨some 1, some fun _ => 0, 4⟩ ⟨5, 4294967296, 8589934592, fun _ => 8, 0, none, none⟩).bind
        fun b => Device.run RingBuffer.use b ops) = some (s₂, answers)) ∧
      (createRingBuffer ⟨some 1, some fun _ => 0, 4⟩ ⟨9, 0, 0, fun _ => 7, 0, none, none⟩).map RingBuffer.isEmpty =
        some true ∧
      (createRingBuffer ⟨some 1, some fun _ => 0, 4⟩ ⟨5, 4294967296, 8589934592, fun _ => 8, 0, none, none⟩).map
        RingBuffer.isEmpty = some true := by
  have hfresh := (create_ring_buffer_fresh_iff ⟨some 1, some fun _ => 0, 4⟩ (by decide)
    ⟨9, 0, 0, fun _ => 7, 0, none, none⟩ ⟨5, 4294967296, 8589934592, fun _ => 8, 0, none, none⟩ _ _ rfl rfl).2
      ⟨by decide, by decide, by decide, rfl, rfl, rfl, .inl (by decide)⟩
  exact ⟨hfresh.1, congrArg some hfresh.2.1, congrArg some hfresh.2.2⟩

/-- **Memory that was used before**: the created buffer has three bytes to read, and an observer to call. -/
theorem create_ring_buffer_stale :
    (((createRingBuffer ⟨some 1, some fun _ => 0, 4⟩ ⟨0, 0, 0, fun _ => 0, 0, none, none⟩).bind fun b =>
      Device.run RingBuffer.use b [.get 4 true]).map Prod.snd) = some [.got 0 0 [] none] ∧
    (((createRingBuffer ⟨some 1, some fun _ => 0, 4⟩ ⟨8, 2, 5, fun _ => 7, 6, some 3, none⟩).bind fun b =>
      Device.run RingBuffer.use b [.get 4 true]).map Prod.snd) =
        some [.got 2 3 [0, 0, 0] (some ⟨3, 6, ⟨2, 3⟩⟩)] := by
  decide

end Create

end Cutils.Ring
