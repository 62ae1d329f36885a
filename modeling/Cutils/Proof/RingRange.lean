import Cutils.Proof.RingFifo

/-!
# Reads of ranges, and what they assert

Ranges have 32 bits of an offset, so `max_data_range` wraps around where the data crosses a multiple of 2^32; and the
length of a read is bounded by the length of all the data, not by what is left of it from the location on.

* `ring_buffer_asserts_iff`: exactly when a read from the read offset passes the assertions.
* `ring_buffer_range_iff`: exactly when a read of a range returns the bytes of the stream there.
-/

namespace Cutils.Ring

open Cyclic

variable {n : UInt32} {b : RingBuffer} {q : Fifo UInt8 n.toNat}

/-- The lengths of the regions always add up. -/
theorem readRegions_length (size f btr : UInt32) :
    btr = (readRegions size f btr).data0.length + (readRegions size f btr).data1.length := by
  unfold readRegions
  simp only
  split
  · rw [UInt32.add_comm, UInt32.sub_add_cancel]
  · rw [UInt32.add_zero]

theorem Refines.count_eq (h : Refines b q) : b.writeOffset.toNat - b.readOffset.toNat = q.count := by
  rw [h.offsets, Nat.add_sub_cancel_left]

/-- A read only asserts that the end of the request is not after that of the data, on 32 bits: its other two assertions
always hold. -/
theorem asserts_eq (requested : DataRange) {f : UInt32}
    (hin : ¬ (b.isEmpty || !locationInDataRange requested.location b.getCurrentDataRange) = true)
    (hf : bufferReadOffsetWithOffset b.size b.readOffset (requested.location - b.getCurrentDataRange.location) =
      some f) :
    b.getDataAtRangeAsserts requested = some (decide (requested.location +
      MIN requested.length b.getBytesAvailableForRead ≤ b.readOffset.toUInt32 + b.getBytesAvailableForRead)) := by
  have hmove : b.readOffset.toUInt32 + (requested.location - b.readOffset.toUInt32) = requested.location := by
    rw [UInt32.add_comm, UInt32.sub_add_cancel]
  unfold RingBuffer.getDataAtRangeAsserts
  simp only [if_neg hin, hf, Option.bind_eq_bind, Option.bind_some, ← readRegions_length, beq_self_eq_true,
    Bool.true_and]
  simp only [RingBuffer.getCurrentDataRange, hmove, maxDataRange, beq_self_eq_true, Bool.true_and]
  rfl

section Asserts

/-- Two 32-bit sums with a common part compare as their numbers do unless only the larger one wraps around. -/
theorem sum_le_iff {loc k c : UInt32} (hk : k.toNat ≤ c.toNat) :
    loc + k ≤ loc + c ↔ (loc.toNat + k.toNat) / 2 ^ 32 = (loc.toNat + c.toNat) / 2 ^ 32 := by
  have h1 := loc.toNat_lt
  have h2 := c.toNat_lt
  rw [UInt32.le_iff_toNat_le, UInt32.toNat_add, UInt32.toNat_add]
  omega

/-- **The assertions of a read** from the read offset. -/
theorem Refines.asserts_iff (h : Refines b q) (length : UInt32) :
    b.getDataAsserts length = some true ↔
      (b.readOffset.toNat + min length.toNat q.count) / 2 ^ 32 = b.writeOffset.toNat / 2 ^ 32 := by
  by_cases hcount : q.count = 0
  · refine iff_of_true ?_ ?_
    · unfold RingBuffer.getDataAsserts RingBuffer.getDataAtRangeAsserts
      rw [if_pos (h.early_iff.2 hcount)]
    · rw [h.offsets, hcount, Nat.min_zero]
  · obtain ⟨f, hf, -⟩ := bufferReadOffset_eq (Fifo.cap_pos hcount) b.readOffset
    have hslot : bufferReadOffsetWithOffset b.size b.readOffset
        (b.readOffset.toUInt32 - b.getCurrentDataRange.location) = some f := by
      rw [h.size, RingBuffer.getCurrentDataRange, UInt32.sub_self, hf]
    have hmin : (MIN length b.getBytesAvailableForRead).toNat = min length.toNat q.count := by
      rw [toNat_MIN, h.toNat_read]
    have hle : (MIN length b.getBytesAvailableForRead).toNat ≤ b.getBytesAvailableForRead.toNat := by
      rw [toNat_MIN]
      exact Nat.min_le_right _ _
    have hin : ¬ (b.isEmpty || !locationInDataRange b.readOffset.toUInt32 b.getCurrentDataRange) = true :=
      fun hempty => hcount (h.early_iff.1 hempty)
    rw [RingBuffer.getDataAsserts, asserts_eq ⟨b.readOffset.toUInt32, length⟩ hin hslot, Option.some.injEq,
      decide_eq_true_iff, sum_le_iff hle, hmin, h.toNat_read, h.offsets,
      UInt64.toNat_toUInt32]
    -- the high half of the read offset is the same on both sides
    omega

/-- **The assertions of `ring_buffer_get_data`**, in every state that calls lead to: they hold if and only if no
multiple of 2^32 lies between the end of the read and the end of the data. -/
theorem ring_buffer_asserts_iff (b₀ : RingBuffer) (hr : b₀.readOffset = 0) (hw : b₀.writeOffset = 0) (ops : List Op)
    (hfit : Device.Along RingBuffer.call OffsetsFit b₀ ops) (b : RingBuffer) (answers : List Obs)
    (hrun : Device.run RingBuffer.call b₀ ops = some (b, answers)) (length : UInt32) :
    b.getDataAsserts length = some true ↔
      (b.readOffset.toNat + min length.toNat (b.writeOffset.toNat - b.readOffset.toNat)) / 2 ^ 32 =
        b.writeOffset.toNat / 2 ^ 32 := by
  have h0 : Refines b₀ (Fifo.empty : Fifo UInt8 b₀.size.toNat) := ⟨rfl, by rw [hr, hw]; rfl, Holds.nil _ _⟩
  obtain ⟨b', hrun', hR⟩ := Device.refines_run call_refines ops b₀ Fifo.empty h0 hfit
  rw [hrun, Option.some.injEq, Prod.mk.injEq] at hrun'
  obtain ⟨rfl, -⟩ := hrun'
  rw [hR.asserts_iff, ← hR.count_eq]

/-- A read of three of four bytes that lie below 2^32. -/
theorem ring_buffer_asserts_iff_low :
    (Device.run RingBuffer.call ⟨8, 0, 0, fun _ => 0, 0, none, none⟩ [.write (fun _ => 7) 4]).bind
      (fun r => r.1.getDataAsserts 3) = some true :=
  (ring_buffer_asserts_iff ⟨8, 0, 0, fun _ => 0, 0, none, none⟩ rfl rfl [.write (fun _ => 7) 4]
    ⟨by unfold OffsetsFit; decide, fun _ _ _ => trivial⟩ _ _ rfl 3).2 (by decide)

/-- **Two bytes before 2^32**, a read of one of four bytes ends before the data does, whose end has wrapped around. -/
theorem ring_buffer_asserts_wrap :
    (Device.run RingBuffer.call ⟨8, 0, 0, fun _ => 0, 0, none, none⟩ [.reset 4294967294, .write (fun _ => 7) 4]).bind
      (fun r => r.1.getDataAsserts 1) = some false := by
  decide

end Asserts

section Range

/-- A call, or a read of a range. -/
inductive RangeOp
  | call (op : Op)
  | getAt (requested : DataRange) (peek : Bool)

/-- A buffer, and the byte that was last written at each offset. -/
structure Traced where
  buffer : RingBuffer
  stream : ℕ → UInt8

/-- What a write adds to the stream, by what it returns. -/
def Traced.call (t : Traced) : RangeOp → Option (Traced × Obs)
  | .call op => (t.buffer.call op).map fun r =>
    (⟨r.1, match op, r.2 with
      | .write data _, .wrote count => copy t.stream t.buffer.writeOffset.toNat data count
      | _, _ => t.stream⟩, r.2)
  | .getAt requested peek => (t.buffer.getDataAtRange requested peek).map fun r =>
    (⟨r.1, t.stream⟩, .got (copyRingDataToBuffer t.buffer.data r.2.1))

/-- Writes do not wrap the 64-bit write offset. -/
def RangeOp.Fits (t : Traced) : RangeOp → Prop
  | .call op => OffsetsFit t.buffer op
  | .getAt _ _ => True

instance (t : Traced) : ∀ op : RangeOp, Decidable (op.Fits t)
  | .call op => inferInstanceAs (Decidable (OffsetsFit t.buffer op))
  | .getAt _ _ => inferInstanceAs (Decidable True)

/-- The buffer stands for the bytes of the stream between its offsets. -/
def Traced.Holds (t : Traced) (q : Fifo UInt8 n.toNat) : Prop :=
  Refines t.buffer q ∧ q.items = firstN (fun i => t.stream (t.buffer.readOffset.toNat + i)) q.count

theorem Traced.Holds.clear {t : Traced} (h : t.Holds q) (length : UInt32) :
    Traced.Holds ⟨t.buffer.clearData length, t.stream⟩ (q.discard length.toNat) := by
  obtain ⟨hR, hitems⟩ := h
  have hclear := hR.clear length
  have hcount := q.count_discard length.toNat
  have hread : (t.buffer.clearData length).readOffset.toNat = t.buffer.readOffset.toNat + min length.toNat q.count := by
    have h1 := hR.offsets
    have h2 := hclear.offsets
    have hsame : (t.buffer.clearData length).writeOffset = t.buffer.writeOffset := rfl
    rw [hsame] at h2
    omega
  refine ⟨hclear, ?_⟩
  show q.items.drop (min length.toNat q.count) = _
  rw [hitems, drop_firstN, hcount, hread, show q.count - min length.toNat q.count = q.count - length.toNat by omega]
  simp only [Nat.add_assoc]

/-- A write puts its bytes into the stream at the write offset. -/
theorem Traced.Holds.write {t : Traced} (h : t.Holds q) {data : ℕ → UInt8} {size ret : UInt32} {b' : RingBuffer}
    {note : Option Notification} (hwrite : t.buffer.writeData data size = some (b', ret, note))
    (hret : ret.toNat = min size.toNat q.free) (hR' : Refines b' (q.append (firstN data size.toNat))) :
    Traced.Holds ⟨b', copy t.stream t.buffer.writeOffset.toNat data ret.toNat⟩ (q.append (firstN data size.toNat)) := by
  obtain ⟨hR, hitems⟩ := h
  have hoff := hR.offsets
  have hcount : (q.append (firstN data size.toNat)).count = q.count + ret.toNat := by
    show (q.items ++ (firstN data size.toNat).take q.free).length = _
    rw [List.length_append, take_firstN, length_firstN, ← hret]
    rfl
  -- below the write offset the stream is as it was, and the new bytes follow
  have hold : firstN (fun i => copy t.stream t.buffer.writeOffset.toNat data ret.toNat (t.buffer.readOffset.toNat + i))
      q.count = q.items := by
    rw [hitems]
    refine List.map_congr_left fun i hi => ?_
    have hlt := List.mem_range.1 hi
    simp only [copy]
    rw [if_neg (by omega)]
  have hnew : firstN (fun i => copy t.stream t.buffer.writeOffset.toNat data ret.toNat
      (t.buffer.readOffset.toNat + (q.count + i))) ret.toNat = firstN data ret.toNat := by
    refine List.map_congr_left fun i hi => ?_
    have hlt := List.mem_range.1 hi
    simp only [copy]
    rw [if_pos (by omega)]
    congr 1
    omega
  refine ⟨hR', ?_⟩
  obtain ⟨mem, w, rfl⟩ := writeData_buffer hwrite
  show q.items ++ (firstN data size.toNat).take q.free = _
  rw [hcount, firstN_add, hold, hnew, take_firstN, hret]

/-- **One call** keeps the stream. -/
theorem Traced.Holds.call {t t' : Traced} {op : RangeOp} {o : Obs} (h : t.Holds q) (hfit : op.Fits t)
    (hcall : t.call op = some (t', o)) : ∃ q' : Fifo UInt8 n.toNat, t'.Holds q' := by
  -- a read leaves the buffer as it is, or clears what it read
  have hread : ∀ {requested peek b' d note}, t.buffer.getDataAtRange requested peek = some (b', d, note) →
      ∃ q' : Fifo UInt8 n.toNat, Traced.Holds ⟨b', t.stream⟩ q' := by
    intro requested peek b' d note hget
    rcases getDataAtRange_buffer hget with rfl | rfl
    · exact ⟨q, h⟩
    · exact ⟨_, h.clear requested.length⟩
  cases op with
  | getAt requested peek =>
    obtain ⟨r, hget, hr⟩ := Option.map_eq_some_iff.1 hcall
    cases hr
    exact hread hget
  | call op =>
    obtain ⟨r, hop, hr⟩ := Option.map_eq_some_iff.1 hcall
    cases hr
    cases op with
    | write data size =>
      obtain ⟨b', ret, note, hwrite, hret, hR'⟩ := h.1.writeData data size hfit
      simp only [RingBuffer.call, hwrite, Option.map_some, Option.some.injEq] at hop
      cases hop
      exact ⟨_, h.write hwrite hret hR'⟩
    | get length peek =>
      obtain ⟨r', hget, hr'⟩ := Option.map_eq_some_iff.1 hop
      cases hr'
      exact hread hget
    | clear length =>
      cases hop
      exact ⟨_, h.clear length⟩
    | reset offset =>
      cases hop
      exact ⟨Fifo.empty, h.1.reset offset, rfl⟩

section Read

/-- Below 2^32 an offset is its low half. -/
theorem Refines.toNat_low (h : Refines b q) (hw : b.writeOffset.toNat < 2 ^ 32) :
    b.readOffset.toUInt32.toNat = b.readOffset.toNat := by
  have hoff := h.offsets
  rw [UInt64.toNat_toUInt32, Nat.mod_eq_of_lt (by omega)]

/-- Below 2^32 the locations that are in the range of the data are the offsets of the data. -/
theorem Refines.location_iff (h : Refines b q) (hw : b.writeOffset.toNat < 2 ^ 32) (loc : UInt32) :
    (b.isEmpty || !locationInDataRange loc b.getCurrentDataRange) = true ↔
      ¬ (b.readOffset.toNat ≤ loc.toNat ∧ loc.toNat < b.writeOffset.toNat) := by
  have hoff := h.offsets
  have hr := h.toNat_low hw
  have hloc := loc.toNat_lt
  simp only [Bool.or_eq_true, h.isEmpty, locationInDataRange, RingBuffer.getCurrentDataRange, Bool.not_eq_true',
    Bool.and_eq_false_iff, Bool.not_eq_false', decide_eq_true_iff, decide_eq_false_iff_not, UInt32.lt_iff_toNat_lt,
    h.toNat_read, hr, UInt32.toNat_sub]
  omega

/-- The slot of a location of the data. -/
theorem Refines.slot_at (h : Refines b q) (hw : b.writeOffset.toNat < 2 ^ 32) {loc : UInt32}
    (hloc : b.readOffset.toNat ≤ loc.toNat ∧ loc.toNat < b.writeOffset.toNat) :
    ∃ f, bufferReadOffsetWithOffset b.size b.readOffset (loc - b.getCurrentDataRange.location) = some f ∧
      f.toNat = loc.toNat % n.toNat := by
  have hoff := h.offsets
  have hn : 0 < n.toNat := Fifo.cap_pos (show q.count ≠ 0 by omega)
  have hr := h.toNat_low hw
  have hadd : (b.readOffset + (loc - b.getCurrentDataRange.location).toUInt64).toNat = loc.toNat := by
    have := loc.toNat_lt
    rw [UInt64.toNat_add, UInt32.toNat_toUInt64, UInt32.toNat_sub, RingBuffer.getCurrentDataRange, hr]
    omega
  rw [h.size]
  exact ⟨_, if_neg (size_ne_zero hn), by rw [slot_eq hn, hadd]⟩

/-- The regions of a read hold as many bytes as it says. -/
theorem Regions.length_bytes {size : UInt32} {lo len : ℕ} {d : RingBufferData} (h : Regions size lo len d)
    (mem : ℕ → UInt8) : (copyRingDataToBuffer mem d).length = len := by
  unfold copyRingDataToBuffer regionBytes
  rcases h.count with hc | hc
  · rw [if_neg (by omega), if_neg (by omega), length_firstN, h.one hc]
  · rw [if_neg (by omega), if_pos hc, List.length_append, length_firstN, length_firstN, (h.two hc).2.1]

end Read

/-- **What a read of a range is to do**: return the bytes of the stream from the location on, as far as the request and
the data go, in at most two regions and without a failed assertion; or nothing, if the location is not in the data. -/
def Traced.RangeRead (t : Traced) (requested : DataRange) (peek : Bool) : Prop :=
  if t.buffer.readOffset.toNat ≤ requested.location.toNat ∧ requested.location.toNat < t.buffer.writeOffset.toNat then
    (∃ b' d note, t.buffer.getDataAtRange requested peek = some (b', d, note) ∧ d.entryCount ≤ 2 ∧
      copyRingDataToBuffer t.buffer.data d = firstN (fun i => t.stream (requested.location.toNat + i))
        (min (requested.location.toNat + requested.length.toNat) t.buffer.writeOffset.toNat -
          requested.location.toNat)) ∧
    t.buffer.getDataAtRangeAsserts requested = some true
  else t.buffer.getDataAtRange requested peek = some (t.buffer, RingBufferData.zero, none)

section Read

variable {t : Traced} {requested : DataRange}

/-- What a read returns at a location of the data, and what it asserts. -/
theorem Refines.getAt (h : Refines b q) (hw : b.writeOffset.toNat < 2 ^ 32) (requested : DataRange) (peek : Bool)
    (hloc : b.readOffset.toNat ≤ requested.location.toNat ∧ requested.location.toNat < b.writeOffset.toNat) :
    ∃ b' d note, b.getDataAtRange requested peek = some (b', d, note) ∧
      Regions n requested.location.toNat (min requested.length.toNat q.count) d ∧
      b.getDataAtRangeAsserts requested = some (decide (requested.location +
        MIN requested.length b.getBytesAvailableForRead ≤ b.readOffset.toUInt32 + b.getBytesAvailableForRead)) := by
  have hoff := h.offsets
  have hn : 0 < n.toNat := Fifo.cap_pos (show q.count ≠ 0 by omega)
  have hin : ¬ (b.isEmpty || !locationInDataRange requested.location b.getCurrentDataRange) = true :=
    fun hout => (h.location_iff hw _).1 hout hloc
  obtain ⟨f, hf, hslot⟩ := h.slot_at hw hloc
  have hreg : Regions n requested.location.toNat (min requested.length.toNat q.count)
      (readRegions b.size f (MIN requested.length b.getBytesAvailableForRead)) := by
    have hbtr : (MIN requested.length b.getBytesAvailableForRead).toNat = min requested.length.toNat q.count := by
      rw [toNat_MIN, h.toNat_read]
    rw [h.size, ← hbtr]
    exact readRegions_ok hn hslot
  have hget : ∃ b' note, b.getDataAtRange requested peek =
      some (b', readRegions b.size f (MIN requested.length b.getBytesAvailableForRead), note) := by
    unfold RingBuffer.getDataAtRange
    simp only [if_neg hin, hf, Option.bind_eq_bind, Option.bind_some]
    exact ⟨_, _, rfl⟩
  obtain ⟨b', note, hget⟩ := hget
  exact ⟨b', _, note, hget, hreg, asserts_eq requested hin hf⟩

/-- **Exactly when a read of a range is right.** -/
theorem Traced.Holds.rangeRead_iff (h : t.Holds q) (hw : t.buffer.writeOffset.toNat < 2 ^ 32) (peek : Bool) :
    t.RangeRead requested peek ↔ (t.buffer.readOffset.toNat ≤ requested.location.toNat ∧
        requested.location.toNat < t.buffer.writeOffset.toNat →
      requested.location.toNat = t.buffer.readOffset.toNat ∨
        requested.location.toNat + requested.length.toNat ≤ t.buffer.writeOffset.toNat) := by
  obtain ⟨hR, hitems⟩ := h
  have hoff := hR.offsets
  have hfits : q.count ≤ n.toNat := q.fits
  unfold Traced.RangeRead
  split
  · rename_i hloc
    obtain ⟨b', d, note, hget, hreg, hasserts⟩ := hR.getAt hw requested peek hloc
    constructor
    · -- too many bytes come back if the data ends before the request does
      rintro ⟨⟨b'', d', note', hget', -, hbytes⟩, -⟩ -
      rw [hget] at hget'
      cases hget'
      have hlen := congrArg List.length hbytes
      rw [hreg.length_bytes, length_firstN] at hlen
      omega
    · intro hcond
      have hend := hcond hloc
      refine ⟨⟨b', d, note, hget, ?_, ?_⟩, ?_⟩
      · rcases hreg.count with hc | hc <;> omega
      · have hholds := hR.holds.drop (requested.location.toNat - t.buffer.readOffset.toNat)
        rw [Nat.add_sub_cancel' hloc.1, hitems, drop_firstN] at hholds
        rw [hreg.bytes hholds (by rw [length_firstN]; omega) (by omega), take_firstN]
        simp only [← Nat.add_assoc, Nat.add_sub_cancel' hloc.1]
        congr 1
        omega
      · have hr := hR.toNat_low hw
        rw [hasserts, Option.some.injEq, decide_eq_true_iff, UInt32.le_iff_toNat_le, UInt32.toNat_add,
          UInt32.toNat_add, toNat_MIN, hR.toNat_read, hr]
        omega
  · rename_i hloc
    refine iff_of_true ?_ fun hin => absurd hin hloc
    unfold RingBuffer.getDataAtRange
    rw [if_pos ((hR.location_iff hw _).2 hloc)]

end Read

/-- **Reads of ranges**, in every state with a write offset below 2^32 that calls lead to: such a read is right if and
only if its location is the read offset or not in the data, or the request ends where the data does or before. -/
theorem ring_buffer_range_iff (b₀ : RingBuffer) (hr : b₀.readOffset = 0) (hw₀ : b₀.writeOffset = 0)
    (stream₀ : ℕ → UInt8) (ops : List RangeOp) (hfit : Device.Along Traced.call RangeOp.Fits ⟨b₀, stream₀⟩ ops)
    (t : Traced) (answers : List Obs) (hrun : Device.run Traced.call ⟨b₀, stream₀⟩ ops = some (t, answers))
    (hw : t.buffer.writeOffset.toNat < 2 ^ 32) (requested : DataRange) (peek : Bool) :
    t.RangeRead requested peek ↔ (t.buffer.readOffset.toNat ≤ requested.location.toNat ∧
        requested.location.toNat < t.buffer.writeOffset.toNat →
      requested.location.toNat = t.buffer.readOffset.toNat ∨
        requested.location.toNat + requested.length.toNat ≤ t.buffer.writeOffset.toNat) := by
  have h0 : Traced.Holds ⟨b₀, stream₀⟩ (Fifo.empty : Fifo UInt8 b₀.size.toNat) :=
    ⟨⟨rfl, by rw [hr, hw₀]; rfl, Holds.nil _ _⟩, rfl⟩
  have hkeep : ∀ s op s' o, (∃ q : Fifo UInt8 b₀.size.toNat, s.Holds q) → RangeOp.Fits s op →
      s.call op = some (s', o) → ∃ q : Fifo UInt8 b₀.size.toNat, s'.Holds q := by
    rintro s op s' o ⟨q, hq⟩ hop hcall
    exact hq.call hop hcall
  obtain ⟨q, hq⟩ := Device.keeps_run hkeep ops _ _ _ ⟨Fifo.empty, h0⟩ hfit hrun
  exact hq.rangeRead_iff hw peek

/-- Two of four bytes, from the second on. -/
theorem ring_buffer_range_iff_inside :
    Traced.RangeRead ⟨⟨8, 0, 4, copy (fun _ => 0) 0 (fun i => i.toUInt8) 4, 0, none, none⟩,
      copy (fun _ => 0) 0 (fun i => i.toUInt8) 4⟩ ⟨1, 2⟩ true := by
  have hfit : Device.Along Traced.call RangeOp.Fits ⟨⟨8, 0, 0, fun _ => 0, 0, none, none⟩, fun _ => 0⟩
      [.call (.write (fun i => i.toUInt8) 4)] := by decide
  exact (ring_buffer_range_iff ⟨8, 0, 0, fun _ => 0, 0, none, none⟩ rfl rfl (fun _ => 0)
    [.call (.write (fun i => i.toUInt8) 4)] hfit _ _ rfl (by decide) ⟨1, 2⟩ true).2 fun _ => .inr (by decide)

/-- **The last byte of four**: a request for two bytes returns the byte after the data, too, and fails an assertion. -/
theorem ring_buffer_range_beyond :
    ((Device.run Traced.call ⟨⟨8, 0, 0, fun _ => 0, 0, none, none⟩, fun _ => 0⟩
      [.call (.write (fun i => i.toUInt8) 4)]).map fun r =>
        (r.1.buffer.readOffset, r.1.buffer.writeOffset,
          (r.1.buffer.getDataAtRange ⟨3, 2⟩ true).map fun g => copyRingDataToBuffer r.1.buffer.data g.2.1,
          r.1.buffer.getDataAtRangeAsserts ⟨3, 2⟩)) =
      some (0, 4, some [3, 0], some false) := by
  decide

end Range

end Cutils.Ring
