import Cutils.Spec.RingBuffer

/-!
# Offsets and memory of the ring buffer

What the 32- and 64-bit computations of the ring buffer are on numbers, as long as
the two offsets are at most the buffer's size apart, and what its `memcpy` calls do
to the stream the memory holds (`Cyclic.Holds`).

* `writeFirst_holds`, `writeSecond_holds`: the two halves of a write.
* `copyRing_readRegions`: the bytes of the regions a read returns.
-/

namespace Cutils.Ring

open Cyclic

theorem toNat_bytesAvailableForRead {w r : UInt64} (h1 : r.toNat ≤ w.toNat)
    (h2 : w.toNat - r.toNat < 2 ^ 32) :
    (bytesAvailableForRead w r).toNat = w.toNat - r.toNat := by
  have hw := w.toNat_lt
  simp only [bytesAvailableForRead, UInt64.toNat_toUInt32, UInt64.toNat_sub]
  omega

theorem toNat_bytesAvailableForWrite {size : UInt32} {w r : UInt64} (h1 : r.toNat ≤ w.toNat)
    (h2 : w.toNat ≤ r.toNat + size.toNat) :
    (bytesAvailableForWrite size w r).toNat = size.toNat - (w.toNat - r.toNat) := by
  have hs := size.toNat_lt
  have h := toNat_bytesAvailableForRead h1 (by omega)
  simp only [bytesAvailableForWrite, UInt32.toNat_sub, h]
  omega

theorem toNat_MIN (a b : UInt32) : (MIN a b).toNat = min a.toNat b.toNat := by
  unfold MIN
  split
  · rename_i h; rw [UInt32.lt_iff_toNat_lt] at h; omega
  · rename_i h; rw [UInt32.lt_iff_toNat_lt] at h; omega

/-- The slot of an offset, where the size is not zero. -/
theorem slot_eq {size : UInt32} (hs : 0 < size.toNat) (x : UInt64) :
    ((x % size.toUInt64).toUInt32).toNat = x.toNat % size.toNat := by
  have h1 := Nat.mod_lt x.toNat hs
  have h2 := size.toNat_lt
  simp only [UInt64.toNat_toUInt32, UInt64.toNat_mod, UInt32.toNat_toUInt64]
  omega

theorem size_ne_zero {size : UInt32} (hs : 0 < size.toNat) : size ≠ 0 := by
  rintro rfl
  simp at hs

theorem bufferWriteOffset_eq {size : UInt32} (hs : 0 < size.toNat) (w : UInt64) :
    ∃ f, bufferWriteOffset size w = some f ∧ f.toNat = w.toNat % size.toNat :=
  ⟨_, if_neg (size_ne_zero hs), slot_eq hs w⟩

theorem bufferReadOffset_eq {size : UInt32} (hs : 0 < size.toNat) (r : UInt64) :
    ∃ f, bufferReadOffsetWithOffset size r 0 = some f ∧ f.toNat = r.toNat % size.toNat := by
  refine ⟨_, if_neg (size_ne_zero hs), ?_⟩
  rw [slot_eq hs]
  simp

theorem toNat_remaining {size f : UInt32} (hf : f.toNat < size.toNat) :
    (size - f).toNat = size.toNat - f.toNat := by
  rw [UInt32.toNat_sub]
  have := size.toNat_lt
  omega

section Buffer

variable {b b' : RingBuffer}

/-- What a write does to the buffer. -/
theorem writeData_buffer {data : ℕ → UInt8} {size : UInt32} {r : UInt32 × Option Notification}
    (h : b.writeData data size = some (b', r)) : ∃ mem w, b' = { b with data := mem, writeOffset := w } := by
  unfold RingBuffer.writeData at h
  split at h
  · cases h
    exact ⟨b.data, b.writeOffset, rfl⟩
  · obtain ⟨f, -, h⟩ := Option.bind_eq_some_iff.1 h
    cases h
    exact ⟨_, _, rfl⟩

/-- What a read does to the buffer. -/
theorem getDataAtRange_buffer {requested : DataRange} {peek : Bool} {r : RingBufferData × Option Notification}
    (h : b.getDataAtRange requested peek = some (b', r)) :
    b' = b ∨ b' = { b with
      readOffset := b.readOffset + (MIN requested.length b.getCurrentDataRange.length).toUInt64 } := by
  unfold RingBuffer.getDataAtRange at h
  simp only at h
  split at h
  · cases h
    exact .inl rfl
  · obtain ⟨f, -, h⟩ := Option.bind_eq_some_iff.1 h
    cases h
    cases peek with
    | true => exact .inl rfl
    | false => exact .inr rfl

end Buffer

section Write

variable {size f btw callSize : UInt32} {W R : ℕ} {mem data : ℕ → UInt8} {q : List UInt8}

/-- **The first copy of a write** of `btw` bytes at offset `W` stores the bytes up to
the last slot and keeps the unread ones. -/
theorem writeFirst_holds (hs : 0 < size.toNat) (hf : f.toNat = W % size.toNat)
    (hc : btw.toNat ≤ callSize.toNat) (hR : R + q.length ≤ W) (hfit : W + btw.toNat ≤ R + size.toNat)
    (hq : Holds size.toNat mem R q) :
    Holds size.toNat (writeFirst size f btw callSize mem data) R q ∧
      Holds size.toNat (writeFirst size f btw callSize mem data) W
        (firstN data (min btw.toNat (size - f).toNat)) := by
  have hm := Nat.mod_lt W hs
  have hrem : (size - f).toNat = size.toNat - f.toNat := toNat_remaining (by omega)
  simp only [writeFirst, gt_iff_lt, UInt32.lt_iff_toNat_lt, hrem]
  split
  · rename_i h
    rw [Nat.min_eq_right (by omega), hf]
    exact ⟨hq.store hR (by omega) (by omega), copy_holds mem data (by omega)⟩
  · rename_i h
    have hlen : (if btw.toNat < callSize.toNat then btw else callSize).toNat = btw.toNat := by
      split <;> omega
    rw [Nat.min_eq_left (by omega), hlen, hf]
    exact ⟨hq.store hR (by omega) (by omega), copy_holds mem data (by omega)⟩

/-- **The second copy** stores the rest from slot 0 on. -/
theorem writeSecond_holds (hs : 0 < size.toNat) (hf : f.toNat = W % size.toNat)
    (hwrap : (size - f).toNat < btw.toNat) (hR : R + q.length ≤ W)
    (hfit : W + btw.toNat ≤ R + size.toNat) (hq : Holds size.toNat mem R q)
    (h1 : Holds size.toNat mem W (firstN data (size - f).toNat)) :
    Holds size.toNat (writeSecond size f btw mem data) R q ∧
      Holds size.toNat (writeSecond size f btw mem data) W (firstN data btw.toNat) := by
  have hm := Nat.mod_lt W hs
  have hrem : (size - f).toNat = size.toNat - f.toNat := toNat_remaining (by omega)
  have hrest : (btw - (size - f)).toNat = btw.toNat - (size - f).toNat := by
    rw [UInt32.toNat_sub]
    have := btw.toNat_lt
    omega
  -- the second region starts at the position that wraps to slot 0
  have h0 : (W + (size - f).toNat) % size.toNat = 0 := by
    rw [hrem, hf]
    exact slot_wrap hs W
  simp only [writeSecond]
  rw [hrest, ← h0]
  constructor
  · exact hq.store (by omega) (by omega) (by omega)
  · have hsplit := firstN_add data (size - f).toNat (btw.toNat - (size - f).toNat)
    rw [Nat.add_sub_cancel' hwrap.le] at hsplit
    rw [hsplit]
    refine (h1.store (by simp) (by omega) (by omega)).append ?_
    rw [length_firstN]
    exact copy_holds mem _ (by omega)

end Write

/-- A returned description whose regions are `len` bytes of the stream from `lo` on. -/
structure Regions (size : UInt32) (lo len : ℕ) (d : RingBufferData) : Prop where
  count : d.entryCount = 1 ∨ d.entryCount = 2
  total : d.totalBytes.toNat = len
  first : d.data0.data = lo % size.toNat
  first_le : lo % size.toNat + d.data0.length.toNat ≤ size.toNat
  one : d.entryCount = 1 → d.data0.length.toNat = len
  two : d.entryCount = 2 → d.data1.data = 0 ∧
    d.data0.length.toNat + d.data1.length.toNat = len ∧
    (lo + d.data0.length.toNat) % size.toNat = 0

theorem readRegions_ok {size f btr : UInt32} {lo : ℕ} (hs : 0 < size.toNat)
    (hf : f.toNat = lo % size.toNat) : Regions size lo btr.toNat (readRegions size f btr) := by
  have hm := Nat.mod_lt lo hs
  have hrem : (size - f).toNat = size.toNat - f.toNat := toNat_remaining (by omega)
  simp only [readRegions, gt_iff_lt, UInt32.lt_iff_toNat_lt, hrem]
  split
  · rename_i h
    have hrest : (btr - (size - f)).toNat = btr.toNat - (size - f).toNat := by
      rw [UInt32.toNat_sub]
      have := btr.toNat_lt
      omega
    refine ⟨.inr rfl, rfl, hf, by simp only; omega, by simp, fun _ => ⟨rfl, ?_, ?_⟩⟩
    · simp only; omega
    · simp only [hrem, hf]; exact slot_wrap hs lo
  · rename_i h
    exact ⟨.inl rfl, rfl, hf, by simp only; omega, fun _ => rfl, by simp⟩

section Read

variable {size : UInt32} {lo len : ℕ} {d : RingBufferData} {mem : ℕ → UInt8} {q : List UInt8}

theorem Regions.first_bytes (h : Regions size lo len d) (hq : Holds size.toNat mem lo q)
    (hlen : len ≤ q.length) : regionBytes mem d.data0 = q.take d.data0.length.toNat := by
  have hle : d.data0.length.toNat ≤ len := by
    rcases h.count with h1 | h2
    · exact (h.one h1).le
    · have := h.two h2; omega
  unfold regionBytes
  rw [h.first]
  exact hq.read (by omega) h.first_le

theorem Regions.second_bytes (h : Regions size lo len d) (h2 : d.entryCount = 2)
    (hq : Holds size.toNat mem lo q) (hlen : len ≤ q.length) (hn : len ≤ size.toNat) :
    regionBytes mem d.data1 = (q.drop d.data0.length.toNat).take d.data1.length.toNat := by
  obtain ⟨h0, hsum, hwrap⟩ := h.two h2
  have hlen1 : d.data1.length.toNat ≤ (q.drop d.data0.length.toNat).length := by
    rw [List.length_drop]; omega
  have hr := (hq.drop d.data0.length.toNat).read hlen1 (by omega)
  rw [hwrap] at hr
  unfold regionBytes
  rw [h0]
  exact hr

/-- **The bytes of the returned regions** are the oldest ones, in order. -/
theorem Regions.bytes (h : Regions size lo len d) (hq : Holds size.toNat mem lo q)
    (hlen : len ≤ q.length) (hn : len ≤ size.toNat) : copyRingDataToBuffer mem d = q.take len := by
  have h1 := h.first_bytes hq hlen
  unfold copyRingDataToBuffer
  rcases h.count with hc | hc
  · rw [if_neg (by omega), if_neg (by omega), h1, h.one hc]
  · rw [if_neg (by omega), if_pos hc, h1, h.second_bytes hc hq hlen hn, ← (h.two hc).2.1]
    exact List.take_add.symm

end Read

end Cutils.Ring
