import Cutils.Proof.RingMemory
import Cutils.Spec.RingRace

/-!
# One writer and one reader on the ring buffer

`Inv` relates the shared offsets and memory to the stream of bytes the writes have
put in, and each thread's locals to what they were computed from. The writer's part
survives the reader's steps because the read offset only grows (`WriterOK.mono`), the
reader's part survives the writer's because the stream only grows (`ReaderOK.mono`):
this is the argument of the comments in `ring_buffer.c`.

It needs the second evaluation of the free space in `MIN` not to exceed the size
(`MinStable`). `ring_race_safe`: in every run whose steps meet that, no write call
advances or returns more than its size and the reader consumes a prefix of what was
written. `min_reevaluation_overruns`: without it, a write of one byte advances by two.
-/

namespace Cutils.Ring

open Cyclic

namespace Race

/-- What the writer's locals were computed from, at read offset `R` and write offset `w`. -/
def WriterOK (size : UInt32) (R : ℕ) (w : UInt64) (mem : ℕ → UInt8) : WriterPc → Prop
  | .idle | .fullW _ | .slotW _ => True
  | .fullR _ w' => w' = w
  | .minW _ slot | .min2W _ slot => slot.toNat = w.toNat % size.toNat
  | .minR _ slot w' | .min2R _ slot w' => slot.toNat = w.toNat % size.toNat ∧ w' = w
  | .copy1 c slot btw =>
    slot.toNat = w.toNat % size.toNat ∧ btw ≤ c.size ∧ w.toNat + btw.toNat ≤ R + size.toNat
  | .copy2 c slot btw =>
    slot.toNat = w.toNat % size.toNat ∧ btw ≤ c.size ∧ w.toNat + btw.toNat ≤ R + size.toNat ∧
      (size - slot).toNat < btw.toNat ∧ Holds size.toNat mem w.toNat (firstN c.data (size - slot).toNat)
  | .rangeW c btw | .store c btw =>
    btw ≤ c.size ∧ w.toNat + btw.toNat ≤ R + size.toNat ∧
      Holds size.toNat mem w.toNat (firstN c.data btw.toNat)

/-- What the reader's locals were computed from, at offsets `R` and `W` with unread bytes `q`. -/
def ReaderOK (size : UInt32) (R W : ℕ) (q : List UInt8) : ReaderPc → Prop
  | .idle | .getR _ => True
  | .rangeLoc req => req.location.toNat = R
  | .rangeW req loc => req.location.toNat = R ∧ loc = req.location
  | .rangeR req loc w => req.location.toNat = R ∧ loc = req.location ∧ R ≤ w.toNat ∧ w.toNat ≤ W
  | .emptyW req current | .emptyR req current _ | .slotR req current =>
    req.location.toNat = R ∧ current.location = req.location ∧ R + current.length.toNat ≤ W
  | .copy1 d => ∃ len, Regions size R len d ∧ R + len ≤ W
  | .copy2 d bytes =>
    ∃ len, Regions size R len d ∧ R + len ≤ W ∧ d.entryCount = 2 ∧
      bytes.length = d.data0.length.toNat ∧ bytes <+: q
  | .got total bytes => total.toNat = bytes.length ∧ bytes <+: q
  | .clearLoc bytes length | .clearW bytes length => length.toNat ≤ bytes.length ∧ bytes <+: q
  | .clearR bytes length w =>
    length.toNat ≤ bytes.length ∧ bytes <+: q ∧ R ≤ w.toNat ∧ w.toNat ≤ W
  | .store bytes n => n.toNat ≤ bytes.length ∧ bytes <+: q

structure Inv (s : Race) : Prop where
  pos : 0 < s.size.toNat
  le : s.readOffset.toNat ≤ s.writeOffset.toNat
  cap : s.writeOffset.toNat ≤ s.readOffset.toNat + s.size.toNat
  len : s.stream.length = s.writeOffset.toNat
  consumed : s.consumed = s.stream.take s.readOffset.toNat
  holds : Holds s.size.toNat s.mem s.readOffset.toNat (s.stream.drop s.readOffset.toNat)
  bounded : s.WritesBounded
  writer : WriterOK s.size s.readOffset.toNat s.writeOffset s.mem s.writer
  reader : ReaderOK s.size s.readOffset.toNat s.writeOffset.toNat
    (s.stream.drop s.readOffset.toNat) s.reader

variable {s s' : Race}

theorem Inv.create {size : UInt32} (hpos : 0 < size.toNat) (mem : ℕ → UInt8) :
    Inv (create size mem) := by
  refine ⟨hpos, le_rfl, Nat.zero_le _, rfl, rfl, Holds.nil _ _, ⟨?_, ?_⟩, trivial, trivial⟩
  · intro x hx; cases hx
  · intro x hx; cases hx

/-- **Stale read offsets are safe for the writer.** -/
theorem WriterOK.mono {size : UInt32} {R R' : ℕ} {w : UInt64} {mem : ℕ → UInt8} {pc : WriterPc}
    (h : WriterOK size R w mem pc) (hR : R ≤ R') : WriterOK size R' w mem pc := by
  cases pc with
  | copy1 c slot btw => exact ⟨h.1, h.2.1, by have := h.2.2; omega⟩
  | copy2 c slot btw => exact ⟨h.1, h.2.1, by have := h.2.2.1; omega, h.2.2.2⟩
  | rangeW c btw => exact ⟨h.1, by have := h.2.1; omega, h.2.2⟩
  | store c btw => exact ⟨h.1, by have := h.2.1; omega, h.2.2⟩
  | _ => exact h

/-- **Stale write offsets are safe for the reader.** -/
theorem ReaderOK.mono {size : UInt32} {R W W' : ℕ} {q q' : List UInt8} {pc : ReaderPc}
    (h : ReaderOK size R W q pc) (hW : W ≤ W') (hq : q <+: q') : ReaderOK size R W' q' pc := by
  cases pc with
  | rangeR req loc w => exact ⟨h.1, h.2.1, h.2.2.1, by have := h.2.2.2; omega⟩
  | emptyW req current => exact ⟨h.1, h.2.1, by have := h.2.2; omega⟩
  | emptyR req current w => exact ⟨h.1, h.2.1, by have := h.2.2; omega⟩
  | slotR req current => exact ⟨h.1, h.2.1, by have := h.2.2; omega⟩
  | copy1 d => obtain ⟨len, h1, h2⟩ := h; exact ⟨len, h1, by omega⟩
  | copy2 d bytes =>
    obtain ⟨len, h1, h2, h3, h4, h5⟩ := h
    exact ⟨len, h1, by omega, h3, h4, h5.trans hq⟩
  | got total bytes => exact ⟨h.1, h.2.trans hq⟩
  | clearLoc bytes length => exact ⟨h.1, h.2.trans hq⟩
  | clearW bytes length => exact ⟨h.1, h.2.trans hq⟩
  | clearR bytes length w => exact ⟨h.1, h.2.1.trans hq, h.2.2.1, by have := h.2.2.2; omega⟩
  | store bytes n => exact ⟨h.1, h.2.trans hq⟩
  | _ => exact h

/-- A step that only moves the writer's program counter. -/
theorem Inv.setWriter (h : Inv s) {pc : WriterPc}
    (hpc : WriterOK s.size s.readOffset.toNat s.writeOffset s.mem pc) : Inv { s with writer := pc } :=
  ⟨h.pos, h.le, h.cap, h.len, h.consumed, h.holds, h.bounded, hpc, h.reader⟩

/-- A step that only moves the reader's program counter. -/
theorem Inv.setReader (h : Inv s) {pc : ReaderPc}
    (hpc : ReaderOK s.size s.readOffset.toNat s.writeOffset.toNat
      (s.stream.drop s.readOffset.toNat) pc) : Inv { s with reader := pc } :=
  ⟨h.pos, h.le, h.cap, h.len, h.consumed, h.holds, h.bounded, h.writer, hpc⟩

/-- The unread bytes fill the distance between the offsets. -/
theorem Inv.unread (h : Inv s) : s.readOffset.toNat + (s.stream.drop s.readOffset.toNat).length =
    s.writeOffset.toNat := by
  rw [List.length_drop, h.len]
  have := h.le
  omega

/-- A copy into memory past the unread bytes, followed by a new program counter. -/
theorem Inv.setMem (h : Inv s) {mem : ℕ → UInt8} {pc : WriterPc}
    (hm : Holds s.size.toNat mem s.readOffset.toNat (s.stream.drop s.readOffset.toNat))
    (hpc : WriterOK s.size s.readOffset.toNat s.writeOffset mem pc) :
    Inv { s with mem := mem, writer := pc } :=
  ⟨h.pos, h.le, h.cap, h.len, h.consumed, hm, h.bounded, hpc, h.reader⟩

theorem Inv.toNat_free (h : Inv s) : (bytesAvailableForWrite s.size s.writeOffset s.readOffset).toNat =
    s.size.toNat - (s.writeOffset.toNat - s.readOffset.toNat) :=
  toNat_bytesAvailableForWrite h.le h.cap

/-- **The write offset's store** appends the call's bytes to the stream. -/
theorem Inv.storeWriter (h : Inv s) (hr : s.InRange) {c : WriteCall} {btw : UInt32}
    (hpc : WriterOK s.size s.readOffset.toNat s.writeOffset s.mem (.store c btw)) :
    Inv { s with
      writeOffset := s.writeOffset + btw.toUInt64
      writer := .idle
      advances := s.advances ++ [(c, btw)]
      returns := s.returns ++ [(c.size, btw)] } := by
  obtain ⟨hle, hfit, hnew⟩ := hpc
  have hb := btw.toNat_lt
  have hw : (s.writeOffset + btw.toUInt64).toNat = s.writeOffset.toNat + btw.toNat := by
    rw [UInt64.toNat_add, UInt32.toNat_toUInt64]
    have := hr.2
    omega
  have h1 := h.le
  have h2 := h.len
  have hst : stream { s with
      writeOffset := s.writeOffset + btw.toUInt64
      writer := .idle
      advances := s.advances ++ [(c, btw)]
      returns := s.returns ++ [(c.size, btw)] } = s.stream ++ firstN c.data btw.toNat := by
    simp [stream]
  refine ⟨h.pos, by simp only [hw]; omega, by simp only [hw]; omega, ?_, ?_, ?_, ⟨?_, ?_⟩, trivial, ?_⟩
  · rw [hst, List.length_append, length_firstN, h2, hw]
  · show s.consumed = List.take s.readOffset.toNat _
    rw [hst, List.take_append_of_le_length (by omega)]
    exact h.consumed
  · show Holds _ s.mem s.readOffset.toNat (List.drop s.readOffset.toNat _)
    rw [hst, List.drop_append_of_le_length (by omega)]
    exact h.holds.append (by rw [h.unread]; exact hnew)
  · intro x hx
    rcases List.mem_append.1 hx with hx | hx
    · exact h.bounded.1 x hx
    · rw [List.mem_singleton.1 hx]; exact hle
  · intro x hx
    rcases List.mem_append.1 hx with hx | hx
    · exact h.bounded.2 x hx
    · rw [List.mem_singleton.1 hx]; exact hle
  · rw [hst]
    simp only [hw]
    refine h.reader.mono (by omega) ?_
    rw [List.drop_append_of_le_length (by omega)]
    exact List.prefix_append _ _

/-- **The read offset's store** consumes the copied bytes it clears. -/
theorem Inv.storeReader (h : Inv s) {bytes : List UInt8} {n : UInt32}
    (hpc : ReaderOK s.size s.readOffset.toNat s.writeOffset.toNat
      (s.stream.drop s.readOffset.toNat) (.store bytes n)) :
    Inv { s with
      readOffset := s.readOffset + n.toUInt64
      reader := .idle
      consumed := s.consumed ++ bytes.take n.toNat } := by
  obtain ⟨hn, hpre⟩ := hpc
  have h1 := h.unread
  have hlen := hpre.length_le
  have hwlt := s.writeOffset.toNat_lt
  have hr : (s.readOffset + n.toUInt64).toNat = s.readOffset.toNat + n.toNat := by
    rw [UInt64.toNat_add, UInt32.toNat_toUInt64]
    omega
  have h2 := h.cap
  refine ⟨h.pos, by simp only [hr]; omega, by simp only [hr]; omega, h.len, ?_, ?_, h.bounded, ?_, trivial⟩
  · have htake : bytes.take n.toNat = (s.stream.drop s.readOffset.toNat).take n.toNat := by
      obtain ⟨rest, hrest⟩ := hpre
      rw [← hrest, List.take_append_of_le_length hn]
    simp only [hr, h.consumed, htake]
    exact List.take_add.symm
  · show Holds _ s.mem _ (s.stream.drop _)
    rw [hr, ← List.drop_drop]
    exact h.holds.drop _
  · simp only [hr]
    exact h.writer.mono (by omega)

/-- **The writer's steps** keep the invariant. -/
theorem writer_inv (h : Inv s) (hr : s.InRange) (hmin : s.MinStable .writer)
    (hs : s.writerStep = some s') : Inv s' := by
  have hw := h.writer
  have hfree := h.toNat_free
  have hle := h.le
  have hcap := h.cap
  unfold writerStep at hs
  -- the reader may have moved since the writer's loads: what was free then is still free
  cases hpc : s.writer with
  | idle => simp [hpc] at hs
  | fullW c =>
    simp only [hpc, Option.some.injEq] at hs; subst hs
    exact h.setWriter rfl
  | fullR c w =>
    simp only [hpc] at hs
    split at hs
    · simp only [Option.some.injEq] at hs; subst hs
      refine ⟨h.pos, h.le, h.cap, h.len, h.consumed, h.holds, ⟨h.bounded.1, ?_⟩, trivial, h.reader⟩
      intro x hx
      rcases List.mem_append.1 hx with hx | hx
      · exact h.bounded.2 x hx
      · rw [List.mem_singleton.1 hx]; exact UInt32.zero_le
    · simp only [Option.some.injEq] at hs; subst hs
      exact h.setWriter trivial
  | slotW c =>
    obtain ⟨f, hf, hslot⟩ := bufferWriteOffset_eq h.pos s.writeOffset
    simp only [hpc, hf, Option.map_some, Option.some.injEq] at hs; subst hs
    exact h.setWriter hslot
  | minW c slot =>
    simp only [hpc, Option.some.injEq] at hs; subst hs
    rw [hpc] at hw
    exact h.setWriter ⟨hw, rfl⟩
  | minR c slot w =>
    simp only [hpc] at hs
    rw [hpc] at hw
    obtain ⟨hslot, rfl⟩ := hw
    split at hs
    · rename_i hlt
      rw [UInt32.lt_iff_toNat_lt] at hlt
      simp only [Option.some.injEq] at hs; subst hs
      exact h.setWriter ⟨hslot, UInt32.le_refl _, by omega⟩
    · simp only [Option.some.injEq] at hs; subst hs
      exact h.setWriter hslot
  | min2W c slot =>
    simp only [hpc, Option.some.injEq] at hs; subst hs
    rw [hpc] at hw
    exact h.setWriter ⟨hw, rfl⟩
  | min2R c slot w =>
    simp only [hpc, Option.some.injEq] at hs; subst hs
    rw [hpc] at hw
    unfold MinStable at hmin
    simp only [hpc] at hmin
    obtain ⟨hslot, rfl⟩ := hw
    exact h.setWriter ⟨hslot, hmin, by omega⟩
  | copy1 c slot btw =>
    simp only [hpc, Option.some.injEq] at hs; subst hs
    rw [hpc] at hw
    obtain ⟨hslot, hbtw, hfit⟩ := hw
    obtain ⟨hk, hnew⟩ := writeFirst_holds h.pos hslot (UInt32.le_iff_toNat_le.1 hbtw) h.unread.le hfit h.holds
    apply h.setMem hk
    split
    · rename_i hwrap
      rw [gt_iff_lt, UInt32.lt_iff_toNat_lt] at hwrap
      rw [Nat.min_eq_right hwrap.le] at hnew
      exact ⟨hslot, hbtw, hfit, hwrap, hnew⟩
    · rename_i hwrap
      rw [gt_iff_lt, UInt32.lt_iff_toNat_lt, not_lt] at hwrap
      rw [Nat.min_eq_left hwrap] at hnew
      exact ⟨hbtw, hfit, hnew⟩
  | copy2 c slot btw =>
    simp only [hpc, Option.some.injEq] at hs; subst hs
    rw [hpc] at hw
    obtain ⟨hslot, hbtw, hfit, hwrap, hnew⟩ := hw
    obtain ⟨hk, hnew⟩ := writeSecond_holds h.pos hslot hwrap h.unread.le hfit h.holds hnew
    exact h.setMem hk ⟨hbtw, hfit, hnew⟩
  | rangeW c btw =>
    simp only [hpc, Option.some.injEq] at hs; subst hs
    rw [hpc] at hw
    exact h.setWriter hw
  | store c btw =>
    simp only [hpc, Option.some.injEq] at hs; subst hs
    rw [hpc] at hw
    exact h.storeWriter hr hw

/-- **The reader's steps** keep the invariant. -/
theorem reader_inv (h : Inv s) (hr : s.InRange) (hs : s.readerStep = some s') : Inv s' := by
  have hR := h.reader
  have hle := h.le
  have hcap := h.cap
  have hsize := s.size.toNat_lt
  have hrange := hr.1
  have hloc : s.readOffset.toUInt32.toNat = s.readOffset.toNat := by
    rw [UInt64.toNat_toUInt32]; omega
  have hread : ∀ w : UInt64, s.readOffset.toNat ≤ w.toNat → w.toNat ≤ s.writeOffset.toNat →
      (bytesAvailableForRead w s.readOffset).toNat = w.toNat - s.readOffset.toNat :=
    fun w h1 h2 => toNat_bytesAvailableForRead h1 (by omega)
  unfold readerStep at hs
  -- and what was unread at the reader's loads is still there
  cases hpc : s.reader with
  | idle => simp [hpc] at hs
  | getR length =>
    simp only [hpc, Option.some.injEq] at hs; subst hs
    exact h.setReader hloc
  | rangeLoc req =>
    simp only [hpc, Option.some.injEq] at hs; subst hs
    rw [hpc] at hR
    exact h.setReader ⟨hR, UInt32.toNat_inj.1 (by rw [hloc]; exact hR.symm)⟩
  | rangeW req loc =>
    simp only [hpc, Option.some.injEq] at hs; subst hs
    rw [hpc] at hR
    exact h.setReader ⟨hR.1, hR.2, hle, le_rfl⟩
  | rangeR req loc w =>
    simp only [hpc, Option.some.injEq] at hs; subst hs
    rw [hpc] at hR
    obtain ⟨h1, h2, h3, h4⟩ := hR
    exact h.setReader ⟨h1, h2, by simp only [hread w h3 h4]; omega⟩
  | emptyW req current =>
    simp only [hpc, Option.some.injEq] at hs; subst hs
    rw [hpc] at hR
    exact h.setReader hR
  | emptyR req current w =>
    simp only [hpc] at hs
    rw [hpc] at hR
    split at hs
    · simp only [Option.some.injEq] at hs; subst hs
      exact h.setReader ⟨rfl, List.nil_prefix⟩
    · simp only [Option.some.injEq] at hs; subst hs
      exact h.setReader hR
  | slotR req current =>
    rw [hpc] at hR
    obtain ⟨h1, h2, h3⟩ := hR
    obtain ⟨f, hf, hslot⟩ := bufferReadOffset_eq h.pos s.readOffset
    have hmove : req.location - current.location = 0 := by rw [h2]; simp
    simp only [hpc, hmove, hf, Option.map_some, Option.some.injEq] at hs; subst hs
    refine h.setReader ⟨_, readRegions_ok h.pos hslot, ?_⟩
    rw [toNat_MIN]; omega
  | copy1 d =>
    simp only [hpc] at hs
    rw [hpc] at hR
    obtain ⟨len, hreg, hlen⟩ := hR
    have hq : len ≤ (s.stream.drop s.readOffset.toNat).length := by have := h.unread; omega
    have hb := hreg.first_bytes h.holds hq
    have hpre : regionBytes s.mem d.data0 <+: s.stream.drop s.readOffset.toNat := by
      rw [hb]; exact List.take_prefix _ _
    have hl : (regionBytes s.mem d.data0).length = d.data0.length.toNat := length_firstN _ _
    split at hs
    · rename_i h2
      simp only [Option.some.injEq] at hs; subst hs
      exact h.setReader ⟨len, hreg, hlen, h2, hl, hpre⟩
    · rename_i h2
      simp only [Option.some.injEq] at hs; subst hs
      have h1 : d.entryCount = 1 := hreg.count.resolve_right h2
      exact h.setReader ⟨by rw [hl, hreg.one h1, hreg.total], hpre⟩
  | copy2 d bytes =>
    simp only [hpc, Option.some.injEq] at hs; subst hs
    rw [hpc] at hR
    obtain ⟨len, hreg, hlen, h2, hl, hpre⟩ := hR
    have hq : len ≤ (s.stream.drop s.readOffset.toNat).length := by have := h.unread; omega
    have hb := hreg.second_bytes h2 h.holds hq (by omega)
    obtain ⟨-, hsum, -⟩ := hreg.two h2
    refine h.setReader ⟨?_, ?_⟩
    · rw [hreg.total, List.length_append, hl, regionBytes, length_firstN, hsum]
    · -- the two copies are consecutive parts of the unread bytes
      have hbytes : bytes = (s.stream.drop s.readOffset.toNat).take d.data0.length.toNat := by
        rw [← hl]; exact List.prefix_iff_eq_take.1 hpre
      rw [hb, hbytes, ← List.take_add]
      exact List.take_prefix _ _
  | got total bytes => simp [hpc] at hs
  | clearLoc bytes length =>
    simp only [hpc, Option.some.injEq] at hs; subst hs
    rw [hpc] at hR
    exact h.setReader hR
  | clearW bytes length =>
    simp only [hpc, Option.some.injEq] at hs; subst hs
    rw [hpc] at hR
    exact h.setReader ⟨hR.1, hR.2, hle, le_rfl⟩
  | clearR bytes length w =>
    simp only [hpc, Option.some.injEq] at hs; subst hs
    rw [hpc] at hR
    exact h.setReader ⟨by rw [toNat_MIN]; have := hR.1; omega, hR.2.1⟩
  | store bytes n =>
    simp only [hpc, Option.some.injEq] at hs; subst hs
    rw [hpc] at hR
    exact h.storeReader hR

/-- **Every step** keeps the invariant. -/
theorem step_inv {a : RaceAct} (h : Inv s) (hr : s.InRange) (hmin : s.MinStable a)
    (hs : s.step a = some s') : Inv s' := by
  cases a with
  | writer => exact writer_inv h hr hmin hs
  | reader => exact reader_inv h hr hs
  | write c =>
    simp only [step] at hs
    split at hs
    · simp only [Option.some.injEq] at hs; subst hs
      exact h.setWriter trivial
    · cases hs
  | get length =>
    simp only [step] at hs
    split at hs
    · simp only [Option.some.injEq] at hs; subst hs
      exact h.setReader trivial
    · cases hs
  | clear length =>
    simp only [step] at hs
    split at hs
    · rename_i total bytes hpc
      split at hs
      · rename_i hle
        simp only [Option.some.injEq] at hs; subst hs
        have hR := h.reader
        rw [hpc] at hR
        rw [UInt32.le_iff_toNat_le] at hle
        exact h.setReader ⟨by have := hR.1; omega, hR.2⟩
      · cases hs
    · cases hs

end Race

open Race

/-- **One writer, one reader.** In every run from an empty buffer of positive size, with
the offsets below `2 ^ 32` and every second evaluation of the free space at most the
size given: no write call advances the offset by more than its size or returns more,
and the consumed bytes are a prefix of what the advancing calls have written. -/
theorem ring_race_safe {s : Race}
    (h : Sys.Reach Race.system (fun s a => s.InRange ∧ s.MinStable a) s) :
    s.WritesBounded ∧ s.consumed <+: s.stream := by
  have hinv : Inv s := by
    refine h.inv ?_ ?_
    · rintro s ⟨size, mem, hpos, rfl⟩
      exact Inv.create hpos mem
    · intro s a s' hs hok hstep
      exact step_inv hs hok.1 hok.2 hstep
  refine ⟨hinv.bounded, ?_⟩
  rw [hinv.consumed]
  exact List.take_prefix _ _

theorem create_reach {ok : Race → RaceAct → Prop} {size : UInt32} (hpos : 0 < size.toNat)
    (mem : ℕ → UInt8) : Sys.Reach system ok (create size mem) :=
  .init ⟨size, mem, hpos, rfl⟩

/-- The writer writes two bytes, the reader peeks at them. -/
def twoBytes : List RaceAct :=
  .write ⟨fun _ => 5, 2⟩ :: List.replicate 10 .writer ++ .get 2 :: List.replicate 8 .reader

/-- A buffer of two takes two bytes, the reader copies both and clears one. -/
theorem ring_race_safe_two :
    ∃ s : Race, Sys.Reach system (fun s a => s.InRange ∧ s.MinStable a) s ∧ s.consumed = [5] ∧ s.WritesBounded ∧
      s.consumed <+: s.stream := by
  have htrace : (Sys.exec system (fun s a => s.InRange ∧ s.MinStable a) (create 2 fun _ => 0)
      (twoBytes ++ .clear 1 :: List.replicate 4 .reader)).map (fun s => s.consumed == [5]) =
        some true := by decide +kernel
  obtain ⟨s, hs, hp⟩ := (create_reach (by decide) _).of_trace htrace
  exact ⟨s, hs, by simpa using hp, ring_race_safe hs⟩

/-- Both threads on a full buffer of two: the reader clears a byte, the writer starts a
write of one byte and finds exactly one free, and before it evaluates the free space
again the reader clears the other byte. -/
def overrun : List RaceAct :=
  twoBytes ++ .clear 1 :: List.replicate 4 .reader ++ .write ⟨fun _ => 6, 1⟩ :: List.replicate 5 .writer ++
    .get 1 :: List.replicate 8 .reader ++ .clear 1 :: List.replicate 4 .reader ++ List.replicate 5 .writer

/-- **Re-evaluating the free space overruns the request**: with no condition on the
second evaluation, a write of size 1 advances the offset by 2 and returns 2. -/
theorem min_reevaluation_overruns :
    ¬ ∀ s, Sys.Reach system (fun s _ => s.InRange) s → s.WritesBounded ∧ s.consumed <+: s.stream := by
  intro h
  have htrace : (Sys.exec system (fun s _ => s.InRange) (create 2 fun _ => 0) overrun).map
      (fun s => s.advances.any fun x => x.1.size < x.2) = some true := by decide +kernel
  obtain ⟨s, hs, hp⟩ := (create_reach (by decide) _).of_trace htrace
  obtain ⟨x, hx, hlt⟩ := List.any_eq_true.1 hp
  exact absurd ((h s hs).1.1 x hx) (UInt32.not_le.2 (by simpa using hlt))

end Cutils.Ring
