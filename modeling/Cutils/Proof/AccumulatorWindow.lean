import Cutils.Lib.Fifo
import Cutils.Spec.Accumulator

/-!
# The accumulator is a sliding window

`windowCall` is the purpose of each operation, on a window of one byte less than the buffer's size. An
accumulator stands for a window (`Refines`), and every operation keeps this and answers as the window does
(`call_refines`).

* `accumulator_slides`: every sequence of calls, and that only the concatenation of the inserted data counts.
-/

namespace Cutils.Acc

open Cyclic

variable {n : UInt32}

/-- **The window an accumulator stands for.** -/
def windowCall (q : Fifo UInt8 (n.toNat - 1)) : Op → Fifo UInt8 (n.toNat - 1) × Obs
  | .insert data size =>
    if size.toNat < n.toNat then (q.slide (firstN data size.toNat), .inserted true) else (q, .inserted false)
  | .peek size => (q, .got (if size.toNat ≤ q.count then some (q.items.take size.toNat) else none))
  | .extract size =>
    if size.toNat ≤ q.count then (q.discard size.toNat, .got (some (q.items.take size.toNat)))
    else (q, .got none)
  | .clear => (Fifo.empty, .done)

/-- Accumulator `a` stands for window `q`. -/
structure Refines (a : Accumulator) (q : Fifo UInt8 (n.toNat - 1)) : Prop where
  size : a.totalBufferSize = n
  outPos : a.outPos.toNat < n.toNat
  inPos : a.inPos.toNat = (a.outPos.toNat + q.count) % n.toNat
  holds : Holds n.toNat a.buf a.outPos.toNat q.items

variable {a : Accumulator} {q : Fifo UInt8 (n.toNat - 1)}

/-- A new accumulator is empty. -/
theorem Refines.create (hpos : 0 < n.toNat) (buf : ℕ → UInt8) :
    Refines (.create buf n) (Fifo.empty : Fifo UInt8 (n.toNat - 1)) := by
  refine ⟨rfl, ?_, ?_, Holds.nil _ _⟩
  · show (0 : UInt32).toNat < n.toNat
    rw [UInt32.toNat_zero]
    exact hpos
  · show (0 : UInt32).toNat = ((0 : UInt32).toNat + 0) % n.toNat
    rw [UInt32.toNat_zero, Nat.zero_mod]

/-- `in` is behind `out`, or it has wrapped around. -/
theorem Refines.inPos_cases (h : Refines a q) : a.inPos.toNat = a.outPos.toNat + q.count ∧ a.inPos.toNat < n.toNat ∨
    a.inPos.toNat + n.toNat = a.outPos.toNat + q.count ∧ a.inPos.toNat < a.outPos.toNat := by
  have h1 := h.inPos
  have h2 := h.outPos
  have h3 : q.count ≤ n.toNat - 1 := q.fits
  rcases Nat.lt_or_ge (a.outPos.toNat + q.count) n.toNat with hlt | hge
  · rw [Nat.mod_eq_of_lt hlt] at h1
    exact .inl ⟨h1, by omega⟩
  · rw [Nat.mod_eq_sub_mod hge, Nat.mod_eq_of_lt (by omega)] at h1
    exact .inr ⟨by omega, by omega⟩

theorem Refines.toNat_bytesLeft (h : Refines a q) : a.bytesLeft.toNat = q.free := by
  have h1 := h.outPos
  have h2 : q.count ≤ n.toNat - 1 := q.fits
  have h3 := n.toNat_lt
  unfold Accumulator.bytesLeft Fifo.free
  rw [h.size]
  rcases h.inPos_cases with ⟨hin, hlt⟩ | ⟨hin, hlt⟩
  · rw [if_pos (UInt32.le_iff_toNat_le.2 (by omega))]
    simp only [UInt32.toNat_sub, UInt32.toNat_one]
    omega
  · rw [if_neg (by rw [UInt32.le_iff_toNat_le]; omega)]
    simp only [UInt32.toNat_sub, UInt32.toNat_one]
    omega

theorem Refines.toNat_bytesContained (h : Refines a q) : a.bytesContained.toNat = q.count := by
  have h1 := h.outPos
  have h2 : q.count ≤ n.toNat - 1 := q.fits
  have h3 := n.toNat_lt
  unfold Accumulator.bytesContained Accumulator.bytesContainedFrom
  rw [h.size]
  rcases h.inPos_cases with ⟨hin, hlt⟩ | ⟨hin, hlt⟩
  · rw [if_pos (UInt32.le_iff_toNat_le.2 (by omega))]
    simp only [UInt32.toNat_sub]
    omega
  · rw [if_neg (by rw [UInt32.le_iff_toNat_le]; omega)]
    simp only [UInt32.toNat_sub]
    omega

/-- A position moves on. The sum does not overflow, by the bound on the size. -/
theorem toNat_advance {x k : UInt32} (hn : n.toNat ≤ 2 ^ 31) (hx : x.toNat < n.toNat) (hk : k.toNat < n.toNat) :
    ((x + k) % n).toNat = (x.toNat + k.toNat) % n.toNat := by
  rw [UInt32.toNat_mod, UInt32.toNat_add, Nat.mod_eq_of_lt (a := x.toNat + k.toNat) (by omega)]

/-- Moving `out` over the oldest `k` bytes removes them. -/
theorem Refines.advance (h : Refines a q) (hn : n.toNat ≤ 2 ^ 31) {k : UInt32} (hk : k.toNat ≤ q.count) :
    Refines { a with outPos := (a.outPos + k) % a.totalBufferSize } (q.discard k.toNat) := by
  have h1 := h.outPos
  have h2 : q.count ≤ n.toNat - 1 := q.fits
  have hout : ((a.outPos + k) % a.totalBufferSize).toNat = (a.outPos.toNat + k.toNat) % n.toNat := by
    rw [h.size]
    exact toNat_advance hn h1 (by omega)
  have hcount : (q.discard k.toNat).count = q.count - k.toNat := by
    simp only [Fifo.count, Fifo.discard, List.length_drop] at *
    omega
  refine ⟨h.size, ?_, ?_, ?_⟩
  · rw [hout]
    exact Nat.mod_lt _ (by omega)
  · rw [hout, hcount, Nat.mod_add_mod, h.inPos]
    congr 1
    omega
  · rw [hout, Holds.mod_iff]
    have hdrop := h.holds.drop k.toNat
    simp only [Fifo.discard]
    rwa [Nat.min_eq_left hk]

/-- **The oldest bytes make room.** -/
theorem Refines.rotate (h : Refines a q) (hn : n.toNat ≤ 2 ^ 31) {size : UInt32} (hsize : size.toNat < n.toNat) :
    Refines (a.rotate size) (q.discard (size.toNat - q.free)) := by
  have hleft := h.toNat_bytesLeft
  have h2 : q.count ≤ n.toNat - 1 := q.fits
  have hfree : q.free + q.count = n.toNat - 1 := by
    unfold Fifo.free
    omega
  unfold Accumulator.rotate
  split
  · rename_i hlt
    rw [UInt32.lt_iff_toNat_lt, hleft] at hlt
    have hk : (size - a.bytesLeft).toNat = size.toNat - q.free := by
      rw [UInt32.toNat_sub, hleft]
      have := size.toNat_lt
      omega
    rw [← hk]
    exact h.advance hn (by omega)
  · rename_i hle
    rw [UInt32.lt_iff_toNat_lt, hleft] at hle
    have hq : q.discard (size.toNat - q.free) = q := by
      have h0 : size.toNat - q.free = 0 := by omega
      simp [Fifo.discard, h0]
    rwa [hq]

/-- The copies of an insert go around the end of the buffer. -/
theorem copyIn_eq (data : ℕ → UInt8) {size : UInt32} (hn : a.totalBufferSize.toNat ≤ 2 ^ 31)
    (hin : a.inPos.toNat < a.totalBufferSize.toNat) (hsize : size.toNat < a.totalBufferSize.toNat) :
    a.copyIn data size = copyAround a.totalBufferSize.toNat a.buf a.inPos.toNat data size.toNat := by
  -- no overflow: both are below 2 ^ 31
  have hsum : (a.inPos + size).toNat = a.inPos.toNat + size.toNat := by
    rw [UInt32.toNat_add]
    omega
  have hrem : (a.totalBufferSize - a.inPos).toNat = a.totalBufferSize.toNat - a.inPos.toNat := by
    rw [UInt32.toNat_sub]
    omega
  unfold Accumulator.copyIn copyAround
  simp only [UInt32.lt_iff_toNat_lt, hsum, hrem]
  split
  · rename_i hwrap
    have hrest : (size - (a.totalBufferSize - a.inPos)).toNat =
        size.toNat - (a.totalBufferSize.toNat - a.inPos.toNat) := by
      rw [UInt32.toNat_sub, hrem]
      omega
    rw [hrest]
  · rfl

theorem copyOut_eq {iter size : UInt32} (hn : a.totalBufferSize.toNat ≤ 2 ^ 31)
    (hiter : iter.toNat < a.totalBufferSize.toNat) (hsize : size.toNat < a.totalBufferSize.toNat) :
    a.copyOut iter size = readAround a.totalBufferSize.toNat a.buf iter.toNat size.toNat := by
  have hsum : (iter + size).toNat = iter.toNat + size.toNat := by
    rw [UInt32.toNat_add]
    omega
  have hrem : (a.totalBufferSize - iter).toNat = a.totalBufferSize.toNat - iter.toNat := by
    rw [UInt32.toNat_sub]
    omega
  unfold Accumulator.copyOut readAround
  simp only [UInt32.lt_iff_toNat_lt, hsum, hrem]
  split
  · rename_i hwrap
    have hrest : (size - (a.totalBufferSize - iter)).toNat =
        size.toNat - (a.totalBufferSize.toNat - iter.toNat) := by
      rw [UInt32.toNat_sub, hrem]
      omega
    rw [hrest]
  · rfl

/-- **An insert** slides the window over the new bytes, or is refused. -/
theorem Refines.insert (h : Refines a q) (hn : n.toNat ≤ 2 ^ 31) (data : ℕ → UInt8) (size : UInt32) :
    (size.toNat < n.toNat → (a.insert data size).2 = true ∧
      Refines (a.insert data size).1 (q.slide (firstN data size.toNat))) ∧
    (¬ size.toNat < n.toNat → a.insert data size = (a, false)) := by
  constructor
  · intro hsize
    have hrot := h.rotate hn hsize
    -- after the rotation there is room, so the second test succeeds
    have hroom : size.toNat ≤ (q.discard (size.toNat - q.free)).free := by
      have h2 : q.count ≤ n.toNat - 1 := q.fits
      unfold Fifo.free
      rw [Fifo.count_discard]
      omega
    have hins : a.insert data size = ({ a.rotate size with
        buf := (a.rotate size).copyIn data size
        inPos := ((a.rotate size).inPos + size) % (a.rotate size).totalBufferSize }, true) := by
      unfold Accumulator.insert
      rw [if_pos (by rw [UInt32.lt_iff_toNat_lt, h.size]; exact hsize)]
      dsimp only
      rw [if_pos (by rw [UInt32.le_iff_toNat_le, hrot.toNat_bytesLeft]; exact hroom)]
    rw [hins]
    refine ⟨rfl, ?_⟩
    generalize a.rotate size = a' at hrot
    have hitems : (q.slide (firstN data size.toNat)).items =
        (q.discard (size.toNat - q.free)).items ++ firstN data size.toNat := by
      have hlen : (firstN data size.toNat).length ≤ n.toNat - 1 := by
        rw [length_firstN]
        omega
      rw [Fifo.items_slide hlen, length_firstN]
    generalize q.discard (size.toNat - q.free) = q' at hrot hroom hitems
    have hin : a'.inPos.toNat < n.toNat := by
      rw [hrot.inPos]
      exact Nat.mod_lt _ (by omega)
    have hfree : q'.count + q'.free = n.toNat - 1 := by
      have h2 : q'.count ≤ n.toNat - 1 := q'.fits
      unfold Fifo.free
      omega
    -- `in` has moved on, and the new bytes are behind those that were left
    refine ⟨hrot.size, hrot.outPos, ?_, ?_⟩
    · dsimp only
      rw [hrot.size, toNat_advance hn hin hsize, hrot.inPos, Nat.mod_add_mod, Nat.add_assoc]
      unfold Fifo.count
      rw [hitems, List.length_append, length_firstN]
    · dsimp only
      rw [copyIn_eq data (by rw [hrot.size]; exact hn) (by rw [hrot.size]; exact hin) (by rw [hrot.size]; exact hsize),
        hrot.size, hitems, hrot.inPos]
      exact hrot.holds.storeAround (by omega) rfl (by unfold Fifo.count at hfree; omega)
  · -- as many bytes as the buffer has, or more, are refused
    intro hsize
    unfold Accumulator.insert
    rw [if_neg (by rw [UInt32.lt_iff_toNat_lt, h.size]; exact hsize)]

/-- **A peek** gives the oldest bytes, if there are as many. -/
theorem Refines.peek (h : Refines a q) (hn : n.toNat ≤ 2 ^ 31) (size : UInt32) :
    a.peek size = if size.toNat ≤ q.count then some (q.items.take size.toNat) else none := by
  have h1 := h.outPos
  have h2 : q.count ≤ n.toNat - 1 := q.fits
  unfold Accumulator.peek
  simp only [UInt32.le_iff_toNat_le, h.toNat_bytesContained]
  split
  · rename_i hle
    have hread := h.holds.readAround (by omega) hle (by omega)
    rw [Nat.mod_eq_of_lt h1] at hread
    rw [copyOut_eq (by rw [h.size]; exact hn) (by rw [h.size]; exact h1) (by rw [h.size]; omega), h.size, hread]
  · rfl

/-- **An extract** removes what it gives. -/
theorem Refines.extract (h : Refines a q) (hn : n.toNat ≤ 2 ^ 31) (size : UInt32) :
    ∃ a', a.extract size = some (a', if size.toNat ≤ q.count then some (q.items.take size.toNat) else none) ∧
      Refines a' (if size.toNat ≤ q.count then q.discard size.toNat else q) := by
  have h1 := h.outPos
  unfold Accumulator.extract
  rw [h.peek hn]
  by_cases hle : size.toNat ≤ q.count
  · simp only [if_pos hle]
    have h0 : a.totalBufferSize ≠ 0 := by
      intro h0
      rw [← h.size, h0] at h1
      exact absurd h1 (Nat.not_lt_zero _)
    rw [if_neg h0]
    exact ⟨_, rfl, h.advance hn hle⟩
  · simp only [if_neg hle]
    exact ⟨a, rfl, h⟩

/-- **One call** answers as the window does. -/
theorem call_refines (hn : n.toNat ≤ 2 ^ 31) (a : Accumulator) (q : Fifo UInt8 (n.toNat - 1)) (op : Op)
    (h : Refines a q) : ∃ a', a.call op = some (a', (windowCall q op).2) ∧ Refines a' (windowCall q op).1 := by
  cases op with
  | insert data size =>
    obtain ⟨hok, hbig⟩ := h.insert hn data size
    simp only [Accumulator.call, windowCall]
    split
    · rename_i hsize
      obtain ⟨hret, hr⟩ := hok hsize
      exact ⟨_, by rw [hret], hr⟩
    · rename_i hsize
      rw [hbig hsize]
      exact ⟨a, rfl, h⟩
  | peek size => exact ⟨a, by simp only [Accumulator.call, windowCall, h.peek hn], h⟩
  | extract size =>
    obtain ⟨a', hex, hr⟩ := h.extract hn size
    simp only [Accumulator.call, windowCall, hex, Option.map_some]
    split
    · rename_i hle
      rw [if_pos hle] at hr
      exact ⟨a', rfl, hr⟩
    · rename_i hle
      rw [if_neg hle] at hr
      exact ⟨a', rfl, hr⟩
  | clear =>
    have hclear : a.clear = .create a.buf n := by
      rw [← h.size]
      rfl
    refine ⟨a.clear, rfl, ?_⟩
    rw [hclear]
    exact .create (Nat.zero_lt_of_lt h.outPos) a.buf

/-- Calls write inside the buffer only. -/
theorem call_outside (hn : n.toNat ≤ 2 ^ 31) (h : Refines a q) {op : Op} {a' : Accumulator} {o : Obs}
    (hcall : a.call op = some (a', o)) {i : ℕ} (hi : n.toNat ≤ i) : a'.buf i = a.buf i := by
  cases op with
  -- the only call that writes
  | insert data size =>
    simp only [Accumulator.call, Option.some.injEq, Prod.mk.injEq] at hcall
    rw [← hcall.1]
    have hrotate : (a.rotate size).buf = a.buf := by
      unfold Accumulator.rotate
      split <;> rfl
    unfold Accumulator.insert
    split
    · rename_i hsize
      rw [UInt32.lt_iff_toNat_lt, h.size] at hsize
      have hrot := h.rotate hn hsize
      have hin : (a.rotate size).inPos.toNat < n.toNat := by
        rw [hrot.inPos]
        exact Nat.mod_lt _ (by omega)
      dsimp only
      split
      · dsimp only
        rw [copyIn_eq data (by rw [hrot.size]; exact hn) (by rw [hrot.size]; exact hin)
          (by rw [hrot.size]; exact hsize), hrot.size, copyAround_outside hin hsize.le hi, hrotate]
      · rw [hrotate]
    · rfl
  | peek size =>
    cases hcall
    rfl
  | extract size =>
    obtain ⟨r, hex, hr⟩ := Option.map_eq_some_iff.1 hcall
    cases hr
    unfold Accumulator.extract at hex
    split at hex
    · split at hex
      · cases hex
      · cases hex
        rfl
    · cases hex
      rfl
  | clear =>
    cases hcall
    rfl

section Chunks

/-- The data of a sequence of inserts. -/
def concatenation (chunks : List ((ℕ → UInt8) × UInt32)) : List UInt8 := chunks.flatMap fun c => firstN c.1 c.2.toNat

/-- A sequence of inserts. -/
def inserts (chunks : List ((ℕ → UInt8) × UInt32)) : List Op := chunks.map fun c => .insert c.1 c.2

/-- **Inserts slide the window over the concatenation of their data.** -/
theorem windowCall_inserts (q : Fifo UInt8 (n.toNat - 1)) (chunks : List ((ℕ → UInt8) × UInt32))
    (hlt : ∀ c ∈ chunks, c.2 < n) :
    (Device.runSpec windowCall q (inserts chunks)).1 = q.slide (concatenation chunks) := by
  induction chunks generalizing q with
  | nil => exact q.slide_nil.symm
  | cons c chunks ih =>
    have hc : c.2.toNat < n.toNat := UInt32.lt_iff_toNat_lt.1 (hlt c List.mem_cons_self)
    show (Device.runSpec windowCall (windowCall q (.insert c.1 c.2)).1 (inserts chunks)).1 = _
    have hstep : (windowCall q (.insert c.1 c.2)).1 = q.slide (firstN c.1 c.2.toNat) := by
      simp only [windowCall, if_pos hc]
    rw [hstep, ih _ fun d hd => hlt d (List.mem_cons_of_mem _ hd), Fifo.slide_slide]
    rfl

end Chunks

/-- **The accumulator is a sliding window.** For every size from 1 to 2^31, every memory and every sequence of
calls: the answers are those of a window of one byte less, in which an insert keeps the last bytes; the counts
are the window's; both positions stay in the buffer, and nothing is written outside of it. From there on, what
a sequence of inserts leaves depends on the concatenation of their data only. -/
theorem accumulator_slides (n : UInt32) (hpos : 1 ≤ n.toNat) (hn : n.toNat ≤ 2 ^ 31) (buf : ℕ → UInt8)
    (ops : List Op) :
    let spec := Device.runSpec windowCall (Fifo.empty : Fifo UInt8 (n.toNat - 1)) ops
    ∃ a, Device.run Accumulator.call (.create buf n) ops = some (a, spec.2) ∧ Refines a spec.1 ∧
      a.bytesContained.toNat = spec.1.count ∧ a.bytesLeft.toNat = n.toNat - 1 - spec.1.count ∧
      a.inPos < n ∧ a.outPos < n ∧ (∀ i, n.toNat ≤ i → a.buf i = buf i) ∧
      ∀ chunks chunks', (∀ c ∈ chunks, c.2 < n) → (∀ c ∈ chunks', c.2 < n) →
        concatenation chunks = concatenation chunks' →
        ∃ a₁ a₂ os₁ os₂, Device.run Accumulator.call a (inserts chunks) = some (a₁, os₁) ∧
          Device.run Accumulator.call a (inserts chunks') = some (a₂, os₂) ∧
          Refines a₁ (spec.1.slide (concatenation chunks)) ∧ Refines a₂ (spec.1.slide (concatenation chunks)) ∧
          ∀ size, a₁.peek size = a₂.peek size := by
  intro spec
  have hstep := fun a q op (h : Refines (n := n) a q ∧ ∀ i, n.toNat ≤ i → a.buf i = buf i) (_ : True) =>
    show ∃ a', a.call op = some (a', (windowCall q op).2) ∧ Refines a' (windowCall q op).1 ∧
        ∀ i, n.toNat ≤ i → a'.buf i = buf i by
      obtain ⟨a', hcall, hr⟩ := call_refines hn a q op h.1
      exact ⟨a', hcall, hr, fun i hi => (call_outside hn h.1 hcall hi).trans (h.2 i hi)⟩
  have h0 : Refines (.create buf n) (Fifo.empty : Fifo UInt8 (n.toNat - 1)) := .create hpos buf
  obtain ⟨a, hrun, hr, hout⟩ := Device.refines_run hstep ops _ _ ⟨h0, fun _ _ => rfl⟩ (Device.Along.trivial _ _ _)
  have hin : a.inPos.toNat < n.toNat := by
    rw [hr.inPos]
    exact Nat.mod_lt _ hpos
  refine ⟨a, hrun, hr, hr.toNat_bytesContained, hr.toNat_bytesLeft, UInt32.lt_iff_toNat_lt.2 hin,
    UInt32.lt_iff_toNat_lt.2 hr.outPos, hout, ?_⟩
  intro chunks chunks' hlt hlt' heq
  obtain ⟨a₁, hrun₁, hr₁, -⟩ := Device.refines_run hstep (inserts chunks) a _ ⟨hr, hout⟩ (Device.Along.trivial _ _ _)
  obtain ⟨a₂, hrun₂, hr₂, -⟩ := Device.refines_run hstep (inserts chunks') a _ ⟨hr, hout⟩ (Device.Along.trivial _ _ _)
  rw [windowCall_inserts _ _ hlt] at hr₁
  rw [windowCall_inserts _ _ hlt', ← heq] at hr₂
  refine ⟨a₁, a₂, _, _, hrun₁, hrun₂, hr₁, hr₂, fun size => ?_⟩
  rw [hr₁.peek hn, hr₂.peek hn]

/-- A buffer of four: the fifth byte pushes out the first two, and `in` wraps around. -/
theorem accumulator_slides_four : ∃ a, Device.run Accumulator.call (.create (fun _ => 0) 4)
    [.insert (fun i => i.toUInt8 + 1) 3, .insert (fun i => i.toUInt8 + 4) 2, .peek 4, .extract 2, .insert (fun _ => 9) 4] =
      some (a, [.inserted true, .inserted true, .got none, .got (some [3, 4]), .inserted false]) := by
  obtain ⟨a, h, -⟩ := accumulator_slides 4 (by decide) (by decide) (fun _ => 0)
    [.insert (fun i => i.toUInt8 + 1) 3, .insert (fun i => i.toUInt8 + 4) 2, .peek 4, .extract 2, .insert (fun _ => 9) 4]
  exact ⟨a, h⟩

end Cutils.Acc
