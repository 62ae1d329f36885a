import Cutils.Proof.AccumulatorWindow

/-!
# What `accumulator_advance` discards

The contents of an accumulator are the bytes from `out` to `in` (`contents`). With both positions in the
buffer (`Placed`), which every call keeps whatever the size, they are a window as in
`Proof/AccumulatorWindow.lean` (`Placed.refines`).

* `accumulator_advance_iff`: an advance discards the oldest bytes, as many as asked for or all of them, if and only if
  it does not move `out` past `in`. `accumulator_advance` bounds its size by that of the buffer, not by what is
  contained.
-/

namespace Cutils.Acc

open Cyclic

variable {n : UInt32} {a : Accumulator}

/-- **The bytes of an accumulator**, oldest first. -/
def Accumulator.contents (a : Accumulator) : List UInt8 :=
  firstN (fun i => a.buf ((a.outPos.toNat + i) % a.totalBufferSize.toNat)) a.bytesContained.toNat

/-- Both positions are in a buffer of `n` bytes. -/
structure Placed (n : UInt32) (a : Accumulator) : Prop where
  size : a.totalBufferSize = n
  inPos : a.inPos.toNat < n.toNat
  outPos : a.outPos.toNat < n.toNat

theorem Refines.placed {q : Fifo UInt8 (n.toNat - 1)} (h : Refines a q) : Placed n a := by
  refine ⟨h.size, ?_, h.outPos⟩
  rw [h.inPos]
  exact Nat.mod_lt _ (Nat.zero_lt_of_lt h.outPos)

theorem toNat_mod_lt (hn : 0 < n.toNat) (x : UInt32) : (x % n).toNat < n.toNat := by
  rw [UInt32.toNat_mod]
  exact Nat.mod_lt _ hn

section Placed

variable (h : Placed n a)
include h

theorem Placed.pos : 0 < n.toNat := Nat.zero_lt_of_lt h.outPos

theorem Placed.ne_zero : a.totalBufferSize ≠ 0 := by
  intro h0
  have hpos := h.pos
  rw [← h.size, h0] at hpos
  exact Nat.lt_irrefl _ hpos

/-- `out` moves anywhere. -/
theorem Placed.setOut (x : UInt32) : Placed n { a with outPos := x % a.totalBufferSize } := by
  refine ⟨h.size, h.inPos, ?_⟩
  dsimp only
  rw [h.size]
  exact toNat_mod_lt h.pos x

theorem Placed.rotate (size : UInt32) : Placed n (a.rotate size) := by
  unfold Accumulator.rotate
  split
  · exact h.setOut _
  · exact h

theorem Placed.insert (data : ℕ → UInt8) (size : UInt32) : Placed n (a.insert data size).1 := by
  have hrot := h.rotate size
  unfold Accumulator.insert
  split
  · dsimp only
    split
    · refine ⟨hrot.size, ?_, hrot.outPos⟩
      dsimp only
      rw [hrot.size]
      exact toNat_mod_lt h.pos _
    · exact hrot
  · exact h

theorem Placed.advance (size : UInt32) : ∃ a', a.advance size = some (a', false) ∧ Placed n a' := by
  unfold Accumulator.advance
  dsimp only
  rw [if_neg h.ne_zero]
  exact ⟨_, rfl, h.setOut _⟩

/-- **Every call** succeeds and keeps both positions in the buffer. -/
theorem Placed.use (u : Use) : ∃ a' o, a.use u = some (a', o) ∧ Placed n a' := by
  cases u with
  | call op =>
    cases op with
    | insert data size => exact ⟨_, _, rfl, h.insert data size⟩
    | peek size => exact ⟨_, _, rfl, h⟩
    | extract size =>
      simp only [Accumulator.use, Accumulator.call, Accumulator.extract]
      split
      · rw [if_neg h.ne_zero]
        exact ⟨_, _, rfl, h.setOut _⟩
      · exact ⟨_, _, rfl, h⟩
    | clear => exact ⟨_, _, rfl, h.size, h.pos, h.pos⟩
  | advance size =>
    obtain ⟨a', hadv, ha'⟩ := h.advance size
    exact ⟨a', .advanced false, by simp only [Accumulator.use, hadv, Option.map_some], ha'⟩

/-- The bytes from a position of the buffer to `in`. -/
theorem Placed.bytesContainedFrom {iter : UInt32} (hiter : iter.toNat < n.toNat) :
    (a.bytesContainedFrom iter).toNat < n.toNat ∧
    (a.inPos.toNat = iter.toNat + (a.bytesContainedFrom iter).toNat ∨
      a.inPos.toNat + n.toNat = iter.toNat + (a.bytesContainedFrom iter).toNat) := by
  have h1 := h.inPos
  have h2 := n.toNat_lt
  unfold Accumulator.bytesContainedFrom
  rw [h.size]
  split
  · rename_i hle
    rw [UInt32.le_iff_toNat_le] at hle
    rw [UInt32.toNat_sub_of_le _ _ (UInt32.le_iff_toNat_le.2 hle)]
    omega
  · rename_i hlt
    rw [UInt32.le_iff_toNat_le] at hlt
    simp only [UInt32.toNat_sub]
    omega

theorem Placed.bytesContained : a.bytesContained.toNat < n.toNat ∧
    (a.inPos.toNat = a.outPos.toNat + a.bytesContained.toNat ∨
      a.inPos.toNat + n.toNat = a.outPos.toNat + a.bytesContained.toNat) :=
  h.bytesContainedFrom h.outPos

theorem Placed.inPos_eq : a.inPos.toNat = (a.outPos.toNat + a.bytesContained.toNat) % n.toNat := by
  obtain ⟨-, hin⟩ := h.bytesContained
  have h1 := h.inPos
  rcases hin with hin | hin
  · rw [← hin, Nat.mod_eq_of_lt h1]
  · rw [← hin, Nat.add_mod_right, Nat.mod_eq_of_lt h1]

omit h in
theorem length_contents (a : Accumulator) : a.contents.length = a.bytesContained.toNat := length_firstN _ _

theorem Placed.length_contents_le : a.contents.length ≤ n.toNat - 1 := by
  have hlt := h.bytesContained.1
  rw [length_contents]
  omega

/-- **An accumulator stands for the window of its contents.** -/
theorem Placed.refines : Refines a (⟨a.contents, h.length_contents_le⟩ : Fifo UInt8 (n.toNat - 1)) := by
  refine ⟨h.size, h.outPos, ?_, ?_⟩
  · show _ = (a.outPos.toNat + a.contents.length) % n.toNat
    rw [length_contents]
    exact h.inPos_eq
  · intro k x hk
    have hlt := (List.getElem?_eq_some_iff.1 hk).1
    rw [length_contents] at hlt
    unfold Accumulator.contents at hk
    rw [getElem?_firstN _ hlt, h.size] at hk
    exact Option.some.inj hk

end Placed

/-- The contents of an accumulator that stands for a window. -/
theorem Refines.contents {q : Fifo UInt8 (n.toNat - 1)} (h : Refines a q) : a.contents = q.items := by
  have hcount := h.toNat_bytesContained
  apply List.ext_getElem?
  intro k
  rcases Nat.lt_or_ge k q.count with hk | hk
  · have hget := List.getElem?_eq_getElem (l := q.items) hk
    unfold Accumulator.contents
    rw [hcount, getElem?_firstN _ hk, h.size, h.holds k _ hget, hget]
  · rw [List.getElem?_eq_none (by rw [length_contents, hcount]; exact hk), List.getElem?_eq_none hk]

/-- **Every sequence of calls** leaves both positions in the buffer. -/
theorem run_placed (hn : 0 < n.toNat) (buf : ℕ → UInt8) (uses : List Use) :
    ∃ a os, Device.run Accumulator.use (.create buf n) uses = some (a, os) ∧ Placed n a :=
  Device.total_run (fun _ u h => Placed.use h u) uses _ ⟨rfl, hn, hn⟩

/-- **Moving `out`** leaves the contents without the oldest `k` bytes if and only if there are `k` bytes less. -/
theorem Placed.contents_drop_iff {x : UInt32} {k : ℕ} (h : Placed n a) (h' : Placed n { a with outPos := x })
    (hk : k ≤ a.bytesContained.toNat) :
    ({ a with outPos := x } : Accumulator).contents = a.contents.drop k ↔
      ({ a with outPos := x } : Accumulator).bytesContained.toNat + k = a.bytesContained.toNat := by
  obtain ⟨hlt, hin⟩ := h.bytesContained
  obtain ⟨hlt', hin'⟩ := h'.bytesContained
  have h1 := h.outPos
  have h2 : x.toNat < n.toNat := h'.outPos
  constructor
  · -- the lengths say it
    intro heq
    have hlen := congrArg List.length heq
    rw [List.length_drop, length_contents, length_contents] at hlen
    omega
  · -- slot `i` of the new contents is slot `k + i` of the old ones
    intro hcount
    have hslot : ∀ i, (x.toNat + i) % n.toNat = (a.outPos.toNat + (k + i)) % n.toNat := by
      intro i
      have hx : x.toNat = a.outPos.toNat + k ∨ x.toNat + n.toNat = a.outPos.toNat + k := by
        dsimp only at hin'
        omega
      rw [← Nat.add_assoc]
      rcases hx with hx | hx
      · rw [hx]
      · rw [← hx, Nat.add_right_comm, Nat.add_mod_right]
    unfold Accumulator.contents
    rw [drop_firstN, ← hcount, Nat.add_sub_cancel]
    congr 1
    funext i
    dsimp only
    rw [h.size, hslot]

/-- `out` is not moved past `in`: the size is at most what is contained, or the buffer is full. In a buffer of more
than 2^31 bytes the sum of `out` and the size may also overflow; then the two errors have to cancel out. -/
def AdvanceFits (a : Accumulator) (size : UInt32) : Prop :=
  let k := min size.toNat (a.totalBufferSize.toNat - 1)
  a.outPos.toNat + k < 2 ^ 32 ∧
      (size.toNat ≤ a.bytesContained.toNat ∨ a.bytesContained.toNat = a.totalBufferSize.toNat - 1) ∨
    2 ^ 32 ≤ a.outPos.toNat + k ∧ k + a.totalBufferSize.toNat = a.bytesContained.toNat + 2 ^ 32

/-- The size that `accumulator_advance` goes on with. -/
theorem Placed.toNat_bound (h : Placed n a) (size : UInt32) :
    (if a.totalBufferSize - 1 < size then a.totalBufferSize - 1 else size).toNat = min size.toNat (n.toNat - 1) := by
  have hpos := h.pos
  have hone : (n - 1).toNat = n.toNat - 1 := by
    rw [UInt32.toNat_sub_of_le _ _ (UInt32.le_iff_toNat_le.2 (by rwa [UInt32.toNat_one])), UInt32.toNat_one]
  rw [h.size]
  split
  · rename_i hlt
    rw [UInt32.lt_iff_toNat_lt, hone] at hlt
    rw [hone]
    omega
  · rename_i hle
    rw [UInt32.lt_iff_toNat_lt, hone] at hle
    omega

/-- Where `out` is moved to. -/
theorem toNat_sum_mod {x k : UInt32} (hx : x.toNat < n.toNat) (hk : k.toNat < n.toNat) :
    ((x + k) % n).toNat = if x.toNat + k.toNat < n.toNat then x.toNat + k.toNat
      else if x.toNat + k.toNat < 2 ^ 32 then x.toNat + k.toNat - n.toNat else x.toNat + k.toNat - 2 ^ 32 := by
  have hn := n.toNat_lt
  rw [UInt32.toNat_mod, UInt32.toNat_add]
  split
  · rename_i hlt
    rw [Nat.mod_eq_of_lt (a := x.toNat + k.toNat) (by omega), Nat.mod_eq_of_lt hlt]
  · rename_i hge
    split
    · rename_i hlt
      rw [Nat.mod_eq_of_lt hlt, Nat.mod_eq_sub_mod (by omega), Nat.mod_eq_of_lt (by omega)]
    · -- the sum overflows, and comes out `2 ^ 32` too small before the modulus
      rename_i hover
      rw [Nat.mod_eq_sub_mod (by omega : 2 ^ 32 ≤ x.toNat + k.toNat), Nat.mod_eq_of_lt (by omega : _ < 2 ^ 32),
        Nat.mod_eq_of_lt (by omega)]

/-- **An advance discards what it should** if and only if it fits. -/
theorem Placed.advance_iff (h : Placed n a) (size : UInt32) : ∃ a', a.advance size = some (a', false) ∧
    (a'.contents = a.contents.drop (min size.toNat a.bytesContained.toNat) ↔ AdvanceFits a size) := by
  set k := if a.totalBufferSize - 1 < size then a.totalBufferSize - 1 else size with hk
  have hkn := h.toNat_bound size
  rw [← hk] at hkn
  have hadv : a.advance size = some ({ a with outPos := (a.outPos + k) % a.totalBufferSize }, false) := by
    unfold Accumulator.advance
    dsimp only
    rw [if_neg h.ne_zero]
  have h' := h.setOut (a.outPos + k)
  have hpos := h.pos
  have h1 := h.outPos
  have hout := toNat_sum_mod h1 (show k.toNat < n.toNat by omega)
  refine ⟨_, hadv, ?_⟩
  -- it is left to count the bytes before and after
  rw [h.contents_drop_iff h' (Nat.min_le_right _ _)]
  obtain ⟨hlt, hin⟩ := h.bytesContained
  obtain ⟨hlt', hin'⟩ := h'.bytesContained
  generalize ({ a with outPos := (a.outPos + k) % a.totalBufferSize } : Accumulator).bytesContained.toNat = c' at *
  dsimp only at hin'
  rw [h.size, hout, hkn] at hin'
  unfold AdvanceFits
  rw [h.size]
  dsimp only
  have h2 := n.toNat_lt
  generalize a.bytesContained.toNat = c at *
  generalize a.outPos.toNat = o at *
  generalize a.inPos.toNat = i at *
  generalize size.toNat = t at *
  generalize n.toNat = m at *
  -- whether `out` goes around the end of the buffer, and whether the sum overflows
  split at hin'
  · omega
  · split at hin'
    · omega
    · omega

/-- **What an advance discards.** For every size, every memory and every sequence of calls, advances among them: an
advance removes the oldest bytes, as many as asked for or all of them, so that what is contained gets no more and is
a suffix of what was, if and only if it fits. -/
theorem accumulator_advance_iff (n : UInt32) (hn : 1 ≤ n.toNat) (buf : ℕ → UInt8) (uses : List Use) :
    ∃ a os, Device.run Accumulator.use (.create buf n) uses = some (a, os) ∧ ∀ size, ∃ a',
      a.advance size = some (a', false) ∧
      (a'.contents = a.contents.drop (min size.toNat a.bytesContained.toNat) ∧
        a'.bytesContained ≤ a.bytesContained ∧ a'.contents <:+ a.contents ↔ AdvanceFits a size) := by
  obtain ⟨a, os, hrun, h⟩ := run_placed hn buf uses
  refine ⟨a, os, hrun, fun size => ?_⟩
  obtain ⟨a', hadv, hiff⟩ := h.advance_iff size
  refine ⟨a', hadv, ?_⟩
  rw [← hiff]
  constructor
  · exact fun h => h.1
  · intro hdrop
    refine ⟨hdrop, ?_, ?_⟩
    · have hlen := congrArg List.length hdrop
      rw [List.length_drop, length_contents, length_contents] at hlen
      rw [UInt32.le_iff_toNat_le]
      omega
    · rw [hdrop]
      exact List.drop_suffix _ _

/-- A buffer of four with three bytes: all sizes fit. -/
theorem accumulator_advance_iff_full : ∃ a os,
    Device.run Accumulator.use (.create (fun _ => 0) 4) [.call (.insert (fun i => i.toUInt8) 3)] = some (a, os) ∧
      ∀ size, ∃ a', a.advance size = some (a', false) ∧ a'.contents = [0, 1, 2].drop (min size.toNat 3) := by
  obtain ⟨a, os, hrun, h⟩ := accumulator_advance_iff 4 (by decide) (fun _ => 0) [.call (.insert (fun i => i.toUInt8) 3)]
  cases hrun
  refine ⟨_, _, rfl, fun size => ?_⟩
  obtain ⟨a', hadv, hiff⟩ := h size
  refine ⟨a', hadv, (hiff.2 (.inl ⟨?_, .inr rfl⟩)).1⟩
  show 0 + min size.toNat 3 < 2 ^ 32
  omega

/-- A buffer of four with one byte: an advance by two turns two slots that were never written, and the byte
itself, into contents. -/
theorem accumulator_advance_grows : ∃ a os a',
    Device.run Accumulator.use (.create (fun _ => 0) 4) [.call (.insert (fun _ => 7) 1)] = some (a, os) ∧
      a.advance 2 = some (a', false) ∧ a.contents = [7] ∧ a'.contents = [0, 0, 7] ∧
      ¬ (a'.contents = a.contents.drop (min 2 a.bytesContained.toNat) ∧ a'.bytesContained ≤ a.bytesContained ∧
        a'.contents <:+ a.contents) := by
  refine ⟨_, _, _, rfl, rfl, rfl, rfl, ?_⟩
  rintro ⟨hdrop, -, -⟩
  exact absurd hdrop (by decide)

end Cutils.Acc
