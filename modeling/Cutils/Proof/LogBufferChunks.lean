import Cutils.Proof.LogBufferLevels

/-!
# The chunks of a log buffer

`log_buffer_current_size` tells a client where the stored characters are, so that they can be read without popping
them: a chunk from the tail on, and a residue from the start of the memory on.

* `log_buffer_chunks`: after every sequence of calls, the two chunks are what popping until empty gives.
-/

namespace Cutils.Log

open Cyclic

/-- `p_buffer[tail, tail + initial_chunk)` and `p_buffer[0, residue_bytes)`. -/
def LogBuffer.chunks (lb : LogBuffer) : List UInt8 :=
  firstN (fun i => lb.pBuffer (lb.tail.toNat + i)) lb.currentSize.2.1.toNat ++
    firstN lb.pBuffer lb.currentSize.2.2.toNat

variable {n : UInt32} {lb : LogBuffer} {q : Fifo UInt8 (n.toNat - 1)} {inSequence : Bool}

/-- **Where the chunks are**: the first is in front of the end of the memory, and if it does not reach the end there is
no residue; the residue is in front of the tail. -/
theorem Refines.chunks_inside (h : Refines lb q inSequence) :
    lb.tail.toNat + lb.currentSize.2.1.toNat ≤ n.toNat ∧
      (lb.currentSize.2.2.toNat = 0 ∨ lb.tail.toNat + lb.currentSize.2.1.toNat = n.toNat) ∧
      lb.currentSize.2.2.toNat ≤ lb.tail.toNat ∧
      lb.currentSize.2.1.toNat + lb.currentSize.2.2.toNat = lb.currentSize.1.toNat := by
  have ht := h.tail
  have hh := h.head_lt
  have hn := n.toNat_lt
  have hsize : lb.bufferSize.toNat = n.toNat := by rw [h.size]
  unfold LogBuffer.currentSize
  dsimp only
  split
  · -- from the tail up to the head
    rename_i hlt
    have hle := UInt32.le_of_lt hlt
    rw [UInt32.lt_iff_toNat_lt] at hlt
    simp only [UInt32.toNat_add, UInt32.toNat_sub_of_le _ _ hle, UInt32.toNat_zero]
    refine ⟨by omega, .inl trivial, by omega, by omega⟩
  split
  · -- from the tail to the end of the memory, and from its start up to the head
    rename_i hlt
    have hle : lb.tail ≤ lb.bufferSize := by
      rw [UInt32.le_iff_toNat_le]
      omega
    rw [UInt32.lt_iff_toNat_lt] at hlt
    simp only [UInt32.toNat_add, UInt32.toNat_sub_of_le _ _ hle]
    refine ⟨by omega, .inr (by omega), by omega, by omega⟩
  · simp only [UInt32.toNat_add, UInt32.toNat_zero]
    exact ⟨Nat.le_of_lt ht, .inl trivial, Nat.zero_le _, trivial⟩

/-- **The chunks are the contents.** -/
theorem Refines.chunks (h : Refines lb q inSequence) : lb.chunks = q.items := by
  obtain ⟨hinside, hend, hresidue, hsum⟩ := h.chunks_inside
  have hlen : lb.currentSize.2.1.toNat + lb.currentSize.2.2.toNat = q.items.length := by
    rw [hsum]
    exact h.currentSize
  exact h.holds.readChunks h.tail hinside hend hresidue hlen

/-- **Popping until empty** gives the contents. -/
theorem Refines.drain (h : Refines lb q inSequence) {fuel : ℕ} (hfuel : q.count < fuel) :
    Device.drain LogBuffer.charPop fuel lb = some q.items := by
  refine Device.drain_eq (R := fun lb items => ∃ q : Fifo UInt8 (n.toNat - 1), q.items = items ∧ Refines lb q inSequence)
    ?_ q.items lb fuel ⟨q, rfl, h⟩ hfuel
  rintro lb _ ⟨q, rfl, hq⟩
  obtain ⟨hans, hr⟩ := hq.charPop
  refine ⟨hans, q.discard 1, ?_, hr⟩
  cases hitems : q.items with
  | nil =>
    show q.items.drop _ = _
    rw [hitems, List.drop_nil]
    rfl
  | cons x rest => exact Fifo.items_discard_one hitems

/-- **The chunks of a log buffer.** For every size and every sequence of calls on a log buffer that was initialised: the
chunks are inside the memory, they are the characters that popping until empty gives, and the size is the number of these,
less than the size of the memory. -/
theorem log_buffer_chunks (n : UInt32) (lb₀ lb : LogBuffer) (pBuffer : ℕ → UInt8) (hinit : lb₀.init pBuffer n = some lb)
    (ops : List Op) :
    let end_ := (Device.runSpec LogBuffer.call lb ops).1
    let size := end_.currentSize.1
    let initialChunk := end_.currentSize.2.1
    let residueBytes := end_.currentSize.2.2
    let chunks := firstN (fun i => end_.pBuffer (end_.tail.toNat + i)) initialChunk.toNat ++
      firstN end_.pBuffer residueBytes.toNat
    end_.tail.toNat + initialChunk.toNat ≤ n.toNat ∧ residueBytes.toNat ≤ n.toNat ∧
      (∀ fuel, size.toNat < fuel → Device.drain LogBuffer.charPop fuel end_ = some chunks) ∧
      size.toNat = chunks.length ∧ size.toNat ≤ n.toNat - 1 := by
  intro end_ size initialChunk residueBytes chunks
  have hr : Refines end_ _ _ := (Device.simulates_run
    (R := fun lb (t : Fifo UInt8 (n.toNat - 1) × Bool) => Refines lb t.1 t.2) call_refines ops lb
    (Fifo.empty, lb₀.inEscapeSequence) (init_refines hinit)).2
  obtain ⟨hinside, -, hresidue, -⟩ := hr.chunks_inside
  have hchunks := hr.chunks
  have hsize := hr.currentSize
  have ht := hr.tail
  refine ⟨hinside, hresidue.trans (Nat.le_of_lt ht), ?_, ?_, ?_⟩
  · intro fuel hfuel
    exact (hr.drain (hsize ▸ hfuel)).trans (congrArg some hchunks.symm)
  · exact hsize.trans (congrArg List.length hchunks.symm)
  · refine hsize.trans_le ?_
    exact (Device.runSpec contentsCall _ ops).1.1.fits

/-- Six characters through a memory of four: the tail is in the last slot, and the chunks are of one and of two characters. -/
theorem log_buffer_chunks_four : Device.drain LogBuffer.charPop 4 (Device.runSpec LogBuffer.call ⟨fun _ => 0, true, 4, 0, 0, false⟩
      [.push (fun i => [65, 66, 67].getD i 0) 3, .push (fun i => [68, 69].getD i 0) 2, .push (fun _ => 70) 1]).1 =
    some [68, 69, 70] := by
  refine ((log_buffer_chunks 4 ⟨fun _ => 0, false, 0, 0, 0, false⟩ ⟨fun _ => 0, true, 4, 0, 0, false⟩ (fun _ => 0) rfl
    [.push (fun i => [65, 66, 67].getD i 0) 3, .push (fun i => [68, 69].getD i 0) 2,
      .push (fun _ => 70) 1]).2.2.1 4 (by decide)).trans ?_
  decide

end Cutils.Log
