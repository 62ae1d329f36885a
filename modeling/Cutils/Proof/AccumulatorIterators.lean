import Cutils.Proof.AccumulatorAdvance

/-!
# Iterators over an accumulator

An iterator is a slot of the buffer; `Stands n a iter i` says which position of the contents it denotes.

* `accumulator_iterates`: the walk by `accumulator_iterator_next`, the reads by `accumulator_peek_at` and the jumps by
  `accumulator_iterator_advance` agree on where the contents end.
* `accumulator_iterators_survive`: inserts and extracts that remove nothing beyond it leave an iterator where it is in
  the contents.
-/

namespace Cutils.Acc

open Cyclic

variable {n : UInt32} {a : Accumulator} {iter : UInt32} {i : ℕ}

/-- `k` calls of `accumulator_iterator_next`: the iterator they leave, and their results. -/
def Accumulator.walk (a : Accumulator) (iter : UInt32) (k : ℕ) : Option (UInt32 × List Bool) :=
  Device.run (fun iter (_ : Unit) => a.iteratorNext iter) iter (List.replicate k ())

/-- Iterator `iter` denotes position `i` of the contents, or their end. -/
structure Stands (n : UInt32) (a : Accumulator) (iter : UInt32) (i : ℕ) : Prop where
  le : i ≤ a.bytesContained.toNat
  pos : iter.toNat = (a.outPos.toNat + i) % n.toNat

theorem Stands.init (h : Placed n a) : Stands n a a.iteratorInit 0 :=
  ⟨Nat.zero_le _, (Nat.mod_eq_of_lt h.outPos).symm⟩

/-- Iterators at one position are the same. -/
theorem Stands.eq {iter' : UInt32} (hs : Stands n a iter i) (hs' : Stands n a iter' i) : iter = iter' :=
  UInt32.toNat_inj.1 (hs.pos.trans hs'.pos.symm)

section Stands

variable (h : Placed n a) (hs : Stands n a iter i)
include h hs

theorem Stands.lt : iter.toNat < n.toNat := by
  rw [hs.pos]
  exact Nat.mod_lt _ h.pos

/-- The slot of the position, with and without a wrap-around. -/
theorem Stands.cases : iter.toNat = a.outPos.toNat + i ∨ iter.toNat + n.toNat = a.outPos.toNat + i := by
  have h1 := hs.pos
  have h2 := hs.le
  have h3 := h.outPos
  have h4 := h.bytesContained.1
  rcases Nat.lt_or_ge (a.outPos.toNat + i) n.toNat with hlt | hge
  · rw [Nat.mod_eq_of_lt hlt] at h1
    exact .inl h1
  · rw [Nat.mod_eq_sub_mod hge, Nat.mod_eq_of_lt (by omega)] at h1
    exact .inr (by omega)

/-- What is left from an iterator on. -/
theorem Stands.left : (a.bytesContainedFrom iter).toNat = a.bytesContained.toNat - i := by
  obtain ⟨hlt, hin⟩ := h.bytesContainedFrom (hs.lt h)
  obtain ⟨hlt', hin'⟩ := h.bytesContained
  have hcases := hs.cases h
  have h2 := hs.le
  have h3 := h.inPos
  omega

/-- **Valid iterators** are those before the end. -/
theorem Stands.valid : a.iteratorValid iter = decide (i < a.bytesContained.toNat) := by
  obtain ⟨hlt, hin⟩ := h.bytesContained
  have hcases := hs.cases h
  have h2 := hs.le
  have h3 := h.outPos
  have h4 := h.inPos
  have h5 := hs.lt h
  rw [Bool.eq_iff_iff]
  simp only [Accumulator.iteratorValid, Bool.and_eq_true, bne_iff_ne, ne_eq, ← UInt32.toNat_inj, decide_eq_true_eq]
  constructor
  · omega
  · omega

/-- `accumulator_iterator_next` goes to the next position, up to the end. -/
theorem Stands.next (hn : n.toNat ≤ 2 ^ 31) : ∃ iter',
    a.iteratorNext iter = some (iter', decide (i < a.bytesContained.toNat)) ∧
      Stands n a iter' (min (i + 1) a.bytesContained.toNat) := by
  have hvalid := hs.valid h
  have hlt := hs.lt h
  have h2 := hs.le
  unfold Accumulator.iteratorNext
  rw [hvalid]
  by_cases hi : i < a.bytesContained.toNat
  · simp only [hi, decide_true, if_true, h.ne_zero, if_false]
    refine ⟨_, rfl, Nat.min_le_right _ _, ?_⟩
    have hc := h.bytesContained.1
    rw [h.size, toNat_advance hn hlt (by rw [UInt32.toNat_one]; omega), hs.pos, UInt32.toNat_one, Nat.mod_add_mod,
      Nat.min_eq_left hi, Nat.add_assoc]
  · simp only [hi, decide_false, Bool.false_eq_true, if_false]
    refine ⟨iter, rfl, ?_⟩
    rw [show min (i + 1) a.bytesContained.toNat = i by omega]
    exact hs

/-- **A read through an iterator** gives the contents from its position on. -/
theorem Stands.peekAt (hn : n.toNat ≤ 2 ^ 31) (size : UInt32) :
    (a.peekAt iter size).1.toNat = min size.toNat (a.bytesContained.toNat - i) ∧
      (a.peekAt iter size).2 = (a.contents.drop i).take size.toNat := by
  have hlt := hs.lt h
  have hleft := hs.left h
  have hc := h.bytesContained.1
  have hsize : (if a.bytesContainedFrom iter < size then a.bytesContainedFrom iter else size).toNat =
      min size.toNat (a.bytesContained.toNat - i) := by
    split
    · rename_i hbig
      rw [UInt32.lt_iff_toNat_lt, hleft] at hbig
      omega
    · rename_i hsmall
      rw [UInt32.lt_iff_toNat_lt, hleft] at hsmall
      omega
  unfold Accumulator.peekAt
  rw [if_neg (by rw [UInt32.le_iff_toNat_le, h.size]; omega)]
  refine ⟨hsize, ?_⟩
  dsimp only
  rw [copyOut_eq (by rw [h.size]; exact hn) (by rw [h.size]; exact hlt) (by rw [hsize, h.size]; omega), hsize, h.size]
  have hread : readAround n.toNat a.buf ((a.outPos.toNat + i) % n.toNat) (min size.toNat (a.bytesContained.toNat - i)) =
      (a.contents.drop i).take (min size.toNat (a.bytesContained.toNat - i)) :=
    (h.refines.holds.drop i).readAround h.pos (by rw [List.length_drop, length_contents]; omega) (by omega)
  rw [hs.pos, hread]
  rw [← List.take_take, List.take_of_length_le (i := a.bytesContained.toNat - i)
    (by rw [List.length_drop, length_contents])]

/-- **A walk** goes to the end and stays there. -/
theorem Stands.walk (hn : n.toNat ≤ 2 ^ 31) (k : ℕ) : ∃ iter', a.walk iter k = some (iter',
    List.replicate (min k (a.bytesContained.toNat - i)) true ++ List.replicate (k - (a.bytesContained.toNat - i)) false) ∧
      Stands n a iter' (min (i + k) a.bytesContained.toNat) := by
  induction k generalizing iter i with
  | zero =>
    refine ⟨iter, by simp [Accumulator.walk, Device.run], ?_⟩
    rw [Nat.add_zero, Nat.min_eq_left hs.le]
    exact hs
  | succ k ih =>
    obtain ⟨iter₁, hnext, hs₁⟩ := hs.next h hn
    obtain ⟨iter', hwalk, hs'⟩ := ih hs₁
    have hle := hs.le
    unfold Accumulator.walk at hwalk ⊢
    refine ⟨iter', ?_, ?_⟩
    · simp only [List.replicate_succ, Device.run, hnext, Option.bind_some, hwalk, Option.map_some]
      by_cases hi : i < a.bytesContained.toNat
      · rw [show min (k + 1) (a.bytesContained.toNat - i) =
            min k (a.bytesContained.toNat - min (i + 1) a.bytesContained.toNat) + 1 by omega, List.replicate_succ,
          show k + 1 - (a.bytesContained.toNat - i) =
            k - (a.bytesContained.toNat - min (i + 1) a.bytesContained.toNat) by omega]
        simp only [hi, decide_true, List.cons_append]
      · rw [show min (k + 1) (a.bytesContained.toNat - i) = 0 by omega,
          show min k (a.bytesContained.toNat - min (i + 1) a.bytesContained.toNat) = 0 by omega,
          show k + 1 - (a.bytesContained.toNat - i) =
            k - (a.bytesContained.toNat - min (i + 1) a.bytesContained.toNat) + 1 by omega, List.replicate_succ]
        simp only [hi, decide_false, List.replicate_zero, List.nil_append]
    · rw [show min (i + (k + 1)) a.bytesContained.toNat =
        min (min (i + 1) a.bytesContained.toNat + k) a.bytesContained.toNat by omega]
      exact hs'

omit hs in
/-- The walk to a position of the contents. -/
theorem Placed.walk_init (hn : n.toNat ≤ 2 ^ 31) {p : ℕ} (hp : p ≤ a.bytesContained.toNat) :
    ∃ iter, a.walk a.iteratorInit p = some (iter, List.replicate p true) ∧ Stands n a iter p := by
  obtain ⟨iter, hwalk, hs⟩ := (Stands.init h).walk h hn p
  rw [Nat.sub_zero, Nat.min_eq_left hp, Nat.sub_eq_zero_of_le hp, List.replicate_zero, List.append_nil] at hwalk
  rw [Nat.zero_add, Nat.min_eq_left hp] at hs
  exact ⟨iter, hwalk, hs⟩

/-- **A jump** ends where the walk of as many steps does, unless that is the end. -/
theorem Stands.jump (hn : n.toNat ≤ 2 ^ 31) {size iter' : UInt32}
    (hs' : Stands n a iter' (min (i + size.toNat) a.bytesContained.toNat)) :
    a.iteratorAdvance iter size = some (if a.iteratorValid iter' then (iter', true) else (iter, false)) := by
  have hleft := hs.left h
  have hlt := hs.lt h
  have hc := h.bytesContained.1
  have hle := hs.le
  rw [hs'.valid h]
  unfold Accumulator.iteratorAdvance
  by_cases hsize : size.toNat ≤ a.bytesContained.toNat - i
  · rw [if_pos (by rw [UInt32.le_iff_toNat_le, hleft]; exact hsize), if_neg h.ne_zero]
    -- within the contents the sum is where the walk ends
    have hsum : (iter + size) % a.totalBufferSize = iter' := by
      apply UInt32.toNat_inj.1
      rw [h.size, toNat_advance hn hlt (by omega), hs.pos, hs'.pos, Nat.mod_add_mod, Nat.min_eq_left (by omega),
        Nat.add_assoc]
    rw [hsum]
    have hend : iter' ≠ a.inPos ↔ i + size.toNat < a.bytesContained.toNat := by
      have hin := h.bytesContained.2
      have hcases := hs'.cases h
      have h1 := h.inPos
      have h2 := hs'.lt h
      rw [ne_eq, ← UInt32.toNat_inj]
      omega
    by_cases hi : i + size.toNat < a.bytesContained.toNat
    · rw [if_pos (hend.2 hi), if_pos (by simpa using hi)]
    · rw [if_neg (by rw [hend]; exact hi), if_neg (by simpa using hi)]
  · rw [if_neg (by rw [UInt32.le_iff_toNat_le, hleft]; exact hsize), if_neg (by simp; omega)]

end Stands

/-- **Iteration.** For every size from 1 to 2^31, every memory and every sequence of calls: a walk from the start has as
many steps as there are bytes, and then stays at the end; from each of its iterators, reads give the contents from
there on, and a jump goes where as many steps do if that is before the end, and nowhere otherwise. -/
theorem accumulator_iterates (n : UInt32) (hpos : 1 ≤ n.toNat) (hn : n.toNat ≤ 2 ^ 31) (buf : ℕ → UInt8)
    (uses : List Use) :
    ∃ a os, Device.run Accumulator.use (.create buf n) uses = some (a, os) ∧
      (∀ k, (a.walk a.iteratorInit k).map Prod.snd = some
        (List.replicate (min k a.contents.length) true ++ List.replicate (k - a.contents.length) false)) ∧
      ∀ i ≤ a.contents.length, ∃ iter, a.walk a.iteratorInit i = some (iter, List.replicate i true) ∧
        (∀ size, (a.peekAt iter size).1.toNat = min size.toNat (a.contents.length - i) ∧
          (a.peekAt iter size).2 = (a.contents.drop i).take size.toNat) ∧
        ∀ size, ∃ iter' rs, a.walk iter size.toNat = some (iter', rs) ∧
          a.iteratorAdvance iter size = some (if a.iteratorValid iter' then (iter', true) else (iter, false)) := by
  obtain ⟨a, os, hrun, h⟩ := run_placed hpos buf uses
  refine ⟨a, os, hrun, ?_, ?_⟩
  · intro k
    obtain ⟨iter, hwalk, -⟩ := (Stands.init h).walk h hn k
    rw [hwalk, length_contents]
    rfl
  · intro i hi
    rw [length_contents] at hi
    obtain ⟨iter, hwalk, hs⟩ := h.walk_init hn hi
    refine ⟨iter, hwalk, ?_, ?_⟩
    · rw [length_contents]
      exact hs.peekAt h hn
    · intro size
      obtain ⟨iter', hwalk', hs'⟩ := hs.walk h hn size.toNat
      exact ⟨iter', _, hwalk', hs.jump h hn hs'⟩

/-- A buffer of four, with its last two bytes around the end: the walk, and the jump to the last byte. -/
theorem accumulator_iterates_four : ∃ a os, Device.run Accumulator.use (.create (fun _ => 0) 4)
      [.call (.insert (fun _ => 9) 3), .call (.extract 3), .call (.insert (fun i => i.toUInt8 + 1) 2)] = some (a, os) ∧
    a.contents = [1, 2] ∧ (a.walk a.iteratorInit 3).map Prod.snd = some [true, true, false] ∧
    a.iteratorAdvance a.iteratorInit 1 = some (0, true) := by
  obtain ⟨a, os, hrun, hwalk, -⟩ := accumulator_iterates 4 (by decide) (by decide) (fun _ => 0)
    [.call (.insert (fun _ => 9) 3), .call (.extract 3), .call (.insert (fun i => i.toUInt8 + 1) 2)]
  have h3 := hwalk 3
  cases hrun
  exact ⟨_, _, rfl, by decide, h3, by decide⟩

section Updates

/-- A call that changes the contents, other than `accumulator_advance` and `accumulator_clear`. -/
inductive Update
  | insert (data : ℕ → UInt8) (size : UInt32)
  | extract (size : UInt32)

def Update.op : Update → Op
  | .insert data size => .insert data size
  | .extract size => .extract size

/-- **What an update moves**: how many bytes it evicts or extracts, and the bytes it inserts. -/
def Accumulator.moved (a : Accumulator) : Update → ℕ × List UInt8
  | .insert data size =>
    if (a.insert data size).2 then (size.toNat - a.bytesLeft.toNat, firstN data size.toNat) else (0, [])
  | .extract size => if (a.peek size).isSome then (size.toNat, []) else (0, [])

/-- What a sequence of updates moves. -/
def Accumulator.traffic (a : Accumulator) : List Update → ℕ × List UInt8
  | [] => (0, [])
  | u :: us =>
    match a.call u.op with
    | some (a', _) => ((a.moved u).1 + (a'.traffic us).1, (a.moved u).2 ++ (a'.traffic us).2)
    | none => (0, [])

/-- `out` after an insert that is not refused. -/
theorem Placed.toNat_outPos_insert (h : Placed n a) (hn : n.toNat ≤ 2 ^ 31) (data : ℕ → UInt8) {size : UInt32}
    (hsize : size.toNat < n.toNat) :
    (a.insert data size).1.outPos.toNat = (a.outPos.toNat + (size.toNat - a.bytesLeft.toNat)) % n.toNat := by
  have hrot : (a.insert data size).1.outPos = (a.rotate size).outPos := by
    unfold Accumulator.insert
    rw [if_pos (by rw [UInt32.lt_iff_toNat_lt, h.size]; exact hsize)]
    dsimp only
    split <;> rfl
  rw [hrot]
  unfold Accumulator.rotate
  split
  · rename_i hlt
    rw [UInt32.lt_iff_toNat_lt] at hlt
    have hk : (size - a.bytesLeft).toNat = size.toNat - a.bytesLeft.toNat :=
      UInt32.toNat_sub_of_le _ _ (UInt32.le_iff_toNat_le.2 hlt.le)
    dsimp only
    rw [h.size, toNat_advance hn h.outPos (by omega), hk]
  · rename_i hle
    rw [UInt32.lt_iff_toNat_lt] at hle
    rw [Nat.sub_eq_zero_of_le (Nat.le_of_not_lt hle), Nat.add_zero, Nat.mod_eq_of_lt h.outPos]

/-- **One update** appends what it inserts, and moves `out` over what it removes. -/
theorem Placed.update (h : Placed n a) (hn : n.toNat ≤ 2 ^ 31) (u : Update) : ∃ a' o,
    a.call u.op = some (a', o) ∧ Placed n a' ∧ a'.contents = a.contents.drop (a.moved u).1 ++ (a.moved u).2 ∧
      a'.outPos.toNat = (a.outPos.toNat + (a.moved u).1) % n.toNat ∧ (a.moved u).1 ≤ a.bytesContained.toNat := by
  obtain ⟨q, hr, hitems⟩ : ∃ q : Fifo UInt8 (n.toNat - 1), Refines a q ∧ q.items = a.contents := ⟨_, h.refines, rfl⟩
  have hfree := hr.toNat_bytesLeft
  have hcount := hr.toNat_bytesContained
  have hcap : q.count ≤ n.toNat - 1 := q.fits
  cases u with
  | insert data size =>
    obtain ⟨hok, hbig⟩ := hr.insert hn data size
    refine ⟨_, _, rfl, h.insert data size, ?_⟩
    simp only [Accumulator.moved]
    by_cases hsize : size.toNat < n.toNat
    · obtain ⟨hret, hslide⟩ := hok hsize
      rw [hret]
      simp only [if_true]
      have hlen : (firstN data size.toNat).length ≤ n.toNat - 1 := by
        rw [length_firstN]
        omega
      have hk : size.toNat - a.bytesLeft.toNat ≤ q.count := by
        rw [hfree]
        unfold Fifo.free
        omega
      refine ⟨?_, h.toNat_outPos_insert hn data hsize, hcount ▸ hk⟩
      rw [hslide.contents, Fifo.items_slide hlen, length_firstN, ← hfree, ← hitems]
      show q.items.drop (min _ q.count) ++ _ = _
      rw [Nat.min_eq_left hk]
    · rw [hbig hsize]
      simp [Nat.mod_eq_of_lt h.outPos]
  | extract size =>
    have hpeek := hr.peek hn size
    simp only [Update.op, Accumulator.call, Accumulator.moved, Accumulator.extract, hpeek]
    by_cases hsize : size.toNat ≤ q.count
    · simp only [if_pos hsize, if_neg h.ne_zero, Option.map_some, Option.isSome_some, if_true, List.append_nil]
      have hadv := hr.advance hn hsize
      refine ⟨_, _, rfl, hadv.placed, ?_, ?_, hcount ▸ hsize⟩
      · rw [hadv.contents, ← hitems]
        show q.items.drop (min _ q.count) = _
        rw [Nat.min_eq_left hsize]
      · dsimp only
        rw [h.size, toNat_advance hn h.outPos (by have := h.pos; omega)]
    · simp only [if_neg hsize, Option.map_some, Option.isSome_none, Bool.false_eq_true, if_false, List.append_nil,
        List.drop_zero, Nat.add_zero]
      exact ⟨_, _, rfl, h, rfl, (Nat.mod_eq_of_lt h.outPos).symm, Nat.zero_le _⟩

/-- **An update that removes nothing beyond an iterator** moves its position by what it removes. -/
theorem Stands.update {r : ℕ} {added : List UInt8} {a' : Accumulator} (hs : Stands n a iter i) (hr : r ≤ i)
    (hcontents : a'.contents = a.contents.drop r ++ added)
    (hout : a'.outPos.toNat = (a.outPos.toNat + r) % n.toNat) : Stands n a' iter (i - r) := by
  have hlen := congrArg List.length hcontents
  rw [List.length_append, List.length_drop, length_contents, length_contents] at hlen
  have hle := hs.le
  refine ⟨by omega, ?_⟩
  rw [hout, hs.pos, Nat.mod_add_mod, Nat.add_assoc, Nat.add_sub_cancel' hr]

/-- **A sequence of updates** that removes nothing beyond an iterator. -/
theorem Stands.updates (hn : n.toNat ≤ 2 ^ 31) (us : List Update) : ∀ {a : Accumulator} {i : ℕ}, Placed n a →
    Stands n a iter i → (a.traffic us).1 ≤ i → ∃ a' os,
      Device.run Accumulator.call a (us.map Update.op) = some (a', os) ∧ Placed n a' ∧
        a'.contents = a.contents.drop (a.traffic us).1 ++ (a.traffic us).2 ∧
        Stands n a' iter (i - (a.traffic us).1) := by
  induction us with
  | nil =>
    intro a i h hs _
    exact ⟨a, [], rfl, h, by simp [Accumulator.traffic], hs⟩
  | cons u us ih =>
    intro a i h hs hle
    obtain ⟨a₁, o, hcall, h₁, hcontents₁, hout₁, hmoved⟩ := h.update hn u
    have htraffic : a.traffic (u :: us) = ((a.moved u).1 + (a₁.traffic us).1, (a.moved u).2 ++ (a₁.traffic us).2) := by
      simp only [Accumulator.traffic, hcall]
    rw [htraffic] at hle ⊢
    dsimp only at hle ⊢
    have hs₁ := hs.update (by omega) hcontents₁ hout₁
    obtain ⟨a', os, hrun, h', hcontents', hs'⟩ := ih h₁ hs₁ (by omega)
    refine ⟨a', o :: os, ?_, h', ?_, ?_⟩
    · simp only [List.map_cons, Device.run, hcall, Option.bind_some, hrun, Option.map_some]
    · -- what is removed later is still from the old contents
      have hi := hs.le
      have hlen : (a₁.traffic us).1 ≤ (a.contents.drop (a.moved u).1).length := by
        rw [List.length_drop, length_contents]
        omega
      rw [hcontents', hcontents₁, List.drop_append_of_le_length hlen, List.drop_drop, List.append_assoc]
    · rw [← Nat.sub_sub]
      exact hs'

end Updates

/-- **Iterators survive updates.** For every size from 1 to 2^31, every memory, every sequence of calls, and every iterator
at a position `p` of the contents: after any inserts and extracts that together remove `r ≤ p` bytes, the iterator is
the one at position `p - r`. Reads through it give what they gave, followed by what was inserted; if it stood at the end,
that is the first byte inserted. -/
theorem accumulator_iterators_survive (n : UInt32) (hpos : 1 ≤ n.toNat) (hn : n.toNat ≤ 2 ^ 31) (buf : ℕ → UInt8)
    (uses : List Use) :
    ∃ a os, Device.run Accumulator.use (.create buf n) uses = some (a, os) ∧
      ∀ p ≤ a.contents.length, ∃ iter, a.walk a.iteratorInit p = some (iter, List.replicate p true) ∧
        ∀ us, (a.traffic us).1 ≤ p → ∃ a' os', Device.run Accumulator.call a (us.map Update.op) = some (a', os') ∧
          a'.contents = a.contents.drop (a.traffic us).1 ++ (a.traffic us).2 ∧
          a'.walk a'.iteratorInit (p - (a.traffic us).1) =
            some (iter, List.replicate (p - (a.traffic us).1) true) ∧
          (∀ size, (a'.peekAt iter size).2 = (a.contents.drop p ++ (a.traffic us).2).take size.toNat ∧
            (a'.peekAt iter size).1.toNat = (a'.peekAt iter size).2.length) ∧
          (p = a.contents.length → ∀ x rest, (a.traffic us).2 = x :: rest →
            a'.iteratorValid iter = true ∧ (a'.peekAt iter 1).2 = [x]) := by
  obtain ⟨a, os, hrun, h⟩ := run_placed hpos buf uses
  refine ⟨a, os, hrun, fun p hp => ?_⟩
  rw [length_contents] at hp
  obtain ⟨iter, hwalk, hs⟩ := h.walk_init hn hp
  refine ⟨iter, hwalk, fun us hle => ?_⟩
  obtain ⟨a', os', hrun', h', hcontents, hs'⟩ := hs.updates hn us h hle
  have hdrop : a'.contents.drop (p - (a.traffic us).1) = a.contents.drop p ++ (a.traffic us).2 := by
    rw [hcontents, List.drop_append_of_le_length (by rw [List.length_drop, length_contents]; omega), List.drop_drop,
      Nat.add_sub_cancel' hle]
  have hpeek : ∀ size, (a'.peekAt iter size).2 = (a.contents.drop p ++ (a.traffic us).2).take size.toNat := by
    intro size
    rw [(hs'.peekAt h' hn size).2, hdrop]
  refine ⟨a', os', hrun', hcontents, ?_, ?_, ?_⟩
  · obtain ⟨iter', hwalk', hs''⟩ := h'.walk_init hn hs'.le
    rw [hwalk', hs''.eq hs']
  · intro size
    refine ⟨hpeek size, ?_⟩
    rw [(hs'.peekAt h' hn size).1, (hs'.peekAt h' hn size).2, List.length_take, List.length_drop, length_contents]
  · intro hend x rest hadded
    rw [length_contents] at hend
    have hnil : a.contents.drop p = [] := List.drop_of_length_le (by rw [length_contents, hend])
    refine ⟨?_, ?_⟩
    · have hlen := congrArg List.length hdrop
      rw [List.length_drop, length_contents, hnil, hadded, List.nil_append, List.length_cons] at hlen
      rw [hs'.valid h', decide_eq_true_eq]
      omega
    · rw [hpeek, hnil, hadded, List.nil_append]
      rfl

/-- A buffer of four: the iterator at the end of two bytes denotes the first of two more, whose insert evicts one. -/
theorem accumulator_iterators_survive_four : ∃ a os iter, Device.run Accumulator.use (.create (fun _ => 0) 4)
      [.call (.insert (fun i => i.toUInt8 + 1) 2)] = some (a, os) ∧
    a.walk a.iteratorInit 2 = some (iter, [true, true]) ∧ (a.traffic [.insert (fun i => i.toUInt8 + 3) 2]).1 = 1 ∧
    ((a.insert (fun i => i.toUInt8 + 3) 2).1.peekAt iter 1).2 = [3] := by
  obtain ⟨a, os, hrun, h⟩ := accumulator_iterators_survive 4 (by decide) (by decide) (fun _ => 0)
    [.call (.insert (fun i => i.toUInt8 + 1) 2)]
  cases hrun
  obtain ⟨iter, hwalk, hus⟩ := h 2 (by decide)
  obtain ⟨a', os', hrun', -, -, -, hend⟩ := hus [.insert (fun i => i.toUInt8 + 3) 2] (by decide)
  cases hrun'
  exact ⟨_, _, iter, rfl, hwalk, by decide, (hend rfl 3 [4] (by decide)).2⟩

end Cutils.Acc
