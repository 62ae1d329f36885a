import Cutils.Lib.Fifo
import Cutils.Spec.LogBuffer

/-!
# The contents of a log buffer

`filter` is the transducer in front of the buffer, and `contentsCall` the purpose of each operation: the buffer
has the last characters that came through it. A log buffer stands for such contents and the state of the
filter (`Refines`), and every operation keeps this and answers alike (`call_refines`).

* `log_buffer_contents`: every sequence of calls, and that a push may be split anywhere.
* `log_buffer_init_fresh_iff`: whether earlier contents of the memory can be seen after an init.
-/

namespace Cutils.Log

open Cyclic

/-- **The reference filter**: an ESC starts an escape sequence, which ends with the next letter; all of it is
dropped, and so are carriage returns and NULs outside. The state is whether a sequence is open. -/
def filter : Bool → List UInt8 → Bool × List UInt8
  | inSequence, [] => (inSequence, [])
  | inSequence, c :: cs =>
    if c = 0x1b then filter true cs
    else if inSequence then filter (!isLetter c) cs
    else if c = 0xd ∨ c = 0 then filter false cs
    else ((filter false cs).1, c :: (filter false cs).2)

theorem filter_cons (inSequence : Bool) (c : UInt8) (cs : List UInt8) : filter inSequence (c :: cs) =
    if c = 0x1b then filter true cs
    else if inSequence then filter (!isLetter c) cs
    else if c = 0xd ∨ c = 0 then filter false cs
    else ((filter false cs).1, c :: (filter false cs).2) := rfl

/-- A string may come in two parts. -/
theorem filter_append (inSequence : Bool) (s₁ s₂ : List UInt8) : filter inSequence (s₁ ++ s₂) =
    ((filter (filter inSequence s₁).1 s₂).1, (filter inSequence s₁).2 ++ (filter (filter inSequence s₁).1 s₂).2) := by
  induction s₁ generalizing inSequence with
  | nil => rfl
  | cons c cs ih =>
    rw [List.cons_append, filter_cons, filter_cons]
    split_ifs
    · exact ih _
    · exact ih _
    · exact ih _
    · rw [ih false]
      rfl

variable {n : UInt32}

/-- **What a log buffer is for**: the last characters, and the state of the filter. -/
def contentsCall (t : Fifo UInt8 (n.toNat - 1) × Bool) : Op → (Fifo UInt8 (n.toNat - 1) × Bool) × Obs
  | .push pString stringSize =>
    if stringSize.toNat < n.toNat then
      let r := filter t.2 (firstN pString stringSize.toNat)
      ((t.1.slide r.2, r.1), .pushed true)
    else (t, .pushed false)
  | .charPop => ((t.1.discard 1, t.2), .popped t.1.items.head?)
  | .isEmpty => (t, .empty t.1.items.isEmpty)
  | .clear => ((Fifo.empty, t.2), .done)

/-- Log buffer `lb` stands for the characters `q` and the filter state `inSequence`. -/
structure Refines (lb : LogBuffer) (q : Fifo UInt8 (n.toNat - 1)) (inSequence : Bool) : Prop where
  isInit : lb.isInit = true
  size : lb.bufferSize = n
  tail : lb.tail.toNat < n.toNat
  head : lb.head.toNat = (lb.tail.toNat + q.count) % n.toNat
  holds : Holds n.toNat lb.pBuffer lb.tail.toNat q.items
  state : lb.inEscapeSequence = inSequence

variable {lb : LogBuffer} {q : Fifo UInt8 (n.toNat - 1)} {inSequence : Bool}

theorem toNat_next {x : UInt32} (hx : x.toNat < lb.bufferSize.toNat) :
    (lb.next x).toNat = (x.toNat + 1) % lb.bufferSize.toNat := by
  have hlt := lb.bufferSize.toNat_lt
  have hsum : (x + 1).toNat = x.toNat + 1 := by
    rw [UInt32.toNat_add, UInt32.toNat_one]
    omega
  unfold LogBuffer.next
  split
  · rename_i h
    rw [UInt32.lt_iff_toNat_lt, hsum] at h
    rw [hsum, Nat.mod_eq_of_lt h]
  · rename_i h
    rw [UInt32.lt_iff_toNat_lt, hsum] at h
    rw [show x.toNat + 1 = lb.bufferSize.toNat by omega, Nat.mod_self]
    rfl

theorem Refines.head_lt (h : Refines lb q inSequence) : lb.head.toNat < n.toNat := by
  have ht := h.tail
  rw [h.head]
  exact Nat.mod_lt _ (by omega)

/-- **The buffer is empty** when head and tail meet. -/
theorem Refines.meet (h : Refines lb q inSequence) : lb.head = lb.tail ↔ q.count = 0 := by
  have ht := h.tail
  have hfits : q.count ≤ n.toNat - 1 := q.fits
  rw [← UInt32.toNat_inj, h.head]
  constructor
  · intro heq
    by_contra hne
    refine slot_ne (n := n.toNat) (a := lb.tail.toNat) (b := lb.tail.toNat + q.count) (by omega) (by omega) ?_
    rw [heq, Nat.mod_eq_of_lt ht]
  · intro h0
    rw [h0, Nat.add_zero, Nat.mod_eq_of_lt ht]

/-- The tail moves over the oldest character. -/
theorem Refines.advance (h : Refines lb q inSequence) (hq : q.count ≠ 0) :
    Refines { lb with tail := lb.next lb.tail } (q.discard 1) inSequence := by
  have ht := h.tail
  have hnext : (lb.next lb.tail).toNat = (lb.tail.toNat + 1) % n.toNat := by
    rw [toNat_next (by rw [h.size]; exact ht), h.size]
  have hmin : min 1 q.count = 1 := by omega
  refine ⟨h.isInit, h.size, ?_, ?_, ?_, h.state⟩
  · rw [hnext]
    exact Nat.mod_lt _ (by omega)
  · rw [hnext, Nat.mod_add_mod, h.head]
    congr 1
    simp only [Fifo.count, Fifo.discard, List.length_drop] at *
    omega
  · rw [hnext, Holds.mod_iff]
    have hdrop := h.holds.drop 1
    simp only [Fifo.discard]
    rwa [hmin]

/-- **A character is pushed**: it takes the free slot, and if there is no other the oldest one makes room. -/
theorem Refines.charPush (h : Refines lb q inSequence) (hn : 2 ≤ n.toNat) {item : UInt8} (hitem : item ≠ 0) :
    Refines (lb.charPush item) (q.slide [item]) inSequence := by
  have ht := h.tail
  have hh := h.head_lt
  have hfits : q.count ≤ n.toNat - 1 := q.fits
  have hnext : (lb.next lb.head).toNat = (lb.tail.toNat + (q.count + 1)) % n.toNat := by
    rw [toNat_next (by rw [h.size]; exact hh), h.size, h.head, Nat.mod_add_mod, Nat.add_assoc]
  have hholds : Holds n.toNat (Function.update lb.pBuffer lb.head.toNat item) lb.tail.toNat (q.items ++ [item]) := by
    rw [h.head]
    exact h.holds.put rfl (by unfold Fifo.count at hfits; omega) item
  have hitems : (q.slide [item]).items = (q.discard (1 - q.free)).items ++ [item] :=
    Fifo.items_slide (show 1 ≤ n.toNat - 1 by omega)
  unfold LogBuffer.charPush
  rw [if_neg hitem]
  dsimp only
  rcases Nat.lt_or_ge (q.count + 1) n.toNat with hroom | hfull
  · -- there is another free slot
    have hne : lb.next lb.head ≠ lb.tail := by
      rw [Ne, ← UInt32.toNat_inj, hnext]
      intro heq
      refine slot_ne (n := n.toNat) (a := lb.tail.toNat) (b := lb.tail.toNat + (q.count + 1)) (by omega) (by omega) ?_
      rw [heq, Nat.mod_eq_of_lt ht]
    have hslide : (q.slide [item]).items = q.items ++ [item] := by
      rw [hitems]
      simp only [Fifo.discard, Fifo.free]
      rw [show min (1 - (n.toNat - 1 - q.count)) q.count = 0 by omega, List.drop_zero]
    rw [if_neg hne]
    refine ⟨h.isInit, h.size, ht, ?_, ?_, h.state⟩
    · unfold Fifo.count
      rw [hslide, List.length_append]
      exact hnext
    · rw [hslide]
      exact hholds
  · -- the ring is full
    have heq : lb.next lb.head = lb.tail := by
      rw [← UInt32.toNat_inj, hnext, show q.count + 1 = n.toNat by omega, Nat.add_mod_right, Nat.mod_eq_of_lt ht]
    have hslide : (q.slide [item]).items = (q.items ++ [item]).drop 1 := by
      rw [hitems, List.drop_append_of_le_length (by unfold Fifo.count at hfull; omega)]
      simp only [Fifo.discard, Fifo.free]
      rw [show min (1 - (n.toNat - 1 - q.count)) q.count = 1 by omega]
    have htail : (lb.next lb.tail).toNat = (lb.tail.toNat + 1) % n.toNat := by
      rw [toNat_next (by rw [h.size]; exact ht), h.size]
    rw [if_pos heq]
    refine ⟨h.isInit, h.size, ?_, ?_, ?_, h.state⟩
    · show (lb.next lb.tail).toNat < n.toNat
      rw [htail]
      exact Nat.mod_lt _ (by omega)
    · show (lb.next lb.head).toNat = ((lb.next lb.tail).toNat + _) % n.toNat
      rw [hnext, htail, Nat.mod_add_mod]
      congr 1
      unfold Fifo.count at *
      rw [hslide, List.length_drop, List.length_append, List.length_singleton]
      omega
    · show Holds n.toNat _ (lb.next lb.tail).toNat _
      rw [htail, Holds.mod_iff, hslide]
      exact hholds.drop 1

/-- **One character goes through the filter**, as the reference does it. -/
theorem Refines.pushCharacter (h : Refines lb q inSequence) (hn : 2 ≤ n.toNat) (c : UInt8) :
    Refines (lb.pushCharacter c) (q.slide (filter inSequence [c]).2) (filter inSequence [c]).1 := by
  have hstate := h.state
  have hstay : Refines lb (q.slide []) inSequence := by
    rw [Fifo.slide_nil]
    exact h
  have hmove : ∀ b, Refines { lb with inEscapeSequence := b } (q.slide []) b := by
    intro b
    exact ⟨hstay.isInit, hstay.size, hstay.tail, hstay.head, hstay.holds, rfl⟩
  unfold LogBuffer.pushCharacter LogBuffer.filterCharacter
  rw [filter_cons, hstate]
  by_cases hesc : c = 0x1b
  · rw [if_pos hesc, if_pos hesc]
    exact hmove true
  rw [if_neg hesc, if_neg hesc]
  cases inSequence with
  | true =>
    cases hl : isLetter c with
    | true => exact hmove false
    | false => exact hstay
  | false =>
    simp only [Bool.false_eq_true, if_false]
    by_cases hcr : c = 0xd
    · have hdrop : c = 0xd ∨ c = 0 := .inl hcr
      rw [if_neg (not_not.2 hcr), if_pos hdrop]
      exact hstay
    · rw [if_pos hcr]
      simp only [Bool.false_eq_true, if_false]
      by_cases h0 : c = 0
      · rw [if_pos (.inr h0)]
        unfold LogBuffer.charPush
        rw [if_pos h0]
        exact hstay
      · rw [if_neg (not_or.2 ⟨hcr, h0⟩)]
        exact h.charPush hn h0

/-- **A string goes through the filter.** -/
theorem Refines.foldl_pushCharacter (h : Refines lb q inSequence) (hn : 2 ≤ n.toNat) (s : List UInt8) :
    Refines (s.foldl LogBuffer.pushCharacter lb) (q.slide (filter inSequence s).2) (filter inSequence s).1 := by
  induction s generalizing lb q inSequence with
  | nil =>
    show Refines lb (q.slide []) inSequence
    rw [Fifo.slide_nil]
    exact h
  | cons c cs ih =>
    have hrest := ih (h.pushCharacter hn c)
    rw [Fifo.slide_slide] at hrest
    have happ := filter_append inSequence [c] cs
    rw [List.singleton_append] at happ
    rw [List.foldl_cons, happ]
    exact hrest

/-- **A push** slides the contents over what the filter lets through, or is refused. -/
theorem Refines.push (h : Refines lb q inSequence) (pString : ℕ → UInt8) (stringSize : UInt32) :
    (stringSize.toNat < n.toNat → (lb.push pString stringSize).2 = true ∧
      Refines (lb.push pString stringSize).1 (q.slide (filter inSequence (firstN pString stringSize.toNat)).2)
        (filter inSequence (firstN pString stringSize.toNat)).1) ∧
    (¬ stringSize.toNat < n.toNat → lb.push pString stringSize = (lb, false)) := by
  have hguard : (lb.isInit && decide (stringSize < lb.bufferSize)) = true ↔ stringSize.toNat < n.toNat := by
    rw [h.isInit, h.size, Bool.true_and, decide_eq_true_iff, UInt32.lt_iff_toNat_lt]
  unfold LogBuffer.push
  constructor
  · intro hlt
    rw [if_pos (hguard.2 hlt)]
    refine ⟨rfl, ?_⟩
    rcases Nat.eq_zero_or_pos stringSize.toNat with h0 | hpos
    · -- a buffer of one slot takes the empty string only
      rw [h0]
      show Refines lb (q.slide []) inSequence
      rw [Fifo.slide_nil]
      exact h
    · exact h.foldl_pushCharacter (by omega) _
  · intro hge
    rw [if_neg (fun hg => hge (hguard.1 hg))]

/-- **A pop** gives the oldest character. -/
theorem Refines.charPop (h : Refines lb q inSequence) :
    lb.charPop.2 = q.items.head? ∧ Refines lb.charPop.1 (q.discard 1) inSequence := by
  unfold LogBuffer.charPop
  cases hq : q.items with
  | nil =>
    have h0 : q.count = 0 := by
      unfold Fifo.count
      rw [hq]
      rfl
    have hd : q.discard 1 = q := by
      unfold Fifo.discard
      simp only [h0, Nat.min_zero, List.drop_zero]
    rw [if_neg (not_not.2 (h.meet.2 h0)), hd]
    exact ⟨rfl, h⟩
  | cons x rest =>
    have h0 : q.count ≠ 0 := by
      unfold Fifo.count
      rw [hq]
      simp
    have hx := h.holds 0 x (by rw [hq]; rfl)
    rw [Nat.add_zero, Nat.mod_eq_of_lt h.tail] at hx
    rw [if_pos fun heq => h0 (h.meet.1 heq)]
    exact ⟨congrArg some hx, h.advance h0⟩

theorem Refines.isEmpty (h : Refines lb q inSequence) : lb.isEmpty = q.items.isEmpty := by
  unfold LogBuffer.isEmpty
  rw [h.isInit, Bool.true_and, Bool.eq_iff_iff, beq_iff_eq, h.meet, List.isEmpty_iff]
  exact List.length_eq_zero_iff

/-- **One call** answers as the contents do. -/
theorem call_refines (lb : LogBuffer) (t : Fifo UInt8 (n.toNat - 1) × Bool) (op : Op) (h : Refines lb t.1 t.2) :
    (lb.call op).2 = (contentsCall t op).2 ∧ Refines (lb.call op).1 (contentsCall t op).1.1 (contentsCall t op).1.2 := by
  cases op with
  | push pString stringSize =>
    obtain ⟨hok, hbig⟩ := h.push pString stringSize
    simp only [LogBuffer.call, contentsCall]
    split
    · rename_i hlt
      obtain ⟨hret, hr⟩ := hok hlt
      exact ⟨by rw [hret], hr⟩
    · rename_i hge
      rw [hbig hge]
      exact ⟨rfl, h⟩
  | charPop =>
    obtain ⟨hans, hr⟩ := h.charPop
    exact ⟨congrArg Obs.popped hans, hr⟩
  | isEmpty => exact ⟨congrArg Obs.empty h.isEmpty, h⟩
  | clear =>
    have ht := h.tail
    have hclear : lb.clear = { lb with head := 0, tail := 0 } := by
      unfold LogBuffer.clear
      rw [h.isInit]
      rfl
    refine ⟨rfl, ?_⟩
    show Refines lb.clear Fifo.empty t.2
    rw [hclear]
    refine ⟨h.isInit, h.size, ?_, ?_, Holds.nil _ _, h.state⟩
    · rw [UInt32.toNat_zero]
      omega
    · show (0 : UInt32).toNat = ((0 : UInt32).toNat + 0) % n.toNat
      rw [UInt32.toNat_zero, Nat.zero_mod]

/-- A buffer that was initialised is empty; the filter is as it was before. -/
theorem init_refines {lb₀ : LogBuffer} {pBuffer : ℕ → UInt8} (hinit : lb₀.init pBuffer n = some lb) :
    Refines lb (Fifo.empty : Fifo UInt8 (n.toNat - 1)) lb₀.inEscapeSequence := by
  unfold LogBuffer.init at hinit
  split at hinit
  · cases hinit
  · rename_i h0
    cases hinit
    have hpos : 0 < n.toNat := by
      rw [Nat.pos_iff_ne_zero]
      intro hz
      exact h0 (UInt32.toNat_inj.1 hz)
    refine ⟨rfl, rfl, ?_, ?_, Holds.nil _ _, rfl⟩
    · rw [UInt32.toNat_zero]
      exact hpos
    · show (0 : UInt32).toNat = ((0 : UInt32).toNat + 0) % n.toNat
      rw [UInt32.toNat_zero, Nat.zero_mod]

/-- **The contents of a log buffer.** For every size and every sequence of calls on a log buffer that was initialised
with the filter outside of escape sequences: the answers are those of a window on the filtered text, and the
filter state is carried over from push to push. From there on, pushing a string is pushing its two parts, wherever
it is split. -/
theorem log_buffer_contents (n : UInt32) (lb₀ lb : LogBuffer) (pBuffer : ℕ → UInt8)
    (hinit : lb₀.init pBuffer n = some lb) (hstart : lb₀.inEscapeSequence = false) (ops : List Op) :
    let spec := Device.runSpec contentsCall ((Fifo.empty : Fifo UInt8 (n.toNat - 1)), false) ops
    let end_ := Device.runSpec LogBuffer.call lb ops
    end_.2 = spec.2 ∧ Refines end_.1 spec.1.1 spec.1.2 ∧ end_.1.isEmpty = spec.1.1.items.isEmpty ∧
      ∀ (s₁ s₂ s : ℕ → UInt8) (k₁ k₂ k : UInt32), firstN s k.toNat = firstN s₁ k₁.toNat ++ firstN s₂ k₂.toNat → k < n →
        let r := filter spec.1.2 (firstN s k.toNat)
        Refines ((end_.1.push s₁ k₁).1.push s₂ k₂).1 (spec.1.1.slide r.2) r.1 ∧
          Refines (end_.1.push s k).1 (spec.1.1.slide r.2) r.1 := by
  intro spec end_
  have h0 := init_refines hinit
  rw [hstart] at h0
  obtain ⟨hans, hr⟩ := Device.simulates_run (R := fun lb (t : Fifo UInt8 (n.toNat - 1) × Bool) => Refines lb t.1 t.2)
    call_refines ops lb (Fifo.empty, false) h0
  refine ⟨hans, hr, hr.isEmpty, ?_⟩
  intro s₁ s₂ s k₁ k₂ k hsplit hk r
  rw [UInt32.lt_iff_toNat_lt] at hk
  have hlen : k.toNat = k₁.toNat + k₂.toNat := by
    have := congrArg List.length hsplit
    simpa using this
  have hone := ((hr.push s k).1 hk).2
  have htwo := ((((hr.push s₁ k₁).1 (by omega)).2.push s₂ k₂).1 (by omega)).2
  have hr' : r = filter spec.1.2 (firstN s₁ k₁.toNat ++ firstN s₂ k₂.toNat) := by rw [← hsplit]
  rw [Fifo.slide_slide] at htwo
  refine ⟨?_, hone⟩
  rw [hr', filter_append]
  exact htwo

/-- Text around an escape sequence that is split over two pushes, in a buffer of four. -/
theorem log_buffer_contents_four : (Device.runSpec LogBuffer.call
      ((LogBuffer.init ⟨fun _ => 0, false, 0, 7, 7, false⟩ (fun _ => 0) 4).getD ⟨fun _ => 0, false, 0, 0, 0, false⟩)
      [.push (fun i => [65, 27, 91].getD i 0) 3, .push (fun i => [51, 109, 66].getD i 0) 3, .push (fun i => [67, 68, 13].getD i 0) 3,
        .push (fun _ => 69) 4, .charPop, .charPop, .isEmpty, .charPop, .charPop]).2 =
    [.pushed true, .pushed true, .pushed true, .pushed false, .popped (some 66), .popped (some 67), .empty false,
      .popped (some 68), .popped none] := by
  refine (log_buffer_contents 4 _ _ (fun _ => 0) rfl rfl _).1.trans ?_
  decide

section Fresh

/-- The characters that the pops of a run give. -/
def popped (os : List Obs) : List UInt8 :=
  os.filterMap fun o => match o with
    | .popped character => character
    | _ => none

/-- A push or a pop. -/
def Op.moves : Op → Bool
  | .push _ _ | .charPop => true
  | .isEmpty | .clear => false

/-- What a log buffer answers after an init depends on the filter's state only. -/
theorem init_answers {lb₀ : LogBuffer} {pBuffer : ℕ → UInt8} (hinit : lb₀.init pBuffer n = some lb) (ops : List Op) :
    (Device.runSpec LogBuffer.call lb ops).2 =
      (Device.runSpec contentsCall ((Fifo.empty : Fifo UInt8 (n.toNat - 1)), lb₀.inEscapeSequence) ops).2 :=
  (Device.simulates_run (R := fun lb (t : Fifo UInt8 (n.toNat - 1) × Bool) => Refines lb t.1 t.2) call_refines ops lb
    (Fifo.empty, lb₀.inEscapeSequence) (init_refines hinit)).1

/-- With one slot, which is kept free, there is nothing to see. -/
theorem contents_one (hn : n.toNat = 1) (ops : List Op) (s s' : Bool) :
    (Device.runSpec contentsCall ((Fifo.empty : Fifo UInt8 (n.toNat - 1)), s) ops).2 =
      (Device.runSpec contentsCall ((Fifo.empty : Fifo UInt8 (n.toNat - 1)), s') ops).2 := by
  have hempty : ∀ q : Fifo UInt8 (n.toNat - 1), q.items = [] := by
    intro q
    have := q.fits
    exact List.length_eq_zero_iff.1 (by omega)
  refine (Device.simulates_run (R := fun _ _ => True) ?_ ops _ _ trivial).1
  intro t t' op _
  refine ⟨?_, trivial⟩
  cases op with
  | push pString stringSize =>
    simp only [contentsCall]
    split <;> rfl
  | charPop => simp only [contentsCall, hempty]
  | isEmpty => simp only [contentsCall, hempty]
  | clear => rfl

/-- **A digit tells the filter's states apart.** -/
theorem contents_digit (hn : 2 ≤ n.toNat) (s : Bool) :
    popped (Device.runSpec contentsCall ((Fifo.empty : Fifo UInt8 (n.toNat - 1)), s) [.push (fun _ => 53) 1, .charPop]).2 =
      if s then [] else [53] := by
  have hlt : (1 : UInt32).toNat < n.toNat := hn
  have hpush : contentsCall ((Fifo.empty : Fifo UInt8 (n.toNat - 1)), s) (.push (fun _ => 53) 1) =
      ((Fifo.empty.slide (filter s [53]).2, (filter s [53]).1), .pushed true) := by
    simp only [contentsCall]
    rw [if_pos hlt]
    rfl
  have hitems : (Fifo.slide (Fifo.empty : Fifo UInt8 (n.toNat - 1)) (filter s [53]).2).items = if s then [] else [53] := by
    rw [Fifo.items_slide]
    · cases s <;> simp [Fifo.discard, Fifo.empty, filter]
    · cases s with
      | true => exact Nat.zero_le _
      | false => show 1 ≤ n.toNat - 1; omega
  simp only [Device.runSpec, hpush]
  simp only [contentsCall, hitems]
  cases s <;> rfl

/-- **When an init is fresh.** What was in the memory before shows in what is popped later, unless the two memories
agree on `in_escape_sequence`, which `log_buffer_init` does not set, or the buffer has one slot. -/
theorem log_buffer_init_fresh_iff (n : UInt32) (pBuffer : ℕ → UInt8) (lb₁ lb₂ lb₁' lb₂' : LogBuffer)
    (h₁ : lb₁.init pBuffer n = some lb₁') (h₂ : lb₂.init pBuffer n = some lb₂') :
    (∀ ops, ops.all Op.moves = true → popped (Device.runSpec LogBuffer.call lb₁' ops).2 =
      popped (Device.runSpec LogBuffer.call lb₂' ops).2) ↔
    lb₁.inEscapeSequence = lb₂.inEscapeSequence ∨ n = 1 := by
  have hpos := (init_refines h₁).tail
  constructor
  · intro hsame
    by_contra hne
    rw [not_or] at hne
    have hn : 2 ≤ n.toNat := by
      have h1 : n.toNat ≠ 1 := fun h => hne.2 (UInt32.toNat_inj.1 h)
      omega
    have hdigit := hsame [.push (fun _ => 53) 1, .charPop] rfl
    rw [init_answers h₁, init_answers h₂, contents_digit hn, contents_digit hn] at hdigit
    refine hne.1 ?_
    cases hs₁ : lb₁.inEscapeSequence <;> cases hs₂ : lb₂.inEscapeSequence <;> rw [hs₁, hs₂] at hdigit <;>
      first | rfl | cases hdigit
  · rintro (heq | hone) ops -
    · rw [init_answers h₁, init_answers h₂, heq]
    · rw [init_answers h₁, init_answers h₂, contents_one (by rw [hone]; rfl) ops _ lb₂.inEscapeSequence]

/-- Zeroed memory, and memory of a buffer that was in use, with the filter outside of escape sequences. -/
theorem log_buffer_init_fresh_iff_two :
    ((LogBuffer.init ⟨fun _ => 0, false, 0, 0, 0, false⟩ (fun _ => 0) 8).map fun lb =>
      popped (Device.runSpec LogBuffer.call lb [.push (fun _ => 53) 1, .charPop]).2) =
    ((LogBuffer.init ⟨fun _ => 7, true, 4, 2, 1, false⟩ (fun _ => 0) 8).map fun lb =>
      popped (Device.runSpec LogBuffer.call lb [.push (fun _ => 53) 1, .charPop]).2) :=
  congrArg some ((log_buffer_init_fresh_iff 8 (fun _ => 0) ⟨fun _ => 0, false, 0, 0, 0, false⟩
    ⟨fun _ => 7, true, 4, 2, 1, false⟩ _ _ rfl rfl).2 (.inl rfl) [.push (fun _ => 53) 1, .charPop] rfl)

/-- **An escape sequence that was not finished** swallows the first text of the next log buffer in that memory. -/
theorem log_buffer_init_keeps_filter :
    ((LogBuffer.init ⟨fun _ => 0, false, 0, 0, 0, false⟩ (fun _ => 0) 8).map fun lb =>
      popped (Device.runSpec LogBuffer.call lb [.push (fun _ => 53) 1, .charPop]).2) = some [53] ∧
    ((LogBuffer.init ⟨fun _ => 7, true, 4, 2, 1, true⟩ (fun _ => 0) 8).map fun lb =>
      popped (Device.runSpec LogBuffer.call lb [.push (fun _ => 53) 1, .charPop]).2) = some [] := by
  decide

end Fresh

end Cutils.Log
