import Cutils.Proof.LogBufferContents
import Cutils.Spec.TsLogBuffer

/-!
# How full a log buffer says it is

`level` is the purpose of the notifications, in terms of the stored characters. The lines are counted as
`1 + (size - 1) / 512` in unsigned 32-bit numbers, which is right for all sizes but 0: an empty buffer has used 2²³ lines.

* `log_levels_iff`: when all notifications of a sequence of pushes are as they should be.
-/

namespace Cutils.Log

open Cyclic

variable {n : UInt32} {lb : LogBuffer} {ts : TsLogBuffer} {q : Fifo UInt8 (n.toNat - 1)} {inSequence : Bool}

/-- **The size** is the number of stored characters. -/
theorem Refines.currentSize (h : Refines lb q inSequence) : lb.currentSize.1.toNat = q.count := by
  have ht := h.tail
  have hh := h.head
  have hfits : q.count ≤ n.toNat - 1 := q.fits
  have hsize : lb.bufferSize.toNat = n.toNat := by rw [h.size]
  unfold LogBuffer.currentSize
  rcases Nat.lt_or_ge (lb.tail.toNat + q.count) n.toNat with hstraight | hwrapped
  · rw [Nat.mod_eq_of_lt hstraight] at hh
    have := n.toNat_lt
    split
    · rename_i hlt
      have hle := UInt32.le_of_lt hlt
      simp only [UInt32.toNat_add, UInt32.toNat_sub_of_le _ _ hle, UInt32.toNat_zero]
      omega
    · rename_i hge
      rw [UInt32.lt_iff_toNat_lt] at hge
      have hnot : ¬ lb.head < lb.tail := by
        rw [UInt32.lt_iff_toNat_lt]
        omega
      rw [if_neg hnot]
      show (0 : UInt32).toNat = _
      rw [UInt32.toNat_zero]
      omega
  · -- the characters go around the end of the memory
    rw [Nat.mod_eq_sub_mod hwrapped, Nat.mod_eq_of_lt (by omega)] at hh
    have hlt : lb.head < lb.tail := by
      rw [UInt32.lt_iff_toNat_lt]
      omega
    have hnot : ¬ lb.tail < lb.head := by
      rw [UInt32.lt_iff_toNat_lt] at hlt ⊢
      omega
    have hle : lb.tail ≤ lb.bufferSize := by
      rw [UInt32.le_iff_toNat_le]
      omega
    rw [if_neg hnot, if_pos hlt]
    simp only [UInt32.toNat_add, UInt32.toNat_sub_of_le _ _ hle]
    have := n.toNat_lt
    omega

/-- Lines are counted right, unless there are no characters. -/
theorem toNat_linesFromSize {size : UInt32} (h : size.toNat ≠ 0) : (linesFromSize size).toNat = (size.toNat - 1) / 512 + 1 := by
  have hlt := size.toNat_lt
  have hle : (1 : UInt32) ≤ size := by
    rw [UInt32.le_iff_toNat_le, UInt32.toNat_one]
    omega
  unfold linesFromSize logMaxLineLength
  rw [UInt32.toNat_add, UInt32.toNat_div, UInt32.toNat_sub_of_le _ _ hle, UInt32.toNat_one]
  show (1 + (size.toNat - 1) / 512) % 2 ^ 32 = _
  omega

theorem linesFromSize_zero : linesFromSize 0 = 8388608 := by decide

/-- **What a client should be told** when `stored` characters are in a buffer of `size` bytes. -/
def level (size stored : ℕ) : Option Notification :=
  let used := (stored + 511) / 512
  let max := (size - 1) / 512
  if max ≤ used then some .full else if max - used < 3 then some .almostFull else none

/-- How urgent a notification is. -/
def rank : Option Notification → ℕ
  | some .full => 2
  | some .almostFull => 1
  | some .empty | none => 0

theorem rank_level_mono (size : ℕ) {stored stored' : ℕ} (h : stored ≤ stored') :
    rank (level size stored) ≤ rank (level size stored') := by
  have hle : (stored + 511) / 512 ≤ (stored' + 511) / 512 := Nat.div_le_div_right (by omega)
  unfold level
  dsimp only
  split_ifs <;> first | omega | decide

/-- The difference of the lines, as a signed number. -/
theorem toInt_sub {x y : UInt32} (hx : x.toNat < 2 ^ 31) (hy : y.toNat < 2 ^ 31) :
    (x - y).toBitVec.toInt = (x.toNat : ℤ) - y.toNat := by
  have hsub : (x - y).toBitVec.toNat = (2 ^ 32 - y.toNat + x.toNat) % 2 ^ 32 := UInt32.toNat_sub x y
  rw [BitVec.toInt_eq_toNat_cond, hsub]
  split <;> omega

/-- **The end of a push** tells the client the level, and that an empty buffer is full. -/
theorem notify_lines {size stored : UInt32} (hlt : stored.toNat < size.toNat) (fn : Callback) (hfn : ts.fn = some fn) :
    ts.notify (linesFromSize size - 1 - linesFromSize stored).toBitVec.toInt =
      if stored.toNat = 0 then some (fn, .full, ts.priv)
      else (level size.toNat stored.toNat).map (fn, ·, ts.priv) := by
  have hsize := size.toNat_lt
  have hmax : (linesFromSize size - 1).toNat = (size.toNat - 1) / 512 := by
    have hpos : size.toNat ≠ 0 := by omega
    have hlines := toNat_linesFromSize hpos
    have hle : (1 : UInt32) ≤ linesFromSize size := by
      rw [UInt32.le_iff_toNat_le, UInt32.toNat_one]
      omega
    rw [UInt32.toNat_sub_of_le _ _ hle, hlines, UInt32.toNat_one]
    omega
  unfold TsLogBuffer.notify
  rw [hfn]
  by_cases h0 : stored.toNat = 0
  · have hzero : stored = 0 := UInt32.toNat_inj.1 h0
    rw [if_pos h0, hzero, linesFromSize_zero, toInt_sub (by omega) (by decide), hmax]
    have hneg : (((size.toNat - 1) / 512 : ℕ) : ℤ) - (8388608 : UInt32).toNat ≤ 0 := by
      show (((size.toNat - 1) / 512 : ℕ) : ℤ) - 8388608 ≤ 0
      omega
    dsimp only
    rw [if_neg (by omega), if_pos hneg]
  · have hused : (linesFromSize stored).toNat = (stored.toNat + 511) / 512 := by
      rw [toNat_linesFromSize h0]
      omega
    rw [if_neg h0, toInt_sub (by omega) (by omega), hmax, hused]
    unfold level
    dsimp only
    generalize (size.toNat - 1) / 512 = max
    generalize (stored.toNat + 511) / 512 = used
    split_ifs <;> first | rfl | omega

/-- **What a push is for**: the contents after it, and what the client is told. -/
def pushSpec (fn : Callback) (priv : ℕ) (t : Fifo UInt8 (n.toNat - 1) × Bool) (p : Option (ℕ → UInt8) × UInt32) :
    (Fifo UInt8 (n.toNat - 1) × Bool) × Option (Callback × Notification × ℕ) :=
  let t' := match p.1 with
    | some string => (contentsCall t (.push string p.2)).1
    | none => t
  (t', (level n.toNat t'.1.count).map (fn, ·, priv))

/-- A log buffer with a callback stands for contents. -/
def Stands (fn : Callback) (priv : ℕ) (ts : TsLogBuffer) (t : Fifo UInt8 (n.toNat - 1) × Bool) : Prop :=
  Refines ts.lb t.1 t.2 ∧ ts.fn = some fn ∧ ts.priv = priv

/-- A push of the log buffer inside, and a notification of what it led to. -/
theorem push_eq (h : Refines ts.lb q inSequence) (fn : Callback) (priv : ℕ) (p : Option (ℕ → UInt8) × UInt32) :
    ∃ lb, ts.push p.1 p.2 = ({ ts with lb := lb },
        ts.notify (linesFromSize lb.bufferSize - 1 - linesFromSize lb.currentSize.1).toBitVec.toInt) ∧
      Refines lb (pushSpec fn priv (q, inSequence) p).1.1 (pushSpec fn priv (q, inSequence) p).1.2 := by
  obtain ⟨string, stringSize⟩ := p
  unfold TsLogBuffer.push
  rw [if_pos h.isInit]
  cases string with
  | none => exact ⟨ts.lb, rfl, h⟩
  | some string => exact ⟨_, rfl, (call_refines ts.lb (q, inSequence) (.push string stringSize) h).2⟩

/-- **One push** keeps the contents, and tells the level unless the buffer is empty then. -/
theorem push_stands {fn : Callback} {priv : ℕ} {t : Fifo UInt8 (n.toNat - 1) × Bool} (h : Stands fn priv ts t)
    (p : Option (ℕ → UInt8) × UInt32) :
    Stands fn priv (ts.push p.1 p.2).1 (pushSpec fn priv t p).1 ∧
      ((ts.push p.1 p.2).2 = (pushSpec fn priv t p).2 ↔ n.toNat ≤ 512 ∨ (pushSpec fn priv t p).1.1.count ≠ 0) := by
  obtain ⟨q, inSequence⟩ := t
  obtain ⟨(hr : Refines ts.lb q inSequence), hfn, rfl⟩ := h
  obtain ⟨lb, hpush, hr'⟩ := push_eq hr fn ts.priv p
  have hanswer : (pushSpec fn ts.priv (q, inSequence) p).2 =
      (level n.toNat (pushSpec fn ts.priv (q, inSequence) p).1.1.count).map (fn, ·, ts.priv) := rfl
  have hcount := hr'.currentSize
  have hfits : (pushSpec fn ts.priv (q, inSequence) p).1.1.count ≤ n.toNat - 1 := (pushSpec fn ts.priv (q, inSequence) p).1.1.fits
  have hpos := hr.tail
  rw [hpush]
  refine ⟨⟨hr', hfn, rfl⟩, ?_⟩
  dsimp only
  rw [hr'.size, notify_lines (by omega) fn hfn, hanswer, hcount]
  generalize (pushSpec fn ts.priv (q, inSequence) p).1.1.count = stored
  by_cases h0 : stored = 0
  · -- an empty buffer is said to be full
    rw [if_pos h0, h0]
    simp only [not_true_eq_false, ne_eq, or_false]
    unfold level
    dsimp only
    constructor
    · intro heq
      split_ifs at heq with h1 h2
      · omega
      · cases heq
      · cases heq
    · intro hle
      rw [if_pos (by omega)]
      rfl
  · rw [if_neg h0]
    exact iff_of_true rfl (.inr h0)

/-- A push that stores a character: it is not refused, and not all of its text is filtered out. -/
def Stores (n : UInt32) (inSequence : Bool) : Option (ℕ → UInt8) × UInt32 → Prop
  | (some string, stringSize) => stringSize < n ∧ (filter inSequence (firstN string stringSize.toNat)).2 ≠ []
  | (none, _) => False

/-- A push leaves the buffer empty only if it was, and nothing is stored. -/
theorem pushSpec_count_ne_zero (hn : 512 < n.toNat) (fn : Callback) (priv : ℕ) (t : Fifo UInt8 (n.toNat - 1) × Bool)
    (p : Option (ℕ → UInt8) × UInt32) :
    (pushSpec fn priv t p).1.1.count ≠ 0 ↔ t.1.count ≠ 0 ∨ Stores n t.2 p := by
  obtain ⟨string, stringSize⟩ := p
  cases string with
  | none => simp [pushSpec, Stores]
  | some string =>
    simp only [pushSpec, contentsCall, Stores, UInt32.lt_iff_toNat_lt]
    split
    · rename_i hlt
      rw [Fifo.count_slide, ← List.length_pos_iff]
      constructor
      · intro hne
        rcases Nat.eq_zero_or_pos t.1.count with h0 | h0
        · exact .inr ⟨hlt, by omega⟩
        · exact .inl (Nat.ne_of_gt h0)
      · rintro (h0 | ⟨-, h0⟩) <;> omega
    · rename_i hge
      exact ⟨.inl, fun h => h.resolve_right fun hs => hge hs.1⟩

/-- **Log fill notifications.** For every thread-safe log buffer of `n` bytes with a callback, in any state, and every
sequence of pushes: the buffer stands for the contents after all of them, and every push tells the client the level of
the characters stored then, if and only if the buffer has at most 512 bytes, or is not empty to begin with, or the
first push stores a character. (The levels rise with the number of characters, and a buffer with three lines or more that is
empty has none.) -/
theorem log_levels_iff (n : UInt32) (ts : TsLogBuffer) (fn : Callback) (hfn : ts.fn = some fn)
    (q : Fifo UInt8 (n.toNat - 1)) (inSequence : Bool) (h : Refines ts.lb q inSequence)
    (pushes : List (Option (ℕ → UInt8) × UInt32)) :
    let run := Device.runSpec (fun (ts : TsLogBuffer) p => ts.push p.1 p.2) ts pushes
    let spec := Device.runSpec (pushSpec fn ts.priv) (q, inSequence) pushes
    Refines run.1.lb spec.1.1 spec.1.2 ∧
      (run.2 = spec.2 ↔ n.toNat ≤ 512 ∨ q.count ≠ 0 ∨ ∀ p ∈ pushes.head?, Stores n inSequence p) ∧
      (∀ stored stored', stored ≤ stored' → rank (level n.toNat stored) ≤ rank (level n.toNat stored')) ∧
      (3 ≤ (n.toNat - 1) / 512 → level n.toNat 0 = none) := by
  intro run spec
  obtain ⟨hend, -, hiff⟩ := Device.answers_iff (R := Stands fn ts.priv) (D := fun _ => True) (fun _ => ())
    (fun s t p hs _ => ⟨(push_stands hs p).1, rfl, (push_stands hs p).2⟩) pushes ts (q, inSequence) ⟨h, hfn, rfl⟩
    fun _ _ => trivial
  refine ⟨hend.1, hiff.trans ?_, fun _ _ hle => rank_level_mono _ hle, ?_⟩
  · rcases Nat.lt_or_ge 512 n.toNat with hn | hn
    · cases pushes with
      | nil => exact iff_of_true trivial (.inr (.inr (by simp)))
      | cons p pushes =>
        have hfirst := pushSpec_count_ne_zero hn fn ts.priv (q, inSequence) p
        simp only [Device.Allowed, List.head?_cons, Option.mem_some_iff, forall_eq']
        constructor
        · rintro ⟨h1, -⟩
          exact .inr (hfirst.1 (h1.resolve_left (by omega)))
        · intro h1
          have hne := hfirst.2 (h1.resolve_left (by omega))
          refine ⟨.inr hne, Device.allowed_of_inv (I := fun t => t.1.count ≠ 0) (fun t p ht => ?_) pushes _ hne⟩
          have hne' := (pushSpec_count_ne_zero hn fn ts.priv t p).2 (.inl ht)
          exact ⟨.inr hne', hne'⟩
    · refine iff_of_true ?_ (.inl hn)
      exact Device.allowed_of_inv (I := fun _ => True) (fun _ _ _ => ⟨.inl hn, trivial⟩) pushes _ trivial
  · intro h3
    unfold level
    dsimp only
    rw [if_neg (by omega), if_neg (by omega)]

/-- A buffer of three lines and a bit: the first push stores a character, and the second one is filtered out. -/
theorem log_levels_iff_three :
    (Device.runSpec (fun (ts : TsLogBuffer) p => ts.push p.1 p.2) ⟨⟨fun _ => 0, true, 1600, 0, 0, false⟩, some 9, 4⟩
      [(some fun _ => 65, 5), (some fun _ => 13, 3)]).2 =
    (Device.runSpec (pushSpec 9 4) ((Fifo.empty : Fifo UInt8 ((1600 : UInt32).toNat - 1)), false)
      [(some fun _ => 65, 5), (some fun _ => 13, 3)]).2 := by
  have hinit : LogBuffer.init ⟨fun _ => 0, false, 0, 0, 0, false⟩ (fun _ => 0) 1600 =
      some ⟨fun _ => 0, true, 1600, 0, 0, false⟩ := rfl
  refine (log_levels_iff 1600 ⟨⟨fun _ => 0, true, 1600, 0, 0, false⟩, some 9, 4⟩ 9 rfl Fifo.empty false
    (init_refines hinit) [(some fun _ => 65, 5), (some fun _ => 13, 3)]).2.1.2 (.inr (.inr ?_))
  simp only [List.head?_cons, Option.mem_some_iff, forall_eq', Stores]
  decide

/-- A carriage return is filtered out, and the buffer, which holds nothing, is said to be full. -/
theorem log_levels_empty :
    (TsLogBuffer.push ⟨⟨fun _ => 0, true, 4096, 0, 0, false⟩, some 9, 4⟩ (some fun _ => 13) 1).2 = some (9, .full, 4) ∧
      (TsLogBuffer.push ⟨⟨fun _ => 0, true, 4096, 0, 0, false⟩, some 9, 4⟩ (some fun _ => 13) 1).1.lb.currentSize.1 = 0 ∧
      level 4096 0 = none := by
  decide

end Cutils.Log
