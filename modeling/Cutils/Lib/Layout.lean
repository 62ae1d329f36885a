import Mathlib.Data.List.Basic
import Mathlib.Algebra.Order.Ring.Nat

/-!
# The layout of C structs

The members of a struct stand in order, each at the next multiple of its alignment, and the struct is padded to a multiple
of its own alignment, which is the largest of its members'. Alignments are powers of two.

* `offsetof_add_size_le`: a member ends before the next ones.
* `offsetof_add_size_le_size`: members are inside the struct.
* `align_dvd_offsetof`, `align_dvd_align`, `align_dvd_size`: members are aligned, in an array of structs as well.
-/

namespace Layout

/-- Size and alignment of a type. -/
structure CType where
  size : ℕ
  align : ℕ
  power : ∃ k, align = 2 ^ k

theorem CType.align_pos (c : CType) : 0 < c.align := by
  obtain ⟨k, hk⟩ := c.power
  rw [hk]
  exact Nat.two_pow_pos k

/-- The next multiple of `align`. -/
def alignUp (align x : ℕ) : ℕ := (x + (align - 1)) / align * align

theorem le_alignUp {align : ℕ} (h : 0 < align) (x : ℕ) : x ≤ alignUp align x := by
  have hdiv := Nat.div_add_mod (x + (align - 1)) align
  have hmod := Nat.mod_lt (x + (align - 1)) h
  unfold alignUp
  rw [Nat.mul_comm]
  omega

theorem dvd_alignUp (align x : ℕ) : align ∣ alignUp align x := Dvd.intro_left _ rfl

/-- The offsets of members that stand in order from `cursor` on. -/
def offsets : ℕ → List CType → List ℕ
  | _, [] => []
  | cursor, c :: cs => alignUp c.align cursor :: offsets (alignUp c.align cursor + c.size) cs

/-- Where members that stand in order from `cursor` on end. -/
def extent : ℕ → List CType → ℕ
  | cursor, [] => cursor
  | cursor, c :: cs => extent (alignUp c.align cursor + c.size) cs

/-- The largest alignment. -/
def alignof : List CType → ℕ
  | [] => 1
  | c :: cs => max c.align (alignof cs)

theorem alignof_power (cs : List CType) : ∃ k, alignof cs = 2 ^ k := by
  induction cs with
  | nil => exact ⟨0, rfl⟩
  | cons c cs ih =>
    rcases Nat.le_total c.align (alignof cs) with h | h
    · rw [alignof, Nat.max_eq_right h]
      exact ih
    · rw [alignof, Nat.max_eq_left h]
      exact c.power

/-- A struct with these members. -/
def struct (cs : List CType) : CType := ⟨alignUp (alignof cs) (extent 0 cs), alignof cs, alignof_power cs⟩

/-- The offset of member `i`. -/
def offsetof (cs : List CType) (i : ℕ) : ℕ := (offsets 0 cs)[i]?.getD 0

variable {cs : List CType} {c c' : CType} {cursor i j : ℕ}

theorem cursor_le_offset (hi : cs[i]? = some c) : cursor ≤ (offsets cursor cs)[i]?.getD 0 := by
  induction cs generalizing cursor i with
  | nil => cases hi
  | cons d ds ih =>
    have hup := le_alignUp d.align_pos cursor
    cases i with
    | zero => exact hup
    | succ i =>
      have hrest : alignUp d.align cursor + d.size ≤ (offsets (alignUp d.align cursor + d.size) ds)[i]?.getD 0 := ih hi
      show cursor ≤ (offsets (alignUp d.align cursor + d.size) ds)[i]?.getD 0
      omega

theorem offset_add_size_le (hi : cs[i]? = some c) (hj : cs[j]? = some c') (h : i < j) :
    (offsets cursor cs)[i]?.getD 0 + c.size ≤ (offsets cursor cs)[j]?.getD 0 := by
  induction cs generalizing cursor i j with
  | nil => cases hi
  | cons d ds ih =>
    cases j with
    | zero => cases h
    | succ j =>
      cases i with
      | zero =>
        obtain rfl := Option.some.inj hi
        exact cursor_le_offset hj
      | succ i => exact ih hi hj (Nat.lt_of_succ_lt_succ h)

theorem cursor_le_extent (cursor : ℕ) (cs : List CType) : cursor ≤ extent cursor cs := by
  induction cs generalizing cursor with
  | nil => exact Nat.le_refl _
  | cons d ds ih =>
    have hup := le_alignUp d.align_pos cursor
    have hrest := ih (alignUp d.align cursor + d.size)
    rw [extent]
    omega

theorem offset_add_size_le_extent (hi : cs[i]? = some c) :
    (offsets cursor cs)[i]?.getD 0 + c.size ≤ extent cursor cs := by
  induction cs generalizing cursor i with
  | nil => cases hi
  | cons d ds ih =>
    cases i with
    | zero =>
      obtain rfl := Option.some.inj hi
      exact cursor_le_extent _ ds
    | succ i => exact ih hi

/-- **A member ends before the next ones start.** -/
theorem offsetof_add_size_le (cs : List CType) (hi : cs[i]? = some c) (hj : cs[j]? = some c') (h : i < j) :
    offsetof cs i + c.size ≤ offsetof cs j :=
  offset_add_size_le hi hj h

/-- **Members are inside the struct.** -/
theorem offsetof_add_size_le_size (cs : List CType) (hi : cs[i]? = some c) : offsetof cs i + c.size ≤ (struct cs).size :=
  (offset_add_size_le_extent hi).trans (le_alignUp (struct cs).align_pos _)

theorem offsetof_zero (c : CType) (cs : List CType) : offsetof (c :: cs) 0 = 0 := by
  obtain ⟨k, hk⟩ := c.power
  have hpos := c.align_pos
  show alignUp c.align 0 = 0
  rw [alignUp, Nat.div_eq_of_lt (by omega), Nat.zero_mul]

theorem align_dvd_offset (hi : cs[i]? = some c) : c.align ∣ (offsets cursor cs)[i]?.getD 0 := by
  induction cs generalizing cursor i with
  | nil => cases hi
  | cons d ds ih =>
    cases i with
    | zero =>
      obtain rfl := Option.some.inj hi
      exact dvd_alignUp ..
    | succ i => exact ih hi

/-- **Members are aligned** in the struct, -/
theorem align_dvd_offsetof (cs : List CType) (hi : cs[i]? = some c) : c.align ∣ offsetof cs i := align_dvd_offset hi

theorem align_le_alignof (hi : cs[i]? = some c) : c.align ≤ alignof cs := by
  induction cs generalizing i with
  | nil => cases hi
  | cons d ds ih =>
    cases i with
    | zero =>
      obtain rfl := Option.some.inj hi
      exact Nat.le_max_left ..
    | succ i => exact (ih hi).trans (Nat.le_max_right ..)

/-- the struct is aligned at least as its members are, -/
theorem align_dvd_align (cs : List CType) (hi : cs[i]? = some c) : c.align ∣ (struct cs).align := by
  obtain ⟨k, hk⟩ := c.power
  obtain ⟨l, hl⟩ := (struct cs).power
  have hle : c.align ≤ (struct cs).align := align_le_alignof hi
  rw [hk, hl] at hle ⊢
  exact Nat.pow_dvd_pow 2 ((Nat.pow_le_pow_iff_right (by decide)).1 hle)

/-- and the structs of an array are aligned. -/
theorem align_dvd_size (cs : List CType) : (struct cs).align ∣ (struct cs).size := dvd_alignUp ..

end Layout
