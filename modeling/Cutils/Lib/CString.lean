import Mathlib.Algebra.Notation.Defs
import Mathlib.Data.List.Basic
import Mathlib.Data.Nat.Notation

/-!
# Strings in an array of characters

An array of `n` characters in memory, and the string functions that write to it. A store outside of
the array is a fault (`none`). The strings they are given (`Str`) have no NUL, which is 0.

* `puts_eq`, `puts_eq_none`: a number of stores in a row.
* `Reads`: what the array holds from an index on; `Reads.overlay` puts more behind it.
* `strcat_eq`, `strcat_eq_none`: appending, by where the first NUL is.
-/

namespace CString

variable {α : Type*} {n i j k : ℕ} {buf : ℕ → α} {c : α} {xs ys cs : List α}

/-- Store `cs` from `i` on. -/
def puts (n : ℕ) : (ℕ → α) → ℕ → List α → Option (ℕ → α)
  | buf, _, [] => some buf
  | buf, i, c :: cs => if i < n then puts n (Function.update buf i c) (i + 1) cs else none

/-- The array with `cs` from `i` on. -/
def overlay (buf : ℕ → α) (i : ℕ) (cs : List α) (j : ℕ) : α := if i ≤ j then cs[j - i]?.getD (buf j) else buf j

theorem overlay_of_lt (h : j < i) : overlay buf i cs j = buf j := if_neg (Nat.not_le.2 h)

theorem overlay_of_le (h : i + cs.length ≤ j) : overlay buf i cs j = buf j := by
  unfold overlay
  rw [if_pos (by omega), List.getElem?_eq_none (by omega)]
  rfl

theorem overlay_add (buf : ℕ → α) (i : ℕ) (h : cs[k]? = some c) : overlay buf i cs (i + k) = c := by
  unfold overlay
  rw [if_pos (Nat.le_add_right i k), Nat.add_sub_cancel_left, h]
  rfl

/-- **Stores inside the array.** -/
theorem puts_eq (h : i + cs.length ≤ n) : puts n buf i cs = some (overlay buf i cs) := by
  induction cs generalizing buf i with
  | nil =>
    have hsame : overlay buf i [] = buf := by
      funext j
      unfold overlay
      split <;> rfl
    rw [hsame]
    rfl
  | cons c cs ih =>
    rw [List.length_cons] at h
    rw [puts, if_pos (by omega), ih (by omega)]
    congr 1
    funext j
    rcases Nat.lt_trichotomy j i with hlt | rfl | hgt
    · rw [overlay_of_lt (by omega), overlay_of_lt hlt, Function.update_of_ne (Nat.ne_of_lt hlt)]
    · rw [overlay_of_lt (Nat.lt_succ_self j), Function.update_self]
      exact (overlay_add buf j (k := 0) rfl).symm
    · obtain ⟨k, rfl⟩ := Nat.exists_eq_add_of_lt hgt
      have hi : i ≤ i + k + 1 := by omega
      have hi' : i + 1 ≤ i + k + 1 := by omega
      simp only [overlay, if_pos hi, if_pos hi', Function.update_of_ne (Nat.ne_of_gt hgt)]
      rw [show i + k + 1 - i = k + 1 by omega, show i + k + 1 - (i + 1) = k by omega, List.getElem?_cons_succ]

/-- **A store outside the array**, by the time the last one is made. -/
theorem puts_eq_none (hcs : cs ≠ []) (h : n < i + cs.length) : puts n buf i cs = none := by
  induction cs generalizing buf i with
  | nil => exact absurd rfl hcs
  | cons c cs ih =>
    rw [List.length_cons] at h
    rw [puts]
    split
    · cases cs with
      | nil => rw [List.length_nil] at h; omega
      | cons c' cs => exact ih (List.cons_ne_nil c' cs) (by omega)
    · rfl

/-- The array holds `cs` from `i` on. -/
def Reads (buf : ℕ → α) (i : ℕ) (cs : List α) : Prop := ∀ k c, cs[k]? = some c → buf (i + k) = c

theorem Reads.nil (buf : ℕ → α) (i : ℕ) : Reads buf i [] := by
  intro k c h
  cases h

theorem Reads.left (h : Reads buf i (xs ++ ys)) : Reads buf i xs := by
  intro k c hk
  have hlt := (List.getElem?_eq_some_iff.1 hk).1
  exact h k c (by rw [List.getElem?_append_left hlt, hk])

theorem reads_overlay (buf : ℕ → α) (i : ℕ) (cs : List α) : Reads (overlay buf i cs) i cs :=
  fun _ _ h => overlay_add buf i h

/-- **More is stored behind what is there.** -/
theorem Reads.overlay (h : Reads buf i xs) (ys : List α) : Reads (overlay buf (i + xs.length) ys) i (xs ++ ys) := by
  intro k c hk
  rcases Nat.lt_or_ge k xs.length with hlt | hge
  · rw [List.getElem?_append_left hlt] at hk
    rw [overlay_of_lt (by omega)]
    exact h k c hk
  · rw [List.getElem?_append_right hge] at hk
    have := overlay_add buf (i + xs.length) hk
    rwa [show i + xs.length + (k - xs.length) = i + k by omega] at this

section Nul

variable [Zero α]

/-- A string: characters other than NUL. -/
structure Str (α : Type*) [Zero α] where
  chars : List α
  noNul : ∀ c ∈ chars, c ≠ 0

/-- `strncpy`: at most `k` characters, and NULs up to `k`. -/
def strncpy (n : ℕ) (buf : ℕ → α) (src : List α) (k : ℕ) : Option (ℕ → α) :=
  puts n buf 0 (src.take k ++ List.replicate (k - src.length) 0)

variable [DecidableEq α]

/-- The index of the first NUL, or none in the array. -/
def terminator (n : ℕ) (buf : ℕ → α) : Option ℕ := (List.range n).find? fun i => decide (buf i = 0)

/-- `strcat`; none also where no NUL is found in the array. -/
def strcat (n : ℕ) (buf : ℕ → α) (src : List α) : Option (ℕ → α) :=
  (terminator n buf).bind fun i => puts n buf i (src ++ [0])

/-- **Appending** to a string that ends at `i`. -/
theorem strcat_eq (hi : buf i = 0) (hne : ∀ j < i, buf j ≠ 0) (h : i + cs.length < n) :
    strcat n buf cs = some (overlay buf i (cs ++ [0])) := by
  have hfind : terminator n buf = some i := by
    unfold terminator
    rw [List.find?_range_eq_some]
    exact ⟨by simpa using hi, List.mem_range.2 (by omega), fun j hj => by simpa using hne j hj⟩
  have hlen : i + (cs ++ [0]).length ≤ n := by
    rw [List.length_append, List.length_singleton]
    omega
  rw [strcat, hfind, Option.bind_some, puts_eq hlen]

/-- **There is no room** behind the string. -/
theorem strcat_eq_none (hne : ∀ j < i, buf j ≠ 0) (h : n ≤ i + cs.length) : strcat n buf cs = none := by
  unfold strcat
  cases hfind : terminator n buf with
  | none => rfl
  | some j =>
    have hj : buf j = 0 := by simpa using List.find?_some hfind
    have hij : i ≤ j := by
      by_contra hlt
      exact hne j (by omega) hj
    rw [Option.bind_some]
    refine puts_eq_none (by simp) ?_
    rw [List.length_append, List.length_singleton]
    omega

end Nul

end CString
