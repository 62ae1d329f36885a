import Mathlib.Algebra.Ring.Nat
import Mathlib.Data.List.Nodup

/-!
# A list that is updated in place

What is at each place after an update, and how counts of its entries change.
-/

namespace List

variable {α : Type*} {l : List α} {i j : ℕ} {x y : α} {p : α → Bool}

theorem get_set (h : (l.set i x)[j]? = some y) : (j = i ∧ y = x) ∨ (j ≠ i ∧ l[j]? = some y) := by
  rw [getElem?_set] at h
  split at h
  · rename_i hij
    split at h
    · exact .inl ⟨hij.symm, (Option.some.inj h).symm⟩
    · cases h
  · rename_i hij
    exact .inr ⟨fun hj => hij hj.symm, h⟩

theorem get_set_self (h : l[i]? = some y) : (l.set i x)[i]? = some x := by
  obtain ⟨hlt, -⟩ := getElem?_eq_some_iff.1 h
  simp [hlt]

/-- Entry `i` is the new one, and the others stay. -/
theorem getElem?_set_of_some (h : l[i]? = some y) (x : α) (j : ℕ) :
    (l.set i x)[j]? = if i = j then some x else l[j]? := by
  by_cases hij : i = j
  · subst hij
    rw [get_set_self h, if_pos rfl]
  · rw [getElem?_set_ne hij, if_neg hij]

theorem modify_set (f : α → α) (h : l[i]? = some x) : l.modify i f = l.set i (f x) := by
  apply ext_getElem?
  intro j
  rw [getElem?_modify, getElem?_set]
  split
  · rename_i hij
    subst hij
    obtain ⟨hlt, -⟩ := getElem?_eq_some_iff.1 h
    rw [h, if_pos hlt]
    rfl
  · simp

/-- An entry of a list with one more at its end. -/
theorem get_append_singleton (h : (l ++ [x])[j]? = some y) : (j = l.length ∧ y = x) ∨ l[j]? = some y := by
  rcases Nat.lt_or_ge j l.length with hlt | hge
  · rw [getElem?_append_left hlt] at h
    exact .inr h
  · rw [getElem?_append_right hge] at h
    have hlt := (getElem?_eq_some_iff.1 h).1
    rw [length_singleton] at hlt
    have hmem := mem_of_getElem? h
    exact .inl ⟨by omega, mem_singleton.1 hmem⟩

theorem count_head_add [BEq α] (x : α) (l : List α) (y : α) : (x :: l).count y = [x].count y + l.count y := by
  rw [← singleton_append, count_append]

/-- Replacing entry `x` by `y` moves one count. -/
theorem countP_set_add (p : α → Bool) (h : l[i]? = some x) :
    (l.set i y).countP p + (if p x then 1 else 0) = l.countP p + (if p y then 1 else 0) := by
  induction l generalizing i with
  | nil => simp at h
  | cons a l ih =>
    cases i with
    | zero =>
      simp only [getElem?_cons_zero, Option.some.injEq] at h
      subst h
      simp only [set_cons_zero, countP_cons]
      omega
    | succ i =>
      simp only [getElem?_cons_succ] at h
      have := ih h
      simp only [set_cons_succ, countP_cons]
      omega

/-- Replacing entry `x` by `y` moves one summand. -/
theorem sum_map_set_add (f : α → ℕ) (h : l[i]? = some x) : ((l.set i y).map f).sum + f x = (l.map f).sum + f y := by
  induction l generalizing i with
  | nil => cases h
  | cons a l ih =>
    cases i with
    | zero =>
      obtain rfl : a = x := Option.some.inj h
      simp only [set_cons_zero, map_cons, sum_cons]
      omega
    | succ i =>
      have := ih (i := i) h
      simp only [set_cons_succ, map_cons, sum_cons]
      omega

theorem one_le_countP (h : l[i]? = some x) (hx : p x = true) : 1 ≤ l.countP p :=
  countP_pos_iff.2 ⟨x, mem_of_getElem? h, hx⟩

/-- An entry that only `q` counts. -/
theorem countP_lt_countP {q : α → Bool} (hle : ∀ y ∈ l, p y = true → q y = true) (hx : x ∈ l) (hp : p x = false)
    (hq : q x = true) : l.countP p < l.countP q := by
  induction l with
  | nil => cases hx
  | cons a l ih =>
    have hle' : ∀ y ∈ l, p y = true → q y = true := fun y hy => hle y (mem_cons_of_mem a hy)
    rw [countP_cons, countP_cons]
    rcases mem_cons.1 hx with rfl | hx
    · have := countP_mono_left hle'
      rw [hp, hq]
      simp only [Bool.false_eq_true, if_false, if_true]
      omega
    · have := ih hle' hx
      have ha := hle a mem_cons_self
      split
      · rename_i hpa
        rw [if_pos (ha hpa)]
        omega
      · omega

/-- Two entries at different places count twice. -/
theorem two_le_countP (hij : i ≠ j) (hi : l[i]? = some x) (hj : l[j]? = some y) (hx : p x = true)
    (hy : p y = true) : 2 ≤ l.countP p := by
  induction l generalizing i j with
  | nil => simp at hi
  | cons a l ih =>
    rw [countP_cons]
    cases i with
    | zero =>
      obtain ⟨j, rfl⟩ : ∃ k, j = k + 1 := ⟨j - 1, by omega⟩
      simp only [getElem?_cons_zero, Option.some.injEq] at hi
      simp only [getElem?_cons_succ] at hj
      have := one_le_countP hj hy
      simp only [hi, hx, if_true]
      omega
    | succ i =>
      simp only [getElem?_cons_succ] at hi
      cases j with
      | zero =>
        simp only [getElem?_cons_zero, Option.some.injEq] at hj
        have := one_le_countP hi hx
        simp only [hj, hy, if_true]
        omega
      | succ j =>
        simp only [getElem?_cons_succ] at hj
        have := ih (by omega) hi hj
        omega

end List
