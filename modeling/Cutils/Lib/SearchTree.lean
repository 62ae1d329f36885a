import Mathlib.Data.Int.Notation
import Mathlib.Data.List.Induction
import Mathlib.Data.List.Nodup
import Mathlib.Data.Tree.Basic
import Mathlib.Logic.Function.Basic

/-!
# Search trees that keep equal elements

A tree is ordered by a three-way comparison. A new element goes to the left of a greater one and to the right of all
others, so that equal elements stay in the order they came in.

* `inorder_insert`: where in the order a new element goes.
* `sorted_ofList`, `perm_ofList`, `filter_ofList`: the order after any number of insertions.
* `find_ofList`: a search finds the element that came first.
* `Linked`: a tree threaded through two link fields of its elements.
-/

namespace SearchTree

open BinaryTree

variable {α : Type*} {cmp : α → α → ℤ} {a b c key : α} {t l r : BinaryTree α}

/-- A three-way comparison: its sign is a total preorder. -/
structure Comparison (cmp : α → α → ℤ) : Prop where
  swap : ∀ a b, cmp a b < 0 ↔ 0 < cmp b a
  trans : ∀ a b c, cmp a b ≤ 0 → cmp b c ≤ 0 → cmp a c ≤ 0

namespace Comparison

theorem le_iff (h : Comparison cmp) (a b : α) : cmp a b ≤ 0 ↔ ¬ cmp b a < 0 := by
  rw [h.swap b a]
  omega

theorem lt_of_le_of_lt (h : Comparison cmp) (hab : cmp a b ≤ 0) (hbc : cmp b c < 0) : cmp a c < 0 := by
  by_contra hac
  have hca : cmp c a ≤ 0 := (h.le_iff c a).2 hac
  exact (h.le_iff c b).1 (h.trans c a b hca hab) hbc

theorem lt_of_lt_of_le (h : Comparison cmp) (hab : cmp a b < 0) (hbc : cmp b c ≤ 0) : cmp a c < 0 := by
  by_contra hac
  have hca : cmp c a ≤ 0 := (h.le_iff c a).2 hac
  exact (h.le_iff b a).1 (h.trans b c a hbc hca) hab

end Comparison

section Trees

variable (cmp)

/-- A new element, to the right of equal ones. -/
def insert (a : α) : BinaryTree α → BinaryTree α
  | .nil => .node a .nil .nil
  | .node b l r => if cmp a b < 0 then .node b (insert a l) r else .node b l (insert a r)

def inorder : BinaryTree α → List α
  | .nil => []
  | .node a l r => inorder l ++ a :: inorder r

/-- The first element on the way down that is equal to `key`. -/
def find (key : α) : BinaryTree α → Option α
  | .nil => none
  | .node b l r => if cmp key b = 0 then some b else if cmp key b < 0 then find key l else find key r

/-- The elements are inserted one after the other. -/
def ofList (as : List α) : BinaryTree α := as.foldl (fun t a => insert cmp a t) .nil

def Sorted (as : List α) : Prop := as.Pairwise fun a b => cmp a b ≤ 0

end Trees

section Order

/-- **Where a new element goes**: behind those that are not greater, before those that are. -/
theorem inorder_insert (h : Comparison cmp) (a : α) (hs : Sorted cmp (inorder t)) :
    ∃ l₁ l₂, inorder t = l₁ ++ l₂ ∧ inorder (insert cmp a t) = l₁ ++ a :: l₂ ∧
      (∀ x ∈ l₁, cmp x a ≤ 0) ∧ ∀ x ∈ l₂, cmp a x < 0 := by
  induction t with
  | nil => exact ⟨[], [], rfl, rfl, by simp, by simp⟩
  | node b l r ihl ihr =>
    obtain ⟨hsl, hsr, hlr⟩ := List.pairwise_append.1 hs
    obtain ⟨hbr, hsr⟩ := List.pairwise_cons.1 hsr
    by_cases hab : cmp a b < 0
    · obtain ⟨l₁, l₂, hl, hins, hle, hlt⟩ := ihl hsl
      refine ⟨l₁, l₂ ++ b :: inorder r, ?_, ?_, hle, ?_⟩
      · simp only [inorder, hl, List.append_assoc]
      · simp only [insert, if_pos hab, inorder, hins, List.append_assoc, List.cons_append]
      · intro x hx
        rcases List.mem_append.1 hx with hx | hx
        · exact hlt x hx
        · rcases List.mem_cons.1 hx with rfl | hx
          · exact hab
          · exact h.lt_of_lt_of_le hab (hbr x hx)
    · obtain ⟨l₁, l₂, hr, hins, hle, hlt⟩ := ihr hsr
      have hba : cmp b a ≤ 0 := (h.le_iff b a).2 hab
      refine ⟨inorder l ++ b :: l₁, l₂, ?_, ?_, ?_, hlt⟩
      · simp only [inorder, hr, List.append_assoc, List.cons_append]
      · simp only [insert, if_neg hab, inorder, hins, List.append_assoc, List.cons_append]
      · intro x hx
        rcases List.mem_append.1 hx with hx | hx
        · exact h.trans x b a (hlr x hx b List.mem_cons_self) hba
        · rcases List.mem_cons.1 hx with rfl | hx
          · exact hba
          · exact hle x hx

theorem sorted_insert (h : Comparison cmp) (a : α) (hs : Sorted cmp (inorder t)) :
    Sorted cmp (inorder (insert cmp a t)) := by
  obtain ⟨l₁, l₂, ht, hins, hle, hlt⟩ := inorder_insert h a hs
  rw [ht] at hs
  obtain ⟨hs₁, hs₂, h₁₂⟩ := List.pairwise_append.1 hs
  rw [hins]
  refine List.pairwise_append.2 ⟨hs₁, List.pairwise_cons.2 ⟨fun x hx => Int.le_of_lt (hlt x hx), hs₂⟩, ?_⟩
  intro x hx y hy
  rcases List.mem_cons.1 hy with rfl | hy
  · exact hle x hx
  · exact h₁₂ x hx y hy

/-- **A new element comes after its equals.** -/
theorem filter_insert (h : Comparison cmp) (a key : α) (hs : Sorted cmp (inorder t)) :
    (inorder (insert cmp a t)).filter (fun x => cmp key x == 0) =
      (inorder t).filter (fun x => cmp key x == 0) ++ [a].filter (fun x => cmp key x == 0) := by
  obtain ⟨l₁, l₂, ht, hins, -, hlt⟩ := inorder_insert h a hs
  rw [ht, hins, List.filter_append, List.filter_append, List.filter_cons]
  by_cases hka : cmp key a = 0
  · have hnil : l₂.filter (fun x => cmp key x == 0) = [] := by
      refine List.filter_eq_nil_iff.2 fun x hx => ?_
      have := h.lt_of_le_of_lt (Int.le_of_eq hka) (hlt x hx)
      simp only [beq_iff_eq]
      omega
    simp [hka, hnil]
  · simp [hka]

theorem perm_insert (cmp : α → α → ℤ) (a : α) (t : BinaryTree α) :
    (inorder (insert cmp a t)).Perm (a :: inorder t) := by
  induction t with
  | nil => exact List.Perm.refl _
  | node b l r ihl ihr =>
    by_cases hab : cmp a b < 0
    · simp only [insert, if_pos hab, inorder]
      exact ihl.append_right _
    · simp only [insert, if_neg hab, inorder]
      have hr : (inorder l ++ b :: inorder (insert cmp a r)).Perm (inorder l ++ a :: b :: inorder r) :=
        ((ihr.cons b).trans (List.Perm.swap a b _)).append_left _
      exact hr.trans List.perm_middle

/-- **The first of equal elements stays the one that is found.** -/
theorem find_insert (h : Comparison cmp) (key a : α) (t : BinaryTree α) :
    find cmp key (insert cmp a t) = (find cmp key t).or ([a].find? fun x => cmp key x == 0) := by
  induction t with
  | nil =>
    by_cases hka : cmp key a = 0 <;> simp [insert, find, hka]
  | node b l r ihl ihr =>
    by_cases hkb : cmp key b = 0
    · by_cases hab : cmp a b < 0 <;> simp [insert, find, hab, hkb]
    -- the key is on the other side of `b` than `a`, or it is where `a` goes
    · by_cases hab : cmp a b < 0
      · by_cases hlt : cmp key b < 0
        · simpa [insert, find, hab, hkb, hlt] using ihl
        · have hka : cmp key a ≠ 0 := by
            have := h.lt_of_lt_of_le hab ((h.le_iff b key).2 hlt)
            have := (h.swap a key).1 this
            omega
          simp [insert, find, hab, hkb, hlt, hka]
      · by_cases hlt : cmp key b < 0
        · have hka : cmp key a ≠ 0 := by
            have := h.lt_of_lt_of_le hlt ((h.le_iff b a).2 hab)
            omega
          simp [insert, find, hab, hkb, hlt, hka]
        · simpa [insert, find, hab, hkb, hlt] using ihr

variable (as : List α)

theorem ofList_concat (cmp : α → α → ℤ) (as : List α) (a : α) :
    ofList cmp (as ++ [a]) = insert cmp a (ofList cmp as) := by
  simp only [ofList, List.foldl_append, List.foldl_cons, List.foldl_nil]

theorem sorted_ofList (h : Comparison cmp) : Sorted cmp (inorder (ofList cmp as)) := by
  induction as using List.reverseRecOn with
  | nil => exact List.Pairwise.nil
  | append_singleton as a ih =>
    rw [ofList_concat]
    exact sorted_insert h a ih

theorem perm_ofList (cmp : α → α → ℤ) : (inorder (ofList cmp as)).Perm as := by
  induction as using List.reverseRecOn with
  | nil => exact List.Perm.refl _
  | append_singleton as a ih =>
    rw [ofList_concat]
    exact (perm_insert cmp a _).trans ((ih.cons a).trans (List.perm_append_singleton a as).symm)

/-- **Equal elements stay in the order they came in.** -/
theorem filter_ofList (h : Comparison cmp) (key : α) :
    (inorder (ofList cmp as)).filter (fun x => cmp key x == 0) = as.filter fun x => cmp key x == 0 := by
  induction as using List.reverseRecOn with
  | nil => rfl
  | append_singleton as a ih =>
    rw [ofList_concat, filter_insert h a key (sorted_ofList as h), ih, List.filter_append]

/-- **A search finds the element that came first.** -/
theorem find_ofList (h : Comparison cmp) (key : α) :
    find cmp key (ofList cmp as) = as.find? fun x => cmp key x == 0 := by
  induction as using List.reverseRecOn with
  | nil => rfl
  | append_singleton as a ih => rw [ofList_concat, find_insert h, ih, List.find?_append]

end Order

section Links

variable {left right left' right' : α → Option α} {p : Option α}

/-- From `p`, the links lead through the tree. -/
def Linked (left right : α → Option α) : Option α → BinaryTree α → Prop
  | p, .nil => p = none
  | p, .node a l r => p = some a ∧ Linked left right (left a) l ∧ Linked left right (right a) r

/-- The links of other elements do not matter. -/
theorem Linked.congr (h : Linked left right p t)
    (hlinks : ∀ x ∈ inorder t, left' x = left x ∧ right' x = right x) : Linked left' right' p t := by
  induction t generalizing p with
  | nil => exact h
  | node a l r ihl ihr =>
    obtain ⟨hp, hl, hr⟩ := h
    obtain ⟨ha, ha'⟩ := hlinks a (by simp [inorder])
    refine ⟨hp, ?_, ?_⟩
    · rw [ha]
      exact ihl hl fun x hx => hlinks x (by simp [inorder, hx])
    · rw [ha']
      exact ihr hr fun x hx => hlinks x (by simp [inorder, hx])

end Links

end SearchTree
