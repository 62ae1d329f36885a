import Cutils.Proof.KQueueFifo

/-!
# Dropping a queue up to an element

`throughElem` is how many elements there are from the head up to and with the given one, or all. The loop of
`kqueue_drop_all_through_elem` calls `f_drop` without the test that `kqueue_drop_all` makes.

* `drop_through_elem`: over every well-formed queue the elements are dropped, and the callback is called for each, if
  and only if one is registered or the queue is empty.
-/

namespace Cutils.KQueue

open KList

variable {κ α : Type} [DecidableEq κ] [DecidableEq α] {s : Queues κ α} {t : Fifos κ α} {k : κ} {a : α}
  {l : List α} {elem : Option α} {cb : Callback} {fuel : ℕ}

/-- The elements from the head up to and with `elem`, or all if `elem` is none of them; and the rest. -/
def throughElem (elem : Option α) (l : List α) : List α × List α :=
  l.splitAt (l.findIdx (fun a => decide (elem = some a)) + 1)

theorem throughElem_nil (elem : Option α) : throughElem elem ([] : List α) = ([], []) := rfl

theorem throughElem_cons (elem : Option α) (a : α) (l : List α) : throughElem elem (a :: l) =
    if elem = some a then ([a], l) else (a :: (throughElem elem l).1, (throughElem elem l).2) := by
  simp only [throughElem, List.splitAt_eq, List.findIdx_cons]
  split <;> simp_all

/-- **What the prefix drop is for**, when every dropped element is handed to the callback, if there is one. -/
def DropsThrough (elem : Option α) (s : Queues κ α) (t : Fifos κ α) (k : κ) (fuel : ℕ) : Prop :=
  ∃ m q, dropAllThroughElem elem fuel s.elems (s.queue k) =
      some (some (m, q, (throughElem elem (t.lists k)).1.flatMap fun a => (t.fDrop k).toList.map (·, a))) ∧
    Stands (s.put k m q) (t.set k (throughElem elem (t.lists k)).2)

/-- **A registered callback**: the loop ends after as many rounds as there are elements, and one. -/
theorem Stands.dropsThrough (h : Stands s t) (hcb : t.fDrop k = some cb) (hfuel : (t.lists k).length < fuel) :
    DropsThrough elem s t k fuel := by
  unfold DropsThrough
  induction hl : t.lists k generalizing s t fuel with
  | nil =>
    obtain ⟨fuel, rfl⟩ : ∃ f, fuel = f + 1 := ⟨fuel - 1, by omega⟩
    refine ⟨s.elems, s.queue k, ?_, ?_⟩
    · simp only [dropAllThroughElem, h.dequeue_nil hl]
      rfl
    · rw [throughElem_nil, put_self, set_self hl]
      exact h
  | cons a l ih =>
    rw [hl, List.length_cons] at hfuel
    obtain ⟨fuel, rfl⟩ : ∃ f, fuel = f + 1 := ⟨fuel - 1, by omega⟩
    obtain ⟨m₁, q₁, hdeq, h₁⟩ := h.dequeue hl
    have hdrop : (s.queue k).fDrop = some cb := (h.fDrop k).trans hcb
    rw [throughElem_cons]
    -- the loop ends at the element, and goes on behind any other
    by_cases helem : elem = some a
    · refine ⟨m₁, q₁, ?_, ?_⟩
      · simp only [dropAllThroughElem, hdeq, hdrop, if_pos helem, hcb]
        rfl
      · rw [if_pos helem]
        exact h₁
    · have hl₁ : (t.set k l).lists k = l := Function.update_self ..
      have hfuel₁ : ((t.set k l).lists k).length < fuel := by
        rw [hl₁]
        omega
      have hcb₁ : (t.set k l).fDrop k = some cb := hcb
      obtain ⟨m, q, hrest, hr⟩ := ih h₁ hcb₁ hfuel₁ hl₁
      have hqueue : (s.put k m₁ q₁).queue k = q₁ := Function.update_self ..
      rw [hqueue] at hrest
      rw [put_put, set_set] at hr
      rw [if_neg helem]
      refine ⟨m, q, ?_, hr⟩
      simp only [dropAllThroughElem, hdeq, hdrop, if_neg helem]
      rw [show dropAllThroughElem elem fuel m₁ q₁ = _ from hrest, hcb, hcb₁]
      rfl

/-- **No callback**: the first element is dropped through a null pointer. -/
theorem Stands.dropThrough_fault (h : Stands s t) (hcb : t.fDrop k = none) (hl : t.lists k = a :: l) :
    dropAllThroughElem elem (fuel + 1) s.elems (s.queue k) = some none := by
  obtain ⟨m₁, q₁, hdeq, -⟩ := h.dequeue hl
  have hdrop : (s.queue k).fDrop = none := (h.fDrop k).trans hcb
  simp only [dropAllThroughElem, hdeq, hdrop]

/-- **The prefix drop.** For every well-formed queue and every element, in the queue or not or null: the loop ends, has
removed exactly the elements up to and with the given one (or all), leaves the rest a well-formed queue with the right
count, and has called the registered callback once for each in order, if and only if a callback is registered or the
queue is empty. -/
theorem drop_through_elem (κ α : Type) [DecidableEq κ] [DecidableEq α] (s : Queues κ α) (t : Fifos κ α)
    (h : Stands s t) (k : κ) (elem : Option α) :
    (∃ n, ∀ fuel, n ≤ fuel → DropsThrough elem s t k fuel) ↔ (s.queue k).fDrop ≠ none ∨ (s.queue k).pHead = none := by
  have hhead : (s.queue k).pHead = (t.lists k).head? := h.family.head k
  rw [h.fDrop k, hhead, List.head?_eq_none_iff]
  constructor
  · rintro ⟨n, hn⟩
    by_contra hnot
    rw [not_or, not_not] at hnot
    obtain ⟨hcb, hne⟩ := hnot
    -- however much fuel there is, the first round faults
    obtain ⟨a, l, hl⟩ := List.exists_cons_of_ne_nil hne
    obtain ⟨m, q, hdrop, -⟩ := hn (n + 1) (Nat.le_succ n)
    rw [h.dropThrough_fault hcb hl] at hdrop
    cases hdrop
  · rintro (hcb | hl)
    · obtain ⟨cb, hcb⟩ := Option.ne_none_iff_exists'.1 hcb
      exact ⟨(t.lists k).length + 1, fun fuel hfuel => h.dropsThrough hcb hfuel⟩
    · -- nothing is dropped from an empty queue, so that no callback is called
      refine ⟨1, fun fuel hfuel => ⟨s.elems, s.queue k, ?_, ?_⟩⟩
      · obtain ⟨fuel, rfl⟩ : ∃ f, fuel = f + 1 := ⟨fuel - 1, by omega⟩
        simp only [dropAllThroughElem, h.dequeue_nil hl, hl]
        rfl
      · rw [hl, throughElem_nil, put_self, set_self hl]
        exact h

/-- Through the first element, and through an element that is not there. -/
theorem drop_through_elem_pair :
    (∃ n, ∀ fuel, n ≤ fuel → DropsThrough (some 1) (pair (some 9)) ⟨fun _ => [1, 2], fun _ => some 9⟩ () fuel) ∧
    ∃ n, ∀ fuel, n ≤ fuel → DropsThrough (some 7) (pair (some 9)) ⟨fun _ => [1, 2], fun _ => some 9⟩ () fuel := by
  constructor
  · exact (drop_through_elem Unit ℕ _ _ (pair_stands (some 9)) () (some 1)).2 (.inl (by decide))
  · exact (drop_through_elem Unit ℕ _ _ (pair_stands (some 9)) () (some 7)).2 (.inl (by decide))

/-- A queue with elements and no callback. -/
theorem drop_through_elem_no_callback : Stands (pair none) ⟨fun _ => [1, 2], fun _ => none⟩ ∧
    dropAllThroughElem (some 1) 3 (pair none).elems ((pair none).queue ()) = some none ∧
    (dropAll 3 (pair none).elems ((pair none).queue ())).map (·.2.2) = some [] :=
  ⟨pair_stands none, rfl, rfl⟩

end Cutils.KQueue
