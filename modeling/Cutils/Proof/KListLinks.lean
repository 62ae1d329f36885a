import Cutils.Spec.KList

/-!
# The links of intrusive lists

`Family`: every list of a family is threaded through the links of its elements, and no element is
in two lists. The `prev` of a list's first element is left open (`back`): `KLIST_HEAD_POP` does not
clear it in the new head, and `KLIST_REMOVE_ELEM` believes it.

* `klist_links`: in every run in which no list of two or more elements is popped, the lists are what
  they should be and every first `prev` is null; and a pop of two or more breaks this at once.
* `pop_leaves_prev`: the run that leaves the new head's `prev` set, and what the removal of that head
  does to the popped element then.
-/

namespace Cutils.KList

open Links

variable {α κ : Type} [DecidableEq κ] {m m' : Elems α} {head : κ → Option α} {lists : κ → List α}
  {back : κ → Option α} {k : κ} {a b : α} {l l₁ l₂ : List α}

/-- The lists of a family, threaded through memory. -/
structure Family (m : Elems α) (head : κ → Option α) (lists : κ → List α) (back : κ → Option α) :
    Prop where
  head : ∀ k, head k = (lists k).head?
  fwd : ∀ k, Fwd m.next (lists k)
  bwd : ∀ k, Bwd m.prev (back k) (lists k)
  nodup : ∀ k, (lists k).Nodup
  disjoint : ∀ k k' a, a ∈ lists k → a ∈ lists k' → k = k'

/-- **One list changes.** Its new members were its own or nobody's, and the links of the other
lists' members stay. -/
theorem Family.put (h : Family m head lists back) {p : Option α} (hfwd : Fwd m'.next l)
    (hbwd : Bwd m'.prev p l) (hnodup : l.Nodup) (hmem : ∀ a ∈ l, ∀ k', k' ≠ k → a ∉ lists k')
    (hother : ∀ k', k' ≠ k → ∀ a ∈ lists k', m'.prev a = m.prev a ∧ m'.next a = m.next a) :
    Family m' (Function.update head k l.head?) (Function.update lists k l) (Function.update back k p) := by
  have hlist : ∀ k' ≠ k, Function.update lists k l k' = lists k' := fun k' hk =>
    Function.update_of_ne hk _ _
  refine ⟨?_, ?_, ?_, ?_, ?_⟩
  · intro k'
    by_cases hk : k' = k
    · subst hk; simp
    · rw [Function.update_of_ne hk, hlist k' hk]
      exact h.head k'
  · intro k'
    by_cases hk : k' = k
    · subst hk; simpa using hfwd
    · rw [hlist k' hk]
      exact (h.fwd k').congr fun a ha => (hother k' hk a ha).2
  · intro k'
    by_cases hk : k' = k
    · subst hk; simpa using hbwd
    · rw [hlist k' hk, Function.update_of_ne hk]
      exact (h.bwd k').congr fun a ha => (hother k' hk a ha).1
  · intro k'
    by_cases hk : k' = k
    · subst hk; simpa using hnodup
    · rw [hlist k' hk]
      exact h.nodup k'
  · intro k₁ k₂ a h₁ h₂
    by_cases hk₁ : k₁ = k
    · subst hk₁
      by_contra hne
      rw [hlist k₂ (Ne.symm hne)] at h₂
      rw [Function.update_self] at h₁
      exact hmem a h₁ k₂ (Ne.symm hne) h₂
    · rw [hlist k₁ hk₁] at h₁
      by_cases hk₂ : k₂ = k
      · subst hk₂
        rw [Function.update_self] at h₂
        exact absurd h₁ (hmem a h₂ k₁ hk₁)
      · rw [hlist k₂ hk₂] at h₂
        exact h.disjoint k₁ k₂ a h₁ h₂

omit [DecidableEq κ] in
/-- The links of elements in no list do not matter. -/
theorem Family.congr (h : Family m head lists back)
    (hlinks : ∀ k, ∀ a ∈ lists k, m'.prev a = m.prev a ∧ m'.next a = m.next a) :
    Family m' head lists back := by
  refine ⟨h.head, ?_, ?_, h.nodup, h.disjoint⟩
  · intro k
    exact (h.fwd k).congr fun a ha => (hlinks k a ha).2
  · intro k
    exact (h.bwd k).congr fun a ha => (hlinks k a ha).1

section Macros

variable [DecidableEq α]

/-- Only the links of the new element and of the old head are written. -/
theorem headPrepend_other {h : Option α} {x : α} (hx : x ≠ a) (hh : h ≠ some x) :
    (m.headPrepend h a).1.prev x = m.prev x ∧ (m.headPrepend h a).1.next x = m.next x := by
  unfold Elems.headPrepend
  cases h with
  | none => exact ⟨rfl, rfl⟩
  | some y =>
    have hy : x ≠ y := fun hxy => hh (by rw [hxy])
    simp [Function.update_of_ne hx, Function.update_of_ne hy]

theorem headPrepend_head (m : Elems α) (h : Option α) (a : α) : (m.headPrepend h a).2 = some a := by
  unfold Elems.headPrepend
  split <;> rfl

/-- An element with null links, in no list, is prepended. -/
theorem Family.prepend (h : Family m head lists back) (ha : ∀ k, a ∉ lists k) (hprev : m.prev a = none)
    (hnext : m.next a = none) (k : κ) :
    Family (m.headPrepend (head k) a).1 (Function.update head k (some a))
      (Function.update lists k (a :: lists k)) (Function.update back k none) := by
  have hfirst : head k = (lists k).head? := h.head k
  refine h.put (l := a :: lists k) ?_ ?_ ?_ ?_ ?_
  · -- forwards: the new element leads to the old first one
    cases hl : lists k with
    | nil =>
      rw [hl] at hfirst
      rw [hfirst]
      exact ⟨hnext, trivial⟩
    | cons b l =>
      have hold := h.fwd k
      have hab := ha k
      rw [hl] at hfirst hold hab
      rw [hfirst]
      refine ⟨?_, hold.congr ?_⟩
      · simp [Elems.headPrepend]
      · intro x hx
        have hxa : x ≠ a := fun hxa => hab (hxa ▸ hx)
        simp [Elems.headPrepend, Function.update_of_ne hxa]
  · -- and backwards
    cases hl : lists k with
    | nil =>
      rw [hl] at hfirst
      rw [hfirst]
      exact ⟨hprev, trivial⟩
    | cons b l =>
      have hold := h.bwd k
      have hab := ha k
      have hnd := h.nodup k
      rw [hl] at hfirst hold hab hnd
      rw [hfirst]
      simp only [List.mem_cons, not_or] at hab
      refine ⟨by simp [Elems.headPrepend], ?_, hold.2.congr ?_⟩
      · simp [Elems.headPrepend, Function.update_of_ne (Ne.symm hab.1)]
      · intro x hx
        have hxa : x ≠ a := fun hxa => hab.2 (hxa ▸ hx)
        have hxb : x ≠ b := fun hxb => (List.nodup_cons.1 hnd).1 (hxb ▸ hx)
        simp [Elems.headPrepend, Function.update_of_ne hxa, Function.update_of_ne hxb]
  · exact List.nodup_cons.2 ⟨ha k, h.nodup k⟩
  · -- no other list has its members
    intro x hx k' hk hx'
    rcases List.mem_cons.1 hx with rfl | hx
    · exact ha k' hx'
    · exact hk (h.disjoint k' k x hx' hx)
  · -- nor do their links change
    intro k' hk x hx
    refine headPrepend_other (fun hxa => ha k' (hxa ▸ hx)) ?_
    intro hhead
    have hmem : x ∈ lists k := List.mem_of_head? (hfirst ▸ hhead)
    exact hk (h.disjoint k' k x hx hmem)

/-- The first element is popped; its successor keeps it as its `prev`. -/
theorem Family.pop (h : Family m head lists back) (hl : lists k = a :: l) :
    Family (m.headPop (head k)).1 (Function.update head k (m.headPop (head k)).2.1)
      (Function.update lists k l) (Function.update back k (some a)) := by
  have hfirst : head k = some a := by rw [h.head k, hl]; rfl
  have hfwd := h.fwd k
  have hbwd := h.bwd k
  have hnd := h.nodup k
  rw [hl] at hfwd hbwd hnd
  have hnot : a ∉ l := (List.nodup_cons.1 hnd).1
  rw [hfirst]
  have hnew : (m.headPop (some a)).2.1 = l.head? := hfwd.1
  have hother : ∀ x, x ≠ a → (m.headPop (some a)).1.prev x = m.prev x ∧
      (m.headPop (some a)).1.next x = m.next x := by
    intro x hx
    simp [Elems.headPop, Function.update_of_ne hx]
  have hin : ∀ x ∈ l, x ≠ a := fun x hx hxa => hnot (hxa ▸ hx)
  rw [hnew]
  refine h.put ?_ ?_ (List.nodup_cons.1 hnd).2 ?_ ?_
  · exact hfwd.2.congr fun x hx => (hother x (hin x hx)).2
  · exact hbwd.2.congr fun x hx => (hother x (hin x hx)).1
  · intro x hx k' hk hx'
    exact hk (h.disjoint k' k x hx' (hl ▸ List.mem_cons_of_mem _ hx))
  · intro k' hk x hx
    refine hother x ?_
    rintro rfl
    exact hk (h.disjoint k' k x hx (hl ▸ List.mem_cons_self))

theorem removeElem_prev (m : Elems α) (a x : α) : (m.removeElem a).prev x =
    if x = a then none else if m.next a = some x then m.prev a else m.prev x := by
  have hprev : ((m.unlinkNext a).unlinkPrev a).prev = (m.unlinkNext a).prev := by
    unfold Elems.unlinkPrev
    split <;> rfl
  show Function.update ((m.unlinkNext a).unlinkPrev a).prev a none x = _
  rw [hprev, Function.update_apply]
  unfold Elems.unlinkNext
  cases hn : m.next a with
  | none => simp
  | some n =>
    dsimp only
    rw [Function.update_apply]
    simp only [Option.some.injEq, eq_comm (a := n)]

theorem removeElem_next (m : Elems α) (a x : α) : (m.removeElem a).next x =
    if x = a then none else if m.prev a = some x then m.next a else m.next x := by
  have hnext : (m.unlinkNext a).next = m.next := by
    unfold Elems.unlinkNext
    split <;> rfl
  have hprev : (m.unlinkNext a).prev a = m.prev a := by
    unfold Elems.unlinkNext
    split
    · dsimp only
      rw [Function.update_apply]
      split <;> rfl
    · rfl
  show Function.update ((m.unlinkNext a).unlinkPrev a).next a none x = _
  rw [Function.update_apply]
  unfold Elems.unlinkPrev
  rw [hprev]
  cases hp : m.prev a with
  | none => simp [hnext]
  | some p =>
    dsimp only
    rw [Function.update_apply, hnext]
    simp only [Option.some.injEq, eq_comm (a := p)]

/-- Only the links of the element, and of what its own links lead to, are written. -/
theorem removeElem_other {x : α} (hx : x ≠ a) (hn : m.next a ≠ some x) (hp : m.prev a ≠ some x) :
    (m.removeElem a).prev x = m.prev x ∧ (m.removeElem a).next x = m.next x := by
  rw [removeElem_prev, removeElem_next, if_neg hx, if_neg hx, if_neg hn, if_neg hp]
  exact ⟨rfl, rfl⟩

/-- An element that is not the first is removed, whatever the `prev` of the first. -/
theorem Family.removeElem (h : Family m head lists back) (hl : lists k = l₁ ++ b :: a :: l₂) :
    Family (m.removeElem a) head (Function.update lists k (l₁ ++ b :: l₂)) back := by
  have hfwd := h.fwd k
  have hbwd := h.bwd k
  have hnd := h.nodup k
  rw [hl] at hfwd hbwd hnd
  have hnext : m.next a = l₂.head? := by
    rw [← List.singleton_append, ← List.append_assoc] at hfwd
    exact hfwd.next_eq
  have hprev : m.prev a = some b := hbwd.prev_eq
  have hsub : (l₁ ++ b :: l₂).Sublist (l₁ ++ b :: a :: l₂) :=
    (List.Sublist.refl l₁).append ((List.sublist_cons_self a l₂).cons_cons b)
  have hnda : a ∉ l₁ ++ b :: l₂ := by
    simp only [List.nodup_append, List.nodup_cons, List.mem_cons, not_or] at hnd
    simp only [List.mem_append, List.mem_cons, not_or]
    refine ⟨fun ha => hnd.2.2 a ha a (.inr (.inl rfl)) rfl, ?_, hnd.2.1.2.1⟩
    exact fun hab => hnd.2.1.1.1 hab.symm
  have hndb : b ∉ l₁ ++ l₂ := by
    simp only [List.nodup_append, List.nodup_cons, List.mem_cons, not_or] at hnd
    simp only [List.mem_append, not_or]
    exact ⟨fun hb => hnd.2.2 b hb b (.inl rfl) rfl, hnd.2.1.1.2⟩
  have hhead : Function.update head k (l₁ ++ b :: l₂).head? = head := by
    rw [Function.update_eq_self_iff, h.head k, hl]
    cases l₁ <;> rfl
  have hback : Function.update back k (back k) = back := Function.update_eq_self _ _
  rw [← hhead, ← hback]
  have hin : ∀ x ∈ l₁ ++ b :: l₂, x ≠ a := fun x hx hxa => hnda (hxa ▸ hx)
  refine h.put ?_ ?_ (hnd.sublist hsub) ?_ ?_
  · -- forwards: `b` leads to what `a` led to
    refine hfwd.unlink ?_ ?_
    · rw [removeElem_next, if_neg (hin b (by simp)), if_pos hprev]
    · intro x hx
      have hxb : b ≠ x := fun hbx => hndb (hbx ▸ hx)
      have hxa : x ≠ a := hin x (by simp only [List.mem_append, List.mem_cons] at hx ⊢; tauto)
      rw [removeElem_next, if_neg hxa, if_neg (by rw [hprev]; simpa using hxb)]
  · -- and backwards, from the successor of `a`, if there is one
    rw [List.append_cons l₁ b (a :: l₂)] at hbwd
    rw [List.append_cons l₁ b l₂]
    refine hbwd.unlink ?_ ?_
    · intro c hc
      have hca : c ≠ a := hin c (by simp [List.mem_of_head? hc])
      rw [removeElem_prev, if_neg hca, if_pos (by rw [hnext, hc])]
    · intro x hx
      have hxc : l₂.head? ≠ some x := by
        refine head?_ne_of_nodup ?_ hx
        rw [← List.append_cons]
        exact hnd.sublist hsub
      have hxa : x ≠ a := by
        refine hin x ?_
        rw [List.append_cons]
        exact ((List.Sublist.refl _).append (List.tail_sublist l₂)).subset hx
      rw [removeElem_prev, if_neg hxa, if_neg (by rw [hnext]; exact hxc)]
  · intro x hx k' hk hx'
    exact hk (h.disjoint k' k x hx' (hl ▸ hsub.subset hx))
  · -- the links of other lists' members stay
    intro k' hk x hx
    have hnotin : x ∉ l₁ ++ b :: a :: l₂ := fun hin => hk (h.disjoint k' k x hx (hl ▸ hin))
    refine removeElem_other ?_ ?_ ?_
    · rintro rfl
      exact hnotin (by simp)
    · intro hc
      rw [hnext] at hc
      exact hnotin (by simp [List.mem_of_head? hc])
    · rw [hprev]
      rintro ⟨⟩
      exact hnotin (by simp)

/-- The first element is removed: its null `prev` becomes its successor's. -/
theorem Family.removeHead (h : Family m head lists back) (hl : lists k = a :: l) (hback : back k = none) :
    Family (m.removeElem a) (Function.update head k (m.next a)) (Function.update lists k l) back := by
  have hfwd := h.fwd k
  have hbwd := h.bwd k
  have hnd := h.nodup k
  rw [hl] at hfwd hbwd hnd
  have hprev : m.prev a = none := hbwd.1.trans hback
  obtain ⟨hnot, hnd⟩ := List.nodup_cons.1 hnd
  have hin : ∀ x ∈ l, x ≠ a := fun x hx hxa => hnot (hxa ▸ hx)
  have hnone : ∀ x, m.prev a ≠ some x := by simp [hprev]
  have hsame : Function.update back k (back k) = back := Function.update_eq_self _ _
  rw [hfwd.1, ← hsame]
  refine h.put ?_ ?_ hnd ?_ ?_
  · refine hfwd.2.congr ?_
    intro x hx
    rw [removeElem_next, if_neg (hin x hx), if_neg (hnone x)]
  · refine Bwd.unlink (show Bwd m.prev (back k) ([] ++ a :: l) from hbwd) ?_ ?_
    · intro c hc
      rw [removeElem_prev, if_neg (hin c (List.mem_of_head? hc)), if_pos (hfwd.1.trans hc)]
    · intro x hx
      have hxc : l.head? ≠ some x := head?_ne_of_nodup (show ([] ++ l).Nodup from hnd) hx
      rw [removeElem_prev, if_neg (hin x (List.mem_of_mem_tail hx)), if_neg (by rw [hfwd.1]; exact hxc)]
  · intro x hx k' hk hx'
    exact hk (h.disjoint k' k x hx' (hl ▸ List.mem_cons_of_mem _ hx))
  · intro k' hk x hx
    have hnotin : x ∉ a :: l := fun hin => hk (h.disjoint k' k x hx (hl ▸ hin))
    rw [List.mem_cons, not_or] at hnotin
    refine removeElem_other hnotin.1 ?_ (hnone x)
    intro hc
    exact hnotin.2 (List.mem_of_head? (hfwd.1 ▸ hc))

end Macros

namespace Lists

variable [DecidableEq α] {s : Lists κ α} {op : Op κ α}

/-- **What the lists should be**: the walk from each head visits the list, `next` and `prev` are
inverse along it, and the `prev` of its first element is null. -/
structure Threaded (s : Lists κ α) : Prop where
  walks : ∀ k n, (s.lists k).length ≤ n → walk s.elems.next n (s.head k) = some (s.lists k)
  inverse : ∀ k l₁ a b l₂, s.lists k = l₁ ++ a :: b :: l₂ →
    s.elems.next a = some b ∧ s.elems.prev b = some a
  first : ∀ k a, s.head k = some a → s.elems.prev a = none

/-- **What an operation may change**: no other list, and no link of an element that is in no list,
except the one prepended. -/
structure Confined (s : Lists κ α) (op : Op κ α) : Prop where
  lists : ∀ k, k ≠ op.list → ∀ n, (s.lists k).length ≤ n →
    walk (s.apply op).elems.next n ((s.apply op).head k) = some (s.lists k)
  links : ∀ a, s.Unlisted a → (∀ k, op ≠ .prepend k a) →
    (s.apply op).elems.prev a = s.elems.prev a ∧ (s.apply op).elems.next a = s.elems.next a

/-- **The condition**: no list of two or more elements is popped. -/
def Short (s : Lists κ α) : Op κ α → Prop
  | .pop k => (s.lists k).length < 2
  | .prepend _ _ | .remove _ _ => True

instance (s : Lists κ α) : (op : Op κ α) → Decidable (s.Short op)
  | .pop k => inferInstanceAs (Decidable ((s.lists k).length < 2))
  | .prepend _ _ | .remove _ _ => isTrue trivial

/-- The invariant: the lists are threaded, from null to null, and so are elements in no list. -/
structure Inv (s : Lists κ α) : Prop where
  family : Family s.elems s.head s.lists (fun _ => none)
  null : ∀ a, s.Unlisted a → s.elems.prev a = none ∧ s.elems.next a = none

omit [DecidableEq κ] [DecidableEq α] in
theorem Inv.threaded (h : Inv s) : Threaded s := by
  refine ⟨?_, ?_, ?_⟩
  · intro k n hn
    rw [h.family.head k]
    exact (h.family.fwd k).walk hn
  · intro k l₁ a b l₂ hl
    have hfwd := h.family.fwd k
    have hbwd := h.family.bwd k
    rw [hl] at hfwd hbwd
    exact ⟨hfwd.next_eq, hbwd.prev_eq⟩
  · intro k a ha
    have hbwd := h.family.bwd k
    rw [h.family.head k] at ha
    cases hl : s.lists k with
    | nil => rw [hl] at ha; cases ha
    | cons b l =>
      rw [hl] at ha hbwd
      obtain rfl : b = a := Option.some.inj ha
      exact hbwd.1

omit [DecidableEq κ] [DecidableEq α] in
/-- Elements outside a list are not linked to from it. -/
theorem Inv.not_linked (h : Inv s) {k : κ} {a x : α} (ha : a ∈ s.lists k) (hx : x ∉ s.lists k) :
    s.elems.next a ≠ some x ∧ s.elems.prev a ≠ some x := by
  obtain ⟨l₁, l₂, hl⟩ := List.append_of_mem ha
  have hfwd := h.family.fwd k
  have hbwd := h.family.bwd k
  rw [hl] at hfwd hbwd hx
  constructor
  · intro hc
    rw [hfwd.next_eq] at hc
    exact hx (by simp [List.mem_of_head? hc])
  · intro hc
    rcases List.eq_nil_or_concat l₁ with rfl | ⟨l₁, b, rfl⟩
    · rw [hbwd.1] at hc; cases hc
    · rw [List.concat_eq_append, List.append_assoc, List.singleton_append] at hbwd
      rw [hbwd.prev_eq] at hc
      obtain rfl : b = x := Option.some.inj hc
      exact hx (by simp)

/-- The links of an element in no list stay, except when it is prepended. -/
theorem Inv.links (h : Inv s) (hen : s.Enabled op) {a : α} (ha : s.Unlisted a)
    (hne : ∀ k, op ≠ .prepend k a) :
    (s.apply op).elems.prev a = s.elems.prev a ∧ (s.apply op).elems.next a = s.elems.next a := by
  have hhead : ∀ k, s.head k ≠ some a := by
    intro k hc
    rw [h.family.head k] at hc
    exact ha k (List.mem_of_head? hc)
  cases op with
  | prepend k item =>
    refine headPrepend_other ?_ (hhead k)
    rintro rfl
    exact hne k rfl
  | pop k =>
    show (s.elems.headPop (s.head k)).1.prev a = _ ∧ (s.elems.headPop (s.head k)).1.next a = _
    unfold Elems.headPop
    cases hk : s.head k with
    | none => exact ⟨rfl, rfl⟩
    | some x =>
      have hax : a ≠ x := fun hax => hhead k (hax ▸ hk)
      simp [Function.update_of_ne hax]
  | remove k elem =>
    obtain ⟨hn, hp⟩ := h.not_linked hen (ha k)
    refine removeElem_other ?_ hn hp
    rintro rfl
    exact ha k hen

theorem lists_apply_self (s : Lists κ α) (op : Op κ α) : (s.apply op).lists op.list = match op with
    | .prepend k item => item :: s.lists k
    | .pop k => (s.lists k).tail
    | .remove k elem => (s.lists k).erase elem := by
  cases op with
  | prepend k item => exact Function.update_self ..
  | pop k => exact Function.update_self ..
  | remove k elem => exact Function.update_self ..

theorem lists_apply_of_ne (s : Lists κ α) {k : κ} (hk : k ≠ op.list) :
    (s.apply op).lists k = s.lists k := by
  cases op with
  | prepend _ _ => exact Function.update_of_ne hk ..
  | pop _ => exact Function.update_of_ne hk ..
  | remove _ _ => exact Function.update_of_ne hk ..

/-- An element that leaves its list has null links. -/
theorem Inv.null_of_left (h : Inv s) {a : α} (ha : a ∈ s.lists op.list)
    (hleft : a ∉ (s.apply op).lists op.list) :
    (s.apply op).elems.prev a = none ∧ (s.apply op).elems.next a = none := by
  rw [lists_apply_self] at hleft
  cases op with
  | prepend k item => exact absurd (List.mem_cons_of_mem _ ha) hleft
  | pop k =>
    have hhead := h.family.head k
    change a ∈ s.lists k at ha
    show (s.elems.headPop (s.head k)).1.prev a = none ∧ (s.elems.headPop (s.head k)).1.next a = none
    cases hl : s.lists k with
    | nil => rw [hl] at ha; cases ha
    | cons b l =>
      simp only [hl, List.tail_cons] at hleft
      rw [hl] at ha hhead
      obtain rfl : a = b := (List.mem_cons.1 ha).resolve_right hleft
      rw [hhead]
      simp [Elems.headPop]
  | remove k elem =>
    have hae : a = elem := by
      by_contra hne
      exact hleft ((List.mem_erase_of_ne hne).2 ha)
    show (s.elems.removeElem elem).prev a = none ∧ (s.elems.removeElem elem).next a = none
    rw [removeElem_prev, removeElem_next, if_pos hae, if_pos hae]
    exact ⟨rfl, rfl⟩

/-- Elements in no list keep null links. -/
theorem Inv.null_apply (h : Inv s) (hen : s.Enabled op) {a : α} (ha : (s.apply op).Unlisted a) :
    (s.apply op).elems.prev a = none ∧ (s.apply op).elems.next a = none := by
  have hne : ∀ k, op ≠ .prepend k a := by
    rintro k rfl
    refine ha (Op.list (.prepend k a)) ?_
    rw [lists_apply_self]
    exact List.mem_cons_self
  by_cases hin : a ∈ s.lists op.list
  · exact h.null_of_left hin (ha _)
  · have hun : s.Unlisted a := by
      intro k hk
      by_cases hkl : k = op.list
      · exact hin (hkl ▸ hk)
      · refine ha k ?_
        rwa [lists_apply_of_ne s hkl]
    obtain ⟨hp, hn⟩ := h.links hen hun hne
    rw [hp, hn]
    exact h.null a hun

theorem Inv.apply_family (h : Inv s) (hen : s.Enabled op) (hok : s.Short op) :
    Family (s.apply op).elems (s.apply op).head (s.apply op).lists (fun _ => none) := by
  have hnone : ∀ k : κ, Function.update (fun _ => none) k none = (fun _ => none : κ → Option α) :=
    fun k => Function.update_eq_self k _
  cases op with
  | prepend k item =>
    obtain ⟨hp, hn⟩ := h.null item hen
    have := h.family.prepend hen hp hn k
    rw [hnone] at this
    show Family _ (Function.update s.head k (s.elems.headPrepend (s.head k) item).2) _ _
    rwa [headPrepend_head]
  | pop k =>
    show Family _ _ (Function.update s.lists k (s.lists k).tail) _
    cases hl : s.lists k with
    | nil =>
      have hhead : s.head k = none := by rw [h.family.head k, hl]; rfl
      have hsame : Function.update s.lists k [] = s.lists := by rw [← hl, Function.update_eq_self]
      have hsame' : Function.update s.head k none = s.head := by rw [← hhead, Function.update_eq_self]
      simp only [apply, put, hhead, Elems.headPop, List.tail_nil, hsame, hsame']
      exact h.family
    | cons b l =>
      -- a list of one element, so there is no new head
      obtain rfl : l = [] := by
        have hlen : (s.lists k).length < 2 := hok
        rw [hl, List.length_cons] at hlen
        exact List.length_eq_zero_iff.1 (by omega)
      have := h.family.pop hl
      refine ⟨this.head, this.fwd, ?_, this.nodup, this.disjoint⟩
      intro k'
      by_cases hk : k' = k
      · subst hk
        rw [List.tail_cons, Function.update_self]
        trivial
      · have hb := this.bwd k'
        rwa [Function.update_of_ne hk] at hb
  | remove k elem =>
    obtain ⟨l₁, l₂, hl⟩ := List.append_of_mem hen
    have hnd := h.family.nodup k
    rw [hl] at hnd
    have hnot : elem ∉ l₁ := fun hin => (List.nodup_append.1 hnd).2.2 elem hin elem List.mem_cons_self rfl
    have herase : (s.lists k).erase elem = l₁ ++ l₂ := by
      rw [hl, List.erase_append_right _ hnot, List.erase_cons_head]
    show Family _ (Function.update s.head k (if s.head k = some elem then s.elems.next elem else s.head k))
      (Function.update s.lists k ((s.lists k).erase elem)) _
    rw [herase]
    rcases List.eq_nil_or_concat l₁ with rfl | ⟨l₁, b, rfl⟩
    · have hhead : s.head k = some elem := by rw [h.family.head k, hl]; rfl
      rw [if_pos hhead]
      exact h.family.removeHead hl rfl
    · rw [List.concat_eq_append, List.append_assoc, List.singleton_append] at hl ⊢
      have hhead : s.head k ≠ some elem := by
        intro hc
        rw [h.family.head k, hl, List.append_cons, List.head?_append_of_ne_nil _ (by simp)] at hc
        exact hnot (by simpa using List.mem_of_head? hc)
      rw [if_neg hhead, Function.update_eq_self]
      exact h.family.removeElem hl

theorem Inv.apply (h : Inv s) (hen : s.Enabled op) (hok : s.Short op) : Inv (s.apply op) :=
  ⟨h.apply_family hen hok, fun _ ha => h.null_apply hen ha⟩

theorem Inv.confined (h : Inv s) (hen : s.Enabled op) (hok : s.Short op) : Confined s op := by
  refine ⟨?_, fun a ha hne => h.links hen ha hne⟩
  intro k hk n hn
  have := (h.apply hen hok).threaded.walks k n
  rw [lists_apply_of_ne s hk] at this
  exact this hn

/-- The second of two elements keeps its `prev` when the first is popped. -/
theorem Inv.not_threaded (h : Inv s) (hen : s.Enabled op) (hlong : ¬ s.Short op) :
    ¬ Threaded (s.apply op) := by
  cases op with
  | prepend k item => exact absurd trivial hlong
  | remove k elem => exact absurd trivial hlong
  | pop k =>
    obtain ⟨a, b, l, hl⟩ : ∃ a b l, s.lists k = a :: b :: l := by
      have hlen : ¬ (s.lists k).length < 2 := hlong
      match hl : s.lists k with
      | [] | [_] => rw [hl] at hlen; simp at hlen
      | a :: b :: l => exact ⟨a, b, l, rfl⟩
    intro hth
    have hfwd := h.family.fwd k
    have hbwd := h.family.bwd k
    have hnd := h.family.nodup k
    rw [hl] at hfwd hbwd hnd
    have hhead : s.head k = some a := by rw [h.family.head k, hl]; rfl
    have hba : b ≠ a := fun hba => (List.nodup_cons.1 hnd).1 (hba ▸ List.mem_cons_self)
    have hnew : (s.apply (.pop k)).head k = some b := by
      simp only [Lists.apply, put, hhead, Elems.headPop, Function.update_self]
      exact hfwd.1
    have hprev : (s.apply (.pop k)).elems.prev b = some a := by
      simp only [Lists.apply, put, hhead, Elems.headPop, Function.update_of_ne hba]
      exact hbwd.2.1
    rw [hth.first k b hnew] at hprev
    cases hprev

theorem reach_inv (h : Sys.Reach (system κ α) (fun s op => s.Enabled op ∧ s.Short op) s) : Inv s := by
  refine Sys.Reach.inv (I := Inv) ?_ ?_ h
  · rintro s rfl
    refine ⟨⟨fun _ => rfl, fun _ => trivial, fun _ => trivial, fun _ => List.nodup_nil, ?_⟩,
      fun _ _ => ⟨rfl, rfl⟩⟩
    intro k k' a ha
    cases ha
  · rintro s op s' hinv ⟨hen, hok⟩ hs
    obtain rfl := Option.some.inj hs
    exact hinv.apply hen hok

end Lists

open KList.Lists

/-- **Intrusive lists, exactly when no long list is popped.** For every family of lists and every set
of elements, in every state reached by prepends, removals and pops of lists shorter than two: the
lists are what they should be; and an operation from there leaves them so, and changes nothing
else, if and only if it is not a pop of two or more elements. -/
theorem klist_links (κ α : Type) [DecidableEq κ] [DecidableEq α] (s : Lists κ α)
    (h : Sys.Reach (system κ α) (fun s op => s.Enabled op ∧ s.Short op) s) :
    Threaded s ∧ ∀ op, s.Enabled op → (Threaded (s.apply op) ∧ Confined s op ↔ s.Short op) := by
  have hinv := reach_inv h
  refine ⟨hinv.threaded, ?_⟩
  intro op hen
  constructor
  · rintro ⟨hth, -⟩
    by_contra hlong
    exact hinv.not_threaded hen hlong hth
  · intro hok
    exact ⟨(hinv.apply hen hok).threaded, hinv.confined hen hok⟩

/-- Two lists, of which the first was popped when it had one element, and its element is in the second one now. Removing
the first of the three elements there is safe, and popping it is not. -/
theorem klist_links_two : ∃ s : Lists Bool (Fin 3),
    Sys.Reach (system Bool (Fin 3)) (fun s op => s.Enabled op ∧ s.Short op) s ∧
    s.lists false = [] ∧ s.lists true = [0, 2, 1] ∧ Threaded s ∧
    (Threaded (s.apply (.remove true 0)) ∧ Confined s (.remove true 0)) ∧
    ¬ (Threaded (s.apply (.pop true)) ∧ Confined s (.pop true)) := by
  have hexec : (Sys.exec (system Bool (Fin 3)) (fun s op => s.Enabled op ∧ s.Short op) (empty Bool (Fin 3))
      [.prepend false 0, .prepend true 1, .prepend true 2, .pop false, .prepend true 0]).map
      (fun s => s.lists false == [] && s.lists true == [0, 2, 1]) = some true := by decide
  obtain ⟨s, hr, hs⟩ := (Sys.Reach.init (S := system Bool (Fin 3)) rfl).of_trace hexec
  simp only [Bool.and_eq_true, beq_iff_eq] at hs
  obtain ⟨hfirst, hsecond⟩ := hs
  obtain ⟨hth, hiff⟩ := klist_links Bool (Fin 3) s hr
  refine ⟨s, hr, hfirst, hsecond, hth, (hiff (.remove true 0) ?_).2 trivial, fun hpop => ?_⟩
  · show 0 ∈ s.lists true
    rw [hsecond]
    exact List.mem_cons_self
  · have hshort : (s.lists true).length < 2 := (hiff (.pop true) trivial).1 hpop
    rw [hsecond] at hshort
    exact absurd hshort (by decide)

/-- **A pop leaves the new head's `prev` set**: after two prepends and a pop the lists are not what
they should be. And a removal believes that `prev`: with the popped element prepended to a second
list meanwhile, removing the new head from the first list cuts the second list short. -/
theorem pop_leaves_prev :
    (∃ s : Lists Bool (Fin 3), Sys.Reach (system Bool (Fin 3)) Enabled s ∧ s.head false = some 0 ∧
      s.elems.prev 0 = some 1 ∧ ¬ Threaded s) ∧
    (∃ s : Lists Bool (Fin 3), Sys.Reach (system Bool (Fin 3)) Enabled s ∧ s.lists true = [1, 2] ∧
      walk s.elems.next 3 (s.head true) = some [1] ∧ ¬ Threaded s) := by
  have hpop : (Sys.exec (system Bool (Fin 3)) Enabled (empty Bool (Fin 3))
      [.prepend false 0, .prepend false 1, .pop false]).map
      (fun s => s.head false == some 0 && s.elems.prev 0 == some 1) = some true := by decide
  have hremove : (Sys.exec (system Bool (Fin 3)) Enabled (empty Bool (Fin 3))
      [.prepend false 0, .prepend false 1, .pop false, .prepend true 2, .prepend true 1,
        .remove false 0]).map
      (fun s => s.lists true == [1, 2] && walk s.elems.next 3 (s.head true) == some [1]) =
      some true := by decide
  have hinit : (system Bool (Fin 3)).init (empty Bool (Fin 3)) := rfl
  obtain ⟨s, hr, hs⟩ := (Sys.Reach.init hinit).of_trace hpop
  obtain ⟨s', hr', hs'⟩ := (Sys.Reach.init hinit).of_trace hremove
  simp only [Bool.and_eq_true, beq_iff_eq] at hs hs'
  refine ⟨⟨s, hr, hs.1, hs.2, ?_⟩, ⟨s', hr', hs'.1, hs'.2, ?_⟩⟩
  · intro hth
    have := hth.first false 0 hs.1
    rw [hs.2] at this
    cases this
  · intro hth
    have := hth.walks true 3 (by rw [hs'.1]; decide)
    rw [hs'.1, hs'.2] at this
    cases this

end Cutils.KList
