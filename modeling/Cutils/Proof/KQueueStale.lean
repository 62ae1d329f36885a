import Cutils.Lib.Fifo
import Cutils.Proof.KListLinks
import Cutils.Spec.KQueue

/-!
# What an element's links held before it was inserted

`KLIST_TAIL_APPEND` writes no link when the queue is empty, so whatever the links of that element held is now a
part of the queue, and `kqueue_dequeue` follows it.

Two heaps are compared. `Matching T` says that they agree on the elements `T`, and that no link leads out of `T`: an
element joins `T` when it is inserted, and the queues reach no element that is not in `T`.

* `kqueue_stale_links`: if each element that enters an empty queue has null links at that time, no
  answer depends on the links the elements came with; and the links of a single element that are not null are seen
  by some sequence of operations.
-/

namespace Cutils.KList

variable {α : Type} [DecidableEq α] {m m₁ m₂ : Elems α} {T : Set α} {a : α}

/-- The links of the elements `T` are the same, and lead to elements `T`. -/
structure Matching (T : Set α) (m₁ m₂ : Elems α) : Prop where
  prev : ∀ a ∈ T, m₁.prev a = m₂.prev a
  next : ∀ a ∈ T, m₁.next a = m₂.next a
  prevMem : ∀ a ∈ T, ∀ b, m₁.prev a = some b → b ∈ T
  nextMem : ∀ a ∈ T, ∀ b, m₁.next a = some b → b ∈ T

/-- Both links are null. -/
def Elems.Null (m : Elems α) (a : α) : Prop := m.prev a = none ∧ m.next a = none

omit [DecidableEq α] in
/-- An element with null links joins. -/
theorem Matching.alone (h : Matching T m₁ m₂) (h₁ : m₁.Null a) (h₂ : m₂.Null a) : Matching (insert a T) m₁ m₂ := by
  obtain ⟨hp₁, hn₁⟩ := h₁
  obtain ⟨hp₂, hn₂⟩ := h₂
  refine ⟨?_, ?_, ?_, ?_⟩
  · rintro x (rfl | hx)
    · exact hp₁.trans hp₂.symm
    · exact h.prev x hx
  · rintro x (rfl | hx)
    · exact hn₁.trans hn₂.symm
    · exact h.next x hx
  · rintro x (rfl | hx) b hb
    · rw [hp₁] at hb
      cases hb
    · exact .inr (h.prevMem x hx b hb)
  · rintro x (rfl | hx) b hb
    · rw [hn₁] at hb
      cases hb
    · exact .inr (h.nextMem x hx b hb)

/-- An element joins behind one that is there: its links are overwritten. -/
theorem Matching.behind (h : Matching T m₁ m₂) {t : α} (ht : t ∈ T) :
    Matching (insert a T) (m₁.tailAppend (some t) a).1 (m₂.tailAppend (some t) a).1 := by
  refine ⟨?_, ?_, ?_, ?_⟩
  · intro x hx
    by_cases hxa : x = a
    · simp [Elems.tailAppend, hxa]
    · simp [Elems.tailAppend, hxa, h.prev x (hx.resolve_left hxa)]
  · intro x hx
    by_cases hxa : x = a
    · simp [Elems.tailAppend, hxa]
    · simp only [Elems.tailAppend, Function.update_apply, hxa, if_false, h.next x (hx.resolve_left hxa)]
  · intro x hx b hb
    simp only [Elems.tailAppend, Function.update_apply] at hb
    split at hb
    · cases hb
      exact .inr ht
    · rename_i hxa
      exact .inr (h.prevMem x (hx.resolve_left hxa) b hb)
  · intro x hx b hb
    simp only [Elems.tailAppend, Function.update_apply] at hb
    split at hb
    · cases hb
    · rename_i hxa
      split at hb
      · cases hb
        exact .inl rfl
      · exact .inr (h.nextMem x (hx.resolve_left hxa) b hb)

/-- **An element joins**: its links are overwritten, or were null. -/
theorem Matching.tailAppend (h : Matching T m₁ m₂) {tail : Option α} (htail : ∀ t, tail = some t → t ∈ T)
    (h₁ : tail = none → m₁.Null a) (h₂ : tail = none → m₂.Null a) :
    Matching (insert a T) (m₁.tailAppend tail a).1 (m₂.tailAppend tail a).1 := by
  cases tail with
  | none => exact h.alone (h₁ rfl) (h₂ rfl)
  | some t => exact h.behind (htail t rfl)

/-- An element of both is unlinked. -/
theorem Matching.removeElem (h : Matching T m₁ m₂) (ha : a ∈ T) : Matching T (m₁.removeElem a) (m₂.removeElem a) := by
  refine ⟨?_, ?_, ?_, ?_⟩
  · intro x hx
    rw [removeElem_prev, removeElem_prev, h.prev x hx, h.prev a ha, h.next a ha]
  · intro x hx
    rw [removeElem_next, removeElem_next, h.next x hx, h.prev a ha, h.next a ha]
  · intro x hx b hb
    rw [removeElem_prev] at hb
    split_ifs at hb
    · exact h.prevMem a ha b hb
    · exact h.prevMem x hx b hb
  · intro x hx b hb
    rw [removeElem_next] at hb
    split_ifs at hb
    · exact h.nextMem a ha b hb
    · exact h.nextMem x hx b hb

end Cutils.KList

namespace Cutils.KQueue

open KList

variable {κ α : Type} [DecidableEq κ] [DecidableEq α] {m m₁ m₂ : Elems α} {q : Queue α} {T : Set α}
  {s₁ s₂ : Queues κ α} {a b : α} {x : Option α}

/-- The elements a queue starts and ends with are among `T`. -/
def Queue.Within (T : Set α) (q : Queue α) : Prop := ∀ a, q.pHead = some a ∨ q.pTail = some a → a ∈ T

theorem insert_matching (h : Matching T m₁ m₂) (hq : q.Within T) (h₁ : q.pTail = none → m₁.Null a)
    (h₂ : q.pTail = none → m₂.Null a) :
    (insert m₁ q a).2 = (insert m₂ q a).2 ∧ Matching (Insert.insert a T) (insert m₁ q a).1 (insert m₂ q a).1 ∧
      (insert m₁ q a).2.Within (Insert.insert a T) := by
  -- the new tail is the element, whatever the links were
  have hnew : ∀ m : Elems α, (m.tailAppend q.pTail a).2 = some a := by
    intro m
    unfold Elems.tailAppend
    split <;> rfl
  refine ⟨?_, h.tailAppend (fun t ht => hq t (.inr ht)) h₁ h₂, ?_⟩
  · simp only [insert, hnew]
  · rintro x hx
    simp only [insert, hnew] at hx
    rcases hx with hx | hx
    · split at hx
      · cases hx
        exact .inl rfl
      · exact .inr (hq x (.inl hx))
    · cases hx
      exact .inl rfl

theorem dequeue_matching (h : Matching T m₁ m₂) (hq : q.Within T) :
    (dequeue m₁ q).2 = (dequeue m₂ q).2 ∧ Matching T (dequeue m₁ q).1 (dequeue m₂ q).1 ∧
      (dequeue m₁ q).2.1.Within T := by
  unfold dequeue
  split
  · exact ⟨rfl, h, hq⟩
  · cases hhead : q.pHead with
    | none => exact ⟨rfl, h, hq⟩
    | some item =>
      have hitem : item ∈ T := hq item (.inl hhead)
      refine ⟨?_, h.removeElem hitem, ?_⟩
      · simp only [h.next item hitem]
      · rintro x (hx | hx)
        · exact h.nextMem item hitem x hx
        · dsimp only at hx
          split at hx
          · cases hx
          · exact hq x (.inr hx)

/-- The loop drops the same elements, or needs more rounds, over both heaps. -/
theorem dropAll_matching (fuel : ℕ) (h : Matching T m₁ m₂) (hq : q.Within T) :
    (dropAll fuel m₁ q = none ∧ dropAll fuel m₂ q = none) ∨
      ∃ m₁' m₂' q' calls, dropAll fuel m₁ q = some (m₁', q', calls) ∧ dropAll fuel m₂ q = some (m₂', q', calls) ∧
        Matching T m₁' m₂' ∧ q'.Within T := by
  induction fuel generalizing m₁ m₂ q with
  | zero =>
    unfold dropAll
    split
    · exact .inr ⟨m₁, m₂, q, [], rfl, rfl, h, hq⟩
    · exact .inl ⟨rfl, rfl⟩
  | succ fuel ih =>
    unfold dropAll
    split
    · exact .inr ⟨m₁, m₂, q, [], rfl, rfl, h, hq⟩
    · obtain ⟨hsame, hm, hq'⟩ := dequeue_matching h hq
      rcases ih hm hq' with ⟨h₁, h₂⟩ | ⟨m₁', m₂', q', calls, h₁, h₂, hm', hq''⟩
      · simp only [h₁, ← hsame, h₂, Option.map_none]
        exact .inl ⟨trivial, trivial⟩
      · simp only [h₁, ← hsame, h₂, Option.map_some]
        exact .inr ⟨_, _, _, _, rfl, rfl, hm', hq''⟩

/-- The same queues over two heaps that differ in no element the queues can reach. -/
def Related (s₁ s₂ : Queues κ α) : Prop :=
  s₁.queue = s₂.queue ∧ ∃ T, Matching T s₁.elems s₂.elems ∧ ∀ k, (s₁.queue k).Within T

omit [DecidableEq α] in
theorem Related.put {k : κ} {T T' : Set α} (hqueue : s₁.queue = s₂.queue) (hT : T ⊆ T') (hm : Matching T' m₁ m₂)
    (hwithin : ∀ k, (s₁.queue k).Within T) (hq : q.Within T') : Related (s₁.put k m₁ q) (s₂.put k m₂ q) := by
  refine ⟨?_, T', hm, ?_⟩
  · simp only [Queues.put, hqueue]
  · intro k' x hx
    simp only [Queues.put, Function.update_apply] at hx
    split at hx
    · exact hq x hx
    · exact hT (hwithin k' x hx)

/-- An element that enters an empty queue has null links. -/
def Clean (s : Queues κ α) : Op κ α → Prop
  | .insert k elem => (s.queue k).pTail = none → s.elems.Null elem
  | _ => True

theorem call_related (fuel : ℕ) (s₁ s₂ : Queues κ α) (op : Op κ α) (h : Related s₁ s₂) (h₁ : Clean s₁ op)
    (h₂ : Clean s₂ op) : (s₁.call fuel op = none ∧ s₂.call fuel op = none) ∨
      ∃ s₁' s₂' o, s₁.call fuel op = some (s₁', o) ∧ s₂.call fuel op = some (s₂', o) ∧ Related s₁' s₂' := by
  obtain ⟨hqueue, T, hm, hwithin⟩ := h
  cases op with
  -- the element joins those whose links match
  | insert k elem =>
    have h₂' : (s₁.queue k).pTail = none → s₂.elems.Null elem := by
      rw [hqueue]
      exact h₂
    obtain ⟨hsame, hm', hq⟩ := insert_matching hm (hwithin k) h₁ h₂'
    refine .inr ⟨_, _, _, rfl, rfl, ?_⟩
    rw [← hqueue, ← hsame]
    exact Related.put hqueue (Set.subset_insert elem T) hm' hwithin hq
  | dequeue k =>
    obtain ⟨hsame, hm', hq⟩ := dequeue_matching hm (hwithin k)
    refine .inr ⟨_, _, _, rfl, ?_, Related.put hqueue subset_rfl hm' hwithin hq⟩
    simp only [Queues.call, ← hqueue, hsame]
  | dropAll k =>
    rcases dropAll_matching fuel hm (hwithin k) with ⟨h₁, h₂⟩ | ⟨m₁', m₂', q', calls, h₁, h₂, hm', hq⟩
    · left
      simp only [Queues.call, ← hqueue, h₁, h₂, Option.map_none, and_self]
    · right
      simp only [Queues.call, ← hqueue, h₁, h₂, Option.map_some]
      exact ⟨_, _, _, rfl, rfl, Related.put hqueue subset_rfl hm' hwithin hq⟩
  | registerDropAllCb k cb =>
    refine .inr ⟨_, _, _, rfl, rfl, ?_⟩
    rw [← hqueue]
    exact Related.put hqueue subset_rfl hm hwithin (hwithin k)
  | isEmpty k =>
    refine .inr ⟨_, _, _, rfl, ?_, hqueue, T, hm, hwithin⟩
    rw [hqueue]
    rfl
  | getItemCount k =>
    refine .inr ⟨_, _, _, rfl, ?_, hqueue, T, hm, hwithin⟩
    rw [hqueue]
    rfl

/-- The answers of a sequence of operations on queues that were just initialised. -/
def answers (fuel : ℕ) (m : Elems α) (ops : List (Op κ α)) : Option (List (Obs α)) :=
  (Device.run (Queues.call · fuel) (Queues.init m) ops).map Prod.snd

/-- The heap with the links of one element cleared. -/
def cleared (m : Elems α) (a : α) : Elems α := ⟨Function.update m.prev a none, Function.update m.next a none⟩

section Stale

variable (k : κ)

/-- The `next` of an element that was alone in its queue is the new head. -/
theorem answers_next (y : α) (hx : m.next a = x) : answers 0 m [.insert k a, .dequeue k, .insert k y, .dequeue k] =
    some [.done, .dequeued (some a), .done, .dequeued (some (x.getD y))] := by
  cases x <;> simp [answers, Device.run, Queues.call, Queues.init, Queues.put, insert, dequeue, Queue.isEmpty,
    Queue.init, Elems.tailAppend, removeElem_next, hx]

/-- The `prev` of the first element is written through when that element leaves. -/
theorem answers_prev (hab : b ≠ a) (hx : x = some b ∨ x = none) (hprev : m.prev a = x) :
    answers 0 m [.insert k a, .insert k b, .dequeue k, .dequeue k, .insert k a, .dequeue k] =
      some [.done, .done, .dequeued (some a), .dequeued (some b), .done, .dequeued (some (x.getD a))] := by
  rcases hx with rfl | rfl <;> simp [answers, Device.run, Queues.call, Queues.init, Queues.put, insert, dequeue,
    Queue.isEmpty, Queue.init, Elems.tailAppend, removeElem_next, hprev, hab, hab.symm]

/-- An element that leads back to itself hands this down to the next one. -/
theorem answers_self (hab : b ≠ a) (hx : x = some a ∨ x = none) (hprev : m.prev a = x) :
    answers 0 m [.insert k a, .insert k b, .dequeue k, .insert k a, .dequeue k, .dequeue k, .insert k b, .dequeue k] =
      some [.done, .done, .dequeued (some a), .done, .dequeued (some b), .dequeued (some a), .done,
        .dequeued (some (x.getD b))] := by
  rcases hx with rfl | rfl <;> simp [answers, Device.run, Queues.call, Queues.init, Queues.put, insert, dequeue,
    Queue.isEmpty, Queue.init, Elems.tailAppend, removeElem_next, removeElem_prev, hprev, hab, hab.symm]

end Stale

/-- **Links that are not null show.** -/
theorem stale_shows (k : κ) (hab : b ≠ a) (hstale : ¬ m.Null a) :
    ∃ ops : List (Op κ α), answers 0 m ops ≠ answers 0 (cleared m a) ops := by
  have hprev : (cleared m a).prev a = none := Function.update_self ..
  have hnext : (cleared m a).next a = none := Function.update_self ..
  cases hn : m.next a with
  | some x =>
    -- an element that is not the stale `next`
    obtain ⟨y, hy⟩ : ∃ y, y ≠ x := by
      by_cases hxa : x = a
      · exact ⟨b, hxa ▸ hab⟩
      · exact ⟨a, Ne.symm hxa⟩
    refine ⟨[.insert k a, .dequeue k, .insert k y, .dequeue k], ?_⟩
    rw [answers_next k y hn, answers_next k y hnext]
    simpa using Ne.symm hy
  | none =>
    cases hp : m.prev a with
    | none => exact absurd ⟨hp, hn⟩ hstale
    | some x =>
      by_cases hxa : x = a
      · subst hxa
        refine ⟨[.insert k x, .insert k b, .dequeue k, .insert k x, .dequeue k, .dequeue k, .insert k b, .dequeue k], ?_⟩
        rw [answers_self k hab (.inl rfl) hp, answers_self k hab (.inr rfl) hprev]
        simpa using hab.symm
      · refine ⟨[.insert k a, .insert k x, .dequeue k, .dequeue k, .insert k a, .dequeue k], ?_⟩
        rw [answers_prev k hxa (.inl rfl) hp, answers_prev k hxa (.inr rfl) hprev]
        simpa using hxa

/-- **Stale links.** Over two heaps with any links, for every sequence of operations on queues that were just
initialised in which each element that enters an empty queue has null links at that time: the two runs give the same
answers. No smaller condition will do: a single element whose links are not both null makes some sequence
of operations answer differently from when they are cleared, as long as there is another element. -/
theorem kqueue_stale_links (κ α : Type) [DecidableEq κ] [DecidableEq α] (m₁ m₂ : Elems α) :
    (∀ (ops : List (Op κ α)) (fuel : ℕ), Device.Along (Queues.call · fuel) Clean (Queues.init m₁) ops →
      Device.Along (Queues.call · fuel) Clean (Queues.init m₂) ops → answers fuel m₁ ops = answers fuel m₂ ops) ∧
    ∀ (_ : κ) (a b : α), b ≠ a → ¬ m₁.Null a →
      ∃ ops : List (Op κ α), answers 0 m₁ ops ≠ answers 0 (cleared m₁ a) ops := by
  refine ⟨?_, fun k a b hab hstale => stale_shows k hab hstale⟩
  intro ops fuel h₁ h₂
  have hrelated : Related (Queues.init m₁ : Queues κ α) (Queues.init m₂) := by
    refine ⟨rfl, ∅, ⟨?_, ?_, ?_, ?_⟩, ?_⟩
    · exact fun _ ha => absurd ha (Set.notMem_empty _)
    · exact fun _ ha => absurd ha (Set.notMem_empty _)
    · exact fun _ ha => absurd ha (Set.notMem_empty _)
    · exact fun _ ha => absurd ha (Set.notMem_empty _)
    · rintro k a (ha | ha) <;> cases ha
  exact Device.same_run (call_related fuel) ops _ _ hrelated h₁ h₂

/-- Null links, except that the `next` of element 0 still leads to element 1. -/
def leftover : Elems ℕ := ⟨fun _ => none, fun a => if a = 0 then some 1 else none⟩

/-- Element 0 enters behind element 1, and its links do not matter; alone, they do. -/
theorem kqueue_stale_links_two :
    answers 0 leftover [.insert () 1, .insert () 0, .dequeue (), .dequeue ()] =
      answers 0 ⟨fun _ => none, fun _ => none⟩ [.insert () 1, .insert () 0, .dequeue (), .dequeue ()] ∧
    ∃ ops : List (Op Unit ℕ), answers 0 leftover ops ≠ answers 0 (cleared leftover 0) ops := by
  obtain ⟨hsame, hdiffer⟩ := kqueue_stale_links Unit ℕ leftover ⟨fun _ => none, fun _ => none⟩
  refine ⟨hsame _ 0 ?_ ?_, hdiffer () 0 1 (by decide) ?_⟩
  · simp [Device.Along, Clean, Queues.call, Queues.init, Queues.put, insert, Queue.init, Elems.tailAppend, Elems.Null,
      leftover]
  · simp [Device.Along, Clean, Elems.Null, Queues.call, Queues.init, Queues.put, insert, Queue.init, Elems.tailAppend]
  · simp [Elems.Null, leftover]

/-- Over a heap in which the `next` of element 0 was left set, an element that was never inserted is dequeued. -/
theorem kqueue_stale_head :
    answers 0 leftover [.insert () 0, .dequeue (), .insert () 2, .dequeue ()] =
      some [.done, .dequeued (some 0), .done, .dequeued (some 1)] ∧
    answers 0 ⟨fun _ => none, fun _ => none⟩ [.insert () 0, .dequeue (), .insert () 2, .dequeue ()] =
      some [.done, .dequeued (some 0), .done, .dequeued (some 2)] := by
  decide

end Cutils.KQueue
