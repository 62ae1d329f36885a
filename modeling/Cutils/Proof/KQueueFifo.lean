import Cutils.Lib.Fifo
import Cutils.Proof.KListLinks
import Cutils.Spec.KQueue
import Mathlib.Algebra.Group.Nat.Defs

/-!
# An intrusive queue is a FIFO

`fifoCall` is the purpose of each operation on lists. The queues stand for such lists (`Refines`): they are
threaded through the links of their elements (`KList.Family`), and the links of all other elements are as they
were before the first operation.

* `kqueue_fifo`: every sequence of operations that inserts only elements which are in no queue and came
  with null links.
-/

namespace Cutils.KList

open Links

variable {α κ : Type} [DecidableEq κ] [DecidableEq α] {m : Elems α} {head : κ → Option α} {lists : κ → List α}
  {back : κ → Option α} {k : κ} {a x : α}

/-- Only the links of the new element and of the old tail are written. -/
theorem tailAppend_other {t : Option α} (hx : x ≠ a) (ht : t ≠ some x) :
    (m.tailAppend t a).1.prev x = m.prev x ∧ (m.tailAppend t a).1.next x = m.next x := by
  unfold Elems.tailAppend
  cases t with
  | none => exact ⟨rfl, rfl⟩
  | some y =>
    have hy : x ≠ y := fun hxy => ht (by rw [hxy])
    simp [Function.update_of_ne hx, Function.update_of_ne hy]

/-- An element with null links, in no list, is appended. -/
theorem Family.append (h : Family m head lists back) (ha : ∀ k, a ∉ lists k) (hprev : m.prev a = none)
    (hnext : m.next a = none) (hback : back k = none) :
    Family (m.tailAppend (lists k).getLast? a).1 (Function.update head k (lists k ++ [a]).head?)
      (Function.update lists k (lists k ++ [a])) back := by
  have hsame : Function.update back k none = back := by
    rw [← hback]
    exact Function.update_eq_self _ _
  rw [← hsame]
  refine h.put ?_ ?_ ?_ ?_ ?_
  · -- forwards: the old last element leads to the new one
    rcases List.eq_nil_or_concat (lists k) with hl | ⟨l, t, hl⟩
    · rw [hl]
      exact ⟨hnext, trivial⟩
    · have hfwd := h.fwd k
      have hnd := h.nodup k
      have hat := ha k
      rw [hl] at hfwd hnd hat ⊢
      rw [List.concat_eq_append] at *
      have hta : t ≠ a := by
        rintro rfl
        exact hat (by simp)
      have htl : t ∉ l := by
        intro ht
        exact (List.nodup_append.1 hnd).2.2 t ht t (by simp) rfl
      rw [List.getLast?_append, List.append_assoc]
      refine hfwd.concat ?_ ?_ ?_
      · simp [Elems.tailAppend, Function.update_of_ne hta]
      · simp [Elems.tailAppend]
      · intro x hx
        have hxt : x ≠ t := fun hxt => htl (hxt ▸ hx)
        have hxa : x ≠ a := fun hxa => hat (by rw [← hxa]; simp [hx])
        simp [Elems.tailAppend, Function.update_of_ne hxt, Function.update_of_ne hxa]
  · -- and backwards
    rcases List.eq_nil_or_concat (lists k) with hl | ⟨l, t, hl⟩
    · rw [hl]
      exact ⟨hprev, trivial⟩
    · have hbwd := h.bwd k
      have hat := ha k
      rw [hl, hback] at hbwd
      rw [hl] at hat ⊢
      rw [List.concat_eq_append] at *
      rw [List.getLast?_append, List.append_assoc]
      refine hbwd.concat ?_ ?_
      · simp [Elems.tailAppend]
      · intro x hx
        have hxa : x ≠ a := fun hxa => hat (hxa ▸ hx)
        simp [Elems.tailAppend, Function.update_of_ne hxa]
  · refine List.nodup_append.2 ⟨h.nodup k, List.nodup_singleton a, ?_⟩
    rintro x hx y hy rfl
    rw [List.mem_singleton.1 hy] at hx
    exact ha k hx
  · -- no other list has its members
    intro x hx k' hk hx'
    rcases List.mem_append.1 hx with hx | hx
    · exact hk (h.disjoint k' k x hx' hx)
    · rw [List.mem_singleton.1 hx] at hx'
      exact ha k' hx'
  · -- nor do their links change
    intro k' hk x hx
    refine tailAppend_other (fun hxa => ha k' (hxa ▸ hx)) ?_
    intro hlast
    exact hk (h.disjoint k' k x hx (List.mem_of_getLast? hlast))

end Cutils.KList

namespace Cutils.KQueue

open KList

variable {κ α : Type} [DecidableEq κ] [DecidableEq α]

/-- Lists, and the drop callbacks that are registered. -/
structure Fifos (κ α : Type) where
  lists : κ → List α
  fDrop : κ → Option Callback

namespace Fifos

def empty (κ α : Type) : Fifos κ α := ⟨fun _ => [], fun _ => none⟩

variable (t : Fifos κ α)

def set (k : κ) (l : List α) : Fifos κ α := { t with lists := Function.update t.lists k l }

/-- **What the queues are for.** -/
def call : Op κ α → Fifos κ α × Obs α
  | .insert k elem => (t.set k (t.lists k ++ [elem]), .done)
  | .dequeue k => (t.set k (t.lists k).tail, .dequeued (t.lists k).head?)
  | .dropAll k => (t.set k [], .dropped ((t.lists k).flatMap fun a => (t.fDrop k).toList.map (·, some a)))
  | .registerDropAllCb k cb => ({ t with fDrop := Function.update t.fDrop k cb }, .done)
  | .isEmpty k => (t, .empty (t.lists k).isEmpty)
  | .getItemCount k => (t, .count (.ofNat (t.lists k).length))

/-- **What a client may do**: insert an element that is in no queue, and had null links to begin with. -/
def Ok (m₀ : Elems α) (t : Fifos κ α) : Op κ α → Prop
  | .insert _ elem => (∀ k, elem ∉ t.lists k) ∧ m₀.prev elem = none ∧ m₀.next elem = none
  | _ => True

end Fifos

/-- The queues stand for the lists `t`; elements in no queue have the links `m₀`. -/
structure Refines (m₀ : Elems α) (s : Queues κ α) (t : Fifos κ α) : Prop where
  family : Family s.elems (fun k => (s.queue k).pHead) t.lists (fun _ => none)
  tail : ∀ k, (s.queue k).pTail = (t.lists k).getLast?
  fDrop : ∀ k, (s.queue k).fDrop = t.fDrop k
  count : ∀ k, (s.queue k).itemCount = .ofNat (t.lists k).length
  outside : ∀ a, (∀ k, a ∉ t.lists k) → s.elems.prev a = m₀.prev a ∧ s.elems.next a = m₀.next a
  null : ∀ k, ∀ a ∈ t.lists k, m₀.prev a = none ∧ m₀.next a = none

variable {m₀ : Elems α} {s : Queues κ α} {t : Fifos κ α} {k : κ} {a : α} {l : List α}

omit [DecidableEq α] in
/-- One queue has changed. -/
theorem Refines.put (h : Refines m₀ s t) {m : Elems α} {q : Queue α} (hhead : q.pHead = l.head?)
    (hfamily : Family m (Function.update (fun k => (s.queue k).pHead) k l.head?) (Function.update t.lists k l) fun _ => none)
    (htail : q.pTail = l.getLast?) (hdrop : q.fDrop = (s.queue k).fDrop) (hcount : q.itemCount = .ofNat l.length)
    (houtside : ∀ a, (∀ k', a ∉ (t.set k l).lists k') → m.prev a = m₀.prev a ∧ m.next a = m₀.next a)
    (hnull : ∀ a ∈ l, m₀.prev a = none ∧ m₀.next a = none) : Refines m₀ (s.put k m q) (t.set k l) := by
  have hheads : (fun k' => ((s.put k m q).queue k').pHead) = Function.update (fun k => (s.queue k).pHead) k l.head? := by
    funext k'
    simp only [Queues.put, Function.update_apply]
    split
    · exact hhead
    · rfl
  refine ⟨?_, ?_, ?_, ?_, houtside, ?_⟩
  · rw [hheads]
    exact hfamily
  · intro k'
    simp only [Queues.put, Fifos.set, Function.update_apply]
    split
    · exact htail
    · exact h.tail k'
  · intro k'
    simp only [Queues.put, Fifos.set, Function.update_apply]
    split
    · rename_i hk
      rw [hdrop, hk]
      exact h.fDrop k
    · exact h.fDrop k'
  · intro k'
    simp only [Queues.put, Fifos.set, Function.update_apply]
    split
    · exact hcount
    · exact h.count k'
  · intro k' x hx
    simp only [Fifos.set, Function.update_apply] at hx
    split at hx
    · exact hnull x hx
    · exact h.null k' x hx

/-- **An insert** appends the element. -/
theorem Refines.insert (h : Refines m₀ s t) (hok : Fifos.Ok m₀ t (.insert k a)) :
    Refines m₀ (s.put k (KQueue.insert s.elems (s.queue k) a).1 (KQueue.insert s.elems (s.queue k) a).2)
      (t.set k (t.lists k ++ [a])) := by
  obtain ⟨hout, hprev, hnext⟩ := hok
  have hlinks := h.outside a hout
  have hfamily := h.family.append hout (hlinks.1.trans hprev) (hlinks.2.trans hnext) (k := k) rfl
  have hnew : (s.elems.tailAppend (s.queue k).pTail a).2 = some a := by
    unfold Elems.tailAppend
    split <;> rfl
  rw [← h.tail k] at hfamily
  refine h.put ?_ hfamily ?_ rfl ?_ ?_ ?_
  · have hhead : (s.queue k).pHead = (t.lists k).head? := h.family.head k
    simp only [KQueue.insert, hnew, hhead]
    cases t.lists k <;> rfl
  · simp only [KQueue.insert, hnew, List.getLast?_append]
    rfl
  · simp only [KQueue.insert, h.count k, List.length_append, List.length_singleton]
    exact (UInt32.ofNat_add _ _).symm
  · intro x hx
    have hxa : x ≠ a := by
      rintro rfl
      exact hx k (by simp [Fifos.set])
    have hxk : ∀ k', x ∉ t.lists k' := by
      intro k' hx'
      refine hx k' ?_
      simp only [Fifos.set, Function.update_apply]
      split
      · rename_i hk
        subst hk
        exact List.mem_append_left _ hx'
      · exact hx'
    have hlast : (s.queue k).pTail ≠ some x := by
      rw [h.tail k]
      intro hlast
      exact hxk k (List.mem_of_getLast? hlast)
    obtain ⟨h1, h2⟩ := tailAppend_other (m := s.elems) hxa hlast
    exact ⟨h1.trans (h.outside x hxk).1, h2.trans (h.outside x hxk).2⟩
  · intro x hx
    rcases List.mem_append.1 hx with hx | hx
    · exact h.null k x hx
    · rw [List.mem_singleton.1 hx]
      exact ⟨hprev, hnext⟩

omit [DecidableEq κ] [DecidableEq α] in
theorem Refines.isEmpty (h : Refines m₀ s t) (k : κ) : (s.queue k).isEmpty = (t.lists k).isEmpty := by
  have hhead : (s.queue k).pHead = (t.lists k).head? := h.family.head k
  unfold Queue.isEmpty
  rw [hhead, h.tail k]
  cases t.lists k <;> simp

/-- **A dequeue** takes the first element, and leaves its links null. -/
theorem Refines.dequeue (h : Refines m₀ s t) (hl : t.lists k = a :: l) :
    ∃ m q, KQueue.dequeue s.elems (s.queue k) = (m, q, some a) ∧ m.prev a = none ∧ m.next a = none ∧
      Refines m₀ (s.put k m q) (t.set k l) := by
  have hhead : (s.queue k).pHead = some a := by
    rw [show (s.queue k).pHead = (t.lists k).head? from h.family.head k, hl]
    rfl
  have hfwd := h.family.fwd k
  have hbwd := h.family.bwd k
  have hnd := h.family.nodup k
  have htail := h.tail k
  have hcount := h.count k
  rw [hl] at hfwd hbwd hnd htail hcount
  obtain ⟨hnot, -⟩ := List.nodup_cons.1 hnd
  have hempty : (s.queue k).isEmpty = false := by
    rw [h.isEmpty k, hl]
    rfl
  -- the tail is the head exactly when there is no other element
  have hnewTail : (if (s.queue k).pHead = (s.queue k).pTail then none else (s.queue k).pTail) = l.getLast? := by
    rw [hhead, htail]
    cases l with
    | nil => exact if_pos rfl
    | cons b l =>
      rw [List.getLast?_cons_cons, if_neg]
      intro heq
      exact hnot (List.mem_of_getLast? heq.symm)
  have hdeq : KQueue.dequeue s.elems (s.queue k) = (s.elems.removeElem a, { s.queue k with
      pTail := l.getLast?
      pHead := s.elems.next a
      itemCount := (s.queue k).itemCount - 1 }, some a) := by
    unfold KQueue.dequeue
    rw [hempty]
    simp only [Bool.false_eq_true, if_false, hnewTail]
    rw [hhead]
  refine ⟨_, _, hdeq, ?_, ?_, ?_⟩
  · rw [removeElem_prev, if_pos rfl]
  · rw [removeElem_next, if_pos rfl]
  have hnull : ∀ x ∈ a :: l, m₀.prev x = none ∧ m₀.next x = none := by
    rw [← hl]
    exact h.null k
  have hfamily := h.family.removeHead hl rfl
  rw [hfwd.1] at hfamily
  refine h.put hfwd.1 hfamily rfl rfl ?_ ?_ fun x hx => hnull x (List.mem_cons_of_mem _ hx)
  · show (s.queue k).itemCount - 1 = _
    rw [hcount, List.length_cons]
    simp
  · intro x hx
    have hxl : x ∉ l := by
      have := hx k
      simpa [Fifos.set] using this
    by_cases hxa : x = a
    · subst hxa
      rw [removeElem_prev, removeElem_next, if_pos rfl, if_pos rfl]
      obtain ⟨h1, h2⟩ := hnull x List.mem_cons_self
      exact ⟨h1.symm, h2.symm⟩
    · have hxk : ∀ k', x ∉ t.lists k' := by
        intro k' hx'
        by_cases hk : k' = k
        · subst hk
          rw [hl, List.mem_cons] at hx'
          exact hx'.elim hxa hxl
        · refine hx k' ?_
          simp only [Fifos.set]
          rwa [Function.update_of_ne hk]
      have hne : s.elems.next a ≠ some x := by
        rw [hfwd.1]
        intro heq
        exact hxl (List.mem_of_head? heq)
      have hnp : s.elems.prev a ≠ some x := by
        rw [hbwd.1]
        nofun
      obtain ⟨h1, h2⟩ := removeElem_other (m := s.elems) hxa hne hnp
      exact ⟨h1.trans (h.outside x hxk).1, h2.trans (h.outside x hxk).2⟩

/-- The queues stand for the lists `t`, and nothing is said of the elements in no queue: every queue is well-formed. -/
structure Stands (s : Queues κ α) (t : Fifos κ α) : Prop where
  family : Family s.elems (fun k => (s.queue k).pHead) t.lists (fun _ => none)
  tail : ∀ k, (s.queue k).pTail = (t.lists k).getLast?
  fDrop : ∀ k, (s.queue k).fDrop = t.fDrop k
  count : ∀ k, (s.queue k).itemCount = .ofNat (t.lists k).length

omit [DecidableEq κ] [DecidableEq α] in
theorem Refines.stands (h : Refines m₀ s t) : Stands s t := ⟨h.family, h.tail, h.fDrop, h.count⟩

open Classical in
omit [DecidableEq κ] [DecidableEq α] in
/-- The elements in no queue have some links, and those in a queue may as well have come with null links. -/
theorem Stands.refines (h : Stands s t) : ∃ m₀, Refines m₀ s t := by
  refine ⟨⟨fun a => if ∃ k, a ∈ t.lists k then none else s.elems.prev a,
    fun a => if ∃ k, a ∈ t.lists k then none else s.elems.next a⟩, h.family, h.tail, h.fDrop, h.count, ?_, ?_⟩
  · intro a ha
    have hnone : ¬ ∃ k, a ∈ t.lists k := fun ⟨k, hk⟩ => ha k hk
    exact ⟨(if_neg hnone).symm, (if_neg hnone).symm⟩
  · intro k a ha
    exact ⟨if_pos ⟨k, ha⟩, if_pos ⟨k, ha⟩⟩

omit [DecidableEq κ] [DecidableEq α] in
theorem Stands.isEmpty (h : Stands s t) (k : κ) : (s.queue k).isEmpty = (t.lists k).isEmpty := by
  obtain ⟨m₀, hr⟩ := h.refines
  exact hr.isEmpty k

theorem Stands.dequeue (h : Stands s t) (hl : t.lists k = a :: l) :
    ∃ m q, KQueue.dequeue s.elems (s.queue k) = (m, q, some a) ∧ Stands (s.put k m q) (t.set k l) := by
  obtain ⟨m₀, hr⟩ := h.refines
  obtain ⟨m, q, hdeq, -, -, hr'⟩ := hr.dequeue hl
  exact ⟨m, q, hdeq, hr'.stands⟩

omit [DecidableEq κ] in
theorem Stands.dequeue_nil (h : Stands s t) (hl : t.lists k = []) :
    KQueue.dequeue s.elems (s.queue k) = (s.elems, s.queue k, none) := by
  have hempty : (s.queue k).isEmpty = true := by
    rw [h.isEmpty k, hl]
    rfl
  unfold KQueue.dequeue
  rw [hempty]
  rfl

omit [DecidableEq α] in
theorem put_put (k : κ) (m m' : Elems α) (q q' : Queue α) : (s.put k m q).put k m' q' = s.put k m' q' := by
  simp only [Queues.put, Function.update_idem]

omit [DecidableEq α] in
theorem set_set (k : κ) (l l' : List α) : (t.set k l).set k l' = t.set k l' := by
  simp only [Fifos.set, Function.update_idem]

omit [DecidableEq α] in
theorem put_self (k : κ) : s.put k s.elems (s.queue k) = s := by
  simp only [Queues.put, Function.update_eq_self]

omit [DecidableEq α] in
theorem set_self (hl : t.lists k = l) : t.set k l = t := by
  simp only [Fifos.set, ← hl, Function.update_eq_self]

/-- **A drop of all elements** ends, and calls the callback for each of them in order. -/
theorem Refines.dropAll (h : Refines m₀ s t) {fuel : ℕ} (hfuel : (t.lists k).length ≤ fuel) :
    ∃ m q, KQueue.dropAll fuel s.elems (s.queue k) =
        some (m, q, (t.lists k).flatMap fun a => (t.fDrop k).toList.map (·, some a)) ∧
      Refines m₀ (s.put k m q) (t.set k []) := by
  induction hl : t.lists k generalizing s t fuel with
  | nil =>
    have hempty : (s.queue k).isEmpty = true := by
      rw [h.isEmpty k, hl]
      rfl
    refine ⟨s.elems, s.queue k, ?_, ?_⟩
    · cases fuel <;> simp only [KQueue.dropAll, hempty, if_true] <;> rfl
    · rw [put_self, set_self hl]
      exact h
  | cons a l ih =>
    rw [hl, List.length_cons] at hfuel
    obtain ⟨fuel, rfl⟩ : ∃ f, fuel = f + 1 := ⟨fuel - 1, by omega⟩
    have hempty : (s.queue k).isEmpty = false := by
      rw [h.isEmpty k, hl]
      rfl
    obtain ⟨m₁, q₁, hdeq, -, -, h₁⟩ := h.dequeue hl
    have hl₁ : (t.set k l).lists k = l := Function.update_self ..
    have hfuel₁ : ((t.set k l).lists k).length ≤ fuel := by
      rw [hl₁]
      omega
    obtain ⟨m, q, hrest, hr⟩ := ih h₁ hfuel₁ hl₁
    have hqueue : (s.put k m₁ q₁).queue k = q₁ := Function.update_self ..
    rw [hqueue] at hrest
    rw [put_put, set_set] at hr
    refine ⟨m, q, ?_, hr⟩
    simp only [KQueue.dropAll, hempty, Bool.false_eq_true, if_false, hdeq]
    rw [show KQueue.dropAll fuel m₁ q₁ = _ from hrest, Option.map_some, h.fDrop k, List.flatMap_cons]
    rfl

omit [DecidableEq α] in
/-- A new callback for one queue. -/
theorem Refines.registerDropAllCb (h : Refines m₀ s t) (cb : Option Callback) :
    Refines m₀ (s.put k s.elems { s.queue k with fDrop := cb }) { t with fDrop := Function.update t.fDrop k cb } := by
  have hheads : (fun k' => ((s.put k s.elems { s.queue k with fDrop := cb }).queue k').pHead) =
      fun k => (s.queue k).pHead := by
    funext k'
    simp only [Queues.put, Function.update_apply]
    split
    · rename_i hk
      rw [hk]
    · rfl
  refine ⟨?_, ?_, ?_, ?_, h.outside, h.null⟩
  · rw [hheads]
    exact h.family
  · intro k'
    simp only [Queues.put, Function.update_apply]
    split
    · rename_i hk
      rw [hk]
      exact h.tail k
    · exact h.tail k'
  · intro k'
    simp only [Queues.put, Function.update_apply]
    split
    · rfl
    · exact h.fDrop k'
  · intro k'
    simp only [Queues.put, Function.update_apply]
    split
    · rename_i hk
      rw [hk]
      exact h.count k
    · exact h.count k'

/-- **One call** answers as the lists do, given rounds for as many elements as there may be. -/
theorem call_refines (fuel n : ℕ) (s : Queues κ α) (t : Fifos κ α) (op : Op κ α)
    (h : Refines m₀ s t ∧ ∀ k, (t.lists k).length + (n + 1) ≤ fuel) (hok : Fifos.Ok m₀ t op) :
    ∃ s', s.call fuel op = some (s', (t.call op).2) ∧ Refines m₀ s' (t.call op).1 ∧
      ∀ k, ((t.call op).1.lists k).length + n ≤ fuel := by
  obtain ⟨h, hfuel⟩ := h
  have hset : ∀ {k : κ} {l : List α}, l.length ≤ (t.lists k).length + 1 → ∀ k', ((t.set k l).lists k').length + n ≤ fuel := by
    intro k l hle k'
    simp only [Fifos.set, Function.update_apply]
    split
    · have := hfuel k
      omega
    · have := hfuel k'
      omega
  have hsame : ∀ k, (t.lists k).length + n ≤ fuel := by
    intro k
    have := hfuel k
    omega
  cases op with
  | insert k a =>
    refine ⟨_, rfl, h.insert hok, hset ?_⟩
    rw [List.length_append, List.length_singleton]
  | dequeue k =>
    cases hl : t.lists k with
    | nil =>
      have hdeq := h.stands.dequeue_nil hl
      simp only [Queues.call, Fifos.call, hdeq, hl, List.head?_nil, List.tail_nil, put_self, set_self hl]
      exact ⟨s, rfl, h, hsame⟩
    | cons a l =>
      obtain ⟨m, q, hdeq, -, -, hr⟩ := h.dequeue hl
      simp only [Queues.call, Fifos.call, hdeq, hl, List.head?_cons, List.tail_cons]
      refine ⟨_, rfl, hr, hset ?_⟩
      rw [hl, List.length_cons]
      omega
  | dropAll k =>
    have hlen : (t.lists k).length ≤ fuel := by
      have := hfuel k
      omega
    obtain ⟨m, q, hdrop, hr⟩ := h.dropAll hlen
    exact ⟨_, by simp only [Queues.call, Fifos.call, hdrop, Option.map_some], hr, hset (Nat.zero_le _)⟩
  | registerDropAllCb k cb =>
    exact ⟨_, rfl, h.registerDropAllCb cb, hsame⟩
  | isEmpty k => exact ⟨s, by simp only [Queues.call, Fifos.call, h.isEmpty k], h, hsame⟩
  | getItemCount k => exact ⟨s, by simp only [Queues.call, Fifos.call, h.count k], h, hsame⟩

omit [DecidableEq κ] [DecidableEq α] in
/-- The queues stand for empty lists once they are initialised. -/
theorem init_refines (m₀ : Elems α) : Refines m₀ (Queues.init m₀ : Queues κ α) (.empty κ α) :=
  ⟨⟨fun _ => rfl, fun _ => trivial, fun _ => trivial, fun _ => List.nodup_nil, fun _ _ _ h => by cases h⟩, fun _ => rfl,
    fun _ => rfl, fun _ => rfl, fun _ _ => ⟨rfl, rfl⟩, fun _ _ h => by cases h⟩

/-- **Intrusive queues are FIFO lists.** Over elements with any links, for every sequence of operations in which an
element is inserted only while it is in no queue and only if its links were null to begin with: every answer is
that of the lists, counts as 32-bit numbers, and a drop of all elements ends (as many rounds are
enough as there are operations). At the end the queues stand for the lists, and the next dequeue gives the first
element, with its links null again, so that it may be inserted anywhere. -/
theorem kqueue_fifo (κ α : Type) [DecidableEq κ] [DecidableEq α] (m₀ : Elems α) (ops : List (Op κ α))
    (hok : Device.Allowed Fifos.call (Fifos.Ok m₀) (.empty κ α) ops) (fuel : ℕ) (hfuel : ops.length ≤ fuel) :
    let spec := Device.runSpec Fifos.call (.empty κ α) ops
    ∃ s, Device.run (Queues.call · fuel) (Queues.init m₀) ops = some (s, spec.2) ∧ Refines m₀ s spec.1 ∧
      (∀ k, (spec.1.lists k).length < 2 ^ 32 → (s.queue k).itemCount.toNat = (spec.1.lists k).length) ∧
      ∀ k a l, spec.1.lists k = a :: l → ∃ m q, dequeue s.elems (s.queue k) = (m, q, some a) ∧
        m.prev a = none ∧ m.next a = none ∧ Refines m₀ (s.put k m q) (spec.1.set k l) ∧
        ∀ k', Fifos.Ok m₀ (spec.1.set k l) (.insert k' a) := by
  intro spec
  obtain ⟨s, hrun, hr, -⟩ := Device.refines_allowed
    (R := fun n s t => Refines m₀ s t ∧ ∀ k, (t.lists k).length + n ≤ fuel) (call_refines fuel) ops (Queues.init m₀)
    (.empty κ α) ⟨init_refines m₀, fun _ => by simpa [Fifos.empty] using hfuel⟩ hok
  refine ⟨s, hrun, hr, ?_, ?_⟩
  · intro k hlt
    rw [hr.count k]
    exact UInt32.toNat_ofNat_of_lt' hlt
  · intro k a l hl
    obtain ⟨m, q, hdeq, hprev, hnext, hr'⟩ := hr.dequeue hl
    refine ⟨m, q, hdeq, hprev, hnext, hr', fun k' => ⟨?_, hr.null k a (by rw [hl]; exact List.mem_cons_self)⟩⟩
    intro k₁ ha
    have hnd := hr.family.nodup k
    rw [hl] at hnd
    simp only [Fifos.set, Function.update_apply] at ha
    split at ha
    · exact (List.nodup_cons.1 hnd).1 ha
    · rename_i hk
      exact hk (hr.family.disjoint k₁ k a ha (by rw [hl]; exact List.mem_cons_self))

/-- Two queues: an element goes from one to the other. -/
theorem kqueue_fifo_two : ∃ s : Queues Bool ℕ, Device.run (Queues.call · 8) (Queues.init ⟨fun _ => none, fun _ => none⟩)
    [.insert true 1, .insert true 2, .dequeue true, .insert false 1, .registerDropAllCb true (some 9), .insert true 3,
      .dropAll true, .getItemCount false] =
    some (s, [.done, .done, .dequeued (some 1), .done, .done, .done, .dropped [(9, some 2), (9, some 3)], .count 1]) := by
  obtain ⟨s, h, -⟩ := kqueue_fifo Bool ℕ ⟨fun _ => none, fun _ => none⟩
    [.insert true 1, .insert true 2, .dequeue true, .insert false 1, .registerDropAllCb true (some 9), .insert true 3,
      .dropAll true, .getItemCount false]
    ⟨⟨by decide, rfl, rfl⟩, ⟨by decide, rfl, rfl⟩, trivial, ⟨by decide, rfl, rfl⟩, trivial, ⟨by decide, rfl, rfl⟩,
      trivial, trivial, trivial⟩ 8 (by decide)
  exact ⟨s, h⟩

/-- One queue with the elements 1 and 2, and the callback it was given. -/
def pair (cb : Option Callback) : Queues Unit ℕ :=
  let s : Queues Unit ℕ := Queues.init ⟨fun _ => none, fun _ => none⟩
  let s := s.put () (insert s.elems (s.queue ()) 1).1 (insert s.elems (s.queue ()) 1).2
  let s := s.put () (insert s.elems (s.queue ()) 2).1 (insert s.elems (s.queue ()) 2).2
  s.put () s.elems { s.queue () with fDrop := cb }

theorem pair_stands (cb : Option Callback) : Stands (pair cb) ⟨fun _ => [1, 2], fun _ => cb⟩ := by
  have h₀ : Refines ⟨fun _ => none, fun _ => none⟩ (Queues.init _) (.empty Unit ℕ) := init_refines _
  have h₁ := h₀.insert (k := ()) (a := 1) ⟨by decide, rfl, rfl⟩
  have h₂ := h₁.insert (k := ()) (a := 2) ⟨by decide, rfl, rfl⟩
  exact (h₂.registerDropAllCb (k := ()) cb).stands

end Cutils.KQueue
