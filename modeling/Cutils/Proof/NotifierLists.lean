import Cutils.Spec.Notifier
import Cutils.Proof.KListLinks

/-!
# Registrations of a notifier

A deregistered first block is popped, which leaves a `prev` into a block that goes back to the pool.
Nothing reads it: only a block that is not the first is unlinked through its `prev`, and `Family`
has that one right (`Inv`).

* `notifier_registrations`: in every run a post calls `execute_f` once for each block registered
  under the category, the last registered first, a deregistration takes out its block only, and
  free, allocated and registered blocks partition the pool.
-/

namespace Cutils.Notify

open KList Blocks Links

variable {δ : Type} {numOfElements : ℕ} {totalCategories : UInt32}

/-- **Every block is in one place**: free, allocated, or registered under one category. -/
structure Partition (numOfElements : ℕ) (free allocated : List ℕ) (registered : UInt32 → List ℕ) :
    Prop where
  free_nodup : free.Nodup
  allocated_nodup : allocated.Nodup
  registered_nodup : ∀ c, (registered c).Nodup
  cover : ∀ b, b < numOfElements ↔ b ∈ free ∨ b ∈ allocated ∨ ∃ c, b ∈ registered c
  free_only : ∀ b ∈ free, b ∉ allocated ∧ ∀ c, b ∉ registered c
  allocated_only : ∀ b ∈ allocated, ∀ c, b ∉ registered c
  category_only : ∀ c c' b, b ∈ registered c → b ∈ registered c' → c = c'

namespace Partition

variable {free allocated : List ℕ} {registered : UInt32 → List ℕ} {b : ℕ} {c : UInt32}

/-- A free block is allocated. -/
theorem allocate (h : Partition numOfElements (b :: free) allocated registered) :
    Partition numOfElements free (b :: allocated) registered := by
  obtain ⟨hnot, hnd⟩ := List.nodup_cons.1 h.free_nodup
  obtain ⟨hballoc, hbreg⟩ := h.free_only b List.mem_cons_self
  refine ⟨hnd, List.nodup_cons.2 ⟨hballoc, h.allocated_nodup⟩, h.registered_nodup, ?_, ?_, ?_, h.category_only⟩
  · intro x
    rw [h.cover x, List.mem_cons, List.mem_cons]
    tauto
  · intro x hx
    obtain ⟨h1, h2⟩ := h.free_only x (List.mem_cons_of_mem _ hx)
    refine ⟨?_, h2⟩
    rw [List.mem_cons, not_or]
    exact ⟨fun hxb => hnot (hxb ▸ hx), h1⟩
  · intro x hx
    rcases List.mem_cons.1 hx with rfl | hx
    · exact hbreg
    · exact h.allocated_only x hx

theorem mem_register {x : ℕ} {c' : UInt32} : x ∈ Function.update registered c (b :: registered c) c' ↔
    (x = b ∧ c' = c) ∨ x ∈ registered c' := by
  by_cases hc : c' = c
  · subst hc
    rw [Function.update_self, List.mem_cons]
    simp
  · rw [Function.update_of_ne hc]
    simp [hc]

/-- An allocated block is registered. -/
theorem register (h : Partition numOfElements free allocated registered) (hb : b ∈ allocated) (c : UInt32) :
    Partition numOfElements free (allocated.erase b)
      (Function.update registered c (b :: registered c)) := by
  have hbreg := h.allocated_only b hb
  have hmem : ∀ x, x ∈ allocated.erase b ↔ x ≠ b ∧ x ∈ allocated := fun x => h.allocated_nodup.mem_erase_iff
  refine ⟨h.free_nodup, h.allocated_nodup.erase b, ?_, ?_, ?_, ?_, ?_⟩
  · intro c'
    by_cases hc : c' = c
    · subst hc
      rw [Function.update_self]
      exact List.nodup_cons.2 ⟨hbreg c', h.registered_nodup c'⟩
    · rw [Function.update_of_ne hc]
      exact h.registered_nodup c'
  · intro x
    simp only [h.cover x, hmem, mem_register]
    by_cases hx : x = b
    · subst hx
      simp [hb]
    · simp [hx]
  · intro x hx
    obtain ⟨h1, h2⟩ := h.free_only x hx
    have hxb : x ≠ b := fun hxb => h1 (hxb ▸ hb)
    refine ⟨fun hx' => h1 ((hmem x).1 hx').2, ?_⟩
    intro c' hx'
    rcases mem_register.1 hx' with hx' | hx'
    · exact hxb hx'.1
    · exact h2 c' hx'
  · intro x hx c' hx'
    rw [hmem] at hx
    rcases mem_register.1 hx' with hx' | hx'
    · exact hx.1 hx'.1
    · exact h.allocated_only x hx.2 c' hx'
  · intro c₁ c₂ x h₁ h₂
    rcases mem_register.1 h₁ with ⟨hx₁, hc₁⟩ | h₁
    · rcases mem_register.1 h₂ with ⟨-, hc₂⟩ | h₂
      · exact hc₁.trans hc₂.symm
      · exact absurd (hx₁ ▸ h₂) (hbreg c₂)
    · rcases mem_register.1 h₂ with ⟨hx₂, -⟩ | h₂
      · exact absurd (hx₂ ▸ h₁) (hbreg c₁)
      · exact h.category_only c₁ c₂ x h₁ h₂

/-- A registered block goes back to the free ones. -/
theorem deregister (h : Partition numOfElements free allocated registered) (hb : b ∈ registered c) :
    Partition numOfElements (free ++ [b]) allocated (fun c => (registered c).erase b) := by
  have hbfree : b ∉ free := fun hin => (h.free_only b hin).2 c hb
  have hballoc : b ∉ allocated := fun hin => h.allocated_only b hin c hb
  have hmem : ∀ c' x, x ∈ (registered c').erase b ↔ x ≠ b ∧ x ∈ registered c' := fun c' x =>
    (h.registered_nodup c').mem_erase_iff
  refine ⟨?_, h.allocated_nodup, fun c' => (h.registered_nodup c').erase b, ?_, ?_, ?_, ?_⟩
  · rw [List.nodup_append]
    refine ⟨h.free_nodup, List.nodup_singleton b, ?_⟩
    intro x hx y hy hxy
    rw [List.mem_singleton] at hy
    exact hbfree (hy ▸ hxy ▸ hx)
  · intro x
    simp only [h.cover x, List.mem_append, List.mem_singleton, hmem]
    by_cases hx : x = b
    · subst hx
      simp only [or_true, true_or, iff_true]
      exact .inr (.inr ⟨c, hb⟩)
    · simp [hx]
  · intro x hx
    rcases List.mem_append.1 hx with hx | hx
    · obtain ⟨h1, h2⟩ := h.free_only x hx
      exact ⟨h1, fun c' hx' => h2 c' ((hmem c' x).1 hx').2⟩
    · obtain rfl := List.mem_singleton.1 hx
      exact ⟨hballoc, fun c' hx' => ((hmem c' x).1 hx').1 rfl⟩
  · intro x hx c' hx'
    exact h.allocated_only x hx c' ((hmem c' x).1 hx').2
  · intro c₁ c₂ x h₁ h₂
    exact h.category_only c₁ c₂ x ((hmem c₁ x).1 h₁).2 ((hmem c₂ x).1 h₂).2

end Partition

namespace Run

variable {r r' : Run δ}

/-- The invariant. -/
structure Inv (numOfElements : ℕ) (totalCategories : UInt32) (r : Run δ) : Prop where
  fault : r.fault = none
  total : r.notifier.totalNotificationCategories = totalCategories
  elements : r.notifier.pool.numOfElements = numOfElements
  live : r.notifier.pool.q = some r.notifier.pool.free
  lists : ∃ back, Family r.notifier.elems r.notifier.notifArray r.registered back
  clear : ∀ b ∈ r.allocated, r.notifier.elems.prev b = none ∧ r.notifier.elems.next b = none
  category : ∀ c, ∀ b ∈ r.registered c, r.notifier.category b = c ∧ c < totalCategories
  partition : Partition numOfElements r.notifier.pool.free r.allocated r.registered
  count : ∀ b < numOfElements, r.notifier.pool.retainCount b =
    if b ∈ r.notifier.pool.free then 0 else 1

theorem init_inv (hi : (system δ numOfElements totalCategories).init r) :
    Inv numOfElements totalCategories r := by
  obtain ⟨elems, category, rfl⟩ := hi
  have hfree : ((Store.fresh numOfElements).create).free = List.range numOfElements := rfl
  refine ⟨rfl, rfl, rfl, rfl, ⟨fun _ => none, ?_⟩, nofun, nofun, ?_, ?_⟩
  · -- all lists are empty
    refine ⟨fun _ => rfl, fun _ => trivial, fun _ => trivial, fun _ => List.nodup_nil, ?_⟩
    intro c c' b hb
    cases hb
  · -- all blocks are free
    refine ⟨List.nodup_range, List.nodup_nil, fun _ => List.nodup_nil, ?_, ?_, nofun, nofun⟩
    · intro b
      simp [Notifier.init, hfree]
    · intro b _
      simp
  · intro b hb
    have hmem : b ∈ ((Store.fresh numOfElements).create).free := by rw [hfree]; exact List.mem_range.2 hb
    show (if b < numOfElements then 0 else _) = _
    rw [if_pos hb]
    exact (if_pos hmem).symm

section Bounds

/-- Different blocks of a pool are no more than its elements. -/
theorem length_le_of_nodup {l : List ℕ} (hl : l.Nodup) (hlt : ∀ b ∈ l, b < numOfElements) :
    l.length ≤ numOfElements := by
  have hsub : l ⊆ List.range numOfElements := fun b hb => List.mem_range.2 (hlt b hb)
  have hle := (List.subperm_of_subset hl hsub).length_le
  rwa [List.length_range] at hle

theorem Inv.length_registered (h : Inv numOfElements totalCategories r) (c : UInt32) :
    (r.registered c).length ≤ numOfElements := by
  refine length_le_of_nodup (h.partition.registered_nodup c) ?_
  intro b hb
  exact (h.partition.cover b).2 (.inr (.inr ⟨c, hb⟩))

/-- There is room in the free queue for a block that is not in it. -/
theorem Inv.length_free (h : Inv numOfElements totalCategories r) {b : ℕ} (hb : b < numOfElements)
    (hnot : b ∉ r.notifier.pool.free) : r.notifier.pool.free.length < numOfElements := by
  have hle : (b :: r.notifier.pool.free).length ≤ numOfElements := by
    refine length_le_of_nodup (List.nodup_cons.2 ⟨hnot, h.partition.free_nodup⟩) ?_
    intro x hx
    rcases List.mem_cons.1 hx with rfl | hx
    · exact hb
    · exact (h.partition.cover x).2 (.inl hx)
  rw [List.length_cons] at hle
  omega

end Bounds

section Post

/-- **A post** calls `execute_f` on each block of the category's list, in its order. -/
theorem Inv.post (h : Inv numOfElements totalCategories r) {c : UInt32} (hc : c < totalCategories)
    (data : δ) : r.notifier.postNotification c data =
      .ok ((r.registered c).map fun b => ⟨b, c, data⟩) := by
  obtain ⟨back, hfam⟩ := h.lists
  have hwalk : walk r.notifier.elems.next r.notifier.pool.numOfElements (r.notifier.notifArray c) =
      some (r.registered c) := by
    rw [hfam.head c, h.elements]
    exact (hfam.fwd c).walk (h.length_registered c)
  unfold Notifier.postNotification
  rw [h.total, if_pos hc, hwalk]
  simp only
  congr 1
  refine List.map_congr_left ?_
  intro b hb
  rw [(h.category c b hb).1]

end Post

section Allocate

/-- **An allocation** takes the first free block and clears it. -/
theorem Inv.allocate (h : Inv numOfElements totalCategories r) (hfree : r.notifier.pool.free ≠ []) :
    ∃ b n, r.notifier.allocateNotificationBlock = .ok (b, n) ∧
      r.notifier.pool.free = b :: n.pool.free ∧
      Inv numOfElements totalCategories { r with notifier := n, allocated := b :: r.allocated } := by
  obtain ⟨b, rest, hq⟩ := List.exists_cons_of_ne_nil hfree
  have hlive := h.live
  rw [hq] at hlive
  have hbfree : b ∈ r.notifier.pool.free := by rw [hq]; exact List.mem_cons_self
  have hnd := h.partition.free_nodup
  rw [hq] at hnd
  obtain ⟨hnot, hnd⟩ := List.nodup_cons.1 hnd
  obtain ⟨hballoc, hbreg⟩ := h.partition.free_only b hbfree
  have hgo : r.notifier.allocateNotificationBlock = .ok (b, { r.notifier with
      pool := Store.fetchAdd { r.notifier.pool with q := some rest } b
      elems := ⟨Function.update r.notifier.elems.prev b none, Function.update r.notifier.elems.next b none⟩
      category := Function.update r.notifier.category b 0 }) := by
    unfold Notifier.allocateNotificationBlock Store.alloc Store.dequeue
    rw [hlive]
  have hother : ∀ x, x ≠ b → Function.update r.notifier.elems.prev b none x = r.notifier.elems.prev x ∧
      Function.update r.notifier.elems.next b none x = r.notifier.elems.next x := by
    intro x hx
    rw [Function.update_of_ne hx, Function.update_of_ne hx]
    exact ⟨rfl, rfl⟩
  refine ⟨b, _, hgo, hq, h.fault, h.total, h.elements, rfl, ?_, ?_, ?_, ?_, ?_⟩
  · -- the block is in no list, so that its links do not matter
    obtain ⟨back, hfam⟩ := h.lists
    refine ⟨back, hfam.congr ?_⟩
    intro c x hx
    exact hother x fun hxb => hbreg c (hxb ▸ hx)
  · -- it has null links now, and so have the other allocated blocks
    intro x hx
    by_cases hxb : x = b
    · subst hxb; simp
    · obtain ⟨h1, h2⟩ := hother x hxb
      simp only [h1, h2]
      exact h.clear x ((List.mem_cons.1 hx).resolve_left hxb)
  · -- the categories of registered blocks stay
    intro c x hx
    have hxb : x ≠ b := fun hxb => hbreg c (hxb ▸ hx)
    simp only [Function.update_of_ne hxb]
    exact h.category c x hx
  · have hpart := h.partition
    rw [hq] at hpart
    exact hpart.allocate
  · -- and only its own retain count changes
    intro x hx
    show Function.update r.notifier.pool.retainCount b (r.notifier.pool.retainCount b + 1) x =
      if x ∈ rest then 0 else 1
    have hcount := h.count x hx
    rw [hq] at hcount
    by_cases hxb : x = b
    · subst hxb
      rw [Function.update_self, hcount, if_pos List.mem_cons_self, if_neg hnot]
    · rw [Function.update_of_ne hxb, hcount]
      simp only [List.mem_cons, hxb, false_or]

end Allocate

section Register

/-- **A registration** puts the block first in its category. -/
theorem Inv.register (h : Inv numOfElements totalCategories r) {c : UInt32} {b : ℕ}
    (hc : c < totalCategories) (hb : b ∈ r.allocated) :
    ∃ n, r.notifier.registerNotificationBlock c b = .ok n ∧ n.pool = r.notifier.pool ∧
      Inv numOfElements totalCategories { r with
        notifier := n
        allocated := r.allocated.erase b
        registered := Function.update r.registered c (b :: r.registered c) } := by
  obtain ⟨back, hfam⟩ := h.lists
  obtain ⟨hprev, hnext⟩ := h.clear b hb
  have hbreg := h.partition.allocated_only b hb
  unfold Notifier.registerNotificationBlock
  rw [h.total, if_pos hc]
  refine ⟨_, rfl, rfl, h.fault, rfl, h.elements, h.live, ?_, ?_, ?_, h.partition.register hb c, h.count⟩
  · refine ⟨Function.update back c none, ?_⟩
    have hnew := hfam.prepend hbreg hprev hnext c
    rwa [← headPrepend_head r.notifier.elems (r.notifier.notifArray c) b] at hnew
  · intro x hx
    obtain ⟨hxb, hx⟩ := h.partition.allocated_nodup.mem_erase_iff.1 hx
    have hhead : r.notifier.notifArray c ≠ some x := by
      intro hhead
      rw [hfam.head c] at hhead
      exact h.partition.allocated_only x hx c (List.mem_of_head? hhead)
    obtain ⟨h1, h2⟩ := headPrepend_other (m := r.notifier.elems) hxb hhead
    simp only [h1, h2]
    exact h.clear x hx
  · intro c' x hx
    rcases Partition.mem_register.1 hx with ⟨rfl, rfl⟩ | hx
    · exact ⟨Function.update_self .., hc⟩
    · have hxb : x ≠ b := fun hxb => hbreg c' (hxb ▸ hx)
      simp only [Function.update_of_ne hxb]
      exact h.category c' x hx

end Register

section Deregister

variable {c : UInt32} {b : ℕ}

/-- Erasing a block changes its own category's list only. -/
theorem Inv.erase_eq (h : Inv numOfElements totalCategories r) (hb : b ∈ r.registered c) :
    (fun c' => (r.registered c').erase b) = Function.update r.registered c ((r.registered c).erase b) := by
  funext c'
  by_cases hc : c' = c
  · subst hc; simp
  · rw [Function.update_of_ne hc]
    refine List.erase_of_not_mem ?_
    intro hb'
    exact hc (h.partition.category_only c' c b hb' hb)

/-- The block is unlisted: popped if it is the first, else unlinked through its `prev`. -/
theorem Inv.unlist (h : Inv numOfElements totalCategories r) (hb : b ∈ r.registered c) :
    ∃ elems notifArray, r.notifier.unlist b =
        .ok { r.notifier with elems := elems, notifArray := notifArray } ∧
      (∃ back, Family elems notifArray (fun c' => (r.registered c').erase b) back) ∧
      ∀ x, (∀ c, x ∉ r.registered c) →
        elems.prev x = r.notifier.elems.prev x ∧ elems.next x = r.notifier.elems.next x := by
  obtain ⟨back, hfam⟩ := h.lists
  obtain ⟨l₁, l₂, hl⟩ := List.append_of_mem hb
  have hnd := hfam.nodup c
  rw [hl] at hnd
  have hnot : b ∉ l₁ := fun hin => (List.nodup_append.1 hnd).2.2 b hin b List.mem_cons_self rfl
  have herase : (r.registered c).erase b = l₁ ++ l₂ := by
    rw [hl, List.erase_append_right _ hnot, List.erase_cons_head]
  unfold Notifier.unlist
  simp only [(h.category c b hb).1]
  rw [h.erase_eq hb, herase]
  rcases List.eq_nil_or_concat l₁ with rfl | ⟨l₁, a, rfl⟩
  · -- the block is the first of its category
    have hhead : r.notifier.notifArray c = some b := by rw [hfam.head c, hl]; rfl
    rw [if_pos hhead]
    have hnew := hfam.pop hl
    refine ⟨_, _, if_pos ?_, ⟨_, hnew⟩, ?_⟩
    · rw [hhead]; rfl
    · intro x hx
      have hxb : x ≠ b := fun hxb => hx c (hxb ▸ hb)
      rw [hhead]
      simp [Elems.headPop, Function.update_of_ne hxb]
  · -- there is a block before it
    rw [List.concat_eq_append, List.append_assoc, List.singleton_append] at hl ⊢
    have hhead : r.notifier.notifArray c ≠ some b := by
      intro hhead
      rw [hfam.head c, hl, List.append_cons, List.head?_append_of_ne_nil _ (by simp)] at hhead
      exact hnot (by simpa using List.mem_of_head? hhead)
    rw [if_neg hhead]
    refine ⟨_, _, rfl, ⟨_, hfam.removeElem hl⟩, ?_⟩
    intro x hx
    have hxl : x ∉ l₁ ++ a :: b :: l₂ := hl ▸ hx c
    have hfwd := hfam.fwd c
    have hbwd := hfam.bwd c
    rw [hl] at hfwd hbwd
    refine removeElem_other ?_ ?_ ?_
    · rintro rfl
      exact hxl (by simp)
    · rw [List.append_cons] at hfwd
      rw [hfwd.next_eq]
      intro hc
      exact hxl (by simp [List.mem_of_head? hc])
    · rw [hbwd.prev_eq]
      rintro ⟨⟩
      exact hxl (by simp)

/-- **A deregistration** takes the block out of its list and gives it back to the pool. -/
theorem Inv.deregister (h : Inv numOfElements totalCategories r) (hb : b ∈ r.registered c) :
    ∃ n, r.notifier.deregisterNotificationBlock b = .ok n ∧
      n.pool.free = r.notifier.pool.free ++ [b] ∧
      Inv numOfElements totalCategories { r with
        notifier := n
        registered := fun c' => (r.registered c').erase b } := by
  obtain ⟨hcat, hc⟩ := h.category c b hb
  obtain ⟨elems, notifArray, hunlist, hfam, hother⟩ := h.unlist hb
  have hpart := h.partition.deregister hb
  have hlt : b < numOfElements := (h.partition.cover b).2 (.inr (.inr ⟨c, hb⟩))
  have hnotfree : b ∉ r.notifier.pool.free := fun hin => (h.partition.free_only b hin).2 c hb
  have hcount : r.notifier.pool.retainCount b = 1 := by rw [h.count b hlt, if_neg hnotfree]
  have hroom := h.length_free hlt hnotfree
  have hrel : r.notifier.pool.release b = some { r.notifier.pool with
      q := some (r.notifier.pool.free ++ [b])
      retainCount := Function.update r.notifier.pool.retainCount b 0 } := by
    unfold Store.release
    rw [hcount, if_neg (by simp), if_pos rfl]
    unfold Store.enqueue Store.fetchSub
    simp only [h.live, h.elements, if_pos hroom, hcount, Nat.sub_self]
  unfold Notifier.deregisterNotificationBlock
  rw [hcat, h.total, if_pos hc, hunlist]
  simp only [hrel]
  refine ⟨_, rfl, rfl, h.fault, h.total, h.elements, rfl, hfam, ?_, ?_, hpart, ?_⟩
  · intro x hx
    obtain ⟨h1, h2⟩ := hother x (h.partition.allocated_only x hx)
    simp only [h1, h2]
    exact h.clear x hx
  · intro c' x hx
    exact h.category c' x (List.mem_of_mem_erase hx)
  · intro x hx
    show Function.update r.notifier.pool.retainCount b 0 x =
      if x ∈ r.notifier.pool.free ++ [b] then 0 else 1
    by_cases hxb : x = b
    · subst hxb
      simp
    · rw [Function.update_of_ne hxb, h.count x hx]
      simp [hxb]

end Deregister

theorem step_inv {op : Op δ} (h : Inv numOfElements totalCategories r) (hen : r.Enabled op)
    (hs : r.step op = some r') : Inv numOfElements totalCategories r' := by
  have hfault : r.fault.isSome = false := by rw [h.fault]; rfl
  unfold step at hs
  simp only [hfault, Bool.false_eq_true, if_false] at hs
  cases op with
  | allocate =>
    obtain ⟨b, n, hgo, -, hinv⟩ := h.allocate hen
    simp only [hgo, Option.some.injEq] at hs
    exact hs ▸ hinv
  | register c b =>
    obtain ⟨hc, hb⟩ := hen
    rw [h.total] at hc
    obtain ⟨n, hgo, -, hinv⟩ := h.register hc hb
    simp only [hgo, Option.some.injEq] at hs
    exact hs ▸ hinv
  | deregister b =>
    obtain ⟨c, hb⟩ := hen
    obtain ⟨n, hgo, -, hinv⟩ := h.deregister hb
    simp only [hgo, Option.some.injEq] at hs
    exact hs ▸ hinv
  | post c data =>
    have hc : c < totalCategories := h.total ▸ hen
    simp only [h.post hc, Option.some.injEq] at hs
    subst hs
    exact ⟨h.fault, h.total, h.elements, h.live, h.lists, h.clear, h.category, h.partition, h.count⟩

theorem reach_inv (h : Sys.Reach (system δ numOfElements totalCategories) Enabled r) :
    Inv numOfElements totalCategories r := by
  refine Sys.Reach.inv (I := Inv numOfElements totalCategories) (fun r hr => init_inv hr) ?_ h
  intro r op r' hinv hen hs
  exact step_inv hinv hen hs

/-- The blocks a category's list leads to. -/
def listed (n : Notifier) (c : UInt32) : Option (List ℕ) :=
  walk n.elems.next n.pool.numOfElements (n.notifArray c)

theorem Inv.listed (h : Inv numOfElements totalCategories r) (c : UInt32) :
    listed r.notifier c = some (r.registered c) := by
  obtain ⟨back, hfam⟩ := h.lists
  unfold Run.listed
  rw [hfam.head c, h.elements]
  exact (hfam.fwd c).walk (h.length_registered c)

end Run

open Run

/-- **Registrations.** For every pool size, number of categories and sequence of calls, in every state
reached: no assertion has failed, the blocks free, allocated and registered partition the pool, and
each category's list holds the blocks registered under it, the last registered first. From there, a
post calls `execute_f` once for each of them in that order with the category and the data; and a
deregistration takes the block out of its category's list, leaves the other lists and gives the
block back to the pool. -/
theorem notifier_registrations {r : Run δ}
    (h : Sys.Reach (Run.system δ numOfElements totalCategories) Run.Enabled r) :
    r.fault = none ∧
    Partition numOfElements r.notifier.pool.free r.allocated r.registered ∧
    (∀ c, listed r.notifier c = some (r.registered c)) ∧
    (∀ c < totalCategories, ∀ data : δ, r.notifier.postNotification c data =
      .ok ((r.registered c).map fun b => ⟨b, c, data⟩)) ∧
    (∀ c, ∀ b ∈ r.registered c, ∃ n, r.notifier.deregisterNotificationBlock b = .ok n ∧
      n.pool.free = r.notifier.pool.free ++ [b] ∧
      listed n c = some ((r.registered c).erase b) ∧
      ∀ c' ≠ c, listed n c' = listed r.notifier c') := by
  have hinv := reach_inv h
  refine ⟨hinv.fault, hinv.partition, hinv.listed, fun c hc data => hinv.post hc data, ?_⟩
  intro c b hb
  obtain ⟨n, hgo, hfree, hnew⟩ := hinv.deregister hb
  refine ⟨n, hgo, hfree, hnew.listed c, ?_⟩
  intro c' hc
  rw [hinv.listed c']
  refine (hnew.listed c').trans ?_
  simp only [Option.some.injEq]
  refine List.erase_of_not_mem ?_
  intro hb'
  exact hc (hinv.partition.category_only c' c b hb' hb)

/-- `Enabled`, for a client that registers under category 0 only. -/
def Run.enabledZero (r : Run δ) : Op δ → Bool
  | .allocate => r.notifier.pool.free ≠ []
  | .register category block =>
    category < r.notifier.totalNotificationCategories ∧ block ∈ r.allocated
  | .deregister block => block ∈ r.registered 0
  | .post category _ => category < r.notifier.totalNotificationCategories

theorem Run.enabled_of_enabledZero (r : Run δ) (op : Op δ) (h : r.enabledZero op = true) : r.Enabled op := by
  cases op <;> simp only [enabledZero, decide_eq_true_eq] at h
  case deregister b => exact ⟨0, h⟩
  all_goals exact h

/-- Two blocks under one category; the first of the list is deregistered, which leaves a stale `prev`
in the other, and registered again. -/
theorem notifier_registrations_two : ∃ r : Run Bool, Sys.Reach (Run.system Bool 2 1) Run.Enabled r ∧
    r.registered 0 = [1, 0] ∧ r.notifier.postNotification 0 true = .ok [⟨1, 0, true⟩, ⟨0, 0, true⟩] := by
  have hexec : (Sys.exec (Run.system Bool 2 1) (fun r op => r.enabledZero op = true)
      ⟨.init 2 1 ⟨fun _ => none, fun _ => none⟩ (fun _ => 0), none, [], fun _ => [], []⟩
      [.allocate, .allocate, .register 0 0, .register 0 1, .deregister 1, .allocate, .register 0 1]).map
      (fun r => r.registered 0 == [1, 0]) = some true := by decide
  have hinit : (Run.system Bool 2 1).init
      ⟨.init 2 1 ⟨fun _ => none, fun _ => none⟩ (fun _ => 0), none, [], fun _ => [], []⟩ := ⟨_, _, rfl⟩
  obtain ⟨r, hr, hreg⟩ := (Sys.Reach.init hinit).of_trace hexec
  rw [beq_iff_eq] at hreg
  have hpost := (notifier_registrations (hr.mono enabled_of_enabledZero)).2.2.2.1 0 (by decide) true
  rw [hreg] at hpost
  exact ⟨r, hr.mono enabled_of_enabledZero, hreg, hpost⟩

end Cutils.Notify
