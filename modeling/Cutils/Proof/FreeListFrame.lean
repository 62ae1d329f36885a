import Cutils.Proof.FreeListOwnership

/-!
# A free list and the links of held items

Behind the last free item there is whatever its `next` held when it was put back, and that is the head of the list
once it is exhausted. A put then takes the head for a free item and writes its `prev`.

* `free_list_frame`: after any run, a step leaves the links of the items that clients hold alone, if and only if
  it is not a put whose stale head is one of them.
-/

namespace Cutils.Free

open KList

/-- The item an operation gives back or writes to. -/
def Act.item {α : Type} : Act α → Option α
  | .get => none
  | .put item | .write item _ _ => some item

namespace State

variable {α : Type} [DecidableEq α] {mapped : α → Bool} {store : List α} {s s' : State α} {a : Act α} {item b h : α}

/-- **No held item's links change**, except those of the item that is put back or that the client writes to. -/
def Framed (s s' : State α) (a : Act α) : Prop :=
  ∀ b ∈ s.held, a.item ≠ some b →
    s'.list.elems.prev b = s.list.elems.prev b ∧ s'.list.elems.next b = s.list.elems.next b

/-- The list is exhausted, and its stale head is an item that a client holds, other than the one that is put back; and
whose `prev` does not lead to that one already. -/
def Intrudes (s : State α) : Act α → Prop
  | .put item => s.list.currentAvailable = 0 ∧
      ∃ h ∈ s.held, s.list.head = some h ∧ h ≠ item ∧ s.list.elems.prev h ≠ some item
  | _ => False

/-- In every run the items are accounted for, until a store through a wild head. -/
theorem reach_always (hnodup : store.Nodup) (hmapped : ∀ a ∈ store, mapped a = true)
    (h : Sys.Reach (system mapped store) Sys.Always s) : s.fault = true ∨ Inv store s := by
  refine Sys.Reach.inv (I := fun s => s.fault = true ∨ Inv store s) ?_ ?_ h
  · rintro s ⟨elems, rfl⟩
    exact .inr (init_inv hnodup elems)
  · rintro s a s' (hfault | hinv) - hs
    · simp only [system, step, hfault, if_true] at hs
      cases hs
    · by_cases htame : Tame mapped s a
      · exact .inr (step_inv hinv hnodup hmapped htame hs)
      · left
        cases a with
        | get | write => exact absurd trivial htame
        | put item =>
          simp only [system, step, hinv.fault, Bool.false_eq_true, if_false] at hs
          split at hs
          · rename_i hitem
            rw [(hinv.put_eq hnodup hmapped hitem).2 htame] at hs
            obtain rfl := Option.some.inj hs
            rfl
          · cases hs

omit [DecidableEq α] in
/-- The head of a list that is not exhausted is free. -/
theorem Inv.head_notMem (hinv : Inv store s) (hnodup : store.Nodup) (hpos : s.list.currentAvailable ≠ 0)
    (hhead : s.list.head = some h) : h ∉ s.held := by
  obtain ⟨free, hchain, hperm⟩ := hinv.chain
  cases free with
  | nil => exact absurd hchain.count hpos
  | cons a l =>
    obtain rfl := Option.some.inj (hchain.head.symm.trans hhead)
    have hnd := hperm.nodup_iff.2 hnodup
    exact fun hheld => (List.nodup_append.1 hnd).2.2 a List.mem_cons_self a hheld rfl

/-- **A get** writes the links of the item it gives, which nobody held. -/
theorem Inv.get_framed (hinv : Inv store s) (hnodup : store.Nodup) :
    Framed s { s with list := s.list.get.1, held := s.list.get.2.toList ++ s.held } .get := by
  intro b hb _
  dsimp only
  unfold FreeList.get
  split
  · rename_i hfree
    rw [Bool.and_eq_true, decide_eq_true_eq] at hfree
    obtain ⟨h, hhead⟩ := Option.isSome_iff_exists.1 hfree.1
    have hbh : b ≠ h := by
      rintro rfl
      exact hinv.head_notMem hnodup (Nat.ne_of_gt hfree.2) hhead hb
    simp [Elems.headPop, hhead, Function.update_of_ne hbh]
  · exact ⟨rfl, rfl⟩

/-- **A put** writes the links of its own item, and the `prev` of the head. -/
theorem Inv.prepend_framed_iff (hinv : Inv store s) (hnodup : store.Nodup) (hlist : s'.list = s.list.prepend item) :
    Framed s s' (.put item) ↔ ¬ Intrudes s (.put item) := by
  unfold Framed
  rw [hlist]
  cases hhead : s.list.head with
  | none =>
    refine iff_of_true ?_ ?_
    · intro b _ _
      simp [FreeList.prepend, Elems.headPrepend, hhead]
    · rintro ⟨-, h, -, hh, -⟩
      rw [hhead] at hh
      cases hh
  | some h =>
    have hother : ∀ {x}, x ≠ item → x ≠ h → (s.list.prepend item).elems.prev x = s.list.elems.prev x := by
      intro x hxi hxh
      simp [FreeList.prepend, Elems.headPrepend, hhead, hxi, hxh]
    have hprev : h ≠ item → (s.list.prepend item).elems.prev h = some item := by
      intro hhi
      simp [FreeList.prepend, Elems.headPrepend, hhead, hhi]
    have hnext : ∀ {x}, x ≠ item → (s.list.prepend item).elems.next x = s.list.elems.next x := by
      intro x hxi
      simp [FreeList.prepend, Elems.headPrepend, hhead, hxi]
    constructor
    · rintro hframed ⟨-, h', hheld, hh, hhi, hne⟩
      obtain rfl := Option.some.inj (hhead.symm.trans hh)
      have hsame := (hframed h hheld fun hi => hhi (Option.some.inj hi).symm).1
      exact hne (hsame.symm.trans (hprev hhi))
    · intro hnot b hb hbi
      have hbi' : b ≠ item := fun hbi' => hbi (by rw [hbi']; rfl)
      refine ⟨?_, hnext hbi'⟩
      by_cases hbh : b = h
      · subst hbh
        by_contra hchanged
        -- a head that is held is stale, and was written
        refine hnot ⟨?_, b, hb, hhead, hbi', fun hsame => hchanged ?_⟩
        · by_contra hpos
          exact hinv.head_notMem hnodup hpos hhead hb
        · exact (hprev hbi').trans hsame.symm
      · exact hother hbi' hbh

/-- **A free list and held items.** For every store and any contents of its links, after every run: a step of the list
leaves the links of every item a client holds as they are, other than those of the item itself that is put back, if
and only if it is not a put to an exhausted list whose stale head is another held item, one that does not lead back
to the item already. -/
theorem free_list_frame (mapped : α → Bool) (store : List α) (hnodup : store.Nodup)
    (hmapped : ∀ a ∈ store, mapped a = true) (s s' : State α) (a : Act α)
    (h : Sys.Reach (system mapped store) Sys.Always s) (hs : (system mapped store).step s a = some s') :
    Framed s s' a ↔ ¬ Intrudes s a := by
  rcases reach_always hnodup hmapped h with hfault | hinv
  · simp only [system, step, hfault, if_true] at hs
    cases hs
  simp only [system, step, hinv.fault, Bool.false_eq_true, if_false] at hs
  cases a with
  | get =>
    obtain rfl := Option.some.inj hs
    exact iff_of_true (hinv.get_framed hnodup) id
  | put item =>
    dsimp only at hs
    split at hs
    · rename_i hitem
      obtain ⟨hok, hbad⟩ := hinv.put_eq hnodup hmapped hitem
      by_cases htame : Tame mapped s (.put item)
      · rw [hok htame] at hs
        obtain rfl := Option.some.inj hs
        exact hinv.prepend_framed_iff hnodup rfl
      · -- a store through a wild head is no store to an item
        rw [hbad htame] at hs
        obtain rfl := Option.some.inj hs
        refine iff_of_true (fun _ _ _ => ⟨rfl, rfl⟩) ?_
        rintro ⟨-, h, hheld, hhead, -⟩
        obtain ⟨free, -, hperm⟩ := hinv.chain
        have hmem := hmapped h (hperm.mem_iff.1 (List.mem_append_right _ hheld))
        refine htame fun _ => ?_
        simp [FreeList.wild, hhead, hmem]
    · cases hs
  | write item prev next =>
    dsimp only at hs
    split at hs
    · obtain rfl := Option.some.inj hs
      refine iff_of_true ?_ id
      intro b _ hbi
      have hne : b ≠ item := fun hbi' => hbi (by rw [hbi']; rfl)
      exact ⟨Function.update_of_ne hne .., Function.update_of_ne hne ..⟩
    · cases hs

/-- Two items with null links, and both are taken: nothing is written to the one that is still held when the other
comes back. -/
theorem free_list_frame_two : ∃ s s' : State ℕ, Sys.Reach (system (fun a => a < 2) [0, 1]) Sys.Always s ∧ 1 ∈ s.held ∧ s.step (fun a => a < 2) (.put 0) = some s' ∧
    s'.list.elems.prev 1 = s.list.elems.prev 1 := by
  have hinit : (system (fun a => a < 2) [0, 1]).init ⟨.init ⟨fun _ => none, fun _ => none⟩ [0, 1], [], false⟩ := ⟨_, rfl⟩
  have hexec : (Sys.exec (system (fun a => a < 2) [0, 1]) Sys.Always
      ⟨.init ⟨fun _ => none, fun _ => none⟩ [0, 1], [], false⟩ [.get, .get]).map
      (fun s => s.held == [0, 1] && s.list.head == none && (s.step (fun a => a < 2) (.put 0)).isSome) = some true := by decide
  obtain ⟨s, hreach, hend⟩ := (Sys.Reach.init hinit).of_trace hexec
  simp only [Bool.and_eq_true, beq_iff_eq] at hend
  obtain ⟨⟨hheld, hhead⟩, hstep⟩ := hend
  obtain ⟨s', hs⟩ := Option.isSome_iff_exists.1 hstep
  have hone : 1 ∈ s.held := by
    rw [hheld]
    decide
  have hframed := (free_list_frame _ [0, 1] (by decide) (by decide) s s' (.put 0) hreach hs).2 (by
    rintro ⟨-, h, -, hh, -⟩
    rw [hhead] at hh
    cases hh)
  exact ⟨s, s', hreach, hone, hs, (hframed 1 hone (by decide)).1⟩

/-- Two items with null links, and both are taken. The client writes the address of item 1 to the `next` of item 0 and
puts it back, and it is taken again: now item 1 is the head of the exhausted list, and putting item 0 back writes
its `prev`. -/
theorem free_list_frame_chained :
    (Sys.exec (system (fun a => a < 2) [0, 1]) Sys.Always ⟨.init ⟨fun _ => none, fun _ => none⟩ [0, 1], [], false⟩
      [.get, .get, .write 0 none (some 1), .put 0, .get]).map (fun s => (s.held, s.list.elems.prev 1)) =
        some ([0, 1], none) ∧
    (Sys.exec (system (fun a => a < 2) [0, 1]) Sys.Always ⟨.init ⟨fun _ => none, fun _ => none⟩ [0, 1], [], false⟩
      [.get, .get, .write 0 none (some 1), .put 0, .get, .put 0]).map (fun s => (s.held, s.list.elems.prev 1)) =
        some ([1], some 0) := by
  decide

end State

end Cutils.Free
