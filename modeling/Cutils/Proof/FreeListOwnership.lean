import Cutils.Spec.FreeList

/-!
# Who holds the items of a free list

The free items are a path from `head`, as long as the counter says, and what lies behind its last item
is left open (`Links.Path`): it is whatever that item's link held. Free and held items together are the store.

* `free_list_owned`: in every run that never puts an item back through a stale head.
* `free_list_put_wild`: such a put, on memory that was not zeroed.
-/

namespace Cutils.Free

open KList Links

variable {α : Type} [DecidableEq α] {mapped : α → Bool} {store free : List α} {f : FreeList α} {item : α}

/-- The free items, from the head on. -/
structure Chain (f : FreeList α) (free : List α) : Prop where
  path : Path f.elems.next f.head free
  count : f.currentAvailable = free.length

omit [DecidableEq α] in
/-- A chain of items has its first at the head. -/
theorem Chain.head {a : α} {l : List α} (h : Chain f (a :: l)) : f.head = some a := h.path.1

/-- **An item is put in front.** -/
theorem Chain.prepend (h : Chain f free) (hitem : item ∉ free) : Chain (f.prepend item) (item :: free) := by
  unfold FreeList.prepend Elems.headPrepend
  cases hh : f.head with
  | none =>
    -- a chain without a head is empty
    cases free with
    | nil => exact ⟨⟨rfl, trivial⟩, by simp only [h.count]; rfl⟩
    | cons a l => rw [h.head] at hh; cases hh
  | some x =>
    have hpath := h.path
    rw [hh] at hpath
    refine ⟨⟨rfl, ?_⟩, ?_⟩
    · dsimp only
      rw [Function.update_self]
      refine hpath.congr fun a ha => Function.update_of_ne ?_ ..
      rintro rfl
      exact hitem ha
    · simp only [h.count, List.length_cons]

/-- **The first item is taken.** -/
theorem Chain.get {a : α} {l : List α} (h : Chain f (a :: l)) (ha : a ∉ l) : f.get.2 = some a ∧ Chain f.get.1 l := by
  have hcount := h.count
  have hget : f.get = ({ f with
      elems := ⟨Function.update f.elems.prev a none, Function.update f.elems.next a none⟩
      head := f.elems.next a
      currentAvailable := f.currentAvailable - 1 }, some a) := by
    unfold FreeList.get
    rw [if_pos (by simp [h.head, hcount])]
    simp only [Elems.headPop, h.head]
  rw [hget]
  refine ⟨rfl, ?_, ?_⟩
  · refine h.path.2.congr fun x hx => Function.update_of_ne ?_ ..
    rintro rfl
    exact ha hx
  · show f.currentAvailable - 1 = l.length
    rw [hcount, List.length_cons]
    rfl

theorem Chain.get_nil (h : Chain f []) : f.get = (f, none) := by
  unfold FreeList.get
  rw [if_neg]
  simp [h.count]

/-- The loop of `free_list_init` puts the items in front, one after the other. -/
theorem Chain.foldl_prepend (h : Chain f free) (hnodup : store.Nodup) (hdisj : ∀ a ∈ store, a ∉ free) :
    Chain (store.foldl FreeList.prepend f) (store.reverse ++ free) ∧
      (store.foldl FreeList.prepend f).itemCount = f.itemCount := by
  induction store generalizing f free with
  | nil => exact ⟨h, rfl⟩
  | cons a l ih =>
    obtain ⟨hal, hl⟩ := List.nodup_cons.1 hnodup
    have hnew := h.prepend (hdisj a List.mem_cons_self)
    obtain ⟨hchain, hcount⟩ := ih hnew hl (by
      intro x hx hmem
      rcases List.mem_cons.1 hmem with rfl | hmem
      · exact hal hx
      · exact hdisj x (List.mem_cons_of_mem _ hx) hmem)
    rw [List.foldl_cons, List.reverse_cons, List.append_assoc]
    exact ⟨hchain, hcount⟩

namespace State

variable {s s' : State α} {a : Act α}

/-- **Every item is free or held.** -/
structure Inv (store : List α) (s : State α) : Prop where
  chain : ∃ free, Chain s.list free ∧ (free ++ s.held).Perm store
  count : s.list.itemCount = store.length
  fault : s.fault = false

theorem init_inv (hnodup : store.Nodup) (elems : Elems α) : Inv store ⟨.init elems store, [], false⟩ := by
  have h0 : Chain (⟨elems, none, store.length, 0⟩ : FreeList α) [] := ⟨trivial, rfl⟩
  obtain ⟨hchain, hcount⟩ := h0.foldl_prepend hnodup (by simp)
  exact ⟨⟨_, hchain, by simp⟩, hcount, rfl⟩

omit [DecidableEq α] in
/-- A held item is not free, and leaves the counter short of the number of items. -/
theorem Inv.held (h : Inv store s) (hnodup : store.Nodup) (hitem : item ∈ s.held) :
    ∃ free, Chain s.list free ∧ (free ++ s.held).Perm store ∧ item ∉ free ∧
      s.list.currentAvailable < s.list.itemCount := by
  obtain ⟨free, hchain, hperm⟩ := h.chain
  have hnd := hperm.nodup_iff.2 hnodup
  refine ⟨free, hchain, hperm, fun hfree => (List.nodup_append.1 hnd).2.2 item hfree item hitem rfl, ?_⟩
  have hlen := hperm.length_eq
  have hpos := List.length_pos_of_mem hitem
  rw [List.length_append] at hlen
  rw [h.count, hchain.count]
  omega

omit [DecidableEq α] in
/-- With a free item left, the head is an item. -/
theorem Inv.wild (h : Inv store s) (hmapped : ∀ a ∈ store, mapped a = true)
    (hwild : s.list.wild mapped = true) : s.list.currentAvailable = 0 := by
  obtain ⟨free, hchain, hperm⟩ := h.chain
  cases free with
  | nil => exact hchain.count
  | cons a l =>
    have ha := hmapped a (hperm.mem_iff.1 (by simp))
    unfold FreeList.wild at hwild
    simp [hchain.head, ha] at hwild

/-- **A put of a held item returns true**, unless it stores through a wild head. -/
theorem Inv.put_eq (h : Inv store s) (hnodup : store.Nodup) (hmapped : ∀ a ∈ store, mapped a = true)
    (hitem : item ∈ s.held) :
    (Tame mapped s (.put item) → s.list.put mapped item = some (s.list.prepend item, true)) ∧
      (¬ Tame mapped s (.put item) → s.list.put mapped item = none) := by
  obtain ⟨free, -, -, -, hlt⟩ := h.held hnodup hitem
  unfold FreeList.put Tame
  rw [if_pos hlt]
  constructor
  · intro htame
    rw [if_neg]
    intro hwild
    have := htame (h.wild hmapped hwild)
    rw [this] at hwild
    cases hwild
  · intro hnot
    rw [Classical.not_imp, Bool.not_eq_false] at hnot
    rw [if_pos hnot.2]

/-- **A get** gives an item that nobody holds, or null exactly when all are held. -/
theorem Inv.get_eq (h : Inv store s) (hnodup : store.Nodup) :
    (s.list.get.2 = none ∧ s.list.get.1 = s.list ∧ s.held.Perm store) ∨
      ∃ item, s.list.get.2 = some item ∧ item ∈ store ∧ item ∉ s.held ∧
        Inv store { s with list := s.list.get.1, held := item :: s.held } := by
  obtain ⟨free, hchain, hperm⟩ := h.chain
  cases free with
  | nil =>
    rw [hchain.get_nil]
    exact .inl ⟨rfl, rfl, hperm⟩
  | cons a l =>
    have hnd := hperm.nodup_iff.2 hnodup
    obtain ⟨hal, -⟩ := List.nodup_cons.1 (List.cons_append .. ▸ hnd)
    rw [List.mem_append, not_or] at hal
    obtain ⟨hget, hchain'⟩ := hchain.get hal.1
    refine .inr ⟨a, hget, hperm.mem_iff.1 (by simp), hal.2, ⟨l, hchain', ?_⟩, ?_, h.fault⟩
    · exact List.perm_middle.trans hperm
    · show s.list.get.1.itemCount = store.length
      rw [← h.count]
      unfold FreeList.get
      split <;> rfl

/-- **One step** keeps every item free or held. -/
theorem step_inv (h : Inv store s) (hnodup : store.Nodup) (hmapped : ∀ a ∈ store, mapped a = true)
    (htame : Tame mapped s a) (hs : s.step mapped a = some s') : Inv store s' := by
  unfold step at hs
  rw [if_neg (by rw [h.fault]; exact Bool.false_ne_true)] at hs
  cases a with
  | get =>
    dsimp only at hs
    obtain rfl := Option.some.inj hs
    rcases h.get_eq hnodup with ⟨hnone, hsame, -⟩ | ⟨item, hsome, -, -, hinv⟩
    · rw [hnone, hsame]
      exact h
    · rw [hsome]
      exact hinv
  | put item =>
    dsimp only at hs
    split at hs
    · rename_i hitem
      rw [(h.put_eq hnodup hmapped hitem).1 htame] at hs
      obtain rfl := Option.some.inj hs
      obtain ⟨free, hchain, hperm, hnot, -⟩ := h.held hnodup hitem
      refine ⟨⟨item :: free, hchain.prepend hnot, ?_⟩, h.count, h.fault⟩
      refine List.Perm.trans ?_ hperm
      rw [List.cons_append]
      exact List.perm_middle.symm.trans (List.Perm.append_left _ (List.perm_cons_erase hitem).symm)
    · cases hs
  | write item prev next =>
    dsimp only at hs
    split at hs
    · rename_i hitem
      obtain rfl := Option.some.inj hs
      obtain ⟨free, hchain, hperm, hnot, -⟩ := h.held hnodup hitem
      refine ⟨⟨free, ⟨?_, hchain.count⟩, hperm⟩, h.count, h.fault⟩
      refine hchain.path.congr fun x hx => Function.update_of_ne ?_ ..
      rintro rfl
      exact hnot hx
    · cases hs

theorem reach_inv (hnodup : store.Nodup) (hmapped : ∀ a ∈ store, mapped a = true)
    (h : Sys.Reach (system mapped store) (Tame mapped) s) : Inv store s := by
  refine Sys.Reach.inv (I := Inv store) ?_ ?_ h
  · rintro s ⟨elems, rfl⟩
    exact init_inv hnodup elems
  · intro s a s' hinv htame hs
    exact step_inv hinv hnodup hmapped htame hs

/-- **Ownership of the items of a free list.** In every run, from memory with any contents, in which no put finds the
list exhausted with a wild head: there is no fault; held items are items of the store, each held once, and with the
counter they add up to the store; a get gives an item that nobody holds, or null exactly when every item is
held; a put of a held item returns true, and the only one that does not is one that finds such a head. -/
theorem free_list_owned (mapped : α → Bool) (store : List α) (hnodup : store.Nodup)
    (hmapped : ∀ a ∈ store, mapped a = true) (s : State α) (h : Sys.Reach (system mapped store) (Tame mapped) s) :
    s.fault = false ∧ s.held.Nodup ∧ (∀ item ∈ s.held, item ∈ store) ∧
      s.list.currentAvailable + s.held.length = store.length ∧
      (∀ item, s.list.get.2 = some item → item ∈ store ∧ item ∉ s.held) ∧
      (s.list.get.2 = none ↔ ∀ item ∈ store, item ∈ s.held) ∧
      (∀ item ∈ s.held, (∃ list, s.list.put mapped item = some (list, true)) ↔ Tame mapped s (.put item)) := by
  have hinv := reach_inv hnodup hmapped h
  obtain ⟨free, hchain, hperm⟩ := hinv.chain
  have hnd := hperm.nodup_iff.2 hnodup
  refine ⟨hinv.fault, (List.nodup_append.1 hnd).2.1, ?_, ?_, ?_, ?_, ?_⟩
  · intro item hitem
    exact hperm.mem_iff.1 (List.mem_append_right _ hitem)
  · rw [hchain.count, ← List.length_append]
    exact hperm.length_eq
  · intro item hget
    rcases hinv.get_eq hnodup with ⟨hnone, -⟩ | ⟨item', hsome, hmem, hnot, -⟩
    · rw [hnone] at hget
      cases hget
    · obtain rfl := Option.some.inj (hsome.symm.trans hget)
      exact ⟨hmem, hnot⟩
  · rcases hinv.get_eq hnodup with ⟨hnone, -, hall⟩ | ⟨item, hsome, hmem, hnot, -⟩
    · rw [hnone]
      exact ⟨fun _ item hitem => hall.mem_iff.2 hitem, fun _ => rfl⟩
    · rw [hsome]
      exact ⟨nofun, fun hall => absurd (hall item hmem) hnot⟩
  · intro item hitem
    obtain ⟨hok, hbad⟩ := hinv.put_eq hnodup hmapped hitem
    constructor
    · rintro ⟨list, hput⟩
      by_contra hnot
      rw [hbad hnot] at hput
      cases hput
    · intro htame
      exact ⟨_, hok htame⟩

/-- Two items in memory whose links are not null: all are taken, and one comes back. -/
theorem free_list_owned_two : ∃ s : State ℕ, Sys.Reach (system (fun a => a < 8) [0, 1]) (Tame fun a => a < 8) s ∧
    s.held = [1] ∧ s.list.currentAvailable + s.held.length = 2 ∧ s.list.get.2 ≠ some 1 := by
  have hinit : (system (fun a => a < 8) [0, 1]).init ⟨.init ⟨fun _ => some 5, fun _ => some 6⟩ [0, 1], [], false⟩ :=
    ⟨_, rfl⟩
  have hexec : (Sys.exec (system (fun a => a < 8) [0, 1])
      (fun s a => !(s.list.currentAvailable == 0 && s.list.wild fun a => a < 8) = true)
      ⟨.init ⟨fun _ => some 5, fun _ => some 6⟩ [0, 1], [], false⟩
      [.get, .get, .write 0 (some 9) (some 1), .put 0]).map (fun s => s.held == [1]) = some true := by decide
  obtain ⟨s, hs, hheld⟩ := (Sys.Reach.init hinit).of_trace hexec
  have htame : ∀ (s : State ℕ) (a : Act ℕ),
      !(s.list.currentAvailable == 0 && s.list.wild fun a => decide (a < 8)) = true → Tame (fun a => a < 8) s a := by
    intro s a h
    cases a with
    | put item => intro h0; simpa [h0] using h
    | get | write => trivial
  obtain ⟨-, -, -, hcount, hget, -⟩ := free_list_owned (fun a => a < 8) [0, 1] (by decide) (by decide) s (hs.mono htame)
  rw [beq_iff_eq] at hheld
  refine ⟨s, hs.mono htame, hheld, hcount, fun hone => (hget 1 hone).2 ?_⟩
  rw [hheld]
  exact List.mem_singleton_self 1

/-- **A store through a stale head**: one item, in memory that was not zeroed, is taken and put back. Its link became
the head of the exhausted list, and the put stores there. -/
theorem free_list_put_wild : ∃ s : State ℕ, Sys.Reach (system (fun a => a < 1) [0]) Sys.Always s ∧ s.held = [0] ∧
    s.list.put (fun a => a < 1) 0 = none := by
  have hinit : (system (fun a => a < 1) [0]).init ⟨.init ⟨fun _ => none, fun _ => some 57005⟩ [0], [], false⟩ := ⟨_, rfl⟩
  have hexec : (Sys.exec (system (fun a => a < 1) [0]) Sys.Always
      ⟨.init ⟨fun _ => none, fun _ => some 57005⟩ [0], [], false⟩ [.get]).map
      (fun s => s.held == [0] && (s.list.put (fun a => a < 1) 0).isNone) = some true := by decide
  obtain ⟨s, hs, hend⟩ := (Sys.Reach.init hinit).of_trace hexec
  rw [Bool.and_eq_true, beq_iff_eq, Option.isNone_iff_eq_none] at hend
  exact ⟨s, hs, hend.1, hend.2⟩

end State

end Cutils.Free
