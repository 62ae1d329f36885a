import Cutils.Lib.SearchTree
import Cutils.Spec.Bst

/-!
# The order of a binary search tree

The nodes are threaded through their links as the search tree of the insertions so far (`SearchTree.Linked`): every
insertion keeps this (`insert_linked`), whatever the new node's links held.

* `bst_sorted`: a traversal visits the nodes once each, in order, equal ones as they came in.
* `bst_search_first`: a search finds the node that came in first.
-/

namespace Cutils.Bst

open KList VaList SearchTree

variable {α V : Type} [DecidableEq α] {fLess : α → α → ℤ} {m : Elems α} {elem a x parent : α} {p : Option α}
  {t l r : BinaryTree α} {fuel : ℕ}

section Insert

/-- Only the links of the parent are written. -/
theorem attach_other (fLess : α → α → ℤ) (m : Elems α) (elem : α) (hx : x ≠ parent) :
    (attach fLess m elem parent).prev x = m.prev x ∧ (attach fLess m elem parent).next x = m.next x := by
  unfold attach
  split <;> simp [Function.update_of_ne hx]

/-- A part of the tree without the parent stays as it is. -/
theorem attach_off (fLess : α → α → ℤ) (m : Elems α) (elem : α) (h : Linked m.prev m.next p t) (hparent : parent ∉ inorder t) :
    Linked (attach fLess m elem parent).prev (attach fLess m elem parent).next p t := by
  refine h.congr fun x hx => attach_other fLess m elem ?_
  rintro rfl
  exact hparent hx

theorem attach_left (m : Elems α) (hlt : fLess elem a < 0) :
    (attach fLess m elem a).prev a = some elem ∧ (attach fLess m elem a).next a = m.next a := by
  simp [attach, hlt]

theorem attach_right (m : Elems α) (hlt : ¬ fLess elem a < 0) :
    (attach fLess m elem a).prev a = m.prev a ∧ (attach fLess m elem a).next a = some elem := by
  simp [attach, hlt]

/-- **The descent** ends at the node where the new leaf belongs. -/
theorem descend_linked (fLess : α → α → ℤ) (h : Linked m.prev m.next (some a) t) (hnodup : (inorder t).Nodup)
    (helem : elem ∉ inorder t) (hprev : m.prev elem = none) (hnext : m.next elem = none)
    (hfuel : (inorder t).length ≤ fuel) :
    ∃ parent ∈ inorder t, descend fLess m elem fuel a = some parent ∧
      Linked (attach fLess m elem parent).prev (attach fLess m elem parent).next (some a)
        (SearchTree.insert fLess elem t) := by
  induction t generalizing a fuel with
  | nil => cases h
  | node b l r ihl ihr =>
    obtain ⟨hab, hl, hr⟩ := h
    obtain rfl := Option.some.inj hab
    simp only [inorder, List.mem_append, List.mem_cons, not_or, List.length_append, List.length_cons] at helem hfuel
    obtain ⟨hel, hea, her⟩ := helem
    obtain ⟨hndl, hndr, hdisj⟩ := List.nodup_append.1 hnodup
    obtain ⟨har, hndr⟩ := List.nodup_cons.1 hndr
    have hal : a ∉ inorder l := fun ha => hdisj a ha a List.mem_cons_self rfl
    obtain ⟨fuel, rfl⟩ : ∃ n, fuel = n + 1 := ⟨fuel - 1, by omega⟩
    have hleaf : Linked (attach fLess m elem a).prev (attach fLess m elem a).next (some elem) (.node elem .nil .nil) := by
      obtain ⟨h1, h2⟩ := attach_other fLess m elem hea
      exact ⟨rfl, h1.trans hprev, h2.trans hnext⟩
    by_cases hlt : fLess elem a < 0
    · cases l with
      | nil =>
        -- the leaf is the left child
        obtain ⟨hleft, hright⟩ := attach_left m hlt
        refine ⟨a, by simp [inorder], ?_, ?_⟩
        · simp only [descend, if_pos hlt, show m.prev a = none from hl]
        · rw [SearchTree.insert, if_pos hlt]
          refine ⟨rfl, ?_, ?_⟩
          · rw [hleft]
            exact hleaf
          · rw [hright]
            exact attach_off fLess m elem hr har
      | node b l₁ l₂ =>
        have hb : m.prev a = some b := hl.1
        rw [hb] at hl
        have hlen : (inorder (.node b l₁ l₂)).length ≤ fuel := by omega
        obtain ⟨parent, hmem, hdesc, hlinked⟩ := ihl hl hndl hel hlen
        have hpa : a ≠ parent := fun h => hal (h ▸ hmem)
        have hpr : parent ∉ inorder r := fun hmem' => hdisj parent hmem parent (List.mem_cons_of_mem _ hmem') rfl
        refine ⟨parent, by simp only [inorder, List.mem_append] at hmem ⊢; exact .inl hmem, ?_, ?_⟩
        · simp only [descend, if_pos hlt, hb]
          exact hdesc
        · rw [SearchTree.insert, if_pos hlt]
          refine ⟨rfl, ?_, ?_⟩
          · rw [(attach_other fLess m elem hpa).1, hb]
            exact hlinked
          · rw [(attach_other fLess m elem hpa).2]
            exact attach_off fLess m elem hr hpr
    · cases r with
      | nil =>
        -- the leaf is the right child
        obtain ⟨hleft, hright⟩ := attach_right m hlt
        refine ⟨a, by simp [inorder], ?_, ?_⟩
        · simp only [descend, if_neg hlt, show m.next a = none from hr]
        · rw [SearchTree.insert, if_neg hlt]
          refine ⟨rfl, ?_, ?_⟩
          · rw [hleft]
            exact attach_off fLess m elem hl hal
          · rw [hright]
            exact hleaf
      | node b r₁ r₂ =>
        have hb : m.next a = some b := hr.1
        rw [hb] at hr
        have hlen : (inorder (.node b r₁ r₂)).length ≤ fuel := by omega
        obtain ⟨parent, hmem, hdesc, hlinked⟩ := ihr hr hndr her hlen
        have hpa : a ≠ parent := fun h => har (h ▸ hmem)
        have hpl : parent ∉ inorder l := fun hmem' => hdisj parent hmem' parent (List.mem_cons_of_mem _ hmem) rfl
        refine ⟨parent, by simp only [inorder, List.mem_append, List.mem_cons] at hmem ⊢; exact .inr (.inr hmem), ?_, ?_⟩
        · simp only [descend, if_neg hlt, hb]
          exact hdesc
        · rw [SearchTree.insert, if_neg hlt]
          refine ⟨rfl, ?_, ?_⟩
          · rw [(attach_other fLess m elem hpa).1]
            exact attach_off fLess m elem hl hpl
          · rw [(attach_other fLess m elem hpa).2, hb]
            exact hlinked

/-- **An insertion** puts the node where the search tree has it. -/
theorem insert_linked {bst : Tree α} (h : Linked m.prev m.next bst.root t) (hnodup : (inorder t).Nodup)
    (helem : elem ∉ inorder t) (hfuel : (inorder t).length ≤ fuel) :
    ∃ m' root, insert fuel m bst elem = some (m', { bst with root := root }) ∧
      Linked m'.prev m'.next root (SearchTree.insert bst.fLess elem t) := by
  have hprev : (clear m elem).prev elem = none := Function.update_self ..
  have hnext : (clear m elem).next elem = none := Function.update_self ..
  have hclear : Linked (clear m elem).prev (clear m elem).next bst.root t := by
    refine h.congr fun x hx => ?_
    have hne : x ≠ elem := fun hxe => helem (hxe ▸ hx)
    exact ⟨Function.update_of_ne hne .., Function.update_of_ne hne ..⟩
  unfold insert
  cases hroot : bst.root with
  | none =>
    -- an empty tree has no root
    cases t with
    | nil => exact ⟨_, _, rfl, rfl, hprev, hnext⟩
    | node b l r => rw [hroot] at h; cases h.1
  | some root =>
    rw [hroot] at hclear
    obtain ⟨parent, -, hdesc, hlinked⟩ := descend_linked bst.fLess hclear hnodup helem hprev hnext hfuel
    refine ⟨_, some root, ?_, hlinked⟩
    dsimp only
    rw [hdesc, ← hroot]
    rfl

/-- **Any number of insertions** of distinct nodes. -/
theorem insertAll_linked {bst : Tree α} {elems : List α} (h : Linked m.prev m.next bst.root t)
    (hnodup : (inorder t ++ elems).Nodup) (hfuel : (inorder t).length + elems.length ≤ fuel) :
    ∃ m' root, insertAll fuel m bst elems = some (m', { bst with root := root }) ∧
      Linked m'.prev m'.next root (elems.foldl (fun t a => SearchTree.insert bst.fLess a t) t) := by
  induction elems generalizing m bst t with
  | nil => exact ⟨m, bst.root, rfl, h⟩
  | cons a as ih =>
    obtain ⟨hndt, -, hdisj⟩ := List.nodup_append.1 hnodup
    rw [List.length_cons] at hfuel
    have ha : a ∉ inorder t := fun hmem => hdisj a hmem a List.mem_cons_self rfl
    have hlen : (inorder t).length ≤ fuel := by omega
    obtain ⟨m₁, root, hins, hlinked⟩ := insert_linked h hndt ha hlen
    have hperm := perm_insert bst.fLess a t
    have hnodup₁ : (inorder (SearchTree.insert bst.fLess a t) ++ as).Nodup :=
      (((hperm.append_right as).trans List.perm_middle.symm).nodup_iff).2 hnodup
    have hlinked₁ : Linked m₁.prev m₁.next (Tree.mk root bst.fLess).root (SearchTree.insert bst.fLess a t) := hlinked
    obtain ⟨m₂, root₂, hall, hlinked₂⟩ := ih hlinked₁ hnodup₁ (by
      rw [hperm.length_eq, List.length_cons]
      omega)
    refine ⟨m₂, root₂, ?_, hlinked₂⟩
    simp only [insertAll, hins, Option.bind_some]
    exact hall

/-- A tree after `bst_init` and any number of insertions. -/
theorem init_insertAll (fLess : α → α → ℤ) (m : Elems α) {elems : List α} (hnodup : elems.Nodup) (hfuel : elems.length ≤ fuel) :
    ∃ m' root, insertAll fuel m (init fLess) elems = some (m', ⟨root, fLess⟩) ∧
      Linked m'.prev m'.next root (ofList fLess elems) := by
  have h0 : Linked m.prev m.next (init fLess).root .nil := rfl
  have hlen : (inorder (.nil : BinaryTree α)).length + elems.length ≤ fuel := by simpa [inorder] using hfuel
  exact insertAll_linked h0 hnodup hlen

end Insert

section Walks

omit [DecidableEq α] in
theorem searchInner_linked (h : Linked m.prev m.next p t) (key : α) (hfuel : (inorder t).length ≤ fuel) :
    searchInner m key fLess fuel p = some (find fLess key t) := by
  induction t generalizing p fuel with
  | nil =>
    obtain rfl : p = none := h
    cases fuel <;> rfl
  | node a l r ihl ihr =>
    obtain ⟨rfl, hl, hr⟩ := h
    simp only [inorder, List.length_append, List.length_cons] at hfuel
    -- a round for the node, and the rest is enough for either subtree
    obtain ⟨fuel, rfl⟩ : ∃ n, fuel = n + 1 := ⟨fuel - 1, by omega⟩
    simp only [searchInner, find]
    split
    · rfl
    · split
      · exact ihl hl (by omega)
      · exact ihr hr (by omega)

omit [DecidableEq α] in
theorem callAll_append {β : Type} (args : ℕ → V) (fn : α → Body V β) (l₁ l₂ : List α) (cursor : ℕ) :
    callAll args fn (l₁ ++ l₂) cursor =
      ((callAll args fn l₁ cursor).1 ++ (callAll args fn l₂ (callAll args fn l₁ cursor).2).1,
        (callAll args fn l₂ (callAll args fn l₁ cursor).2).2) := by
  induction l₁ generalizing cursor with
  | nil => rfl
  | cons a l₁ ih => simp only [List.cons_append, callAll, ih]

omit [DecidableEq α] in
theorem map_fst_callAll {β : Type} (args : ℕ → V) (fn : α → Body V β) (l : List α) (cursor : ℕ) :
    (callAll args fn l cursor).1.map Prod.fst = l := by
  induction l generalizing cursor with
  | nil => rfl
  | cons a l ih => simp only [callAll, List.map_cons, ih]

omit [DecidableEq α] in
/-- **A traversal** calls back along the tree in order. -/
theorem traverseInner_linked (h : Linked m.prev m.next p t) (fn : α → Body V Unit) (args : ℕ → V) (cursor : ℕ)
    (hfuel : (inorder t).length ≤ fuel) :
    traverseInner m fn args fuel p cursor = some (callAll args fn (inorder t) cursor) := by
  induction t generalizing p fuel cursor with
  | nil =>
    obtain rfl : p = none := h
    cases fuel <;> rfl
  | node a l r ihl ihr =>
    obtain ⟨rfl, hl, hr⟩ := h
    simp only [inorder, List.length_append, List.length_cons] at hfuel
    obtain ⟨fuel, rfl⟩ : ∃ n, fuel = n + 1 := ⟨fuel - 1, by omega⟩
    simp only [traverseInner, inorder, callAll_append, callAll]
    rw [ihl hl cursor (by omega), Option.bind_some, ihr hr _ (by omega), Option.map_some]

end Walks

/-- **The order of a binary search tree.** For every three-way comparison and every sequence of insertions of distinct
nodes, with any links, into a new tree: the insertions end, and a traversal visits every node once, in non-decreasing
order, and those that compare equal to any one node as they came in. -/
theorem bst_sorted (fLess : α → α → ℤ) (hless : Comparison fLess) (m : Elems α) (elems : List α) (hnodup : elems.Nodup)
    (fuel : ℕ) (hfuel : elems.length ≤ fuel) (fn : α → Body V Unit) (args : ℕ → V) :
    ∃ m' bst calls, insertAll fuel m (init fLess) elems = some (m', bst) ∧
      traverse m' fn args fuel bst = some calls ∧
      (calls.map Prod.fst).Perm elems ∧ (calls.map Prod.fst).Nodup ∧
      (calls.map Prod.fst).Pairwise (fun a b => fLess a b ≤ 0) ∧
      ∀ key, (calls.map Prod.fst).filter (fun a => fLess key a == 0) = elems.filter fun a => fLess key a == 0 := by
  obtain ⟨m', root, hins, hlinked⟩ := init_insertAll fLess m hnodup hfuel
  have hperm := perm_ofList elems fLess
  have hlen : (inorder (ofList fLess elems)).length ≤ fuel := by rwa [hperm.length_eq]
  refine ⟨m', ⟨root, fLess⟩, (callAll args fn (inorder (ofList fLess elems)) 0).1, hins, ?_, ?_⟩
  · simp only [traverse, traverseInner_linked hlinked fn args 0 hlen, Option.map_some]
  · rw [map_fst_callAll]
    exact ⟨hperm, hperm.nodup_iff.2 hnodup, sorted_ofList elems hless, filter_ofList elems hless⟩

/-- Numbers, compared by their tens. -/
def byTens (a b : ℕ) : ℤ := a / 10 - b / 10

theorem byTens_comparison : Comparison byTens := by
  refine ⟨fun a b => ?_, fun a b c => ?_⟩
  all_goals
    unfold byTens
    omega

/-- Five nodes with stale links, two pairs of them equal. -/
theorem bst_sorted_five : ∃ m bst calls,
    insertAll 5 ⟨fun _ => some 7, fun _ => some 8⟩ (init byTens) [25, 11, 27, 13, 3] = some (m, bst) ∧
      traverse m (fun _ => .ret ()) (fun n => n) 5 bst = some calls ∧
      (calls.map Prod.fst).Perm [25, 11, 27, 13, 3] ∧ (calls.map Prod.fst).filter (byTens 20 · == 0) = [25, 27] := by
  obtain ⟨m, bst, calls, hins, htraverse, hperm, -, -, hequal⟩ := bst_sorted byTens byTens_comparison
    ⟨fun _ => some 7, fun _ => some 8⟩ [25, 11, 27, 13, 3] (by decide) 5 (by decide) (fun _ => .ret ()) (fun n : ℕ => n)
  exact ⟨m, bst, calls, hins, htraverse, hperm, (hequal 20).trans (by decide)⟩

/-- **A search in a binary search tree.** It ends; it finds nothing if and only if no inserted node compares equal to the
key, and otherwise the one that came in first. -/
theorem bst_search_first (fLess : α → α → ℤ) (hless : Comparison fLess) (m : Elems α) (elems : List α)
    (hnodup : elems.Nodup) (fuel : ℕ) (hfuel : elems.length ≤ fuel) (key : α) :
    ∃ m' bst found, insertAll fuel m (init fLess) elems = some (m', bst) ∧
      search fuel m' bst key = some found ∧ (found = none ↔ ∀ a ∈ elems, fLess key a ≠ 0) ∧
      ∀ a, found = some a ↔ ∃ before after, elems = before ++ a :: after ∧ fLess key a = 0 ∧
        ∀ b ∈ before, fLess key b ≠ 0 := by
  obtain ⟨m', root, hins, hlinked⟩ := init_insertAll fLess m hnodup hfuel
  have hlen : (inorder (ofList fLess elems)).length ≤ fuel := by rwa [(perm_ofList elems fLess).length_eq]
  refine ⟨m', ⟨root, fLess⟩, _, hins, searchInner_linked hlinked key hlen, ?_, ?_⟩
  · rw [find_ofList elems hless]
    simp
  · intro a
    rw [find_ofList elems hless, List.find?_eq_some_iff_append]
    constructor
    · rintro ⟨hka, before, after, rfl, hno⟩
      exact ⟨before, after, rfl, by simpa using hka, fun b hb => by simpa using hno b hb⟩
    · rintro ⟨before, after, rfl, hka, hno⟩
      exact ⟨by simpa using hka, before, after, rfl, fun b hb => by simpa using hno b hb⟩

/-- The first of two equal nodes is found, and no node for a key of its own. -/
theorem bst_search_first_five : ∃ m bst found found',
    insertAll 5 ⟨fun _ => some 7, fun _ => some 8⟩ (init byTens) [25, 11, 27, 13, 3] = some (m, bst) ∧
      search 5 m bst 20 = some found ∧ found = some 25 ∧ search 5 m bst 40 = some found' ∧ found' = none := by
  obtain ⟨m, bst, found, hins, hsearch, -, hfirst⟩ := bst_search_first byTens byTens_comparison
    ⟨fun _ => some 7, fun _ => some 8⟩ [25, 11, 27, 13, 3] (by decide) 5 (by decide) 20
  obtain ⟨m', bst', found', hins', hsearch', hnone, -⟩ := bst_search_first byTens byTens_comparison
    ⟨fun _ => some 7, fun _ => some 8⟩ [25, 11, 27, 13, 3] (by decide) 5 (by decide) 40
  obtain ⟨rfl, rfl⟩ := Prod.mk.inj (Option.some.inj (hins.symm.trans hins'))
  refine ⟨m, bst, found, found', hins, hsearch, ?_, hsearch', hnone.2 (by decide)⟩
  exact (hfirst 25).2 ⟨[], [11, 27, 13, 3], rfl, by decide, by simp⟩

end Cutils.Bst
