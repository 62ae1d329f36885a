import Cutils.Proof.BstOrder
import Cutils.Proof.KQueueFifo

/-!
# What the callbacks are given of the variadic arguments

`kqueue_find_first` and `bst_traverse` pass one `va_list` to every call, and a callback that uses `va_arg` moves it on
for the calls after it. `findAll` is the search along a list that shares a cursor.

* `variadic_arguments`: the search finds the first element that the predicate holds of with the arguments that were
  passed, if and only if what the earlier calls read makes no difference up to there; and a traversal gives every call
  the arguments that were passed if and only if no node but the last reads any.
-/

namespace Cutils.VaList

variable {α V β : Type} {args : ℕ → V} {l : List α} {cursor : ℕ}

theorem Body.le_run (args : ℕ → V) (b : Body V β) (cursor : ℕ) : cursor ≤ (b.run args cursor).2 := by
  induction b generalizing cursor with
  | ret b => exact Nat.le_refl _
  | vaArg k ih => exact (Nat.le_succ cursor).trans (ih _ _)

/-- The cursor stays if and only if no argument is read. -/
theorem Body.run_same_iff (args : ℕ → V) (b : Body V β) (cursor : ℕ) :
    (b.run args cursor).2 = cursor ↔ b.reads = false := by
  cases b with
  | ret b => exact ⟨fun _ => rfl, fun _ => rfl⟩
  | vaArg k =>
    have hle := Body.le_run args (k (args cursor)) (cursor + 1)
    simp only [Body.run, Body.reads, Bool.true_eq_false, iff_false]
    omega

/-- **Every call is given the same cursor** if and only if no call before the last moves it. -/
theorem callAll_same_iff (args : ℕ → V) (fn : α → Body V β) (l : List α) (cursor : ℕ) :
    (callAll args fn l cursor).1 = l.map (·, cursor) ↔ ∀ a ∈ l.dropLast, (fn a).reads = false := by
  induction l with
  | nil => simp [callAll]
  | cons a l ih =>
    cases l with
    | nil => simp [callAll]
    | cons b l =>
      rw [List.dropLast_cons_cons, List.forall_mem_cons, ← ih, ← Body.run_same_iff args (fn a) cursor]
      constructor
      · intro h
        have hrest : (callAll args fn (b :: l) ((fn a).run args cursor).2).1 = (b :: l).map (·, cursor) :=
          (List.cons.inj h).2
        -- the cursor that the second call is given
        have hsame : ((fn a).run args cursor).2 = cursor := congrArg Prod.snd (List.cons.inj hrest).1
        rw [hsame] at hrest
        exact ⟨hsame, hrest⟩
      · rintro ⟨hsame, hrest⟩
        show (a, cursor) :: (callAll args fn (b :: l) ((fn a).run args cursor).2).1 = _
        rw [hsame, hrest]
        rfl

/-- The first element of a list that a predicate holds of, when all calls share a cursor. -/
def findAll (args : ℕ → V) (fFind : α → Body V Bool) : List α → ℕ → Option α
  | [], _ => none
  | a :: l, cursor =>
    let r := (fFind a).run args cursor
    if r.1 then some a else findAll args fFind l r.2

theorem mem_of_findAll {fFind : α → Body V Bool} {a : α} (h : findAll args fFind l cursor = some a) : a ∈ l := by
  induction l generalizing cursor with
  | nil => cases h
  | cons b l ih =>
    simp only [findAll] at h
    split at h
    · cases h
      exact List.mem_cons_self
    · exact List.mem_cons_of_mem _ (ih h)

/-- **Sharing the cursor makes no difference** if and only if it makes none for each element up to the first that the
predicate `holds` of. -/
theorem findAll_eq_iff (hnodup : l.Nodup) (fFind : α → Body V Bool) (holds : α → Bool) (cursor : ℕ) :
    findAll args fFind l cursor = l.find? holds ↔ ∀ before a after, l = before ++ a :: after →
      (∀ b ∈ before, holds b = false) → ((fFind a).run args (callAll args fFind before cursor).2).1 = holds a := by
  induction l generalizing cursor with
  | nil => simp [findAll]
  | cons x l ih =>
    obtain ⟨hx, hnodup⟩ := List.nodup_cons.1 hnodup
    have hnot : ∀ c, findAll args fFind l c ≠ some x := fun c h => hx (mem_of_findAll h)
    have hfind : l.find? holds ≠ some x := fun h => hx (List.mem_of_find?_eq_some h)
    -- the condition, for the first element
    have hfirst : (∀ before a after, x :: l = before ++ a :: after → (∀ b ∈ before, holds b = false) →
        ((fFind a).run args (callAll args fFind before cursor).2).1 = holds a) →
        ((fFind x).run args cursor).1 = holds x := fun h => h [] x l rfl (by simp)
    cases hhere : ((fFind x).run args cursor).1 <;> cases hholds : holds x
    · -- neither stops here
      simp only [findAll, hhere, Bool.false_eq_true, if_false, List.find?_cons, hholds]
      rw [ih hnodup]
      constructor
      · intro h before a after hl hbefore
        cases before with
        | nil =>
          obtain ⟨rfl, -⟩ := List.cons.inj hl
          rw [hholds]
          exact hhere
        | cons y before =>
          obtain ⟨rfl, hrest⟩ := List.cons.inj hl
          exact h before a after hrest fun b hb => hbefore b (List.mem_cons_of_mem _ hb)
      · intro h before a after hl hbefore
        refine h (x :: before) a after (by rw [hl]; rfl) ?_
        rintro b (_ | ⟨_, hb⟩)
        · exact hholds
        · exact hbefore b hb
    · -- the predicate holds, and is not seen to
      simp only [findAll, hhere, Bool.false_eq_true, if_false, List.find?_cons, hholds]
      refine iff_of_false (hnot _) ?_
      intro h
      have hsame := hfirst h
      rw [hhere, hholds] at hsame
      cases hsame
    · -- the predicate does not hold, and is seen to
      simp only [findAll, hhere, if_true, List.find?_cons, hholds]
      refine iff_of_false (Ne.symm hfind) ?_
      intro h
      have hsame := hfirst h
      rw [hhere, hholds] at hsame
      cases hsame
    · -- both stop here
      simp only [findAll, hhere, if_true, List.find?_cons, hholds, true_iff]
      intro before a after hl hbefore
      cases before with
      | nil =>
        obtain ⟨rfl, -⟩ := List.cons.inj hl
        rw [hholds]
        exact hhere
      | cons y before =>
        obtain ⟨rfl, -⟩ := List.cons.inj hl
        have hno := hbefore x List.mem_cons_self
        rw [hholds] at hno
        cases hno

end Cutils.VaList

namespace Cutils.KQueue

open KList VaList Links

variable {κ α V : Type} {m : Elems α} {l : List α} {cursor fuel : ℕ}

/-- The loop of the search, along a list. -/
theorem findFrom_fwd (h : Fwd m.next l) (hfuel : l.length ≤ fuel) (fFind : α → Body V Bool) (args : ℕ → V) (cursor : ℕ) :
    findFrom m fFind args fuel l.head? cursor = some (findAll args fFind l cursor) := by
  induction l generalizing fuel cursor with
  | nil => cases fuel <;> rfl
  | cons a l ih =>
    rw [List.length_cons] at hfuel
    obtain ⟨fuel, rfl⟩ : ∃ f, fuel = f + 1 := ⟨fuel - 1, by omega⟩
    simp only [List.head?_cons, findFrom, findAll]
    split
    · rfl
    · rw [h.1]
      exact ih h.2 (by omega) _

/-- A search of a queue. -/
theorem Stands.findFirst {s : Queues κ α} {t : Fifos κ α} (h : Stands s t) (k : κ) (fFind : α → Body V Bool) (args : ℕ → V)
    (hfuel : (t.lists k).length ≤ fuel) :
    KQueue.findFirst s.elems (s.queue k) fFind args fuel = some (findAll args fFind (t.lists k) 0) := by
  have hhead : (s.queue k).pHead = (t.lists k).head? := h.family.head k
  unfold KQueue.findFirst
  rw [hhead]
  exact findFrom_fwd (h.family.fwd k) hfuel fFind args 0

/-- **Variadic arguments.** For every well-formed queue, every predicate and all arguments: the search gives the first
element that the predicate holds of with the arguments that were passed, or none, if and only if, for every element with none
before it that the predicate holds of, the predicate decides the same with the arguments that the calls before it have
left. And for every tree, every callback and all arguments: every call in the traversal is given the arguments
that were passed if and only if the callback reads none at every node but the last. -/
theorem variadic_arguments (κ α V : Type) [DecidableEq κ] [DecidableEq α] (args : ℕ → V) :
    (∀ (s : Queues κ α) (t : Fifos κ α) (k : κ) (fFind : α → Body V Bool), Stands s t →
      ((∃ n, ∀ fuel, n ≤ fuel → findFirst s.elems (s.queue k) fFind args fuel =
          some ((t.lists k).find? fun a => ((fFind a).run args 0).1)) ↔
        ∀ before a after, t.lists k = before ++ a :: after → (∀ b ∈ before, ((fFind b).run args 0).1 = false) →
          ((fFind a).run args (callAll args fFind before 0).2).1 = ((fFind a).run args 0).1)) ∧
    ∀ (m : Elems α) (bst : Bst.Tree α) (t : BinaryTree α) (fn : α → Body V Unit),
      SearchTree.Linked m.prev m.next bst.root t →
      ((∃ n, ∀ fuel, n ≤ fuel → Bst.traverse m fn args fuel bst = some ((SearchTree.inorder t).map (·, 0))) ↔
        ∀ a ∈ (SearchTree.inorder t).dropLast, (fn a).reads = false) := by
  constructor
  · intro s t k fFind h
    rw [← findAll_eq_iff (h.family.nodup k) fFind (fun a => ((fFind a).run args 0).1) 0]
    constructor
    · rintro ⟨n, hn⟩
      have hfound := hn (n + (t.lists k).length) (Nat.le_add_right ..)
      rw [h.findFirst k fFind args (Nat.le_add_left ..)] at hfound
      exact Option.some.inj hfound
    · intro hsame
      refine ⟨(t.lists k).length, fun fuel hfuel => ?_⟩
      rw [h.findFirst k fFind args hfuel, hsame]
  · intro m bst t fn h
    rw [← callAll_same_iff args fn (SearchTree.inorder t) 0]
    constructor
    · rintro ⟨n, hn⟩
      have hcalls := hn (n + (SearchTree.inorder t).length) (Nat.le_add_right ..)
      simp only [Bst.traverse, Bst.traverseInner_linked h fn args 0 (Nat.le_add_left ..), Option.map_some] at hcalls
      exact Option.some.inj hcalls
    · intro hsame
      refine ⟨(SearchTree.inorder t).length, fun fuel hfuel => ?_⟩
      simp only [Bst.traverse, Bst.traverseInner_linked h fn args 0 hfuel, Option.map_some, hsame]

/-- A predicate that reads nothing, and a callback that reads at the last node. -/
theorem variadic_arguments_two :
    (∃ n, ∀ fuel, n ≤ fuel → findFirst (pair none).elems ((pair none).queue ()) (fun a => .ret (a == 2)) (fun n : ℕ => n) fuel =
      some (some 2)) ∧
    ∃ n, ∀ fuel, n ≤ fuel → Bst.traverse ⟨fun _ => none, fun a : ℕ => if a = 1 then some 2 else none⟩
      (fun a => if a = 2 then .vaArg fun _ => .ret () else .ret ()) (fun n : ℕ => n) fuel ⟨some 1, fun a b => a - b⟩ =
        some [(1, 0), (2, 0)] := by
  obtain ⟨hfind, htraverse⟩ := variadic_arguments Unit ℕ ℕ fun n => n
  refine ⟨(hfind (pair none) _ () _ (pair_stands none)).2 ?_, ?_⟩
  · intro before a after _ _
    rfl
  · refine (htraverse _ ⟨some 1, fun a b => a - b⟩ (.node 1 .nil (.node 2 .nil .nil)) _ ?_).2 ?_
    · exact ⟨rfl, rfl, rfl, rfl, rfl⟩
    · decide

/-- The predicate compares its argument with the element: 2 is passed and 2 is in the queue, but the second call sees what is
behind it. -/
theorem variadic_arguments_consumed :
    findFirst (pair none).elems ((pair none).queue ()) (fun a => .vaArg fun v => .ret (v == a)) (fun n => n + 2) 2 =
      some none ∧
    [1, 2].find? (fun a => ((Body.vaArg fun v => .ret (v == a)).run (fun n => n + 2) 0).1) = some 2 ∧
    Bst.traverse ⟨fun _ => none, fun a : ℕ => if a = 1 then some 2 else none⟩ (fun _ => .vaArg fun _ => .ret ())
      (fun n : ℕ => n) 2 ⟨some 1, fun a b => a - b⟩ = some [(1, 0), (2, 1)] :=
  ⟨rfl, rfl, rfl⟩

end Cutils.KQueue
