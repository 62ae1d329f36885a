import Cutils.Spec.KList
import Cutils.Spec.VaList
import Mathlib.Data.Int.Notation

/-!
# The binary search tree (`bst.h`, `bst.c`)

A tree of `KListElem`s: `prev` is the left link of a node and `next` the right one. The comparison is client code; of its
result only the sign is used. The descents are followed for `fuel` nodes, with none if they need more.

`bst_traverse` hands its `va_list` down the recursion. Its callback leaves the tree alone.
-/

namespace Cutils.Bst

open KList VaList

variable {α V : Type} [DecidableEq α]

/-- `bst_t`. -/
structure Tree (α : Type) where
  root : Option α
  fLess : α → α → ℤ

/-- `bst_init`. -/
def init (fLess : α → α → ℤ) : Tree α := ⟨none, fLess⟩

section Insert

variable (fLess : α → α → ℤ) (m : Elems α) (elem : α)

/-- The loop of `bst_insert`, from the node `current` on: the last node on the way. -/
def descend : ℕ → α → Option α
  | 0, _ => none
  | fuel + 1, current =>
    match if fLess elem current < 0 then m.prev current else m.next current with
    | some child => descend fuel child
    | none => some current

/-- The new leaf at its parent. -/
def attach (parent : α) : Elems α :=
  if fLess elem parent < 0 then { m with prev := Function.update m.prev parent (some elem) }
  else { m with next := Function.update m.next parent (some elem) }

/-- `elem->prev = elem->next = 0`. -/
def clear : Elems α := ⟨Function.update m.prev elem none, Function.update m.next elem none⟩

end Insert

/-- `bst_insert`. -/
def insert (fuel : ℕ) (m : Elems α) (bst : Tree α) (elem : α) : Option (Elems α × Tree α) :=
  let m := clear m elem
  match bst.root with
  | none => some (m, { bst with root := some elem })
  | some root => (descend bst.fLess m elem fuel root).map fun parent => (attach bst.fLess m elem parent, bst)

/-- A sequence of `bst_insert` calls. -/
def insertAll (fuel : ℕ) : Elems α → Tree α → List α → Option (Elems α × Tree α)
  | m, bst, [] => some (m, bst)
  | m, bst, elem :: elems => (insert fuel m bst elem).bind fun r => insertAll fuel r.1 r.2 elems

/-- `bst_search_inner`; NULL is `none`. -/
def searchInner (m : Elems α) (key : α) (less : α → α → ℤ) : ℕ → Option α → Option (Option α)
  | _, none => some none
  | 0, some _ => none
  | fuel + 1, some root =>
    if less key root = 0 then some (some root)
    else if less key root < 0 then searchInner m key less fuel (m.prev root)
    else searchInner m key less fuel (m.next root)

/-- `bst_search`. -/
def search (fuel : ℕ) (m : Elems α) (bst : Tree α) (key : α) : Option (Option α) :=
  searchInner m key bst.fLess fuel bst.root

section Traverse

variable (m : Elems α) (fn : α → Body V Unit) (args : ℕ → V)

/-- `bst_traverse_inner`: the calls of `fn`, each with the cursor it is given, and the cursor at the end. -/
def traverseInner : ℕ → Option α → ℕ → Option (List (α × ℕ) × ℕ)
  | _, none, cursor => some ([], cursor)
  | 0, some _, _ => none
  | fuel + 1, some root, cursor =>
    (traverseInner fuel (m.prev root) cursor).bind fun l =>
      (traverseInner fuel (m.next root) ((fn root).run args l.2).2).map fun r =>
        (l.1 ++ (root, l.2) :: r.1, r.2)

/-- `bst_traverse`: the calls of `fn`. -/
def traverse (fuel : ℕ) (bst : Tree α) : Option (List (α × ℕ)) :=
  (traverseInner m fn args fuel bst.root 0).map Prod.fst

end Traverse

end Cutils.Bst
