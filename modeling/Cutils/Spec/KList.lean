import Cutils.Lib.Links
import Cutils.Lib.Reach
import Mathlib.Data.Fintype.Basic

/-!
# Intrusive lists (`klist.h`)

Every element has two link fields; a list is the pointer to its first element. The macros are
functions on the links of all elements and on the pointer they are given.

`Lists` is a family of lists over one set of elements, with what each list should hold.
-/

namespace Cutils.KList

variable {α κ : Type} [DecidableEq α] [DecidableEq κ]

/-- The `KListElem`s of all elements. -/
structure Elems (α : Type) where
  prev : α → Option α
  next : α → Option α

namespace Elems

variable (m : Elems α)

/-- `KLIST_HEAD_PREPEND`, with the new head. -/
def headPrepend (head : Option α) (item : α) : Elems α × Option α :=
  match head with
  | some h =>
    (⟨Function.update (Function.update m.prev h (some item)) item none,
      Function.update m.next item (some h)⟩, some item)
  -- the links of the first element are left as they are
  | none => (m, some item)

/-- `KLIST_HEAD_POP`, with the new head and the element popped. -/
def headPop (head : Option α) : Elems α × Option α × Option α :=
  match head with
  -- only the popped element is cleared: the new head still leads back to it
  | some h => (⟨Function.update m.prev h none, Function.update m.next h none⟩, m.next h, some h)
  | none => (m, none, none)

/-- `KLIST_TAIL_APPEND`, with the new tail. -/
def tailAppend (tail : Option α) (item : α) : Elems α × Option α :=
  match tail with
  | some t =>
    (⟨Function.update m.prev item (some t),
      Function.update (Function.update m.next t (some item)) item none⟩, some item)
  -- as with the head: no link is written
  | none => (m, some item)

/-- The first statement of `KLIST_REMOVE_ELEM`. -/
def unlinkNext (elem : α) : Elems α :=
  match m.next elem with
  | some n => { m with prev := Function.update m.prev n (m.prev elem) }
  | none => m

/-- The second statement of `KLIST_REMOVE_ELEM`. -/
def unlinkPrev (elem : α) : Elems α :=
  match m.prev elem with
  | some p => { m with next := Function.update m.next p (m.next elem) }
  | none => m

/-- `KLIST_REMOVE_ELEM`. -/
def removeElem (elem : α) : Elems α :=
  let m' := (m.unlinkNext elem).unlinkPrev elem
  ⟨Function.update m'.prev elem none, Function.update m'.next elem none⟩

/-- `KLIST_HEAD_REMOVE_ELEM`, with the new head. -/
def headRemoveElem (head : Option α) (elem : α) : Elems α × Option α :=
  (m.removeElem elem, if head = some elem then m.next elem else head)

end Elems

/-- The lists `κ` over the elements `α`. `lists`: what each should hold. -/
structure Lists (κ α : Type) where
  elems : Elems α
  head : κ → Option α
  lists : κ → List α

inductive Op (κ α : Type)
  | prepend (k : κ) (item : α)
  | pop (k : κ)
  | remove (k : κ) (elem : α)
  deriving DecidableEq, Repr

/-- The list an operation works on. -/
def Op.list : Op κ α → κ
  | .prepend k _ | .pop k | .remove k _ => k

namespace Lists

/-- All links and heads null. -/
def empty (κ α : Type) : Lists κ α := ⟨⟨fun _ => none, fun _ => none⟩, fun _ => none, fun _ => []⟩

variable (s : Lists κ α)

/-- The element is in no list. -/
def Unlisted (a : α) : Prop := ∀ k, a ∉ s.lists k

instance [Fintype κ] (a : α) : Decidable (s.Unlisted a) :=
  inferInstanceAs (Decidable (∀ k, a ∉ s.lists k))

/-- Write back an operation's result for list `k`. -/
def put (k : κ) (r : Elems α × Option α) (l : List α) : Lists κ α :=
  ⟨r.1, Function.update s.head k r.2, Function.update s.lists k l⟩

/-- An operation: an element in no list is prepended, a member is removed. -/
def Enabled : Op κ α → Prop
  | .prepend _ item => s.Unlisted item
  | .pop _ => True
  | .remove k elem => elem ∈ s.lists k

instance [Fintype κ] : (op : Op κ α) → Decidable (s.Enabled op)
  | .prepend _ item => inferInstanceAs (Decidable (s.Unlisted item))
  | .pop _ => isTrue trivial
  | .remove k elem => inferInstanceAs (Decidable (elem ∈ s.lists k))

def apply : Op κ α → Lists κ α
  | .prepend k item => s.put k (s.elems.headPrepend (s.head k) item) (item :: s.lists k)
  | .pop k =>
    let r := s.elems.headPop (s.head k)
    s.put k (r.1, r.2.1) (s.lists k).tail
  | .remove k elem => s.put k (s.elems.headRemoveElem (s.head k) elem) ((s.lists k).erase elem)

def system (κ α : Type) [DecidableEq κ] [DecidableEq α] : Sys.System (Lists κ α) (Op κ α) :=
  ⟨fun s => s = empty κ α, fun s op => some (s.apply op)⟩

end Lists

end Cutils.KList
