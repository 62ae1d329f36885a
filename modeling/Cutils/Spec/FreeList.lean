import Cutils.Spec.KList

/-!
# The free list (`free_list.h`)

A stack of free items, threaded through the links of the items, with a counter. `α` are addresses; the store is
a list of them. Link fields may hold any address: `mapped` are those at which there is a `KListElem` that may be
written. A store through another one (unmapped memory, or memory that is something else) is a fault, which ends
the run.

Clients hold the items they got. They put back only those, and write what they like into their links.
-/

namespace Cutils.Free

open KList

variable {α : Type} [DecidableEq α]

/-- `free_list_t`, with the links of all elements. -/
structure FreeList (α : Type) where
  elems : Elems α
  head : Option α
  itemCount : ℕ
  currentAvailable : ℕ

namespace FreeList

variable (f : FreeList α)

/-- `KLIST_HEAD_PREPEND` and the increment of the counter. -/
def prepend (item : α) : FreeList α :=
  let r := f.elems.headPrepend f.head item
  { f with elems := r.1, head := r.2, currentAvailable := f.currentAvailable + 1 }

/-- `free_list_init`, over memory with any contents. -/
def init (elems : Elems α) (store : List α) : FreeList α := store.foldl prepend ⟨elems, none, store.length, 0⟩

/-- `free_list_get`. -/
def get : FreeList α × Option α :=
  -- the counter is asked as well: the head alone may be stale
  if f.head.isSome && 0 < f.currentAvailable then
    let r := f.elems.headPop f.head
    ({ f with elems := r.1, head := r.2.1, currentAvailable := f.currentAvailable - 1 }, r.2.2)
  else (f, none)

/-- The macro stores through `head`. -/
def wild (mapped : α → Bool) : Bool := f.head.any fun h => !mapped h

/-- `free_list_put`; none for a fault. -/
def put (mapped : α → Bool) (item : α) : Option (FreeList α × Bool) :=
  if f.currentAvailable < f.itemCount then
    -- `KLIST_HEAD_PREPEND` writes to the head that it finds
    if f.wild mapped then none else some (f.prepend item, true)
  else some (f, false)

end FreeList

/-- The list and its clients. `held`: the items that clients hold. -/
structure State (α : Type) where
  list : FreeList α
  held : List α
  fault : Bool

inductive Act (α : Type)
  | get
  | put (item : α)
  | write (item : α) (prev next : Option α)
  deriving DecidableEq, Repr

namespace State

variable (s : State α)

def step (mapped : α → Bool) (a : Act α) : Option (State α) :=
  if s.fault then none
  else match a with
  | .get => some { s with list := s.list.get.1, held := s.list.get.2.toList ++ s.held }
  | .put item =>
    if item ∈ s.held then
      match s.list.put mapped item with
      | some (list, _) => some { s with list := list, held := s.held.erase item }
      | none => some { s with fault := true }
    else none
  | .write item prev next =>
    if item ∈ s.held then
      some { s with list := { s.list with
        elems := ⟨Function.update s.list.elems.prev item prev, Function.update s.list.elems.next item next⟩ } }
    else none

def system (mapped : α → Bool) (store : List α) : Sys.System (State α) (Act α) :=
  ⟨fun s => ∃ elems, s = ⟨.init elems store, [], false⟩, (step · mapped)⟩

/-- **The list is not exhausted with a stale head**: a put that finds no free item finds a head that is null or
may be written. -/
def Tame (mapped : α → Bool) (s : State α) : Act α → Prop
  | .put _ => s.list.currentAvailable = 0 → s.list.wild mapped = false
  | _ => True

end State

end Cutils.Free
