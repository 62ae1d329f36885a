import Cutils.Spec.KList
import Cutils.Spec.PoolCalls

/-!
# The notifier (`notifier.h`, `notifier.c`)

Blocks come from a pool and are registered in one intrusive list a category. A block is its index
in the pool. `execute_f` is client code that does not call the notifier: the model records its
calls.

Every call holds the notifier's mutex, except that `notifier_allocate_notification_block` clears the
block it returns after it has let go of it; calls are whole.
-/

namespace Cutils.Notify

open KList Blocks

/-- A failed assertion, or a list that does not end. -/
inductive Fault
  | assertion
  | endless
  deriving DecidableEq, Repr

/-- A call of `execute_f`, with data `δ`. -/
structure Call (δ : Type) where
  block : ℕ
  category : UInt32
  notificationData : δ
  deriving DecidableEq, Repr

/-- `notifier_t` and its blocks. -/
structure Notifier where
  totalNotificationCategories : UInt32
  notifArray : UInt32 → Option ℕ
  elems : Elems ℕ
  category : ℕ → UInt32
  pool : Store

namespace Notifier

variable {δ : Type}

/-- `notifier_init`, over block memory with any contents. -/
def init (numOfElements : ℕ) (totalCategories : UInt32) (elems : Elems ℕ) (category : ℕ → UInt32) :
    Notifier :=
  ⟨totalCategories, fun _ => none, elems, category, (Store.fresh numOfElements).create⟩

variable (n : Notifier)

/-- `notifier_allocate_notification_block`: the block is returned cleared. -/
def allocateNotificationBlock : Except Fault (ℕ × Notifier) :=
  match n.pool.alloc with
  | (some b, pool) => .ok (b, { n with
      pool := pool
      elems := ⟨Function.update n.elems.prev b none, Function.update n.elems.next b none⟩
      category := Function.update n.category b 0 })
  | (none, _) => .error .assertion

/-- `notifier_register_notification_block`. -/
def registerNotificationBlock (category : UInt32) (block : ℕ) : Except Fault Notifier :=
  if category < n.totalNotificationCategories then
    -- whether the block is in a list already is not asked
    let r := n.elems.headPrepend (n.notifArray category) block
    .ok { n with
      category := Function.update n.category block category
      elems := r.1
      notifArray := Function.update n.notifArray category r.2 }
  else .error .assertion

/-- `notifier_deregister_notification_block`, without its `pool_free`. -/
def unlist (block : ℕ) : Except Fault Notifier :=
  let category := n.category block
  if n.notifArray category = some block then
    -- the first of its list is popped, so that the head moves on
    let r := n.elems.headPop (n.notifArray category)
    if r.2.2 = some block then
      .ok { n with elems := r.1, notifArray := Function.update n.notifArray category r.2.1 }
    else .error .assertion
  -- any other is taken out by its links alone
  else .ok { n with elems := n.elems.removeElem block }

/-- `notifier_deregister_notification_block`. -/
def deregisterNotificationBlock (block : ℕ) : Except Fault Notifier :=
  if n.category block < n.totalNotificationCategories then
    match n.unlist block with
    | .ok n' =>
      match n'.pool.release block with
      | some pool => .ok { n' with pool := pool }
      | none => .error .assertion
    | .error f => .error f
  else .error .assertion

/-- `notifier_post_notification`, with the calls of `Poster`. A walk over more blocks than there
are comes back to one of them, and goes on for ever. -/
def postNotification (category : UInt32) (data : δ) : Except Fault (List (Call δ)) :=
  if category < n.totalNotificationCategories then
    match Links.walk n.elems.next n.pool.numOfElements (n.notifArray category) with
    | some blocks => .ok (blocks.map fun b => ⟨b, n.category b, data⟩)
    | none => .error .endless
  else .error .assertion

end Notifier

inductive Op (δ : Type)
  | allocate
  | register (category : UInt32) (block : ℕ)
  | deregister (block : ℕ)
  | post (category : UInt32) (data : δ)
  deriving DecidableEq, Repr

/-- A run. `allocated`: the blocks the clients have and have not registered. `registered`: those
registered under each category, the last registered first. `calls`: the calls of `execute_f`. -/
structure Run (δ : Type) where
  notifier : Notifier
  fault : Option Fault
  allocated : List ℕ
  registered : UInt32 → List ℕ
  calls : List (Call δ)

namespace Run

variable {δ : Type} (r : Run δ)

/-- **What a client may do**: allocate while a block is free, register a block it has allocated,
deregister a registered one, and post to a category there is. -/
def Enabled : Op δ → Prop
  | .allocate => r.notifier.pool.free ≠ []
  | .register category block =>
    category < r.notifier.totalNotificationCategories ∧ block ∈ r.allocated
  | .deregister block => ∃ category, block ∈ r.registered category
  | .post category _ => category < r.notifier.totalNotificationCategories

def step (op : Op δ) : Option (Run δ) :=
  if r.fault.isSome then none
  else match op with
    | .allocate =>
      match r.notifier.allocateNotificationBlock with
      | .ok (b, n) => some { r with notifier := n, allocated := b :: r.allocated }
      | .error f => some { r with fault := some f }
    | .register category block =>
      match r.notifier.registerNotificationBlock category block with
      | .ok n => some { r with
          notifier := n
          allocated := r.allocated.erase block
          registered := Function.update r.registered category (block :: r.registered category) }
      | .error f => some { r with fault := some f }
    | .deregister block =>
      match r.notifier.deregisterNotificationBlock block with
      | .ok n => some { r with notifier := n, registered := fun c => (r.registered c).erase block }
      | .error f => some { r with fault := some f }
    | .post category data =>
      match r.notifier.postNotification category data with
      | .ok calls => some { r with calls := r.calls ++ calls }
      | .error f => some { r with fault := some f }

def system (δ : Type) (numOfElements : ℕ) (totalCategories : UInt32) : Sys.System (Run δ) (Op δ) :=
  ⟨fun r => ∃ elems category,
    r = ⟨.init numOfElements totalCategories elems category, none, [], fun _ => [], []⟩, step⟩

end Run

end Cutils.Notify
