import Cutils.Lib.History
import Cutils.Lib.Simulation
import Cutils.Spec.Notifier

/-!
# Threads at a notifier (`notifier.c`)

Any number of calls interleave; between its lock and its unlock a call takes one step for each thing it does: the
category and the links of a block, the pool, and every call of `execute_f` by itself. An allocation clears its block
after the unlock, while other threads may be in their critical sections. The assertions at the heads of the functions
are made before the lock.

`mutex_lock` may fail on a held mutex, and its callers go on (`lockFails`). `execute_f` does not call the notifier.

`held` and `listed` are what the clients have: blocks that an allocation returned, and blocks whose registration has
returned. A client registers what it has, once, and deregisters what it has registered, once.
-/

namespace Cutils.Notify

open KList Blocks

/-- Where a call is in its critical section: it has the mutex; a registration has written the block's category; a
deregistration has taken the block out of its list; a post is at the test of its loop; or about to call `execute_f`,
with the next element read. -/
inductive Inside
  | start
  | marked
  | unlisted
  | walk (elem : Option ℕ)
  | calling (elem : ℕ) (next : Option ℕ)
  deriving DecidableEq, Repr

/-- Where a call is; `clear` is between the unlock of an allocation and its `memset`. -/
inductive Place
  | check
  | lock
  | inside (k : Inside)
  | unlock (answer : Option ℕ)
  | clear (block : ℕ)
  | returned (answer : Option ℕ)
  deriving DecidableEq, Repr

structure ThreadCall (δ : Type) where
  request : Op δ
  place : Place
  deriving DecidableEq, Repr

/-- Between `mutex_lock` and `mutex_unlock`. -/
def Place.critical : Place → Bool
  | .inside _ | .unlock _ => true
  | _ => false

/-- Not there, and with nothing to clear. -/
def Place.quiet : Place → Bool
  | .inside _ | .unlock _ | .clear _ => false
  | _ => true

variable {δ : Type}

/-- The assertion at the head of a function. -/
def Notifier.check (n : Notifier) : Op δ → Bool
  | .allocate => true
  | .register category _ | .post category _ => category < n.totalNotificationCategories
  | .deregister block => n.category block < n.totalNotificationCategories

/-- The `memset` of a block. -/
def Notifier.clear (n : Notifier) (b : ℕ) : Notifier :=
  { n with
    elems := ⟨Function.update n.elems.prev b none, Function.update n.elems.next b none⟩
    category := Function.update n.category b 0 }

/-- The notifier, its threads, and what has happened; `executed` has the calls of `execute_f`, each with the post that
made it. -/
structure Threads (δ : Type) where
  notifier : Notifier
  owner : Option ℕ
  calls : List (ThreadCall δ)
  executed : List (ℕ × Call δ)
  held : List ℕ
  listed : List ℕ
  fault : Option Fault

inductive Act (δ : Type)
  | call (request : Op δ)
  | lock (i : ℕ)
  | lockFails (i : ℕ)
  | run (i : ℕ)
  deriving DecidableEq, Repr

namespace Threads

variable (s : Threads δ)

def setPlace (i : ℕ) (c : ThreadCall δ) (place : Place) : Threads δ :=
  { s with calls := s.calls.set i { c with place := place } }

/-- A client makes a call, and hands over its block. -/
def callStep (request : Op δ) : Threads δ :=
  let s' := { s with calls := s.calls ++ [⟨request, .check⟩] }
  match request with
  | .register _ b => { s' with held := s.held.erase b }
  | .deregister b => { s' with listed := s.listed.erase b }
  | _ => s'

/-- One step of a critical section. -/
def insideStep (i : ℕ) (c : ThreadCall δ) (k : Inside) : Option (Threads δ) :=
  match k, c.request with
  | .start, .allocate =>
    match s.notifier.pool.alloc with
    | (some b, pool) => some { s.setPlace i c (.unlock (some b)) with notifier := { s.notifier with pool := pool } }
    | (none, _) => some { s with fault := some .assertion }
  | .start, .register category b =>
    some { s.setPlace i c (.inside .marked) with
      notifier := { s.notifier with category := Function.update s.notifier.category b category } }
  | .marked, .register category b =>
    let r := s.notifier.elems.headPrepend (s.notifier.notifArray category) b
    some { s.setPlace i c (.unlock none) with
      notifier := { s.notifier with
        elems := r.1
        notifArray := Function.update s.notifier.notifArray category r.2 } }
  | .start, .deregister b =>
    match s.notifier.unlist b with
    | .ok n => some { s.setPlace i c (.inside .unlisted) with notifier := n }
    | .error f => some { s with fault := some f }
  | .unlisted, .deregister b =>
    match s.notifier.pool.release b with
    | some pool => some { s.setPlace i c (.unlock none) with notifier := { s.notifier with pool := pool } }
    | none => some { s with fault := some .assertion }
  | .start, .post category _ => some (s.setPlace i c (.inside (.walk (s.notifier.notifArray category))))
  | .walk none, .post _ _ => some (s.setPlace i c (.unlock none))
  | .walk (some e), .post _ _ => some (s.setPlace i c (.inside (.calling e (s.notifier.elems.next e))))
  | .calling e next, .post _ data =>
    -- `Poster`
    some { s.setPlace i c (.inside (.walk next)) with
      executed := s.executed ++ [(i, ⟨e, s.notifier.category e, data⟩)] }
  | _, _ => none

/-- The unlock; what the client has afterwards. -/
def unlockStep (i : ℕ) (c : ThreadCall δ) (answer : Option ℕ) : Threads δ :=
  match c.request, answer with
  | .allocate, some b => { s.setPlace i c (.clear b) with owner := none }
  | .register _ b, _ => { s.setPlace i c (.returned answer) with owner := none, listed := b :: s.listed }
  | _, _ => { s.setPlace i c (.returned answer) with owner := none }

def runStep (i : ℕ) (c : ThreadCall δ) : Option (Threads δ) :=
  match c.place with
  | .check =>
    if s.notifier.check c.request then some (s.setPlace i c .lock) else some { s with fault := some .assertion }
  | .inside k => s.insideStep i c k
  | .unlock answer => some (s.unlockStep i c answer)
  | .clear b =>
    some { s.setPlace i c (.returned (some b)) with notifier := s.notifier.clear b, held := b :: s.held }
  | .lock | .returned _ => none

/-- `mutex_lock`; if it fails on a held mutex, the caller goes on. -/
def lockStep (i : ℕ) (c : ThreadCall δ) (gets : Bool) : Option (Threads δ) :=
  if c.place = .lock ∧ (gets = true ↔ s.owner = none) then
    some { s.setPlace i c (.inside .start) with owner := if gets then some i else s.owner }
  else none

def step (a : Act δ) : Option (Threads δ) :=
  if s.fault.isSome then none
  else match a with
  | .call request => some (s.callStep request)
  | .lock i => (s.calls[i]?).bind fun c => s.lockStep i c true
  | .lockFails i => (s.calls[i]?).bind fun c => s.lockStep i c false
  | .run i => (s.calls[i]?).bind (s.runStep i)

/-- Threads at a notifier that was just initialised. -/
def system (δ : Type) (numOfElements : ℕ) (totalCategories : UInt32) : Sys.System (Threads δ) (Act δ) :=
  ⟨fun s => ∃ elems category,
    s = ⟨.init numOfElements totalCategories elems category, none, [], [], [], [], none⟩, step⟩

/-- **What clients may do**, and that the lock works: categories there are, blocks that they have, and an allocation
finds a free block. -/
def Proper : Act δ → Prop
  | .call (.register category b) => category < s.notifier.totalNotificationCategories ∧ b ∈ s.held
  | .call (.deregister b) => b ∈ s.listed
  | .call (.post category _) => category < s.notifier.totalNotificationCategories
  | .lockFails _ => False
  | .run i => ∀ c, s.calls[i]? = some c → c.request = .allocate → c.place = .inside .start → s.notifier.pool.free ≠ []
  | _ => True

def Quiet : Prop := ∀ c ∈ s.calls, c.place.quiet = true

/-- The calls of `execute_f` by post `i`. -/
def executedBy (i : ℕ) : List (Call δ) := (s.executed.filter (·.1 == i)).map Prod.snd

end Threads

/-- What a call does to the notifier; `posted` has the blocks that the post called. -/
inductive Effect (δ : Type)
  | allocated (block : ℕ)
  | registered (category : UInt32) (block : ℕ)
  | deregistered (block : ℕ)
  | posted (category : UInt32) (data : δ) (blocks : List ℕ)
  deriving DecidableEq, Repr

abbrev Event (δ : Type) := History.Event (Op δ) (Effect δ) (Option ℕ)

/-- The effect of call `i` when it comes to its unlock with `answer`. -/
def Threads.effects (s : Threads δ) (i : ℕ) (request : Op δ) (answer : Option ℕ) : List (Effect δ) :=
  match request, answer with
  | .allocate, some b => [.allocated b]
  | .allocate, none => []
  | .register category b, _ => [.registered category b]
  | .deregister b, _ => [.deregistered b]
  | .post category data, _ => [.posted category data ((s.executedBy i).map (·.block))]

/-- What call `i` adds to the history when it moves from `place` to `place'`. -/
def Threads.events (s : Threads δ) (i : ℕ) (request : Op δ) (place place' : Place) : List (Event δ) :=
  match place, place' with
  | .inside _, .unlock answer => (s.effects i request answer).map (.effect i)
  | .unlock _, .returned answer | .clear _, .returned answer => [.returned i answer]
  | _, _ => []

/-- The history after a step. -/
def Threads.note (s : Threads δ) (a : Act δ) (s' : Threads δ) (h : List (Event δ)) : List (Event δ) :=
  match a with
  | .call request => h ++ [.invoked s.calls.length request]
  | .run i =>
    match s.calls[i]?, s'.calls[i]? with
    | some c, some c' => h ++ s'.events i c.request c.place c'.place
    | _, _ => h
  | _ => h

/-- Threads at a notifier, with the history of their calls. -/
def Threads.watched (δ : Type) (numOfElements : ℕ) (totalCategories : UInt32) :
    Sys.System (Threads δ × List (Event δ)) (Act δ) :=
  (Threads.system δ numOfElements totalCategories).recorded [] Threads.note

/-- An effect on the notifier whose calls are whole: it is one its client may ask for; an allocation gives the first
free block, and a post has called the blocks of its category's list, in the list's order. -/
def Run.does (r : Run δ) (e : Effect δ) (r' : Run δ) : Prop :=
  match e with
  | .allocated b => r.notifier.pool.free.head? = some b ∧ r.step .allocate = some r'
  | .registered category b => r.Enabled (.register category b) ∧ r.step (.register category b) = some r'
  | .deregistered b => r.Enabled (.deregister b) ∧ r.step (.deregister b) = some r'
  | .posted category data blocks => r.registered category = blocks ∧ r.Enabled (.post category data) ∧
    r.step (.post category data) = some r'

/-- What a call that comes back with `answer` has done. -/
inductive Did (s : Threads δ) (i : ℕ) : Op δ → Option ℕ → Effect δ → Prop
  | allocate (b : ℕ) : Did s i .allocate (some b) (.allocated b)
  | register (category : UInt32) (b : ℕ) : Did s i (.register category b) none (.registered category b)
  | deregister (b : ℕ) : Did s i (.deregister b) none (.deregistered b)
  | post (category : UInt32) (data : δ) (blocks : List ℕ) :
      s.executedBy i = blocks.map (fun b => ⟨b, category, data⟩) →
      Did s i (.post category data) none (.posted category data blocks)

/-- **What a history says of call `i`.** -/
def Threads.Told (s : Threads δ) (h : List (Event δ)) (i : ℕ) (c : ThreadCall δ) : Prop :=
  match c.place with
  | .unlock answer => ∃ e, Did s i c.request answer e ∧
    History.ofCall i h = [.invoked i c.request, .effect i e]
  | .clear b => ∃ e, Did s i c.request (some b) e ∧
    History.ofCall i h = [.invoked i c.request, .effect i e]
  | .returned answer => ∃ e, Did s i c.request answer e ∧
    History.ofCall i h = [.invoked i c.request, .effect i e, .returned i answer]
  | _ => History.ofCall i h = [.invoked i c.request]

end Cutils.Notify
