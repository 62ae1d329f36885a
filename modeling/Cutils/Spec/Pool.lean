import Cutils.Lib.Reach
import Mathlib.Algebra.Group.Nat.Defs
import Mathlib.Logic.Function.Basic
import Mathlib.Data.List.Count

/-!
# The block pool (`pool.h`)

Threads `τ` call the pool operations; each operation is the atomic steps on shared memory
it makes. A block is its index among the pool's elements. The free queue is a bounded FIFO
queue with atomic operations.

`refs` are the references the clients hold: an allocation and a retain each give one to the
calling thread, a release takes one, and a thread may pass one on. A thread calls
`pool_retain`, `pool_free` and `pool_set_destructor` only on a block it has a reference to.
Destructors do not touch the pool.
-/

namespace Cutils.Blocks

def ELEMENT_HEADER_SANITY : BitVec 32 := 0xDEADBEEF
def ELEMENT_TRAILER_SANITY : BitVec 32 := 0xFACEB007

/-- `pool_header_t`; a null destructor is `none`. -/
structure Header where
  sanity : BitVec 32
  retainCount : BitVec 32
  destructor : Option ℕ
  destructorPrivate : ℕ
  deriving DecidableEq, Repr

structure Element where
  header : Header
  trailerSanity : BitVec 32
  deriving DecidableEq, Repr

/-- The two assertions every operation makes on its block. -/
def Element.sane (e : Element) : Bool :=
  e.header.sanity == ELEMENT_HEADER_SANITY && e.trailerSanity == ELEMENT_TRAILER_SANITY

/-- Where a thread is: outside the pool; in `pool_alloc_blocking` before the increment or
before the destructor is written; in `pool_free`, with the last reference dropped, before
the destructor call or before the enqueue. -/
inductive Pc
  | idle
  | addRef (block : ℕ) (fnDestroy : Option ℕ) (destructorPrivate : ℕ)
  | install (block : ℕ) (fnDestroy : Option ℕ) (destructorPrivate : ℕ)
  | destroy (block : ℕ)
  | enqueue (block : ℕ)
  deriving DecidableEq, Repr

/-- The block a thread has in hand while nobody has a reference to it. -/
def Pc.transit : Pc → Option ℕ
  | .addRef b _ _ | .destroy b | .enqueue b => some b
  | _ => none

/-- What happened to a block's destructor since its current allocation: what the header
held then, whether it was written since, and the destructor last installed. -/
structure Allocation where
  inherited : Option ℕ
  written : Bool
  installed : Option (ℕ × ℕ)
  deriving DecidableEq, Repr

/-- A release that dropped the last reference, with the destructor it called. -/
structure Release where
  block : ℕ
  allocation : Allocation
  called : Option (ℕ × ℕ)
  deriving DecidableEq, Repr

structure Pool (τ : Type) where
  numOfElements : ℕ
  queueSize : ℕ
  q : List ℕ
  elements : ℕ → Element
  pc : τ → Pc
  refs : List (τ × ℕ)
  /-- What each thread's last completed allocation returned, `none` for null. -/
  retval : τ → Option ℕ
  allocations : ℕ → Allocation
  releases : List Release
  tripped : Bool

inductive Act (τ : Type)
  | alloc (t : τ) (fnDestroy : Option ℕ) (destructorPrivate : ℕ)
  | retain (t : τ) (block : ℕ)
  | free (t : τ) (block : ℕ)
  | setDestructor (t : τ) (block : ℕ) (fnDestroy : Option ℕ) (destructorPrivate : ℕ)
  | pass (t t' : τ) (block : ℕ)
  | run (t : τ)
  deriving DecidableEq, Repr

namespace Pool

variable {τ : Type}

/-- `ts_queue_enqueue` on the free queue. -/
def enqueue (s : Pool τ) (b : ℕ) : Pool τ :=
  if s.q.length < s.queueSize then { s with q := s.q ++ [b] } else s

/-- The body of the loop of `pool_create`. -/
def createElement (s : Pool τ) (i : ℕ) : Pool τ :=
  -- the header is cleared, the guard words are set
  let e : Element := ⟨⟨ELEMENT_HEADER_SANITY, 0, none, 0⟩, ELEMENT_TRAILER_SANITY⟩
  enqueue { s with elements := Function.update s.elements i e } i

/-- `pool_create`, over storage with any contents. -/
def create (numOfElements queueSize : ℕ) (elements : ℕ → Element) : Pool τ :=
  let s : Pool τ := (List.range numOfElements).foldl createElement
    ⟨numOfElements, queueSize, [], elements, fun _ => .idle, [], fun _ => none,
      fun _ => ⟨none, false, none⟩, [], false⟩
  { s with allocations := fun b => ⟨(s.elements b).header.destructor, false, none⟩ }

def header (s : Pool τ) (b : ℕ) : Header := (s.elements b).header

def setHeader (s : Pool τ) (b : ℕ) (h : Header) : Pool τ :=
  { s with elements := Function.update s.elements b { s.elements b with header := h } }

def fetchAdd (s : Pool τ) (b : ℕ) : Pool τ :=
  s.setHeader b { s.header b with retainCount := (s.header b).retainCount + 1 }

def fetchSub (s : Pool τ) (b : ℕ) : Pool τ :=
  s.setHeader b { s.header b with retainCount := (s.header b).retainCount - 1 }

/-- The two stores of a destructor and its private data, as one step. -/
def writeDestructor (s : Pool τ) (b : ℕ) (fnDestroy : Option ℕ) (priv : ℕ) : Pool τ :=
  { s.setHeader b { s.header b with destructor := fnDestroy, destructorPrivate := priv } with
    allocations := Function.update s.allocations b
      { s.allocations b with written := true, installed := fnDestroy.map (·, priv) } }

variable [DecidableEq τ]

def setPc (s : Pool τ) (t : τ) (pc : Pc) : Pool τ := { s with pc := Function.update s.pc t pc }

/-- An operation of thread `t` on block `b`, past its assertions. -/
def guarded (s : Pool τ) (t : τ) (b : ℕ) (body : Pool τ) : Option (Pool τ) :=
  if s.pc t = .idle ∧ (t, b) ∈ s.refs then
    -- the guard words are asserted before anything is changed
    if (s.elements b).sane then some body else some { s with tripped := true }
  else none

/-- The dequeue of `pool_alloc_blocking`. -/
def allocStep (s : Pool τ) (t : τ) (fnDestroy : Option ℕ) (priv : ℕ) : Option (Pool τ) :=
  if s.pc t = .idle then
    match s.q with
    -- null, after the wait for a block
    | [] => some { s with retval := Function.update s.retval t none }
    | b :: rest => some { s.setPc t (.addRef b fnDestroy priv) with
        q := rest
        allocations := Function.update s.allocations b ⟨(s.header b).destructor, false, none⟩ }
  else none

/-- The decrement of `pool_free`. -/
def freeStep (s : Pool τ) (t : τ) (b : ℕ) : Pool τ :=
  let s' := { s.fetchSub b with refs := s.refs.erase (t, b) }
  -- the count before the decrement is asserted, and compared with 1
  if (s.header b).retainCount = 0 then { s' with tripped := true }
  else if (s.header b).retainCount = 1 then s'.setPc t (.destroy b)
  else s'

/-- The next step of the operation thread `t` is in. -/
def runStep (s : Pool τ) (t : τ) : Option (Pool τ) :=
  match s.pc t with
  | .idle => none
  | .addRef b fnDestroy priv =>
    if (s.elements b).sane then
      some { (s.fetchAdd b).setPc t (.install b fnDestroy priv) with refs := (t, b) :: s.refs }
    else some { s with tripped := true }
  | .install b fnDestroy priv =>
    -- without a destructor, the header keeps the one it has
    let s' := if fnDestroy.isSome then s.writeDestructor b fnDestroy priv else s
    some { s'.setPc t .idle with retval := Function.update s.retval t (some b) }
  | .destroy b =>
    some { s.setPc t (.enqueue b) with
      releases := s.releases ++
        [⟨b, s.allocations b, (s.header b).destructor.map (·, (s.header b).destructorPrivate)⟩] }
  | .enqueue b => some ((s.enqueue b).setPc t .idle)

def step (s : Pool τ) (a : Act τ) : Option (Pool τ) :=
  if s.tripped then none
  else match a with
  | .alloc t fnDestroy priv => s.allocStep t fnDestroy priv
  | .retain t b => s.guarded t b { s.fetchAdd b with refs := (t, b) :: s.refs }
  | .free t b => s.guarded t b (s.freeStep t b)
  | .setDestructor t b fnDestroy priv => s.guarded t b (s.writeDestructor b fnDestroy priv)
  | .pass t t' b =>
    if s.pc t = .idle ∧ (t, b) ∈ s.refs then some { s with refs := (t', b) :: s.refs.erase (t, b) }
    else none
  | .run t => s.runStep t

/-- A pool of `n` elements whose free queue has capacity `n`. -/
def system (τ : Type) [DecidableEq τ] (n : ℕ) : Sys.System (Pool τ) (Act τ) :=
  ⟨fun s => ∃ elements, s = create n n elements, step⟩

/-- The live references to block `b`. -/
def live (s : Pool τ) (b : ℕ) : ℕ := s.refs.countP (·.2 == b)

/-- No retain gives a block its 2³²-th live reference. -/
def NoWrap (s : Pool τ) : Act τ → Prop
  | .retain _ b => s.live b + 1 < 2 ^ 32
  | _ => True

instance (s : Pool τ) : (a : Act τ) → Decidable (s.NoWrap a)
  | .retain _ b => inferInstanceAs (Decidable (s.live b + 1 < 2 ^ 32))
  | .alloc _ _ _ | .free _ _ | .setDestructor _ _ _ _ | .pass _ _ _ | .run _ => isTrue trivial

end Pool

end Cutils.Blocks
