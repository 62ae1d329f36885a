import Cutils.Lib.Bytes
import Cutils.Lib.Layout
import Cutils.Spec.Pool

/-!
# The block pool, byte by byte (`pool.h`)

In `Spec/Pool.lean` an element is a header and a trailer word. Here it is a part of the storage that `POOL_STORE_DECL`
declares, in a memory of bytes, and the pool finds header and trailer at distances from the pointer to the data. A block
is the number of its element, `data` the pointer to it.

The steps are those of `Spec/Pool.lean`, but that a thread may call an operation on any element, that a pool may be created
again at any time, and that clients write to the data bytes of the blocks they hold; a destructor writes to those of
its block.
-/

namespace Cutils.Blocks

open Bytes Layout

/-- What the compiler knows of the target. `atomic_uint` is laid out as `uint32_t`. -/
structure Target where
  byteOrder : ByteOrder
  uint32 : CType
  pointer : CType
  uint32_size : uint32.size = 4

/-- `POOL_STORE_DECL`. -/
structure StoreDecl where
  target : Target
  numElems : ℕ
  elementSize : ℕ
  align : ℕ
  power : ∃ k, align = 2 ^ k

namespace StoreDecl

variable (d : StoreDecl)

/-- `sanity`, `retain_count`, `destructor` and `destructor_private`. -/
def headerMembers : List CType := [d.target.uint32, d.target.uint32, d.target.pointer, d.target.pointer]

/-- `pool_header_t`. -/
def header : CType := struct d.headerMembers

/-- `header`, `data` and `trailer_sanity`. -/
def elementMembers : List CType := [d.header, ⟨d.elementSize, d.align, d.power⟩, d.target.uint32]

/-- The type of `elements[0]`. -/
def element : CType := struct d.elementMembers

/-- A pointer; null is 0. -/
abbrev Pointer : Type := BitVec (8 * d.target.pointer.size)

end StoreDecl

/-- `pool_create_params_t`. -/
structure CreateParams where
  numOfElements : UInt32
  elementSizeRequested : UInt32
  totalElementSize : UInt32
  pBacking : ℕ
  offsetDataFromHeader : ℕ
  /-- The capacity in `queue_params`. -/
  queueSize : ℕ

/-- `POOL_CREATE_INIT`, of storage at `elements`. -/
def StoreDecl.createInit (d : StoreDecl) (elements : ℕ) : CreateParams where
  numOfElements := UInt32.ofNat d.numElems
  elementSizeRequested := UInt32.ofNat d.elementSize
  totalElementSize := UInt32.ofNat d.element.size
  pBacking := elements
  offsetDataFromHeader := offsetof d.elementMembers 1 - offsetof d.elementMembers 0
  queueSize := d.numElems

/-- The assertions of the pool operations. -/
inductive Assertion
  | headerSanity
  | trailerSanity
  | retainCount
  deriving DecidableEq, Repr

namespace PoolMemory

/-- Where a thread is, as in `Spec/Pool.lean`, with pointers `π`. -/
inductive Pc (π : Type)
  | idle
  | addRef (block : ℕ) (fnDestroy destructorPrivate : π)
  | install (block : ℕ) (fnDestroy destructorPrivate : π)
  | destroy (block : ℕ)
  | enqueue (block : ℕ)
  deriving DecidableEq, Repr

inductive Act (π τ : Type)
  | create
  | alloc (t : τ) (fnDestroy destructorPrivate : π)
  | retain (t : τ) (block : ℕ)
  | free (t : τ) (block : ℕ)
  | setDestructor (t : τ) (block : ℕ) (fnDestroy destructorPrivate : π)
  | pass (t t' : τ) (block : ℕ)
  | run (t : τ)
  /-- The client stores a byte at `data[i]`. -/
  | write (t : τ) (block i : ℕ) (value : BitVec 8)
  deriving DecidableEq, Repr

end PoolMemory

structure PoolMemory (d : StoreDecl) (τ : Type) where
  mem : Memory
  numOfElements : ℕ
  elementSize : ℕ
  offsetDataFromHeader : ℕ
  /-- The pointers that `pool_create` enqueued. -/
  data : ℕ → ℕ
  queueSize : ℕ
  q : List ℕ
  pc : τ → PoolMemory.Pc d.Pointer
  refs : List (τ × ℕ)
  retval : τ → Option ℕ
  /-- The destructor calls: block, destructor and private data. -/
  calls : List (ℕ × d.Pointer × d.Pointer)
  tripped : Option Assertion

namespace PoolMemory

variable {d : StoreDecl} {τ : Type} (m : PoolMemory d τ) (b : ℕ)

/-- `p_mem - p_pool->offset_data_from_header`. -/
def header : ℕ := m.data b - m.offsetDataFromHeader

/-- The address of member `i` of the header. -/
def member (i : ℕ) : ℕ := m.header b + offsetof d.headerMembers i

def sanity : BitVec 32 := load 32 d.target.byteOrder m.mem (m.member b 0)

def retainCount : BitVec 32 := load 32 d.target.byteOrder m.mem (m.member b 1)

def destructor : d.Pointer := load _ d.target.byteOrder m.mem (m.member b 2)

def destructorPrivate : d.Pointer := load _ d.target.byteOrder m.mem (m.member b 3)

/-- `*((uint32_t *)(p_mem + p_pool->element_size))`. -/
def trailerSanity : BitVec 32 := load 32 d.target.byteOrder m.mem (m.data b + m.elementSize)

/-- The assertions every operation makes on its block: the one that fails. -/
def check : Option Assertion :=
  -- the header is looked at first
  if m.sanity b ≠ ELEMENT_HEADER_SANITY then some .headerSanity
  else if m.trailerSanity b ≠ ELEMENT_TRAILER_SANITY then some .trailerSanity
  else none

/-- A store of one of the pool operations. -/
def assign {w : ℕ} (addr : ℕ) (x : BitVec w) : PoolMemory d τ := { m with mem := store d.target.byteOrder m.mem addr x }

/-- `ts_queue_enqueue` on the free queue. -/
def enqueue : PoolMemory d τ := if m.q.length < m.queueSize then { m with q := m.q ++ [b] } else m

/-- The stores of the loop of `pool_create`, for an element whose data is at `data`. -/
def initElement (params : CreateParams) (mem : Memory) (data : ℕ) : Memory :=
  let header := data - params.offsetDataFromHeader
  let mem := storeBytes mem header (List.replicate d.header.size 0)
  -- the `memset` of the header, and the two guard words around the count
  let mem := store d.target.byteOrder mem (header + offsetof d.headerMembers 0) ELEMENT_HEADER_SANITY
  let mem := store d.target.byteOrder mem (header + offsetof d.headerMembers 1) (0 : BitVec 32)
  store d.target.byteOrder mem (data + params.elementSizeRequested.toNat) ELEMENT_TRAILER_SANITY

/-- The body of the loop of `pool_create`. -/
def createElement (params : CreateParams) (i : ℕ) : PoolMemory d τ :=
  -- the product is a `uint32_t`
  let data := params.pBacking + (UInt32.ofNat i * params.totalElementSize).toNat + params.offsetDataFromHeader
  enqueue { m with mem := initElement (d := d) params m.mem data, data := Function.update m.data i data } i

/-- `pool_create`. -/
def create (params : CreateParams) : PoolMemory d τ :=
  (List.range params.numOfElements.toNat).foldl (fun m i => m.createElement params i)
    { m with
      numOfElements := params.numOfElements.toNat
      elementSize := params.elementSizeRequested.toNat
      offsetDataFromHeader := params.offsetDataFromHeader
      queueSize := params.queueSize
      q := [] }

/-- Memory with any contents, that no pool was created in. -/
def blank (mem : Memory) : PoolMemory d τ :=
  ⟨mem, 0, 0, 0, fun _ => 0, 0, [], fun _ => .idle, [], fun _ => none, [], none⟩

def fetchAdd : PoolMemory d τ := m.assign (m.member b 1) (m.retainCount b + 1)

def fetchSub : PoolMemory d τ := m.assign (m.member b 1) (m.retainCount b - 1)

/-- The two stores of a destructor and its private data, as one step. -/
def writeDestructor (fnDestroy priv : d.Pointer) : PoolMemory d τ :=
  (m.assign (m.member b 2) fnDestroy).assign (m.member b 3) priv

variable [DecidableEq τ]

def setPc (t : τ) (pc : Pc d.Pointer) : PoolMemory d τ := { m with pc := Function.update m.pc t pc }

/-- The rest of an operation, past its assertions on block `b`. -/
def asserting (body : PoolMemory d τ) : PoolMemory d τ :=
  match m.check b with
  | none => body
  | some a => { m with tripped := some a }

/-- An operation of thread `t` on block `b`. -/
def guarded (t : τ) (body : PoolMemory d τ) : Option (PoolMemory d τ) :=
  if m.pc t = .idle ∧ b < m.numOfElements then some (m.asserting b body) else none

/-- The dequeue of `pool_alloc_blocking`. -/
def allocStep (t : τ) (fnDestroy priv : d.Pointer) : Option (PoolMemory d τ) :=
  if m.pc t = .idle then
    match m.q with
    | [] => some { m with retval := Function.update m.retval t none }
    | b :: rest => some { m.setPc t (.addRef b fnDestroy priv) with q := rest }
  else none

/-- The decrement of `pool_free`. -/
def freeStep (t : τ) : PoolMemory d τ :=
  let m' := { m.fetchSub b with refs := m.refs.erase (t, b) }
  -- the count before the decrement is asserted, and compared with 1
  if m.retainCount b = 0 then { m' with tripped := some .retainCount }
  else if m.retainCount b = 1 then m'.setPc t (.destroy b)
  else m'

/-- The next step of the operation thread `t` is in. -/
def runStep (t : τ) : Option (PoolMemory d τ) :=
  match m.pc t with
  | .idle => none
  | .addRef b fnDestroy priv =>
    some (m.asserting b { (m.fetchAdd b).setPc t (.install b fnDestroy priv) with refs := (t, b) :: m.refs })
  | .install b fnDestroy priv =>
    -- a null destructor leaves the one in the header
    let m' := if fnDestroy = 0 then m else m.writeDestructor b fnDestroy priv
    some { m'.setPc t .idle with retval := Function.update m.retval t (some b) }
  | .destroy b =>
    let call := if m.destructor b = 0 then [] else [(b, m.destructor b, m.destructorPrivate b)]
    some { m.setPc t (.enqueue b) with calls := m.calls ++ call }
  | .enqueue b => some ((m.enqueue b).setPc t .idle)

def step (params : CreateParams) (a : Act d.Pointer τ) : Option (PoolMemory d τ) :=
  if m.tripped.isSome then none
  else match a with
  | .create => some (m.create params)
  | .alloc t fnDestroy priv => m.allocStep t fnDestroy priv
  | .retain t b => m.guarded b t { m.fetchAdd b with refs := (t, b) :: m.refs }
  | .free t b => m.guarded b t (m.freeStep b t)
  | .setDestructor t b fnDestroy priv => m.guarded b t (m.writeDestructor b fnDestroy priv)
  | .pass t t' b =>
    if m.pc t = .idle ∧ m.refs.contains (t, b) then some { m with refs := (t', b) :: m.refs.erase (t, b) } else none
  | .run t => m.runStep t
  | .write t b i value =>
    -- a destructor has its block without a reference
    if (m.refs.contains (t, b) ∨ m.pc t = .destroy b) ∧ i < m.elementSize then
      some { m with mem := Function.update m.mem (m.data b + i) value }
    else none

/-- A pool created over storage at address `elements`. -/
def system (d : StoreDecl) (τ : Type) [DecidableEq τ] (elements : ℕ) : Sys.System (PoolMemory d τ) (Act d.Pointer τ) :=
  ⟨fun m => ∃ mem, m = (blank mem).create (d.createInit elements), fun m a => m.step (d.createInit elements) a⟩

end PoolMemory

end Cutils.Blocks
