import Cutils.Lib.Cyclic

/-!
# The accumulator (`accumulator.h`)

Bytes in a cyclic store of which one slot is kept free. All counters are 32 bits wide, and so are their
sums. A `memcpy` goes between the store and the caller's memory, which is given as a function
(`data`) when it is read, and by the bytes written to it when it is written. `none` stands for a modulus
by zero. `in` and `out` are `inPos` and `outPos` here.
-/

namespace Cutils.Acc

open Cyclic

/-- `accumulator_t`. -/
structure Accumulator where
  buf : ℕ → UInt8
  totalBufferSize : UInt32
  inPos : UInt32
  outPos : UInt32

namespace Accumulator

/-- `accumulator_create`, over memory with any contents. -/
def create (buf : ℕ → UInt8) (bufSize : UInt32) : Accumulator := ⟨buf, bufSize, 0, 0⟩

variable (a : Accumulator)

def clear : Accumulator := { a with inPos := 0, outPos := 0 }

def bytesLeft : UInt32 :=
  (if a.outPos ≤ a.inPos then a.totalBufferSize - (a.inPos - a.outPos) else a.outPos - a.inPos) - 1

def bytesContainedFrom (iter : UInt32) : UInt32 :=
  if iter ≤ a.inPos then a.inPos - iter else a.totalBufferSize - (iter - a.inPos)

def bytesContained : UInt32 := a.bytesContainedFrom a.outPos

/-- The rotation at the start of `accumulator_insert`: the oldest bytes make room. -/
def rotate (size : UInt32) : Accumulator :=
  if a.bytesLeft < size then
    let amountToRotate := size - a.bytesLeft
    { a with outPos := (a.outPos + amountToRotate) % a.totalBufferSize }
  else a

/-- The copies of `accumulator_insert`. -/
def copyIn (data : ℕ → UInt8) (size : UInt32) : ℕ → UInt8 :=
  -- the bytes do not fit before the end of the store: the rest goes to its start
  if a.totalBufferSize < a.inPos + size then
    let remaining := size - (a.totalBufferSize - a.inPos)
    let buf := copy a.buf a.inPos.toNat data (a.totalBufferSize - a.inPos).toNat
    copy buf 0 (fun i => data ((a.totalBufferSize - a.inPos).toNat + i)) remaining.toNat
  else copy a.buf a.inPos.toNat data size.toNat

/-- `accumulator_insert`. -/
def insert (data : ℕ → UInt8) (size : UInt32) : Accumulator × Bool :=
  if size < a.totalBufferSize then
    let a := a.rotate size
    -- asked again after the rotation
    if size ≤ a.bytesLeft then
      ({ a with buf := a.copyIn data size, inPos := (a.inPos + size) % a.totalBufferSize }, true)
    else (a, false)
  else (a, false)

/-- The bytes that two `memcpy`s from slot `iter` on give. -/
def copyOut (iter size : UInt32) : List UInt8 :=
  if a.totalBufferSize < iter + size then
    let remaining := size - (a.totalBufferSize - iter)
    firstN (fun i => a.buf (iter.toNat + i)) (a.totalBufferSize - iter).toNat ++ firstN a.buf remaining.toNat
  else firstN (fun i => a.buf (iter.toNat + i)) size.toNat

/-- `accumulator_peek`; none for false. -/
def peek (size : UInt32) : Option (List UInt8) :=
  if size ≤ a.bytesContained then some (a.copyOut a.outPos size) else none

/-- `accumulator_extract`. -/
def extract (size : UInt32) : Option (Accumulator × Option (List UInt8)) :=
  match a.peek size with
  | some bytes =>
    if a.totalBufferSize = 0 then none
    else some ({ a with outPos := (a.outPos + size) % a.totalBufferSize }, some bytes)
  | none => some (a, none)

/-- `accumulator_advance`, which always returns false. -/
def advance (size : UInt32) : Option (Accumulator × Bool) :=
  -- it may pass the bytes there are, and then the store is not empty
  let size := if a.totalBufferSize - 1 < size then a.totalBufferSize - 1 else size
  if a.totalBufferSize = 0 then none
  else some ({ a with outPos := (a.outPos + size) % a.totalBufferSize }, false)

/-- `accumulator_peek_at`: its result, and the bytes written to the caller's memory. -/
def peekAt (iter size : UInt32) : UInt32 × List UInt8 :=
  if a.totalBufferSize ≤ iter then (0, [])
  else
    -- a position outside the bytes there are is not refused
    let size := if a.bytesContainedFrom iter < size then a.bytesContainedFrom iter else size
    (size, a.copyOut iter size)

/-- `accumulator_iterator_init`. An iterator is a position in the store. -/
def iteratorInit : UInt32 := a.outPos

def iteratorValid (iterator : UInt32) : Bool := a.inPos != a.outPos && iterator != a.inPos

/-- `accumulator_iterator_next`: the iterator it leaves, and its result. -/
def iteratorNext (iterator : UInt32) : Option (UInt32 × Bool) :=
  if a.iteratorValid iterator then
    if a.totalBufferSize = 0 then none else some ((iterator + 1) % a.totalBufferSize, true)
  else some (iterator, false)

/-- `accumulator_iterator_advance`. -/
def iteratorAdvance (iterator size : UInt32) : Option (UInt32 × Bool) :=
  if size ≤ a.bytesContainedFrom iterator then
    if a.totalBufferSize = 0 then none
    -- unlike `accumulator_iterator_next`, it does not go to the end
    else if (iterator + size) % a.totalBufferSize ≠ a.inPos then some ((iterator + size) % a.totalBufferSize, true)
    else some (iterator, false)
  else some (iterator, false)

end Accumulator

/-- A call. `insert` gives the memory at `buf` and the `size`. -/
inductive Op
  | insert (data : ℕ → UInt8) (size : UInt32)
  | peek (size : UInt32)
  | extract (size : UInt32)
  | clear

/-- What the caller sees: a result, and what was written to its memory. -/
inductive Obs
  | inserted (retval : Bool)
  | got (bytes : Option (List UInt8))
  | done
  deriving DecidableEq, Repr

def Accumulator.call (a : Accumulator) : Op → Option (Accumulator × Obs)
  | .insert data size => some ((a.insert data size).1, .inserted (a.insert data size).2)
  | .peek size => some (a, .got (a.peek size))
  | .extract size => (a.extract size).map fun r => (r.1, .got r.2)
  | .clear => some (a.clear, .done)

/-- The calls above, and `accumulator_advance`. -/
inductive Use
  | call (op : Op)
  | advance (size : UInt32)

inductive Answer
  | call (obs : Obs)
  | advanced (retval : Bool)
  deriving DecidableEq, Repr

def Accumulator.use (a : Accumulator) : Use → Option (Accumulator × Answer)
  | .call op => (a.call op).map fun r => (r.1, .call r.2)
  | .advance size => (a.advance size).map fun r => (r.1, .advanced r.2)

end Cutils.Acc
