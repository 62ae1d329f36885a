import Cutils.Lib.Reach
import Cutils.Spec.RingBuffer

/-!
# The ring buffer between one writer and one reader thread

A step is one sequentially consistent load or store of an offset, or one `memcpy`,
of the code after macro expansion. A program counter names the access a thread makes
next and carries the locals computed so far; the computations between two accesses
are part of the step before. `MIN` evaluates its chosen argument a second time, so a
write may load both offsets again (`min2W`, `min2R`).

Operands of one expression are loaded left to right. C leaves that order open, and
nothing depends on it: of the two offsets in such an expression each thread stores
to one only, so its own load is the same at either place.

The writer calls `ring_buffer_write_data` with any data. The reader calls
`ring_buffer_get_data` (peeking), copies the regions out, and calls
`ring_buffer_clear_data` for at most the bytes it got.
-/

namespace Cutils.Ring

open Cyclic

/-- The arguments of a `ring_buffer_write_data` call. -/
structure WriteCall where
  data : ℕ → UInt8
  size : UInt32

/-- Where the writer is: idle, or before its next access. -/
inductive WriterPc
  | idle
  | fullW (c : WriteCall)
  | fullR (c : WriteCall) (w : UInt64)
  | slotW (c : WriteCall)
  | minW (c : WriteCall) (slot : UInt32)
  | minR (c : WriteCall) (slot : UInt32) (w : UInt64)
  | min2W (c : WriteCall) (slot : UInt32)
  | min2R (c : WriteCall) (slot : UInt32) (w : UInt64)
  | copy1 (c : WriteCall) (slot bytesToWrite : UInt32)
  | copy2 (c : WriteCall) (slot bytesToWrite : UInt32)
  | rangeW (c : WriteCall) (bytesToWrite : UInt32)
  | store (c : WriteCall) (bytesToWrite : UInt32)

/-- Where the reader is: idle, before its next access, or (`got`) back from
`ring_buffer_get_data` with the bytes copied. -/
inductive ReaderPc
  | idle
  | getR (length : UInt32)
  | rangeLoc (req : DataRange)
  | rangeW (req : DataRange) (loc : UInt32)
  | rangeR (req : DataRange) (loc : UInt32) (w : UInt64)
  | emptyW (req current : DataRange)
  | emptyR (req current : DataRange) (w : UInt64)
  | slotR (req current : DataRange)
  | copy1 (d : RingBufferData)
  | copy2 (d : RingBufferData) (bytes : List UInt8)
  | got (total : UInt32) (bytes : List UInt8)
  | clearLoc (bytes : List UInt8) (length : UInt32)
  | clearW (bytes : List UInt8) (length : UInt32)
  | clearR (bytes : List UInt8) (length : UInt32) (w : UInt64)
  | store (bytes : List UInt8) (bytesToClear : UInt32)

/-- The shared buffer, both threads, and what has happened so far: the write calls
that advanced the offset and by how much, every returned call's size and result, and
the bytes the reader has consumed. -/
structure Race where
  size : UInt32
  readOffset : UInt64
  writeOffset : UInt64
  mem : ℕ → UInt8
  writer : WriterPc
  reader : ReaderPc
  advances : List (WriteCall × UInt32)
  returns : List (UInt32 × UInt32)
  consumed : List UInt8

/-- Start a call, or take a thread's next step. -/
inductive RaceAct
  | write (c : WriteCall)
  | get (length : UInt32)
  | clear (length : UInt32)
  | writer
  | reader

namespace Race

def create (size : UInt32) (mem : ℕ → UInt8) : Race :=
  ⟨size, 0, 0, mem, .idle, .idle, [], [], []⟩

/-- The writer's next step. -/
def writerStep (s : Race) : Option Race :=
  match s.writer with
  | .idle => none
  | .fullW c => some { s with writer := .fullR c s.writeOffset }
  | .fullR c w =>
    if bytesAvailableForWrite s.size w s.readOffset == 0 || c.size == 0 then
      some { s with writer := .idle, returns := s.returns ++ [(c.size, 0)] }
    else some { s with writer := .slotW c }
  | .slotW c =>
    (bufferWriteOffset s.size s.writeOffset).map fun slot => { s with writer := .minW c slot }
  | .minW c slot => some { s with writer := .minR c slot s.writeOffset }
  | .minR c slot w =>
    if c.size < bytesAvailableForWrite s.size w s.readOffset then
      some { s with writer := .copy1 c slot c.size }
    else some { s with writer := .min2W c slot }
  | .min2W c slot => some { s with writer := .min2R c slot s.writeOffset }
  | .min2R c slot w =>
    some { s with writer := .copy1 c slot (bytesAvailableForWrite s.size w s.readOffset) }
  | .copy1 c slot btw =>
    some { s with
      mem := writeFirst s.size slot btw c.size s.mem c.data
      writer := if btw > s.size - slot then .copy2 c slot btw else .rangeW c btw }
  | .copy2 c slot btw =>
    some { s with mem := writeSecond s.size slot btw s.mem c.data, writer := .rangeW c btw }
  -- the range is only passed on to an observer
  | .rangeW c btw => some { s with writer := .store c btw }
  | .store c btw =>
    some { s with
      writeOffset := s.writeOffset + btw.toUInt64
      writer := .idle
      advances := s.advances ++ [(c, btw)]
      returns := s.returns ++ [(c.size, btw)] }

/-- The reader's next step. -/
def readerStep (s : Race) : Option Race :=
  match s.reader with
  | .idle => none
  | .getR length => some { s with reader := .rangeLoc ⟨s.readOffset.toUInt32, length⟩ }
  | .rangeLoc req => some { s with reader := .rangeW req s.readOffset.toUInt32 }
  | .rangeW req loc => some { s with reader := .rangeR req loc s.writeOffset }
  | .rangeR req loc w =>
    some { s with reader := .emptyW req ⟨loc, bytesAvailableForRead w s.readOffset⟩ }
  | .emptyW req current => some { s with reader := .emptyR req current s.writeOffset }
  | .emptyR req current w =>
    if bytesAvailableForRead w s.readOffset == 0 || !locationInDataRange req.location current then
      some { s with reader := .got 0 [] }
    else some { s with reader := .slotR req current }
  | .slotR req current =>
    (bufferReadOffsetWithOffset s.size s.readOffset (req.location - current.location)).map fun slot =>
      { s with reader := .copy1 (readRegions s.size slot (MIN req.length current.length)) }
  | .copy1 d =>
    if d.entryCount = 2 then some { s with reader := .copy2 d (regionBytes s.mem d.data0) }
    else some { s with reader := .got d.totalBytes (regionBytes s.mem d.data0) }
  | .copy2 d bytes =>
    some { s with reader := .got d.totalBytes (bytes ++ regionBytes s.mem d.data1) }
  | .got _ _ => none
  -- the location of the current range is not used
  | .clearLoc bytes length => some { s with reader := .clearW bytes length }
  | .clearW bytes length => some { s with reader := .clearR bytes length s.writeOffset }
  | .clearR bytes length w =>
    some { s with reader := .store bytes (MIN length (bytesAvailableForRead w s.readOffset)) }
  | .store bytes bytesToClear =>
    some { s with
      readOffset := s.readOffset + bytesToClear.toUInt64
      reader := .idle
      consumed := s.consumed ++ bytes.take bytesToClear.toNat }

def step (s : Race) : RaceAct → Option Race
  | .write c => match s.writer with
    | .idle => some { s with writer := .fullW c }
    | _ => none
  | .get length => match s.reader with
    | .idle => some { s with reader := .getR length }
    | _ => none
  | .clear length => match s.reader with
    | .got total bytes =>
      if length ≤ total then some { s with reader := .clearLoc bytes length } else none
    | _ => none
  | .writer => s.writerStep
  | .reader => s.readerStep

/-- Both threads on an empty buffer of positive size, over any memory. -/
def system : Sys.System Race RaceAct :=
  ⟨fun s => ∃ size mem, 0 < size.toNat ∧ s = create size mem, step⟩

/-- Both offsets are below `2 ^ 32`. -/
def InRange (s : Race) : Prop := s.readOffset.toNat < 2 ^ 32 ∧ s.writeOffset.toNat < 2 ^ 32

instance (s : Race) : Decidable s.InRange := inferInstanceAs (Decidable (_ ∧ _))

/-- No write call has advanced the offset by more than its size, or returned more. -/
def WritesBounded (s : Race) : Prop :=
  (∀ x ∈ s.advances, x.2 ≤ x.1.size) ∧ ∀ x ∈ s.returns, x.2 ≤ x.1

/-- The first `r` bytes of each call that advanced the offset, by `r`. -/
def stream (s : Race) : List UInt8 := s.advances.flatMap fun x => firstN x.1.data x.2.toNat

/-- **What the second evaluation in `MIN` must meet.** When the writer loads the read
offset for the second time, the free space is still at most the size it was given. -/
def MinStable (s : Race) (a : RaceAct) : Prop :=
  match a, s.writer with
  | .writer, .min2R c _ w => bytesAvailableForWrite s.size w s.readOffset ≤ c.size
  | _, _ => True

instance (s : Race) (a : RaceAct) : Decidable (s.MinStable a) := by
  unfold MinStable
  split <;> infer_instance

end Race

end Cutils.Ring
