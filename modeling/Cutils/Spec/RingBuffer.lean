import Cutils.Lib.Cyclic

/-!
# The ring buffer (`ring_buffer.h`, `ring_buffer.c`)

The two offsets are 64 bits wide and only grow (except at a reset); sizes, ranges
and counts are 32 bits wide, so every conversion truncates. A pointer into the
buffer's memory is its index. `none` stands for a modulus by zero. The computations
on loaded offsets (`bytesAvailableForRead` and so on) are functions of the loaded
values, so that the concurrent model can load them one at a time. Functions and
types keep their names without the `ring_buffer_` prefix.
-/

namespace Cutils.Ring

open Cyclic

structure DataRange where
  location : UInt32
  length : UInt32
  deriving DecidableEq, Repr

def locationInDataRange (loc : UInt32) (range : DataRange) : Bool :=
  !(loc < range.location) && loc - range.location < range.length

def maxDataRange (range : DataRange) : UInt32 := range.location + range.length

/-- One region; `data` is the index of its first byte in the buffer. -/
structure BufferData where
  data : ℕ
  length : UInt32
  deriving DecidableEq, Repr

/-- What a read returns, with the array of two regions as two fields. -/
structure RingBufferData where
  entryCount : ℕ
  totalBytes : UInt32
  data0 : BufferData
  data1 : BufferData
  deriving DecidableEq, Repr

def RingBufferData.zero : RingBufferData := ⟨0, 0, ⟨0, 0⟩, ⟨0, 0⟩⟩

def regionBytes (mem : ℕ → UInt8) (d : BufferData) : List UInt8 :=
  firstN (fun i => mem (d.data + i)) d.length.toNat

/-- The bytes that `copy_ring_data_to_buffer` writes to `dst`, in order. -/
def copyRingDataToBuffer (mem : ℕ → UInt8) (d : RingBufferData) : List UInt8 :=
  if d.entryCount = 0 then []
  else if d.entryCount = 2 then regionBytes mem d.data0 ++ regionBytes mem d.data1
  else regionBytes mem d.data0

-- a callback, by its address
abbrev Callback := ℕ

structure RingBuffer where
  size : UInt32
  readOffset : UInt64
  writeOffset : UInt64
  data : ℕ → UInt8
  ctx : ℕ
  onDataReadAtRange : Option Callback
  onDataWrittenAtRange : Option Callback

structure Notification where
  callback : Callback
  ctx : ℕ
  range : DataRange
  deriving DecidableEq, Repr

/-! ## Computations on loaded offsets -/

def bytesAvailableForRead (w r : UInt64) : UInt32 := (w - r).toUInt32

def bytesAvailableForWrite (size : UInt32) (w r : UInt64) : UInt32 := size - bytesAvailableForRead w r

def bufferWriteOffset (size : UInt32) (w : UInt64) : Option UInt32 :=
  if size = 0 then none else some (w % size.toUInt64).toUInt32

def bufferReadOffsetWithOffset (size : UInt32) (r : UInt64) (offset : UInt32) : Option UInt32 :=
  if size = 0 then none else some ((r + offset.toUInt64) % size.toUInt64).toUInt32

-- the macro, where evaluating an argument twice makes no difference
def MIN (a b : UInt32) : UInt32 := if a < b then a else b

/-- The first `memcpy` of `ring_buffer_write_data`, in either branch. -/
def writeFirst (size fileWriteOffset bytesToWrite callSize : UInt32) (mem data : ℕ → UInt8) : ℕ → UInt8 :=
  let remaining := size - fileWriteOffset
  if bytesToWrite > remaining then copy mem fileWriteOffset.toNat data remaining.toNat
  else copy mem fileWriteOffset.toNat data
    (if bytesToWrite < callSize then bytesToWrite else callSize).toNat

/-- The second `memcpy`, of the branch in which the data wraps around. -/
def writeSecond (size fileWriteOffset bytesToWrite : UInt32) (mem data : ℕ → UInt8) : ℕ → UInt8 :=
  let remaining := size - fileWriteOffset
  copy mem 0 (fun i => data (remaining.toNat + i)) (bytesToWrite - remaining).toNat

/-- The regions of `bytesToRead` bytes from slot `fileReadOffset` on. -/
def readRegions (size fileReadOffset bytesToRead : UInt32) : RingBufferData :=
  let remaining := size - fileReadOffset
  if bytesToRead > remaining then
    ⟨2, bytesToRead, ⟨fileReadOffset.toNat, remaining⟩, ⟨0, bytesToRead - remaining⟩⟩
  else ⟨1, bytesToRead, ⟨fileReadOffset.toNat, bytesToRead⟩, ⟨0, 0⟩⟩

/-! ## The operations, run alone -/

namespace RingBuffer

variable (b : RingBuffer)

def getBytesAvailableForRead : UInt32 := bytesAvailableForRead b.writeOffset b.readOffset

def getBytesAvailableForWrite : UInt32 := bytesAvailableForWrite b.size b.writeOffset b.readOffset

def isEmpty : Bool := b.getBytesAvailableForRead == 0

def isFull : Bool := b.getBytesAvailableForWrite == 0

def getCurrentDataRange : DataRange := ⟨b.readOffset.toUInt32, b.getBytesAvailableForRead⟩

def resetAtOffset (offset : UInt32) : RingBuffer :=
  { b with readOffset := offset.toUInt64, writeOffset := offset.toUInt64 }

/-- The buffer afterwards, the return value and the observer call of `ring_buffer_write_data`. -/
def writeData (data : ℕ → UInt8) (size : UInt32) :
    Option (RingBuffer × UInt32 × Option Notification) :=
  if b.isFull || size == 0 then some (b, 0, none)
  else do
    let fileWriteOffset ← bufferWriteOffset b.size b.writeOffset
    let bytesToWrite := MIN size b.getBytesAvailableForWrite
    -- contiguous, or in two regions when the data wraps around
    let mem := writeFirst b.size fileWriteOffset bytesToWrite size b.data data
    let mem := if bytesToWrite > b.size - fileWriteOffset then
      writeSecond b.size fileWriteOffset bytesToWrite mem data else mem
    let range : DataRange := ⟨b.writeOffset.toUInt32, bytesToWrite⟩
    some ({ b with data := mem, writeOffset := b.writeOffset + bytesToWrite.toUInt64 }, bytesToWrite,
      b.onDataWrittenAtRange.map (⟨·, b.ctx, range⟩))

/-- The buffer afterwards, the regions and the observer call of
`ring_buffer_get_data_at_range`, with `assert` as a no-op. -/
def getDataAtRange (requested : DataRange) (peek : Bool) :
    Option (RingBuffer × RingBufferData × Option Notification) :=
  let current := b.getCurrentDataRange
  if b.isEmpty || !locationInDataRange requested.location current then
    some (b, RingBufferData.zero, none)
  else do
    let moveOffset := requested.location - current.location
    let fileReadOffset ← bufferReadOffsetWithOffset b.size b.readOffset moveOffset
    let bytesToRead := MIN requested.length current.length
    let range : DataRange := ⟨requested.location, bytesToRead⟩
    let b' := if peek then b else { b with readOffset := b.readOffset + bytesToRead.toUInt64 }
    some (b', readRegions b.size fileReadOffset bytesToRead,
      b.onDataReadAtRange.map (⟨·, b.ctx, range⟩))

/-- The three conditions that `ring_buffer_get_data_at_range` asserts; there are none where it returns early. -/
def getDataAtRangeAsserts (requested : DataRange) : Option Bool :=
  let current := b.getCurrentDataRange
  if b.isEmpty || !locationInDataRange requested.location current then some true
  else do
    let moveOffset := requested.location - current.location
    let fileReadOffset ← bufferReadOffsetWithOffset b.size b.readOffset moveOffset
    let bytesToRead := MIN requested.length current.length
    let d := readRegions b.size fileReadOffset bytesToRead
    some (bytesToRead == d.data0.length + d.data1.length &&
      current.location + moveOffset == requested.location &&
      decide (requested.location + bytesToRead ≤ maxDataRange current))

def getData (length : UInt32) (peek : Bool) :
    Option (RingBuffer × RingBufferData × Option Notification) :=
  b.getDataAtRange ⟨b.readOffset.toUInt32, length⟩ peek

def getDataAsserts (length : UInt32) : Option Bool := b.getDataAtRangeAsserts ⟨b.readOffset.toUInt32, length⟩

def clearData (length : UInt32) : RingBuffer :=
  { b with readOffset := b.readOffset + (MIN length b.getCurrentDataRange.length).toUInt64 }

end RingBuffer

/-- A call on the buffer. `write` gives the memory at the `data` pointer and the `size`. -/
inductive Op
  | write (data : ℕ → UInt8) (size : UInt32)
  | get (length : UInt32) (peek : Bool)
  | clear (length : UInt32)
  | reset (offset : UInt32)

/-- What the caller sees: the count a write returns, and the bytes that
`copy_ring_data_to_buffer` copies out of what a read returns. -/
inductive Obs
  | wrote (n : ℕ)
  | got (bytes : List UInt8)
  | done
  deriving DecidableEq, Repr

def RingBuffer.call (b : RingBuffer) : Op → Option (RingBuffer × Obs)
  | .write data size => (b.writeData data size).map fun p => (p.1, .wrote p.2.1.toNat)
  | .get length peek =>
    (b.getData length peek).map fun p => (p.1, .got (copyRingDataToBuffer b.data p.2.1))
  | .clear length => some (b.clearData length, .done)
  | .reset offset => some (b.resetAtOffset offset, .done)

/-! ## Creation, and everything a created buffer answers -/

structure CreateParams where
  buffer : Option ℕ
  data : Option (ℕ → UInt8)
  sizeInBytes : UInt32

/-- `create_ring_buffer`, on what the memory of the struct held before. -/
def createRingBuffer (params : CreateParams) (old : RingBuffer) : Option RingBuffer := do
  let _ ← params.buffer
  let data ← params.data
  some { old with data, size := params.sizeInBytes }

namespace RingBuffer

variable (b : RingBuffer)

def getSize : UInt32 := b.size

def getTotalRange : DataRange := ⟨b.readOffset.toUInt32, b.size⟩

def getOffsets : UInt32 × UInt32 × UInt32 := (b.size, b.readOffset.toUInt32, b.writeOffset.toUInt32)

def getCallbackContext : ℕ := b.ctx

end RingBuffer

/-- The answers of all queries. -/
structure Queries where
  isEmpty : Bool
  isFull : Bool
  size : UInt32
  totalRange : DataRange
  currentDataRange : DataRange
  bytesAvailableForRead : UInt32
  bytesAvailableForWrite : UInt32
  offsets : UInt32 × UInt32 × UInt32
  callbackContext : ℕ
  deriving DecidableEq

def RingBuffer.queries (b : RingBuffer) : Queries where
  isEmpty := b.isEmpty
  isFull := b.isFull
  size := b.getSize
  totalRange := b.getTotalRange
  currentDataRange := b.getCurrentDataRange
  bytesAvailableForRead := b.getBytesAvailableForRead
  bytesAvailableForWrite := b.getBytesAvailableForWrite
  offsets := b.getOffsets
  callbackContext := b.getCallbackContext

/-- The calls that read and write a created buffer. -/
inductive Use
  | write (data : ℕ → UInt8) (size : UInt32)
  | get (length : UInt32) (peek : Bool)
  | getAt (requested : DataRange) (peek : Bool)
  | clear (length : UInt32)
  | query

/-- What a call returns, by count and bytes, and the observer that it notifies. -/
inductive Answer
  | wrote (bytes : UInt32) (note : Option Notification)
  | got (entryCount : ℕ) (totalBytes : UInt32) (bytes : List UInt8) (note : Option Notification)
  | done
  | answered (queries : Queries)
  deriving DecidableEq

def RingBuffer.use (b : RingBuffer) : Use → Option (RingBuffer × Answer)
  | .write data size => (b.writeData data size).map fun p => (p.1, .wrote p.2.1 p.2.2)
  | .get length peek => (b.getData length peek).map fun p =>
    (p.1, .got p.2.1.entryCount p.2.1.totalBytes (copyRingDataToBuffer b.data p.2.1) p.2.2)
  | .getAt requested peek => (b.getDataAtRange requested peek).map fun p =>
    (p.1, .got p.2.1.entryCount p.2.1.totalBytes (copyRingDataToBuffer b.data p.2.1) p.2.2)
  | .clear length => some (b.clearData length, .done)
  | .query => some (b, .answered b.queries)

end Cutils.Ring
