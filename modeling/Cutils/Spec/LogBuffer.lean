import Cutils.Lib.Cyclic

/-!
# The log buffer (`log_buffer.h`, `log_buffer.c`)

A ring of characters that overwrites its oldest ones, behind a filter for ANSI escape sequences. One slot is
kept free. A character is its byte: the comparisons of the filter come out the same whether `char` is
signed or not. Pointers are not NULL; what is tested besides is kept.
-/

namespace Cutils.Log

open Cyclic

/-- `log_buffer_t`. -/
structure LogBuffer where
  pBuffer : ℕ → UInt8
  isInit : Bool
  bufferSize : UInt32
  head : UInt32
  tail : UInt32
  inEscapeSequence : Bool

/-- `character >= 'a' && character <= 'z' || character >= 'A' && character <= 'Z'`. -/
def isLetter (character : UInt8) : Bool :=
  (97 ≤ character && character ≤ 122) || (65 ≤ character && character ≤ 90)

namespace LogBuffer

variable (lb : LogBuffer)

/-- `log_buffer_init` on memory with any contents; none for false. -/
def init (pBuffer : ℕ → UInt8) (bufferSize : UInt32) : Option LogBuffer :=
  if bufferSize = 0 then none
  else some { lb with pBuffer := pBuffer, bufferSize := bufferSize, head := 0, tail := 0, isInit := true }

/-- `log_buffer_filter_character`: true to drop the character. -/
def filterCharacter (character : UInt8) : LogBuffer × Bool :=
  if character = 0x1b then ({ lb with inEscapeSequence := true }, true)
  else if lb.inEscapeSequence then
    -- a letter ends the sequence, and is dropped with it
    if isLetter character then ({ lb with inEscapeSequence := false }, true) else (lb, true)
  -- a carriage return is dropped
  else if character ≠ 0xd then (lb, false)
  else (lb, true)

/-- The slot after `x`, as `head` and `tail` move on. -/
def next (x : UInt32) : UInt32 := if x + 1 < lb.bufferSize then x + 1 else 0

/-- `log_buffer_char_push`. -/
def charPush (item : UInt8) : LogBuffer :=
  if item = 0 then lb
  else
    let lb := { lb with pBuffer := Function.update lb.pBuffer lb.head.toNat item, head := lb.next lb.head }
    -- the ring was full
    if lb.head = lb.tail then { lb with tail := lb.next lb.tail } else lb

/-- The body of the loop of `log_buffer_push`. -/
def pushCharacter (character : UInt8) : LogBuffer :=
  let r := lb.filterCharacter character
  if r.2 then r.1 else r.1.charPush character

/-- `log_buffer_push`. -/
def push (pString : ℕ → UInt8) (stringSize : UInt32) : LogBuffer × Bool :=
  -- a string as long as the ring is refused, also where the filter would drop some of it
  if lb.isInit && stringSize < lb.bufferSize then
    ((firstN pString stringSize.toNat).foldl pushCharacter lb, true)
  else (lb, false)

/-- `log_buffer_char_pop`; none for false. -/
def charPop : LogBuffer × Option UInt8 :=
  if lb.head ≠ lb.tail then ({ lb with tail := lb.next lb.tail }, some (lb.pBuffer lb.tail.toNat))
  else (lb, none)

def isEmpty : Bool := lb.isInit && lb.head == lb.tail

def clear : LogBuffer := if lb.isInit then { lb with head := 0, tail := 0 } else lb

/-- `log_buffer_current_size`, with the initial chunk and the residue. -/
def currentSize : UInt32 × UInt32 × UInt32 :=
  let chunks : UInt32 × UInt32 :=
    if lb.tail < lb.head then (lb.head - lb.tail, 0)
    else if lb.head < lb.tail then (lb.bufferSize - lb.tail, lb.head)
    else (0, 0)
  (chunks.1 + chunks.2, chunks)

end LogBuffer

/-- `LOG_MAX_LINE_LENGTH`. -/
def logMaxLineLength : UInt32 := 512

/-- `log_buffer_lines_from_size`. -/
def linesFromSize (size : UInt32) : UInt32 := 1 + (size - 1) / logMaxLineLength

inductive Op
  | push (pString : ℕ → UInt8) (stringSize : UInt32)
  | charPop
  | isEmpty
  | clear

inductive Obs
  | pushed (retval : Bool)
  | popped (character : Option UInt8)
  | empty (retval : Bool)
  | done
  deriving DecidableEq, Repr

def LogBuffer.call (lb : LogBuffer) : Op → LogBuffer × Obs
  | .push pString stringSize => ((lb.push pString stringSize).1, .pushed (lb.push pString stringSize).2)
  | .charPop => (lb.charPop.1, .popped lb.charPop.2)
  | .isEmpty => (lb, .empty lb.isEmpty)
  | .clear => (lb.clear, .done)

end Cutils.Log
