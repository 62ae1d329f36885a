import Cutils.Lib.CString
import Mathlib.Data.Nat.Digits.Defs
import Mathlib.Data.UInt

/-!
# Log lines (`logger.h`, `logger.c`)

A line is put together in an array of 512 characters on the stack: a time stamp, the logger's prefix and the
message. A store outside the array is a fault (none). The prefix is client code: `fnPrefix` is the string that it
writes, by the size it is told. `vsprintf` is the expansion of a format with its arguments.
-/

namespace Cutils.LogLine

open CString

/-- `LOG_MAX_LINE_LENGTH`. -/
def logMaxLineLength : ℕ := 512

/-- The fields of `struct tm` that are printed, as `%u` does it. -/
structure Tm where
  tmYear : UInt32
  tmMon : UInt32
  tmMday : UInt32
  tmHour : UInt32
  tmMin : UInt32
  tmSec : UInt32

/-- `%0*u`. -/
def decimal (width : ℕ) (x : UInt32) : List UInt8 :=
  ((Nat.digits 10 x.toNat).reverse.map fun d => UInt8.ofNat (48 + d)).leftpad width 48

/-- `[%04u/%02u/%02u-%02u:%02u:%02u]: `. -/
def timeStamp (ts : Tm) : List UInt8 :=
  [91] ++ decimal 4 ts.tmYear ++ [47] ++ decimal 2 ts.tmMon ++ [47] ++ decimal 2 ts.tmMday ++ [45] ++
    decimal 2 ts.tmHour ++ [58] ++ decimal 2 ts.tmMin ++ [58] ++ decimal 2 ts.tmSec ++ [93, 58, 32]

/-- `logger_t`. -/
structure Logger where
  isEnabled : Bool
  fnPrefix : Option (UInt32 → List UInt8)

/-- `SimpleLoggerPrefix` for a prefix. -/
def simpleLoggerPrefix (pPrefix : List UInt8) (_stringSize : UInt32) : List UInt8 := pPrefix

variable {Args : Type} (vsprintf : List UInt8 → Args → List UInt8)

/-- The size that the prefix is told. -/
def prefixSize (bufferSize : UInt32) (fmt : Str UInt8) : UInt32 := bufferSize - 0 - UInt32.ofNat fmt.chars.length

/-- `index += vsprintf(p_buffer + index, fmt, args)`. -/
def writeMessage (buf : ℕ → UInt8) (pBuffer : ℕ) (index : UInt32) (fmt : Str UInt8) (args : Args) :
    Option ((ℕ → UInt8) × UInt32) :=
  let message := vsprintf fmt.chars args
  (puts logMaxLineLength buf (pBuffer + index.toNat) (message ++ [0])).map (·, index + UInt32.ofNat message.length)

/-- `logger_write_string`, with `p_buffer` the array from `pBuffer` on. -/
def loggerWriteString (pLogger : Logger) (fmt : Str UInt8) (buf : ℕ → UInt8) (pBuffer : ℕ) (bufferSize : UInt32)
    (args : Args) : Option ((ℕ → UInt8) × UInt32) :=
  if fmt.chars.length < ((bufferSize - 1) / 2).toNat then
    match pLogger.fnPrefix with
    | some fnPrefix =>
      let string := fnPrefix (prefixSize bufferSize fmt)
      (puts logMaxLineLength buf pBuffer (string ++ [0])).bind fun buf =>
        let index := UInt32.ofNat string.length
        if index < bufferSize - 2 then
          (puts logMaxLineLength buf (pBuffer + index.toNat) [58, 32]).bind fun buf =>
            writeMessage vsprintf buf pBuffer (index + 2) fmt args
        else some (buf, index)
    | none => writeMessage vsprintf buf pBuffer 0 fmt args
  else some (buf, 0)

/-- `console_log` at `now`: what it emits; nothing, the inner none, without an enabled logger. -/
def consoleLog (logger : Option Logger) (str : Str UInt8) (buf : ℕ → UInt8) (now : Tm) (args : Args) :
    Option (Option (ℕ → UInt8)) :=
  match logger with
  | some logger =>
    if logger.isEnabled then
      (puts logMaxLineLength buf 0 (timeStamp now ++ [0])).bind fun buf =>
        let index := (timeStamp now).length
        let bufferSize := UInt32.ofNat (logMaxLineLength - index)
        (loggerWriteString vsprintf logger str buf index bufferSize args).bind fun r =>
          (puts logMaxLineLength r.1 (index + r.2.toNat) [10, 0]).map some
    else some none
  | none => some none

end Cutils.LogLine
