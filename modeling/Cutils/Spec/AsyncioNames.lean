import Cutils.Lib.CString
import Mathlib.Data.UInt

/-!
# The names of the asyncio threads (`asyncio.h`, `asyncio.c`)

An instance has an array for the name of each of its two threads. `asyncio_create_instance` writes both, over what an
earlier instance in the same memory has left; the rest of what it does is left out here. Characters are bytes, and a store
outside an array is a fault (none).
-/

namespace Cutils.Asyncio.Names

open CString

/-- `ASYNCIO_MAX_THREAD_NAME`. -/
def maxThreadName : ℕ := 40

/-- The `thread_name` arrays of `rx_task` and `tx_task`. -/
structure Instance where
  rxName : ℕ → UInt8
  txName : ℕ → UInt8

/-- The two string operations of `asyncio_configure_rx_thread` and `asyncio_configure_tx_thread`. -/
def configureThread (suffix : List UInt8) (threadName : ℕ → UInt8) (streamName : Str UInt8) : Option (ℕ → UInt8) :=
  (strncpy maxThreadName threadName streamName.chars (maxThreadName - 3)).bind (strcat maxThreadName · suffix)

/-- "Rx" and "Tx". -/
def rxSuffix : List UInt8 := [82, 120]

def txSuffix : List UInt8 := [84, 120]

/-- `asyncio_configure_rx_thread`. -/
def configureRxThread (streamName : Str UInt8) (s : Instance) : Option Instance :=
  (configureThread rxSuffix s.rxName streamName).map ({ s with rxName := · })

/-- `asyncio_configure_tx_thread`. -/
def configureTxThread (streamName : Str UInt8) (s : Instance) : Option Instance :=
  (configureThread txSuffix s.txName streamName).map ({ s with txName := · })

/-- The names in `asyncio_create_instance`. -/
def createInstance (streamName : Str UInt8) (s : Instance) : Option Instance :=
  (configureRxThread streamName s).bind (configureTxThread streamName)

end Cutils.Asyncio.Names
