import Cutils.Lib.Bytes

/-!
# Byte swaps (`endian.h`, `endian.c`)

A `uint16_t` is promoted to an `int` of 32 bits before it is shifted.
-/

namespace Cutils.Endian

open Bytes

/-- `byteswap16`. -/
def byteswap16 (x : BitVec 16) : BitVec 16 :=
  ((x.setWidth 32 <<< 8) ||| (x.setWidth 32 >>> 8)).setWidth 16

/-- `byteswap32`. -/
def byteswap32 (x : BitVec 32) : BitVec 32 :=
  (((x ^^^ (x >>> 16 ||| x <<< 16)) &&& 0xFF00FFFF) >>> 8) ^^^ (x >>> 8 ||| x <<< 24)

/-- `byteswap64` on a host of either byte order. The union is eight bytes, with any contents at first: `ul[0]` stands
at 0, `ul[1]` at 4, and `ull` is all of them. -/
def byteswap64 (host : ByteOrder) (u : Memory) (x : BitVec 64) : BitVec 64 :=
  let u := store host u 0 ((x >>> 32).setWidth 32)
  let u := store host u 4 ((x &&& 0xffffffff).setWidth 32)
  let u := store host u 0 (byteswap32 (load 32 host u 0))
  let u := store host u 4 (byteswap32 (load 32 host u 4))
  load 64 host u 0

end Cutils.Endian
