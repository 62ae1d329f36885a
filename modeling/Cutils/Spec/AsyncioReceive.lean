import Cutils.Spec.Asyncio

/-!
# The receive side of a stream

What is left of a stream when only the rx pool is looked at: the pool, the block that `rx_f` has, those
that clients are releasing, and what was allocated and returned.

`RxStep` is what a step of the stream can do to it; `Stream.rx` is the receive side of a stream whose rx
worker is `w`.
-/

namespace Cutils.Asyncio

open Blocks

/-- What `rx_f` has: nothing, a block it has just dequeued, one with its reference, one whose reference
it has dropped. -/
inductive Hand
  | empty
  | fresh (block : ℕ)
  | holding (block : ℕ)
  | returning (block : ℕ)
  deriving DecidableEq, Repr

def WorkerPc.hand : WorkerPc → Hand
  | .rxAdd b => .fresh b
  | .rxRead b | .rxCallback b _ | .rxPost b | .rxFree b => .holding b
  | .rxEnqueue b => .returning b
  | _ => .empty

/-- The block in a hand. -/
def Hand.block : Hand → Option ℕ
  | .empty => none
  | .fresh b | .holding b | .returning b => some b

/-- The event is one of the rx pool's. -/
def Event.isRx : Event → Bool
  | .rxAlloc _ | .rxBack _ => true
  | _ => false

/-- `releasing`: the blocks that clients have still to enqueue. -/
structure Rx where
  pool : Store
  log : List Event
  hand : Hand
  releasing : List ℕ

/-- The receive side of a stream whose rx worker is `w`. -/
def Stream.rx (s : Stream) (w : ℕ) : Rx :=
  ⟨s.pool .rx, s.log.filter Event.isRx, (s.pc w).hand, s.releasing⟩

/-- **What a step can do to the receive side**: the rx worker goes on in a starter, a finisher or `rx_f`,
or the client releases a buffer, which may leave anything. So may a `pool_free` on a block whose retain
count is not 1. -/
inductive RxStep (s : Stream) (w : ℕ) : Act → Rx → Prop
  | keep {a : Act} : RxStep s w a (s.rx w)
  | create {n : ℕ} : (s.rx w).hand = .empty → RxStep s w (.work w n) { s.rx w with pool := (s.pool .rx).create }
  | destroy {n : ℕ} : (s.rx w).hand = .empty → RxStep s w (.work w n) { s.rx w with pool := (s.pool .rx).destroy }
  | alloc {n b : ℕ} {p : Store} : (s.rx w).hand = .empty → (s.pool .rx).dequeue = some (b, p) →
      RxStep s w (.work w n) { s.rx w with pool := p, log := (s.rx w).log ++ [.rxAlloc b], hand := .fresh b }
  | add {n b : ℕ} : (s.rx w).hand = .fresh b →
      RxStep s w (.work w n) { s.rx w with pool := (s.pool .rx).fetchAdd b, hand := .holding b }
  | free {n b : ℕ} : (s.rx w).hand = .holding b → (s.pool .rx).retainCount b = 1 →
      RxStep s w (.work w n)
        { s.rx w with pool := (s.pool .rx).fetchSub b, log := (s.rx w).log ++ [.rxBack b], hand := .returning b }
  | freeOdd {n b : ℕ} {r : Rx} : (s.rx w).hand = .holding b → (s.pool .rx).retainCount b ≠ 1 →
      RxStep s w (.work w n) r
  | enqueue {n b : ℕ} : (s.rx w).hand = .returning b →
      RxStep s w (.work w n) { s.rx w with pool := (s.pool .rx).enqueue b, hand := .empty }
  | release {b : ℕ} {r : Rx} : RxStep s w (.releaseRx b) r
  | released {b : ℕ} {r : Rx} : b ∈ s.releasing → RxStep s w (.enqueueRx b) r

end Cutils.Asyncio
