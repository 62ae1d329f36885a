import Cutils.Spec.AsyncioCycle

/-!
# The transmit side of a stream

What is left of a stream when only tokens and their requests are looked at. `line` are the actions of
the tx side at its worker, the running one first, so that taking an action from the queue changes
nothing and only its end does.

`TxStep` is what a step of the stream can do to it; `Stream.tx` is the transmit side of a stream.
-/

namespace Cutils.Asyncio

open Blocks

/-- The action a worker is in. -/
def WorkerPc.action : WorkerPc → Option Action
  | .idle => none
  | .starterCreate x | .starterReady x | .startLoad x _ | .startStore x | .startSend x => some (.starter x)
  | .starterPost => some (.starter .rx)
  | .finisherCas x | .finisherDestroy x | .stopLoad x _ | .stopStore x | .stopSend x => some (.finisher x)
  | .rxLoad | .rxAlloc | .rxAdd _ | .rxRead _ | .rxCallback _ _ | .rxPost _ | .rxFree _ | .rxEnqueue _
  | .rxRetry => some .rxF
  | .txLoad b k | .txCheck b k | .txWrite b k | .txNotify b k _ _ | .txFree b k | .txEnqueue b k => some (.txF b k)

/-- The use of a token whose request an action sends. -/
def Action.use : Action → Option ℕ
  | .txF _ k => some k
  | _ => none

/-- The worker is in `tx_f`. -/
def WorkerPc.sends : WorkerPc → Bool
  | .txLoad _ _ | .txCheck _ _ | .txWrite _ _ | .txNotify _ _ _ _ | .txFree _ _ | .txEnqueue _ _ => true
  | _ => false

/-- The block a use of a token has. -/
def TokenPc.block : TokenPc → Option ℕ
  | .adding b | .held b | .sendCtx b | .sendFields b | .sendPost b | .queued b | .returning b
  | .releaseSub b | .releaseEnqueue b => some b
  | .allocating | .null | .gone => none

/-- The use is an event's. -/
def Event.use : Event → Option ℕ
  | .write k _ _ _ | .notify k _ _ _ _ | .back k => some k
  | _ => none

/-- `on`: the tx context is started and its finisher has not had its effect. `pc`: where `tx_f` is, if
it runs. -/
@[ext]
structure Tx where
  on : Bool
  pool : Store
  request : ℕ → Request
  tokens : List Token
  accepted : List ℕ
  log : List Event
  line : List Action
  pc : WorkerPc

namespace Stream

variable (c : Config) (s : Stream)

/-- The actions of worker `w`, the running one first. -/
def jobs (w : ℕ) : List Action := (s.pc w).action.toList ++ s.queue w

/-- The transmit side of a stream. -/
def tx : Tx where
  on := (s.ctx .tx).on
  pool := s.pool .tx
  request := s.request
  tokens := s.tokens
  accepted := s.accepted
  log := s.log.filter fun e => e.use.isSome
  line :=
    match c.worker .tx with
    | some w => (s.jobs w).filter fun a => a.side = .tx
    | none => []
  pc :=
    match c.worker .tx with
    | some w => if (s.pc w).sends then s.pc w else .idle
    | none => .idle

end Stream

/-- **What a step can do to the transmit side**: the controller posts, the tx worker goes on in a
starter, a finisher or `tx_f`, a client goes on in a call. A `pool_free` on a block whose retain count
is not 1 may leave anything. -/
inductive TxStep (c : Config) (s : Stream) : Act → Tx → Prop
  | keep {a : Act} : TxStep c s a (s.tx c)
  | post {j : Action} : j.use = none → TxStep c s .control { s.tx c with line := (s.tx c).line ++ [j] }
  | create {w n : ℕ} : s.pc w = .starterCreate .tx →
      TxStep c s (.work w n) { s.tx c with pool := (s.pool .tx).create }
  | ready {w n : ℕ} : TxStep c s (.work w n) { s.tx c with on := true }
  | finish {w n : ℕ} {l : List Action} : (s.tx c).line = .finisher .tx :: l →
      TxStep c s (.work w n) { s.tx c with on := false }
  | destroy {w n : ℕ} : TxStep c s (.work w n) { s.tx c with pool := (s.pool .tx).destroy }
  | over {w n : ℕ} {j : Action} {l : List Action} : (s.tx c).line = j :: l → j.use = none →
      (s.tx c).pc = .idle → TxStep c s (.work w n) { s.tx c with line := l }
  | take {w n b k : ℕ} {l : List Action} : (s.tx c).line = .txF b k :: l → (s.tx c).pc = .idle →
      TxStep c s (.work w n) { s.tx c with pc := .txLoad b k }
  | load {w n b k : ℕ} : s.pc w = .txLoad b k → s.initState = .initialized → (s.tx c).pc = .txLoad b k →
      TxStep c s (.work w n) { s.tx c with pc := .txCheck b k }
  | drop {w n b k : ℕ} : s.pc w = .txLoad b k → s.initState ≠ .initialized → (s.tx c).pc = .txLoad b k →
      TxStep c s (.work w n) { s.tx c with pc := .txFree b k }
  | check {w n b k : ℕ} : (s.tx c).pc = .txCheck b k →
      TxStep c s (.work w n) { s.tx c with pc := .txWrite b k }
  | inError {w n b k : ℕ} : (s.tx c).pc = .txCheck b k →
      TxStep c s (.work w n) { s.tx c with pc := .txNotify b k .interfaceInError 0 }
  | write {w n b k : ℕ} : s.pc w = .txWrite b k → (s.tx c).pc = .txWrite b k →
      TxStep c s (.work w n) { s.tx c with
        log := (s.tx c).log ++ [.write k (s.request b).size (s.request b).payload n]
        pc := .txNotify b k (if n = (s.request b).size.toNat then .sendSuccess else .sendMessageFail) n }
  | notify {w n b k m fn : ℕ} {status : SendStatus} : (s.tx c).pc = .txNotify b k status m →
      (s.request b).fn = some fn → TxStep c s (.work w n) { s.tx c with
        log := (s.tx c).log ++ [.notify k fn status (m % 2 ^ 32) (s.request b).priv]
        pc := .txFree b k }
  | silent {w n b k m : ℕ} {status : SendStatus} : (s.tx c).pc = .txNotify b k status m →
      (s.request b).fn = none → TxStep c s (.work w n) { s.tx c with pc := .txFree b k }
  | free {w n b k : ℕ} : (s.tx c).pc = .txFree b k → (s.pool .tx).retainCount b = 1 →
      TxStep c s (.work w n) { s.tx c with
        pool := (s.pool .tx).fetchSub b
        tokens := s.tokens.modify k fun t => { t with pc := .returning b }
        pc := .txEnqueue b k }
  | freeOdd {w n b k : ℕ} {v : Tx} : (s.tx c).pc = .txFree b k → (s.pool .tx).retainCount b ≠ 1 →
      TxStep c s (.work w n) v
  | enqueue {w n b k : ℕ} {l : List Action} : (s.tx c).pc = .txEnqueue b k → (s.tx c).line = .txF b k :: l →
      TxStep c s (.work w n) { s.tx c with
        pool := (s.pool .tx).enqueue b
        tokens := s.tokens.modify k fun t => { t with pc := .gone }
        log := (s.tx c).log ++ [.back k]
        line := l
        pc := .idle }
  | allocate : s.ctx .tx = .initialized →
      TxStep c s .allocate { s.tx c with tokens := s.tokens ++ [⟨.allocating, ⟨0, none, 0, []⟩⟩] }
  | alloc {k b : ℕ} {t : Token} {p : Store} : s.tokens[k]? = some t → t.pc = .allocating →
      (s.pool .tx).dequeue = some (b, p) →
      TxStep c s (.token k) { s.tx c with pool := p, tokens := s.tokens.set k { t with pc := .adding b } }
  | add {k b : ℕ} {t : Token} : s.tokens[k]? = some t → t.pc = .adding b →
      TxStep c s (.token k) { s.tx c with
        pool := (s.pool .tx).fetchAdd b
        tokens := s.tokens.set k ⟨.held b, { s.request b with size := 0, fn := none, priv := 0 }⟩
        request := Function.update s.request b { s.request b with size := 0, fn := none, priv := 0 } }
  | move {a : Act} {k : ℕ} {t : Token} {pc : TokenPc} : s.tokens[k]? = some t →
      (t.pc = .allocating ∧ pc = .null) ∨
        (∃ b, t.pc = .sendCtx b ∧ (pc = .sendFields b ∨ pc = .held b)) ∨
        (∃ b, t.pc = .held b ∧ (pc = .releaseSub b ∨ pc = .gone)) →
      TxStep c s a { s.tx c with tokens := s.tokens.set k { t with pc := pc } }
  | fill {k b : ℕ} {t : Token} {payload : List UInt8} : s.tokens[k]? = some t → t.pc = .held b →
      TxStep c s (.fill k payload) { s.tx c with
        tokens := s.tokens.set k { t with request := { t.request with payload := payload } }
        request := Function.update s.request b { s.request b with payload := payload } }
  | send {k b priv : ℕ} {size : UInt32} {fn : Option ℕ} {t : Token} : s.tokens[k]? = some t → t.pc = .held b →
      TxStep c s (.send k size fn priv) { s.tx c with
        tokens := s.tokens.set k ⟨.sendCtx b, { t.request with size := size, fn := fn, priv := priv }⟩ }
  | fields {k b : ℕ} {t : Token} : s.tokens[k]? = some t → t.pc = .sendFields b →
      TxStep c s (.token k) { s.tx c with
        tokens := s.tokens.set k { t with pc := .sendPost b }
        request := Function.update s.request b { t.request with payload := (s.request b).payload } }
  | accept {k b : ℕ} {t : Token} : s.tokens[k]? = some t → t.pc = .sendPost b →
      TxStep c s (.token k) { s.tx c with
        tokens := s.tokens.set k { t with pc := .queued b }
        accepted := s.accepted ++ [k]
        line := (s.tx c).line ++ [.txF b k] }
  | release {k b : ℕ} {t : Token} : s.tokens[k]? = some t → t.pc = .releaseSub b →
      (s.pool .tx).retainCount b = 1 → TxStep c s (.token k) { s.tx c with
        pool := (s.pool .tx).fetchSub b
        tokens := s.tokens.set k { t with pc := .releaseEnqueue b } }
  | releaseOdd {k b : ℕ} {t : Token} {v : Tx} : s.tokens[k]? = some t → t.pc = .releaseSub b →
      (s.pool .tx).retainCount b ≠ 1 → TxStep c s (.token k) v
  | released {k b : ℕ} {t : Token} : s.tokens[k]? = some t → t.pc = .releaseEnqueue b →
      TxStep c s (.token k) { s.tx c with
        pool := (s.pool .tx).enqueue b
        tokens := s.tokens.set k { t with pc := .gone } }

end Cutils.Asyncio
