import Cutils.Proof.LogBufferContents
import Cutils.Spec.TsLogBufferThreads

/-!
# The thread-safe log buffer is linearizable

The sections of the calls, a character at a time, are whole calls (`whole`); the mutex does the rest. The contents are
those of the pushes in the order in which they took effect (`logged`).

* `ts_log_buffer_linearizable`: no text is torn, and a client is told what its push found, even when the callback has been
  replaced by then.
-/

namespace Cutils.Log

open History Monitor

variable {n : UInt32}

namespace TsLogBuffer

/-- What is left to do from inside a section. -/
def rest (ts : TsLogBuffer) : Section → TsLogBuffer × Answer
  | .check string stringSize => ts.call (.push string stringSize)
  | .characters cs =>
    let ts := { ts with lb := cs.foldl LogBuffer.pushCharacter ts.lb }
    (ts, .notified (ts.notify ts.diff))
  | .loadFn => (ts, .notified (ts.notify ts.diff))
  | .loadPrivate fn => (ts, .notified (notify { ts with fn := fn } ts.diff))
  | .loadSizes fn priv => (ts, .notified (notify { ts with fn := fn, priv := priv } ts.diff))
  | .storeFn fn priv => (ts.installNotifications fn priv, .installed)
  | .storePrivate priv => ({ ts with priv := priv }, .installed)
  | .size => ts.call .currentSize
  | .done answer => (ts, answer)

/-- **The test of a push** decides which of its characters are left. -/
theorem check_step {ts ts' : TsLogBuffer} {string : Option (ℕ → UInt8)} {stringSize : UInt32} {k : Section}
    (hs : monitor.step ts (.check string stringSize) = some (ts', k)) :
    ts'.rest k = ts.rest (.check string stringSize) := by
  have hs : (if ts.lb.isInit then _ else _) = some (ts', k) := hs
  show _ = ((ts.push string stringSize).1, Answer.notified (ts.push string stringSize).2)
  unfold push
  by_cases hinit : ts.lb.isInit = true
  · rw [if_pos hinit] at hs
    rw [if_pos hinit]
    cases string with
    | none =>
      obtain ⟨rfl, rfl⟩ := Prod.mk.inj (Option.some.inj hs)
      rfl
    | some string =>
      dsimp only at hs ⊢
      unfold LogBuffer.push
      rw [hinit, Bool.true_and]
      by_cases hlt : stringSize < ts.lb.bufferSize
      · rw [if_pos hlt] at hs
        obtain ⟨rfl, rfl⟩ := Prod.mk.inj (Option.some.inj hs)
        rw [decide_eq_true hlt]
        rfl
      · rw [if_neg hlt] at hs
        obtain ⟨rfl, rfl⟩ := Prod.mk.inj (Option.some.inj hs)
        rw [decide_eq_false hlt]
        rfl
  · rw [if_neg hinit] at hs
    obtain ⟨rfl, rfl⟩ := Prod.mk.inj (Option.some.inj hs)
    rw [if_neg hinit]
    rfl

/-- **Sections are whole calls.** -/
def whole : Whole monitor call where
  rest := rest
  enter ts x := by cases x <;> rfl
  step {ts ts' k k'} hs := by
    cases k with
    | check string stringSize => exact check_step hs
    | characters cs =>
      cases cs with
      | nil => obtain ⟨rfl, rfl⟩ := Prod.mk.inj (Option.some.inj hs); rfl
      | cons c cs => obtain ⟨rfl, rfl⟩ := Prod.mk.inj (Option.some.inj hs); rfl
    | done answer => cases hs
    | _ => obtain ⟨rfl, rfl⟩ := Prod.mk.inj (Option.some.inj hs); rfl
  leave {ts k} hs := by
    cases k with
    | done answer => rfl
    | check string stringSize =>
      have hs : (if ts.lb.isInit then _ else _) = none := hs
      split at hs
      · cases string with
        | none => cases hs
        | some string =>
          dsimp only at hs
          split at hs <;> cases hs
      · cases hs
    | characters cs => cases cs <;> cases hs
    | _ => cases hs

end TsLogBuffer

abbrev Event := History.Event Request (Request × Answer) Answer

/-- What a call is for, as far as the contents go. -/
def Request.onContents (t : Fifo UInt8 (n.toNat - 1) × Bool) : Request → Fifo UInt8 (n.toNat - 1) × Bool
  | .push (some string) stringSize => (contentsCall t (.push string stringSize)).1
  | _ => t

/-- The contents after the effects in a history, from the contents `t`. -/
def logged (t : Fifo UInt8 (n.toNat - 1) × Bool) (h : List Event) : Fifo UInt8 (n.toNat - 1) × Bool :=
  h.foldl (fun t e => match e with
    | .effect _ (x, _) => x.onContents t
    | _ => t) t

/-- **A call keeps the contents** that it should. -/
theorem call_onContents {ts : TsLogBuffer} {t : Fifo UInt8 (n.toNat - 1) × Bool} (h : Refines ts.lb t.1 t.2)
    (x : Request) : Refines (ts.call x).1.lb (x.onContents t).1 (x.onContents t).2 := by
  cases x with
  | push string stringSize =>
    show Refines (ts.push string stringSize).1.lb _ _
    unfold TsLogBuffer.push
    rw [if_pos h.isInit]
    cases string with
    | none => exact h
    | some string => exact (call_refines ts.lb t (.push string stringSize) h).2
  | installNotifications fn priv => exact h
  | currentSize => exact h

theorem leads_logged {ts₀ ts : TsLogBuffer} {t : Fifo UInt8 (n.toNat - 1) × Bool} {h : List Event}
    (h₀ : Refines ts₀.lb t.1 t.2) (hl : Leads (does TsLogBuffer.call) ts₀ h ts) :
    Refines ts.lb (logged t h).1 (logged t h).2 := by
  induction hl with
  | nil => exact h₀
  | invoked i request hl ih | returned i answer hl ih =>
    unfold logged at *
    rw [List.foldl_append]
    exact ih
  | @effect h ts ts' i e hl hdoes ih =>
    obtain ⟨x, answer⟩ := e
    have hts' : (ts.call x).1 = ts' := congrArg Prod.fst hdoes
    unfold logged at *
    rw [List.foldl_append, ← hts']
    exact call_onContents ih x

/-- **The thread-safe log buffer is linearizable.** Any number of threads push, install callbacks and ask for the size, a
character at a time, from a buffer that stands for any contents: as long as no lock attempt fails, the calls take effect one
after the other, each between its invocation and its return and with the answer it returns, which for a push is the
callback that was installed then with the level it found; the buffer is what these calls lead to whenever the mutex is free;
and it holds the contents that the pushes, none of them torn, lead to. -/
theorem ts_log_buffer_linearizable (n : UInt32) (ts₀ : TsLogBuffer) (q : Fifo UInt8 (n.toNat - 1)) (inSequence : Bool)
    (h₀ : Refines ts₀.lb q inSequence) (s : Threads TsLogBuffer Request Section Answer) (h : List Event)
    (hr : Sys.Reach (watched TsLogBuffer.monitor ts₀) (Sys.onState Threads.LockWorks) (s, h)) :
    (∃ ts, Leads (does TsLogBuffer.call) ts₀ h ts ∧ (s.owner = none → s.object = ts) ∧
      Refines ts.lb (logged (q, inSequence) h).1 (logged (q, inSequence) h).2) ∧
    (∀ i c k, s.calls[i]? = some c → c.pc = .inside k → s.owner = some i) ∧
    ∀ i c, s.calls[i]? = some c → Told h i c := by
  have hL := Monitor.linearizable TsLogBuffer.whole hr
  obtain ⟨ts, hl, hst⟩ := hL.leads
  refine ⟨⟨ts, hl, ?_, ?_⟩, hL.owner, hL.told⟩
  · intro ho
    unfold Threads.Stands at hst
    rw [ho] at hst
    exact hst
  · exact leads_logged (t := (q, inSequence)) h₀ hl

instance (p : Threads TsLogBuffer Request Section Answer × List Event) (a : Act Request) :
    Decidable (Sys.onState Threads.LockWorks p a) := inferInstanceAs (Decidable (p.1.LockWorks a))

/-- A buffer of 4 bytes with a callback. -/
def fourBytes : TsLogBuffer := ⟨⟨fun _ => 0, true, 4, 0, 0, false⟩, some 9, 4⟩

theorem fourBytes_refines : Refines fourBytes.lb (Fifo.empty : Fifo UInt8 ((4 : UInt32).toNat - 1)) false := by
  have hinit : LogBuffer.init ⟨fun _ => 0, false, 0, 0, 0, false⟩ (fun _ => 0) 4 = some fourBytes.lb := rfl
  exact init_refines hinit

/-- A callback that is taken out while a push is under way is called all the same, after the install has returned; the
other push has none to call. -/
theorem ts_log_buffer_linearizable_late : ∃ (s : Threads TsLogBuffer Request Section Answer) (h : List Event),
    Sys.Reach (watched TsLogBuffer.monitor fourBytes) (Sys.onState Threads.LockWorks) (s, h) ∧
    s.calls.map (·.pc.back) = [some (.notified (some (9, .full, 4))), some (.notified none), some .installed] ∧
    (logged ((Fifo.empty : Fifo UInt8 ((4 : UInt32).toNat - 1)), false) h).1.items = [65, 66] ∧
    Leads (does TsLogBuffer.call) fourBytes h s.object := by
  have htrace : (Sys.exec (watched TsLogBuffer.monitor fourBytes) (Sys.onState Threads.LockWorks)
      (⟨fourBytes, none, []⟩, [])
      ([.call (.push (some fun _ => 65) 1), .call (.push (some fun _ => 66) 1), .lock 0, .run 0,
        .call (.installNotifications none 0)] ++ List.replicate 6 (.run 0) ++ [.lock 2, .run 2, .run 2, .run 2, .run 2,
        .lock 1] ++ List.replicate 8 (.run 1) ++ [.run 0])).map
      (fun p => p.1.owner == none && p.1.calls.map (·.pc.back) == [some (.notified (some (9, .full, 4))),
        some (.notified none), some .installed] &&
        (logged ((Fifo.empty : Fifo UInt8 ((4 : UInt32).toNat - 1)), false) p.2).1.items == [65, 66]) =
      some true := by decide +kernel
  have hinit : Sys.Reach (watched TsLogBuffer.monitor fourBytes) (Sys.onState Threads.LockWorks)
      (⟨fourBytes, none, []⟩, []) := .init ⟨rfl, rfl⟩
  obtain ⟨⟨s, h⟩, hs, hp⟩ := hinit.of_trace htrace
  simp only [Bool.and_eq_true, beq_iff_eq] at hp
  obtain ⟨⟨howner, hpcs⟩, hitems⟩ := hp
  obtain ⟨ts, hl, heq, -⟩ := (ts_log_buffer_linearizable 4 fourBytes Fifo.empty false fourBytes_refines s h hs).1
  rw [← heq howner] at hl
  exact ⟨s, h, hs, hpcs, hitems, hl⟩

end Cutils.Log
