import Cutils.Lib.Fifo
import Cutils.Spec.EventFlag

/-!
# Two ports of event flags

`reference` is what a call means on a flag word. The pthread port does exactly that. The FreeRTOS port does it
to the flag word and in its results; the actual flags that it reports are the whole word of the event group,
whether the wait succeeded or not.

* `event_flag_ports`: exactly when a run on FreeRTOS reports what the reference does.
-/

namespace Cutils.EventFlag

/-- The condition of a wait. -/
def satisfied (val requiredFlags : UInt32) : WaitType → Bool
  | .waitOr | .waitOrClear => val &&& requiredFlags != 0
  | .waitAnd | .waitAndClear => val &&& requiredFlags == requiredFlags

def WaitType.clears : WaitType → Bool
  | .waitOrClear | .waitAndClear => true
  | .waitOr | .waitAnd => false

def WaitType.all : WaitType → Bool
  | .waitAnd | .waitAndClear => true
  | .waitOr | .waitOrClear => false

/-- **What a call means**: a wait whose condition holds reports the flags it waited for that are set, and clears exactly
these if it is to; one whose condition does not hold changes nothing. -/
def reference (val : UInt32) : Op → UInt32 × Obs
  | .send flagBits => (val ||| flagBits, ⟨true, none⟩)
  | .clear flagBits => (val &&& ~~~flagBits, ⟨true, none⟩)
  | .wait requiredFlags waitType actual _ =>
    if satisfied val requiredFlags waitType then
      (if waitType.clears then val &&& ~~~(val &&& requiredFlags) else val,
        ⟨true, report actual (val &&& requiredFlags)⟩)
    else (val, ⟨false, actual⟩)

/-- The masks have bits that FreeRTOS has, and waits are for something. -/
def Op.Valid : Op → Prop
  | .send flagBits | .clear flagBits => flagBits &&& validBits = flagBits
  | .wait requiredFlags _ _ _ => requiredFlags &&& validBits = requiredFlags ∧ requiredFlags ≠ 0

instance : DecidablePred Op.Valid
  | .send flagBits | .clear flagBits => inferInstanceAs (Decidable (flagBits &&& validBits = flagBits))
  | .wait requiredFlags _ _ _ =>
    inferInstanceAs (Decidable (requiredFlags &&& validBits = requiredFlags ∧ requiredFlags ≠ 0))

/-- **The event groups as FreeRTOS documents them**: a wait returns the whole word, before it clears anything, and clears
the bits it waited for only if its condition held. -/
structure EventGroups.Documented (g : EventGroups) : Prop where
  setBits : ∀ word bits, g.setBits word bits = word ||| bits
  clearBits : ∀ word bits, g.clearBits word bits = word &&& ~~~bits
  returned : ∀ word bits clear all, (g.waitBits word bits clear all).1 = word
  left : ∀ word bits clear all, (g.waitBits word bits clear all).2 =
    if clear && (if all then word &&& bits == bits else word &&& bits != 0) then word &&& ~~~bits else word

/-- Nothing but the reported flags tells FreeRTOS from the reference: there is no variable, or it is to have what the
whole word is. -/
def Exact (val : UInt32) : Op → Prop
  | .wait requiredFlags waitType actual _ =>
    actual = none ∨ if satisfied val requiredFlags waitType then val &&& requiredFlags = val else actual = some val
  | _ => True

/-- Clearing the set ones among some bits is clearing these bits. -/
theorem and_not_and (v m : UInt32) : v &&& ~~~(v &&& m) = v &&& ~~~m := by
  apply UInt32.eq_of_toBitVec_eq
  ext i hi
  simp only [UInt32.toBitVec_and, UInt32.toBitVec_not, BitVec.getElem_and, BitVec.getElem_not]
  cases v.toBitVec[i] <;> simp

section Calls

variable (val requiredFlags : UInt32) (waitType : WaitType) (actual : Option UInt32)

/-- The outcome of a wait, by the reference. -/
def waited : Outcome :=
  if satisfied val requiredFlags waitType then
    ⟨true, if waitType.clears then val &&& ~~~(val &&& requiredFlags) else val, report actual (val &&& requiredFlags)⟩
  else ⟨false, val, actual⟩

theorem reference_wait (wakeups : ℕ) : reference val (.wait requiredFlags waitType actual wakeups) =
    ((waited val requiredFlags waitType actual).val,
      ⟨(waited val requiredFlags waitType actual).retval, (waited val requiredFlags waitType actual).actual⟩) := by
  unfold waited
  simp only [reference]
  by_cases hsat : satisfied val requiredFlags waitType = true
  · rw [if_pos hsat, if_pos hsat]
  · rw [if_neg hsat, if_neg hsat]

theorem checkFlags_eq : checkFlags val requiredFlags waitType actual = waited val requiredFlags waitType actual := by
  have hret : (if waitType = .waitOr ∨ waitType = .waitOrClear then val &&& requiredFlags != 0
      else val &&& requiredFlags == requiredFlags) = satisfied val requiredFlags waitType := by
    cases waitType <;> rfl
  have hclear : (waitType == .waitAndClear || waitType == .waitOrClear) = waitType.clears := by
    cases waitType <;> rfl
  unfold checkFlags waited
  simp only [hret, hclear]
  cases satisfied val requiredFlags waitType with
  | true => simp only [Bool.true_and, if_true]
  | false => simp only [Bool.false_and, Bool.false_eq_true, if_false]

/-- **A wait on pthreads** is the reference's: a spurious wake-up finds what the first check found. -/
theorem pthreadWait_eq (wakeups : ℕ) : pthreadWait val requiredFlags waitType actual wakeups =
    waited val requiredFlags waitType actual := by
  induction wakeups with
  | zero => exact checkFlags_eq ..
  | succ n ih =>
    unfold pthreadWait
    simp only [checkFlags_eq]
    by_cases hsat : satisfied val requiredFlags waitType = true
    · have hret : (waited val requiredFlags waitType actual).retval = true := by
        unfold waited
        rw [if_pos hsat]
      rw [if_pos hret]
    · -- a check that fails leaves word and variable as they were, for the next one to find
      have hsame : waited val requiredFlags waitType actual = ⟨false, val, actual⟩ := by
        unfold waited
        rw [if_neg hsat]
      rw [hsame] at ih ⊢
      exact ih

/-- The switch of the source: what the kernel is asked for. -/
theorem freertosWait_asks (g : EventGroups) : freertosWait g val requiredFlags waitType actual =
    let r := g.waitBits val (requiredFlags &&& validBits) waitType.clears waitType.all
    ⟨if waitType.all then r.1 &&& requiredFlags == requiredFlags else r.1 &&& requiredFlags != 0, r.2,
      report actual r.1⟩ := by
  cases waitType <;> rfl

/-- **A wait on FreeRTOS** is the reference's but for what it reports. -/
theorem freertosWait_eq {g : EventGroups} (hg : g.Documented) (hlow : requiredFlags &&& validBits = requiredFlags) :
    freertosWait g val requiredFlags waitType actual =
      { waited val requiredFlags waitType actual with actual := report actual val } := by
  have hcleared : val &&& ~~~(val &&& requiredFlags) = val &&& ~~~requiredFlags := and_not_and val requiredFlags
  have hall : (if waitType.all then val &&& requiredFlags == requiredFlags else val &&& requiredFlags != 0) =
      satisfied val requiredFlags waitType := by
    cases waitType <;> rfl
  unfold waited
  simp only [freertosWait_asks, hg.returned, hg.left, hlow, hall, hcleared]
  -- the kernel clears all the bits, the reference those that are set
  cases satisfied val requiredFlags waitType with
  | true => simp only [Bool.and_true, if_true]
  | false => simp only [Bool.and_false, Bool.false_eq_true, if_false]

end Calls

section Runs

variable {g : EventGroups} {val : UInt32} {op : Op}

theorem pthreadCall_eq (val : UInt32) (op : Op) : pthreadCall val op = reference val op := by
  cases op with
  | send flagBits => rfl
  | clear flagBits => rfl
  | wait requiredFlags waitType actual wakeups =>
    rw [reference_wait]
    simp only [pthreadCall, pthreadWait_eq]

/-- What FreeRTOS reports is what the reference reports if there is nothing to report to, or the same flags. -/
theorem report_eq_iff (val requiredFlags : UInt32) (waitType : WaitType) (actual : Option UInt32) (wakeups : ℕ) :
    report actual val = (waited val requiredFlags waitType actual).actual ↔
      Exact val (.wait requiredFlags waitType actual wakeups) := by
  unfold waited Exact
  cases actual with
  | none => by_cases hsat : satisfied val requiredFlags waitType = true <;> simp [hsat, report]
  | some flags =>
    by_cases hsat : satisfied val requiredFlags waitType = true
    · simp only [hsat, if_true, report, Option.map_some, Option.some.injEq, reduceCtorEq, false_or]
      exact eq_comm
    · simp only [hsat, Bool.false_eq_true, if_false, report, Option.map_some, Option.some.injEq, reduceCtorEq, false_or]
      exact eq_comm

/-- **One call on FreeRTOS**: the word and the result are right, and the rest is if the call is exact. -/
theorem freertosCall_step (hg : g.Documented) (hvalid : op.Valid) :
    (freertosCall g val op).1 = (reference val op).1 ∧
    (freertosCall g val op).2.retval = (reference val op).2.retval ∧
    ((freertosCall g val op).2 = (reference val op).2 ↔ Exact val op) := by
  cases op with
  | send flagBits =>
    have hlow : flagBits &&& validBits = flagBits := hvalid
    refine ⟨?_, rfl, iff_of_true rfl trivial⟩
    simp only [freertosCall, freertosSend, reference, hg.setBits, hlow]
  | clear flagBits =>
    have hlow : flagBits &&& validBits = flagBits := hvalid
    refine ⟨?_, rfl, iff_of_true rfl trivial⟩
    simp only [freertosCall, freertosClear, reference, hg.clearBits, hlow]
  | wait requiredFlags waitType actual wakeups =>
    rw [reference_wait]
    simp only [freertosCall, freertosWait_eq _ _ _ _ hg hvalid.1, true_and, Obs.mk.injEq]
    exact report_eq_iff ..

/-- **The ports of event flags.** A run on pthreads gives the words, results and actual flags of the reference. One on
FreeRTOS gives its words and results, and its actual flags exactly if every wait with a variable for them either
succeeds with no other bit set than those it waits for, or fails with the variable already holding the word. -/
theorem event_flag_ports (g : EventGroups) (hg : g.Documented) (ops : List Op) (hvalid : ∀ op ∈ ops, op.Valid)
    (val : UInt32) :
    Device.runSpec pthreadCall val ops = Device.runSpec reference val ops ∧
    (Device.runSpec (freertosCall g) val ops).1 = (Device.runSpec reference val ops).1 ∧
    (Device.runSpec (freertosCall g) val ops).2.map Obs.retval = (Device.runSpec reference val ops).2.map Obs.retval ∧
    ((Device.runSpec (freertosCall g) val ops).2 = (Device.runSpec reference val ops).2 ↔
      Device.Allowed reference Exact val ops) := by
  have hpthread : pthreadCall = reference := by
    funext val op
    exact pthreadCall_eq val op
  have hstep : ∀ s t op, s = t → op.Valid → (freertosCall g s op).1 = (reference t op).1 ∧
      (freertosCall g s op).2.retval = (reference t op).2.retval ∧
      ((freertosCall g s op).2 = (reference t op).2 ↔ Exact t op) := by
    rintro s _ op rfl hop
    exact freertosCall_step hg hop
  exact ⟨by rw [hpthread], Device.answers_iff Obs.retval hstep ops val val rfl hvalid⟩

/-- Event groups as the kernel has them. -/
def kernelGroups : EventGroups where
  setBits word bits := word ||| bits
  clearBits word bits := word &&& ~~~bits
  waitBits word bits clear all :=
    (word, if clear && (if all then word &&& bits == bits else word &&& bits != 0) then word &&& ~~~bits else word)

theorem kernelGroups_documented : kernelGroups.Documented :=
  ⟨fun _ _ => rfl, fun _ _ => rfl, fun _ _ _ _ => rfl, fun _ _ _ _ => rfl⟩

/-- A wait for the flag that is set, which it clears, and one that fails into a variable that already has the word. -/
theorem event_flag_ports_clear :
    (Device.runSpec (freertosCall kernelGroups) 0
        [.send 1, .wait 1 .waitOrClear (some 7) 0, .wait 2 .waitAnd (some 0) 3]).2 =
      [⟨true, none⟩, ⟨true, some 1⟩, ⟨false, some 0⟩] := by
  have hexact : Device.Allowed reference Exact 0
      [.send 1, .wait 1 .waitOrClear (some 7) 0, .wait 2 .waitAnd (some 0) 3] :=
    ⟨trivial, .inr (by decide), .inr (by decide), trivial⟩
  obtain ⟨-, -, -, hans⟩ := event_flag_ports kernelGroups kernelGroups_documented
    [.send 1, .wait 1 .waitOrClear (some 7) 0, .wait 2 .waitAnd (some 0) 3] (by decide) 0
  rw [hans.2 hexact]
  decide

/-- **Flags that nobody waited for are reported**: with both flags set, a wait for the first reports both; and a wait
that fails overwrites the caller's variable. -/
theorem event_flag_ports_report :
    ((Device.runSpec reference 0 [.send 3, .wait 1 .waitOr (some 0) 0, .wait 4 .waitOr (some 0) 0]).2 =
      [⟨true, none⟩, ⟨true, some 1⟩, ⟨false, some 0⟩]) ∧
    ((Device.runSpec pthreadCall 0 [.send 3, .wait 1 .waitOr (some 0) 0, .wait 4 .waitOr (some 0) 0]).2 =
      [⟨true, none⟩, ⟨true, some 1⟩, ⟨false, some 0⟩]) ∧
    ((Device.runSpec (freertosCall kernelGroups) 0
        [.send 3, .wait 1 .waitOr (some 0) 0, .wait 4 .waitOr (some 0) 0]).2 =
      [⟨true, none⟩, ⟨true, some 3⟩, ⟨false, some 3⟩]) := by
  decide

end Runs

end Cutils.EventFlag
