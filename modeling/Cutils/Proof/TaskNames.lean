import Cutils.Lib.Count
import Cutils.Spec.TaskNames

/-!
# What a task is told its name is

The label grows from NULs, byte by byte, to what `strncpy` makes of it (`Growing`); a call that reads it from the start
finds a first part of it, and never leaves the array, whose last byte stays NUL.

* `task_name_part`: in every interleaving, on either port.
-/

namespace Cutils.TaskNames

open CString

variable {name : Str UInt8} {port : Port} {k n : ℕ}

/-- The label in the end. -/
def final (name : Str UInt8) : List UInt8 := name.chars.take (labelSize - 1)

theorem take_final (hk : k ≤ labelSize - 1) : (final name).take k = name.chars.take k := by
  unfold final
  rw [List.take_take, Nat.min_eq_left hk]

/-- A name that fills the buffer is cut off there. -/
theorem padded_take {cs : List UInt8} (h : (cs.take n).length = n) : padded n cs = cs.take n := by
  have hlen : n ≤ cs.length := by
    rw [List.length_take] at h
    omega
  unfold padded
  rw [Nat.sub_eq_zero_of_le hlen, List.replicate_zero, List.append_nil]

namespace Task

variable {s s' : Task} {a : Act} {c : Call} {i : ℕ}

/-- **The label grows**; on C11 threads the sanity word comes after it. -/
structure Growing (name : Str UInt8) (port : Port) (s : Task) : Prop where
  label : ∀ i, s.label i = if i < labelSize - 1 ∧ .label i ∉ s.todo then name.chars[i]?.getD 0 else 0
  nodup : s.todo.Nodup
  bound : ∀ i, .label i ∈ s.todo → i < labelSize - 1
  last : port = .c11 → s.todo = [] ∨ s.sanity = false ∧ ∃ l, s.todo = l ++ [.sanity]

theorem growing_create {order : List ℕ} (h : order.Perm (List.range (labelSize - 1))) :
    Growing name port (created port order) := by
  have hnodup : (order.map Store.label).Nodup :=
    (h.nodup_iff.2 List.nodup_range).map fun _ _ heq => Store.label.inj heq
  have hmem : ∀ i, .label i ∈ port.stores order ↔ i < labelSize - 1 := by
    intro i
    rw [← List.mem_range, ← h.mem_iff]
    cases port <;> simp [Port.stores]
  refine ⟨fun i => (if_neg fun hi => hi.2 ((hmem i).2 hi.1)).symm, ?_, fun i hi => (hmem i).1 hi, ?_⟩
  · cases port with
    | pthread => exact List.nodup_cons.2 ⟨by simp, hnodup⟩
    | c11 => exact hnodup.append (List.nodup_singleton _) (by simp)
  · rintro rfl
    exact .inr ⟨rfl, _, rfl⟩

/-- **A store of `task_new_static`.** -/
theorem Growing.store (h : Growing name port s) (hs : s.storeStep name = some s') :
    Growing name port s' ∧ s'.calls = s.calls ∧ s'.fault = s.fault ∧ s.todo ≠ [] := by
  obtain ⟨hlabel, hnodup, hbound, hlast⟩ := h
  unfold storeStep at hs
  split at hs
  · cases hs
  · rename_i rest htodo
    obtain rfl := Option.some.inj hs
    rw [htodo] at hlabel hnodup hbound hlast ⊢
    refine ⟨⟨?_, (List.nodup_cons.1 hnodup).2, fun i hi => hbound i (List.mem_cons_of_mem _ hi), ?_⟩, rfl, rfl, nofun⟩
    · intro i
      rw [hlabel i]
      simp
    · intro hp
      obtain ⟨-, l, hl⟩ := (hlast hp).resolve_left nofun
      left
      cases l with
      | nil => exact (List.cons.inj hl).2
      | cons x l =>
        -- the sanity word is stored once
        obtain ⟨rfl, rfl⟩ := List.cons.inj hl
        exact absurd (by simp) (List.nodup_cons.1 hnodup).1
  · rename_i j rest htodo
    obtain rfl := Option.some.inj hs
    rw [htodo] at hlabel hnodup hbound hlast ⊢
    obtain ⟨hj, hrest⟩ := List.nodup_cons.1 hnodup
    refine ⟨⟨?_, hrest, fun i hi => hbound i (List.mem_cons_of_mem _ hi), ?_⟩, rfl, rfl, nofun⟩
    · intro i
      dsimp only
      by_cases hij : i = j
      · subst hij
        rw [Function.update_self, if_pos ⟨hbound i List.mem_cons_self, hj⟩]
      · rw [Function.update_of_ne hij, hlabel i]
        simp [hij]
    · intro hp
      obtain ⟨hsan, l, hl⟩ := (hlast hp).resolve_left nofun
      cases l with
      | nil => cases (List.cons.inj hl).1
      | cons x l => exact .inr ⟨hsan, l, (List.cons.inj hl).2⟩

/-- A byte of the label is the final one, or NUL as long as its store is to come. -/
theorem Growing.byte (h : Growing name port s) (hne : s.label k ≠ 0) :
    k < labelSize - 1 ∧ name.chars[k]? = some (s.label k) := by
  have hlabel := h.label k
  split at hlabel
  · rename_i hk
    refine ⟨hk.1, ?_⟩
    cases hget : name.chars[k]? with
    | none =>
      rw [hget] at hlabel
      exact absurd hlabel hne
    | some c =>
      rw [hget] at hlabel
      rw [hlabel]
      rfl
  · exact absurd hlabel hne

/-- In a label that is complete a NUL is its end. -/
theorem Growing.complete (h : Growing name port s) (htodo : s.todo = []) (hzero : s.label k = 0) :
    name.chars.take k = final name ∨ labelSize - 1 < k := by
  have hlabel := h.label k
  rw [hzero, htodo] at hlabel
  rcases Nat.lt_trichotomy k (labelSize - 1) with hlt | rfl | hgt
  · left
    rw [if_pos ⟨hlt, List.not_mem_nil⟩] at hlabel
    have hnone : name.chars[k]? = none := by
      cases hget : name.chars[k]? with
      | none => rfl
      | some c =>
        rw [hget] at hlabel
        exact absurd hlabel.symm (name.noNul c (List.mem_of_getElem? hget))
    have hlen := List.getElem?_eq_none_iff.1 hnone
    unfold final
    rw [List.take_of_length_le hlen, List.take_of_length_le (by omega)]
  · exact .inl rfl
  · exact .inr hgt

/-- What a call has found so far; whole, if it was made late or the port is that of C11 threads. -/
def Finds (name : Str UInt8) (port : Port) (todo : List Store) (c : Call) : Prop :=
  (c.late = true → todo = []) ∧
  match c.pc with
  | .check => True
  | .copy copied => copied.length ≤ labelSize - 1 ∧ copied.length ≤ c.stringLen ∧
      copied = name.chars.take copied.length ∧ (port = .c11 → todo = [])
  | .returned answer => (answer = padded c.stringLen unknown ∧ c.late = false) ∨
      ∃ k ≤ labelSize - 1, answer = padded c.stringLen (name.chars.take k) ∧
        (c.late = true ∨ port = .c11 → k = labelSize - 1)

/-- **The invariant.** -/
structure Sound (name : Str UInt8) (port : Port) (s : Task) : Prop where
  growing : Growing name port s
  sanity : s.sanity = false → .sanity ∈ s.todo
  calls : ∀ c ∈ s.calls, Finds name port s.todo c
  fault : s.fault = false

/-- What a call has found stays so while stores are made. -/
theorem Finds.later {todo todo' : List Store} (h : Finds name port todo c) (hne : todo ≠ []) : Finds name port todo' c := by
  refine ⟨fun hlate => absurd (h.1 hlate) hne, ?_⟩
  have hpc := h.2
  cases hc : c.pc with
  | check => trivial
  | copy copied =>
    rw [hc] at hpc
    exact ⟨hpc.1, hpc.2.1, hpc.2.2.1, fun hp => absurd (hpc.2.2.2 hp) hne⟩
  | returned answer =>
    rw [hc] at hpc
    exact hpc

/-- **A load of a call** that copies. -/
theorem Sound.copy (h : Sound name port s) {copied : List UInt8} (hc : Finds name port s.todo c)
    (hpc : c.pc = .copy copied) (hs : s.runStep i c = some s') : ∃ pc, s' = s.setPc i c pc ∧
      Finds name port s.todo { c with pc := pc } := by
  obtain ⟨hlate, hcopy⟩ := hc
  rw [hpc] at hcopy
  obtain ⟨hsize, hroom, heq, hlast⟩ := hcopy
  unfold runStep at hs
  rw [hpc] at hs
  dsimp only at hs
  split at hs
  · rename_i hfull
    -- the buffer is full: what is left of the label does not matter
    refine ⟨_, (Option.some.inj hs).symm, hlate, .inr ⟨labelSize - 1, Nat.le_refl _, ?_, fun _ => rfl⟩⟩
    have hle : c.stringLen ≤ labelSize - 1 := by omega
    rw [hfull] at heq
    have htake : (final name).take c.stringLen = copied := by rw [take_final hle, ← heq]
    exact (htake.symm.trans (padded_take (by rw [htake]; exact hfull)).symm)
  · rename_i hfull
    split at hs
    · split at hs
      · rename_i hzero
        refine ⟨_, (Option.some.inj hs).symm, hlate, .inr ?_⟩
        by_cases htodo : s.todo = []
        · have hfinal := (h.growing.complete htodo hzero).resolve_right (Nat.not_lt.2 hsize)
          exact ⟨labelSize - 1, Nat.le_refl _, by rw [heq, hfinal]; rfl, fun _ => rfl⟩
        · exact ⟨copied.length, hsize, by rw [← heq],
            fun hor => absurd (hor.elim hlate hlast) htodo⟩
      · rename_i hne
        obtain ⟨hlt, hget⟩ := h.growing.byte hne
        refine ⟨_, (Option.some.inj hs).symm, hlate, ?_, ?_, ?_, hlast⟩
        · rw [List.length_append]
          exact hlt
        · rw [List.length_append, List.length_singleton]
          exact Nat.lt_of_le_of_ne hroom hfull
        · rw [List.length_append, List.length_singleton, List.take_add_one, hget, ← heq]
          rfl
    · rename_i hout
      exact absurd (Nat.lt_succ_of_le hsize) hout

/-- **One step** keeps the invariant. -/
theorem step_sound (h : Sound name port s) (hs : s.step name a = some s') : Sound name port s' := by
  cases a with
  | store =>
    obtain ⟨hgrowing, hcalls, hfault, hne⟩ := h.growing.store hs
    refine ⟨hgrowing, ?_, ?_, hfault.trans h.fault⟩
    · intro hsan
      unfold step storeStep at hs
      dsimp only at hs
      split at hs
      · cases hs
      · obtain rfl := Option.some.inj hs
        cases hsan
      · rename_i j rest htodo
        obtain rfl := Option.some.inj hs
        have hmem := h.sanity hsan
        rw [htodo] at hmem
        exact (List.mem_cons.1 hmem).resolve_left nofun
    · intro c hc
      rw [hcalls] at hc
      exact (h.calls c hc).later hne
  | call stringLen =>
    obtain rfl := Option.some.inj hs
    refine ⟨⟨h.growing.label, h.growing.nodup, h.growing.bound, h.growing.last⟩, h.sanity, ?_, h.fault⟩
    intro c hc
    rcases List.mem_append.1 hc with hc | hc
    · exact h.calls c hc
    · rw [List.mem_singleton.1 hc]
      exact ⟨fun hlate => List.isEmpty_iff.1 hlate, trivial⟩
  | run i =>
    obtain ⟨c, hc, hs⟩ := Option.bind_eq_some_iff.1 hs
    have hfinds := h.calls c (List.mem_of_getElem? hc)
    suffices hmove : ∃ pc, s' = s.setPc i c pc ∧ Finds name port s.todo { c with pc := pc } by
      obtain ⟨pc, rfl, hpc⟩ := hmove
      refine ⟨⟨h.growing.label, h.growing.nodup, h.growing.bound, h.growing.last⟩, h.sanity, ?_, h.fault⟩
      intro d hd
      rcases List.mem_or_eq_of_mem_set hd with hd | rfl
      · exact h.calls d hd
      · exact hpc
    cases hpc : c.pc with
    | check =>
      unfold runStep at hs
      rw [hpc] at hs
      refine ⟨_, (Option.some.inj hs).symm, hfinds.1, ?_⟩
      cases hsan : s.sanity with
      | true =>
        refine ⟨Nat.zero_le _, Nat.zero_le _, rfl, fun hp => ?_⟩
        refine (h.growing.last hp).resolve_right fun hlast => ?_
        rw [hsan] at hlast
        cases hlast.1
      | false =>
        refine .inl ⟨rfl, ?_⟩
        cases hlate : c.late with
        | false => rfl
        | true =>
          have hmem := h.sanity hsan
          rw [hfinds.1 hlate] at hmem
          cases hmem
    | copy copied => exact h.copy hfinds hpc hs
    | returned answer =>
      unfold runStep at hs
      rw [hpc] at hs
      cases hs

theorem reach_sound (h : Sys.Reach (system name port) Sys.Always s) : Sound name port s := by
  refine Sys.Reach.inv (I := Sound name port) ?_ (fun s a s' hI _ hs => step_sound hI hs) h
  rintro s ⟨order, horder, rfl⟩
  exact ⟨growing_create horder, fun _ => by cases port <;> simp [created, Port.stores], nofun, rfl⟩

end Task

open Cutils.TaskNames.Task

/-- **A task's name while it is written.** In every interleaving of the stores of `task_new_static` and any number of calls
of `task_get_current_name` with buffers of any size: no load leaves the label array; and a call is told "unknown" or some first
part of the label, cut off at the end of the buffer and then without a NUL. It is the whole label, up to what the
array can hold, if the call was made after `task_new_static` was through, and on C11 threads whenever it is not "unknown". -/
theorem task_name_part (name : Str UInt8) (port : Port) (s : Task) (h : Sys.Reach (system name port) Sys.Always s) :
    s.fault = false ∧ ∀ c ∈ s.calls, ∀ answer, c.pc = .returned answer →
      (answer = padded c.stringLen unknown ∧ c.late = false) ∨
        ∃ k ≤ labelSize - 1, answer = padded c.stringLen (name.chars.take k) ∧
          (c.late = true ∨ port = .c11 → k = labelSize - 1) := by
  have hS := reach_sound h
  refine ⟨hS.fault, fun c hc answer hpc => ?_⟩
  have hfinds := (hS.calls c hc).2
  rw [hpc] at hfinds
  exact hfinds

/-- A label "Rx": on pthreads a call between the sanity word and the label is told an empty name, and one that
comes when the first byte is there is told "R". -/
theorem task_name_part_torn : ∃ s : Task, Sys.Reach (system ⟨[82, 120], by simp⟩ .pthread) Sys.Always s ∧
    s.fault = false ∧ s.calls.map (·.pc) =
      [.returned [0, 0, 0, 0], .returned [82, 0, 0, 0], .returned [82, 120]] := by
  have htrace : (Sys.exec (system ⟨[82, 120], by simp⟩ .pthread) Sys.Always
      (created .pthread (List.range (labelSize - 1)))
      ([.call 4, .store, .run 0, .run 0, .store, .call 4, .run 1, .run 1, .run 1] ++ List.replicate 28 .store ++
        [.call 2, .run 2, .run 2, .run 2, .run 2])).map (fun s => s.calls.map (·.pc) ==
      [.returned [0, 0, 0, 0], .returned [82, 0, 0, 0], .returned [82, 120]]) = some true := by decide +kernel
  have hinit : Sys.Reach (system ⟨[82, 120], by simp⟩ .pthread) Sys.Always
      (created .pthread (List.range (labelSize - 1))) := .init ⟨_, .refl _, rfl⟩
  obtain ⟨s, hs, hp⟩ := hinit.of_trace htrace
  exact ⟨s, hs, (task_name_part _ _ s hs).1, beq_iff_eq.1 hp⟩

end Cutils.TaskNames
