import Cutils.Spec.AsyncioNames
import Mathlib.Data.List.Induction

/-!
# What the asyncio threads are called

`strncpy` copies at most 37 characters and then leaves the name without a NUL: `strcat` goes on to the first
one behind it, which is where earlier names have left one. Byte 37 decides: it is NUL at first, and whatever
the latest name of 35 characters or more has put there.

* `thread_names_iff`: when all names of a sequence of instances in the same memory are as they should be.
-/

namespace Cutils.Asyncio.Names

open CString

variable {buf : ℕ → UInt8} {name : Str UInt8} {a b : UInt8}

/-- What `strncpy` leaves: at most 37 characters, NULs up to byte 37, and the rest as it was. -/
def copied (buf : ℕ → UInt8) (name : Str UInt8) : ℕ → UInt8 :=
  overlay buf 0 (name.chars.take 37 ++ List.replicate (37 - name.chars.length) 0)

theorem strncpy_eq (buf : ℕ → UInt8) (name : Str UInt8) :
    strncpy maxThreadName buf name.chars (maxThreadName - 3) = some (copied buf name) := by
  refine puts_eq ?_
  simp only [maxThreadName, List.length_append, List.length_take, List.length_replicate]
  omega

/-- The characters of the name are no NULs. -/
theorem copied_ne_zero (buf : ℕ → UInt8) (name : Str UInt8) {j : ℕ} (h : j < min 37 name.chars.length) :
    copied buf name j ≠ 0 := by
  have hlt : j < (name.chars.take 37).length := by rwa [List.length_take]
  have hget : (name.chars.take 37 ++ List.replicate (37 - name.chars.length) 0)[j]? = some (name.chars.take 37)[j] := by
    rw [List.getElem?_append_left hlt, List.getElem?_eq_getElem hlt]
  have hat : copied buf name (0 + j) = (name.chars.take 37)[j] := overlay_add buf 0 hget
  rw [Nat.zero_add] at hat
  rw [hat]
  exact name.noNul _ (List.mem_of_mem_take (List.getElem_mem hlt))

/-- What is behind the characters of the name. -/
theorem copied_of_le (buf : ℕ → UInt8) (name : Str UInt8) {j : ℕ} (h : min 37 name.chars.length ≤ j) :
    copied buf name j = if j < 37 then 0 else buf j := by
  have hlen : (name.chars.take 37).length = min 37 name.chars.length := List.length_take
  split
  · have hget : (name.chars.take 37 ++ List.replicate (37 - name.chars.length) 0)[j]? = some 0 := by
      rw [List.getElem?_append_right (by omega), List.getElem?_replicate, if_pos (by omega)]
    have hat : copied buf name (0 + j) = 0 := overlay_add buf 0 hget
    rwa [Nat.zero_add] at hat
  · refine overlay_of_le ?_
    rw [List.length_append, List.length_replicate, hlen]
    omega

/-- **A name that goes wrong**: the first NUL is behind byte 37. -/
theorem configureThread_eq_none (hlen : 37 ≤ name.chars.length) (hbuf : buf 37 ≠ 0) :
    configureThread [a, b] buf name = none := by
  rw [configureThread, strncpy_eq, Option.bind_some]
  refine strcat_eq_none (i := 38) ?_ (Nat.le_refl 40)
  intro j hj
  rcases Nat.lt_or_ge j 37 with hlt | hge
  · exact copied_ne_zero buf name (by omega)
  · obtain rfl : j = 37 := by omega
    rwa [copied_of_le buf name (by omega)]

/-- **A name that comes out right**, and what it leaves in byte 37. -/
theorem configureThread_eq_some (ha : a ≠ 0) (hb : b ≠ 0) (hok : 37 ≤ name.chars.length → buf 37 = 0) :
    ∃ buf', configureThread [a, b] buf name = some buf' ∧ Reads buf' 0 (name.chars.take 37 ++ [a, b, 0]) ∧
      (buf' 37 ≠ 0 ↔ if name.chars.length < 35 then buf 37 ≠ 0 else name.chars.length ≠ 35) := by
  have hlen : (name.chars.take 37).length = min 37 name.chars.length := List.length_take
  have hend : copied buf name (min 37 name.chars.length) = 0 := by
    rw [copied_of_le buf name (Nat.le_refl _)]
    split
    · rfl
    · rename_i hge
      rw [show min 37 name.chars.length = 37 by omega]
      exact hok (by omega)
  refine ⟨overlay (copied buf name) (min 37 name.chars.length) [a, b, 0], ?_, ?_, ?_⟩
  · rw [configureThread, strncpy_eq, Option.bind_some]
    refine strcat_eq hend (fun j hj => copied_ne_zero buf name hj) ?_
    simp only [List.length_cons, List.length_nil, maxThreadName]
    omega
  · have hcopied : Reads (copied buf name) 0 (name.chars.take 37) := (reads_overlay buf 0 _).left
    have hmore := hcopied.overlay [a, b, 0]
    rwa [Nat.zero_add, hlen] at hmore
  · generalize hi : min 37 name.chars.length = i
    split
    · rw [overlay_of_le (by simp only [List.length_cons, List.length_nil]; omega), copied_of_le buf name (by omega)]
      rfl
    · -- byte 37 is one of the three that are appended
      obtain rfl | rfl | rfl : i = 37 ∨ i = 36 ∨ i = 35 := by omega
      · rw [overlay_add (copied buf name) 37 (k := 0) rfl]
        exact iff_of_true ha (by omega)
      · rw [overlay_add (copied buf name) 36 (k := 1) rfl]
        exact iff_of_true hb (by omega)
      · rw [overlay_add (copied buf name) 35 (k := 2) rfl]
        exact iff_of_false (fun h => h rfl) (by omega)

/-- **What the names of an instance should be**: the first 37 characters at most, "Rx" or "Tx", and a NUL. -/
def Named (s : Instance) (name : Str UInt8) : Prop :=
  Reads s.rxName 0 (name.chars.take 37 ++ rxSuffix ++ [0]) ∧ Reads s.txName 0 (name.chars.take 37 ++ txSuffix ++ [0])

/-- Instances that are created one after the other in the same memory are all named as they should be. -/
def AllNamed : Instance → List (Str UInt8) → Prop
  | _, [] => True
  | s, name :: names => ∃ s', createInstance name s = some s' ∧ Named s' name ∧ AllNamed s' names

/-- Byte 37 of both names, which tells whether a long name may follow. -/
def Dirty (d : Bool) (s : Instance) : Prop := (s.rxName 37 ≠ 0 ↔ d = true) ∧ (s.txName 37 ≠ 0 ↔ d = true)

/-- Byte 37 after one more name. -/
def dirty (d : Bool) (name : Str UInt8) : Bool :=
  if name.chars.length < 35 then d else decide (name.chars.length ≠ 35)

/-- **One create** gives the right names, unless the name is long and byte 37 is not NUL. -/
theorem createInstance_iff {d : Bool} {s : Instance} (h : Dirty d s) (name : Str UInt8) :
    (37 ≤ name.chars.length ∧ d = true → createInstance name s = none) ∧
    (¬ (37 ≤ name.chars.length ∧ d = true) →
      ∃ s', createInstance name s = some s' ∧ Named s' name ∧ Dirty (dirty d name) s') := by
  obtain ⟨hrx, htx⟩ := h
  constructor
  · rintro ⟨hlen, hd⟩
    rw [createInstance, configureRxThread, rxSuffix, configureThread_eq_none hlen (hrx.2 hd)]
    rfl
  · intro hnot
    have hclean : 37 ≤ name.chars.length → d = false := by
      intro hlen
      cases d with
      | false => rfl
      | true => exact absurd ⟨hlen, rfl⟩ hnot
    have hrx0 : 37 ≤ name.chars.length → s.rxName 37 = 0 := by
      intro hlen
      by_contra hne
      exact absurd (hrx.1 hne) (by rw [hclean hlen]; exact Bool.false_ne_true)
    have htx0 : 37 ≤ name.chars.length → s.txName 37 = 0 := by
      intro hlen
      by_contra hne
      exact absurd (htx.1 hne) (by rw [hclean hlen]; exact Bool.false_ne_true)
    obtain ⟨rx, hrxEq, hrxReads, hrx37⟩ := configureThread_eq_some (a := 82) (b := 120)
      (by decide) (by decide) hrx0
    obtain ⟨tx, htxEq, htxReads, htx37⟩ := configureThread_eq_some (a := 84) (b := 120)
      (by decide) (by decide) htx0
    have hdirty : (if name.chars.length < 35 then d = true else name.chars.length ≠ 35) ↔ dirty d name = true := by
      unfold dirty
      split <;> simp
    refine ⟨⟨rx, tx⟩, ?_, ?_, ?_, ?_⟩
    · simp only [createInstance, configureRxThread, configureTxThread, rxSuffix, txSuffix, hrxEq, htxEq, Option.map_some,
        Option.bind_some]
    · simp only [Named, rxSuffix, txSuffix, List.append_assoc]
      exact ⟨hrxReads, htxReads⟩
    · rw [← hdirty, ← hrx]
      exact hrx37
    · rw [← hdirty, ← htx]
      exact htx37

/-- **A sequence of creates**, with byte 37 carried along. -/
theorem allNamed_iff_foldl {d : Bool} {s : Instance} (h : Dirty d s) (names : List (Str UInt8)) :
    AllNamed s names ↔ ∀ before name after, names = before ++ name :: after → 37 ≤ name.chars.length →
      before.foldl dirty d = false := by
  induction names generalizing d s with
  | nil => simp [AllNamed]
  | cons first names ih =>
    obtain ⟨hbad, hgood⟩ := createInstance_iff h first
    by_cases hfirst : 37 ≤ first.chars.length ∧ d = true
    · refine iff_of_false ?_ ?_
      · rintro ⟨s', hs, -⟩
        rw [hbad hfirst] at hs
        cases hs
      · intro hall
        have := hall [] first names rfl hfirst.1
        rw [List.foldl_nil, hfirst.2] at this
        cases this
    · obtain ⟨s', hs, hnamed, hdirty⟩ := hgood hfirst
      have hrest := ih hdirty
      constructor
      · rintro ⟨s₁, hs₁, -, hall⟩ before name after heq hlen
        obtain rfl := Option.some.inj (hs.symm.trans hs₁)
        cases before with
        | nil =>
          obtain ⟨rfl, -⟩ := List.cons.inj heq
          cases d with
          | false => rfl
          | true => exact absurd ⟨hlen, rfl⟩ hfirst
        | cons x before =>
          obtain ⟨rfl, hnames⟩ := List.cons.inj heq
          exact hrest.1 hall before name after hnames hlen
      · intro hall
        refine ⟨s', hs, hnamed, hrest.2 ?_⟩
        intro before name after heq hlen
        exact hall (first :: before) name after (by rw [heq]; rfl) hlen

/-- Byte 37 is what the latest of the names with 35 characters or more has left. -/
theorem foldl_dirty (names : List (Str UInt8)) : names.foldl dirty false = false ↔
    ∀ name ∈ (names.filter fun name => decide (35 ≤ name.chars.length)).getLast?, name.chars.length = 35 := by
  induction names using List.reverseRecOn with
  | nil => simp
  | append_singleton names name ih =>
    rw [List.foldl_append, List.foldl_cons, List.foldl_nil, List.filter_append]
    unfold dirty
    split
    · rename_i hlt
      rw [List.filter_cons_of_neg (by simpa using hlt), List.filter_nil, List.append_nil]
      exact ih
    · rename_i hge
      rw [List.filter_cons_of_pos (by simpa using hge), List.filter_nil, List.getLast?_concat]
      simp

/-- **The names of the asyncio threads.** For every sequence of instances, with stream names of any length, that are created
one after the other in memory that was zeroed: no create writes outside the arrays and each leaves the names
as they should be, if and only if, for each name of 37 characters or more, the latest of the earlier ones with 35
or more, if there is one, has exactly 35. -/
theorem thread_names_iff (names : List (Str UInt8)) :
    AllNamed ⟨fun _ => 0, fun _ => 0⟩ names ↔ ∀ before name after, names = before ++ name :: after →
      37 ≤ name.chars.length → ∀ latest ∈ (before.filter fun name => decide (35 ≤ name.chars.length)).getLast?,
        latest.chars.length = 35 := by
  have hzero : Dirty false ⟨fun _ => 0, fun _ => 0⟩ := ⟨by simp, by simp⟩
  rw [allNamed_iff_foldl hzero]
  simp only [foldl_dirty]

/-- A name of `k` letters. -/
def letters (k : ℕ) : Str UInt8 := ⟨List.replicate k 97, by
  intro c hc
  rw [List.eq_of_mem_replicate hc]
  decide⟩

/-- **Two long names**: the second one is written past the end of the array. -/
theorem thread_names_twice : ((createInstance (letters 37) ⟨fun _ => 0, fun _ => 0⟩).isSome = true) ∧
    ((createInstance (letters 37) ⟨fun _ => 0, fun _ => 0⟩).bind (createInstance (letters 37))).isNone = true := by
  decide

end Cutils.Asyncio.Names
