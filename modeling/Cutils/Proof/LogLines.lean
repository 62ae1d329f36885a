import Cutils.Spec.Logger
import Mathlib.Data.Nat.Digits.Lemmas

/-!
# Whether a log line fits

`line` is what a log line should be. The size is checked against the length of the format, which says nothing of the
message; and after a prefix that leaves no room for the separator the newline is put without a check.

* `log_line_iff`: when a line stays in the array, and comes out right.
-/

namespace Cutils.LogLine

open CString

variable {Args : Type} {vsprintf : List UInt8 → Args → List UInt8} {buf : ℕ → UInt8} {xs ys : List UInt8}
  {logger : Logger} {fmt : Str UInt8} {args : Args} {now : Tm}

theorem length_decimal_le (width : ℕ) (hwidth : width ≤ 10) (x : UInt32) : (decimal width x).length ≤ 10 := by
  have hdigits : (Nat.digits 10 x.toNat).length ≤ 10 := by
    rw [Nat.digits_length_le_iff (by decide)]
    have := x.toNat_lt
    omega
  unfold decimal
  rw [List.length_leftpad, List.length_map, List.length_reverse]
  omega

/-- A time stamp leaves most of the array. -/
theorem length_timeStamp_le (ts : Tm) : (timeStamp ts).length ≤ 69 := by
  have h1 := length_decimal_le 4 (by decide) ts.tmYear
  have h2 := fun x => length_decimal_le 2 (by decide) x
  have h3 := h2 ts.tmMon
  have h4 := h2 ts.tmMday
  have h5 := h2 ts.tmHour
  have h6 := h2 ts.tmMin
  have h7 := h2 ts.tmSec
  simp only [timeStamp, List.length_append, List.length_cons, List.length_nil]
  omega

/-- **More of the line**, and a NUL behind it. -/
theorem puts_append (h : Reads buf 0 xs) (ys : List UInt8) (hlen : xs.length + ys.length < logMaxLineLength) :
    ∃ buf', puts logMaxLineLength buf xs.length (ys ++ [0]) = some buf' ∧ Reads buf' 0 (xs ++ ys) := by
  have hmore := h.overlay (ys ++ [0])
  rw [Nat.zero_add, ← List.append_assoc] at hmore
  refine ⟨_, puts_eq ?_, hmore.left⟩
  rw [List.length_append, List.length_singleton]
  omega

/-- **The message** is written if there is room for it and its NUL. -/
theorem writeMessage_eq (vsprintf : List UInt8 → Args → List UInt8) (fmt : Str UInt8) (args : Args)
    (h : Reads buf 0 xs) {pBuffer : ℕ} {index : UInt32} (hindex : pBuffer + index.toNat = xs.length) :
    (xs.length + (vsprintf fmt.chars args).length < logMaxLineLength →
      ∃ buf', writeMessage vsprintf buf pBuffer index fmt args =
          some (buf', index + UInt32.ofNat (vsprintf fmt.chars args).length) ∧
        Reads buf' 0 (xs ++ vsprintf fmt.chars args)) ∧
    (logMaxLineLength ≤ xs.length + (vsprintf fmt.chars args).length →
      writeMessage vsprintf buf pBuffer index fmt args = none) := by
  unfold writeMessage
  dsimp only
  rw [hindex]
  constructor
  · intro hlen
    obtain ⟨buf', hputs, hreads⟩ := puts_append h _ hlen
    exact ⟨buf', by rw [hputs]; rfl, hreads⟩
  · intro hlen
    rw [puts_eq_none (by simp)]
    · rfl
    · rw [List.length_append, List.length_singleton]
      omega

/-- **The separator and the message**, behind a prefix. -/
theorem separated_eq (h : Reads buf 0 (xs ++ ys)) (hroom : xs.length + ys.length + 2 ≤ logMaxLineLength) :
    (xs.length + (ys ++ [58, 32] ++ vsprintf fmt.chars args).length < logMaxLineLength →
      ∃ buf', ((puts logMaxLineLength buf (xs.length + ys.length) [58, 32]).bind fun buf =>
          writeMessage vsprintf buf xs.length (UInt32.ofNat ys.length + 2) fmt args) =
          some (buf', UInt32.ofNat (ys ++ [58, 32] ++ vsprintf fmt.chars args).length) ∧
        Reads buf' 0 (xs ++ (ys ++ [58, 32] ++ vsprintf fmt.chars args))) ∧
    (logMaxLineLength ≤ xs.length + (ys ++ [58, 32] ++ vsprintf fmt.chars args).length →
      ((puts logMaxLineLength buf (xs.length + ys.length) [58, 32]).bind fun buf =>
        writeMessage vsprintf buf xs.length (UInt32.ofNat ys.length + 2) fmt args) = none) := by
  have hseparator := h.overlay [58, 32]
  rw [Nat.zero_add, List.length_append] at hseparator
  have hindex : xs.length + (UInt32.ofNat ys.length + 2).toNat = (xs ++ ys ++ [58, 32]).length := by
    rw [show UInt32.ofNat ys.length + 2 = UInt32.ofNat (ys.length + 2) from (UInt32.ofNat_add ..).symm,
      UInt32.toNat_ofNat_of_lt' (by unfold logMaxLineLength at hroom; show ys.length + 2 < 2 ^ 32; omega)]
    simp only [List.length_append, List.length_cons, List.length_nil]
    omega
  have hmessage := writeMessage_eq vsprintf fmt args hseparator hindex
  have htotal : UInt32.ofNat ys.length + 2 + UInt32.ofNat (vsprintf fmt.chars args).length =
      UInt32.ofNat (ys ++ [58, 32] ++ vsprintf fmt.chars args).length := by
    rw [List.length_append, List.length_append, UInt32.ofNat_add, UInt32.ofNat_add]
    rfl
  have hroom' : xs.length + ys.length + ([58, 32] : List UInt8).length ≤ logMaxLineLength := hroom
  have hlen : (xs ++ ys ++ [58, 32]).length + (vsprintf fmt.chars args).length =
      xs.length + (ys ++ [58, 32] ++ vsprintf fmt.chars args).length := by
    simp only [List.length_append]
    omega
  rw [puts_eq hroom', Option.bind_some, ← htotal, ← hlen]
  simpa only [List.append_assoc] using hmessage

/-- **What `logger_write_string` should write** in `size` bytes. -/
def body (vsprintf : List UInt8 → Args → List UInt8) (logger : Logger) (fmt : Str UInt8) (args : Args) (size : ℕ) : List UInt8 :=
  if fmt.chars.length < (size - 1) / 2 then
    match logger.fnPrefix with
    | some fnPrefix =>
      let string := fnPrefix (UInt32.ofNat (size - fmt.chars.length))
      if string.length < size - 2 then string ++ [58, 32] ++ vsprintf fmt.chars args else string
    | none => vsprintf fmt.chars args
  else []

/-- The prefix, when it is called, leaves room for its NUL in the size that it is told. -/
def PrefixFits (logger : Logger) (fmt : Str UInt8) (size : ℕ) : Prop :=
  ∀ fnPrefix ∈ logger.fnPrefix, fmt.chars.length < (size - 1) / 2 →
    (fnPrefix (UInt32.ofNat (size - fmt.chars.length))).length < size - fmt.chars.length

/-- The sizes in `logger_write_string` do not wrap around. -/
theorem sizes_eq {size : ℕ} (h2 : 2 ≤ size) (hle : size ≤ 512) :
    ((UInt32.ofNat size - 1) / 2).toNat = (size - 1) / 2 ∧
      (∀ fmt : Str UInt8, fmt.chars.length ≤ size →
        prefixSize (UInt32.ofNat size) fmt = UInt32.ofNat (size - fmt.chars.length)) ∧
      ∀ r, r ≤ size → (UInt32.ofNat r < UInt32.ofNat size - 2 ↔ r < size - 2) := by
  have htoNat : ∀ k, k ≤ 512 → (UInt32.ofNat k).toNat = k := by
    intro k hk
    exact UInt32.toNat_ofNat_of_lt' (Nat.lt_of_le_of_lt hk (by decide))
  refine ⟨?_, ?_, ?_⟩
  · rw [show UInt32.ofNat size - 1 = UInt32.ofNat (size - 1) from
      (UInt32.ofNat_sub (show 1 ≤ size by omega)).symm, UInt32.toNat_div,
      htoNat _ (by omega)]
    rfl
  · intro fmt hfmt
    rw [prefixSize, UInt32.sub_zero]
    exact (UInt32.ofNat_sub hfmt).symm
  · intro r hr
    rw [show UInt32.ofNat size - 2 = UInt32.ofNat (size - 2) from (UInt32.ofNat_sub h2).symm, UInt32.lt_iff_toNat_lt,
      htoNat _ (by omega), htoNat _ (by omega)]

/-- **`logger_write_string`** writes what it should, if there is room for it and a NUL. -/
theorem loggerWriteString_eq (vsprintf : List UInt8 → Args → List UInt8) (args : Args) (h : Reads buf 0 xs) {size : ℕ}
    (hsize : xs.length + size = logMaxLineLength) (h2 : 2 ≤ size)
    (hroomy : PrefixFits logger fmt size) :
    (xs.length + (body vsprintf logger fmt args size).length < logMaxLineLength →
      ∃ buf', loggerWriteString vsprintf logger fmt buf xs.length (UInt32.ofNat size) args =
          some (buf', UInt32.ofNat (body vsprintf logger fmt args size).length) ∧
        Reads buf' 0 (xs ++ body vsprintf logger fmt args size)) ∧
    (logMaxLineLength ≤ xs.length + (body vsprintf logger fmt args size).length →
      loggerWriteString vsprintf logger fmt buf xs.length (UInt32.ofNat size) args = none) := by
  have hle : size ≤ 512 := by
    unfold logMaxLineLength at hsize
    omega
  obtain ⟨hhalf, hpre, hroom⟩ := sizes_eq h2 hle
  unfold loggerWriteString body
  rw [hhalf]
  split
  · rename_i hfmt
    cases hp : logger.fnPrefix with
    | none =>
      dsimp only
      have hindex : xs.length + (0 : UInt32).toNat = xs.length := rfl
      have hmessage := writeMessage_eq vsprintf fmt args h hindex
      rwa [UInt32.zero_add] at hmessage
    | some fnPrefix =>
      have hfits := hroomy fnPrefix (by rw [hp]; rfl) hfmt
      dsimp only
      rw [hpre fmt (by omega)]
      generalize fnPrefix (UInt32.ofNat (size - fmt.chars.length)) = string at hfits ⊢
      obtain ⟨buf₁, hputs₁, hreads₁⟩ := puts_append h string (by omega)
      have hindex : (UInt32.ofNat string.length).toNat = string.length :=
        UInt32.toNat_ofNat_of_lt' (Nat.lt_of_lt_of_le hfits (Nat.le_trans (Nat.sub_le ..) (Nat.le_trans hle (by decide))))
      rw [hputs₁, Option.bind_some]
      by_cases hr : string.length < size - 2
      · -- the separator and the message
        rw [if_pos ((hroom _ (by omega)).2 hr), if_pos hr, hindex]
        exact separated_eq hreads₁ (by omega)
      · -- nothing more
        rw [if_neg fun hlt => hr ((hroom _ (by omega)).1 hlt), if_neg hr]
        refine ⟨fun _ => ⟨buf₁, rfl, hreads₁⟩, fun hlen => ?_⟩
        unfold logMaxLineLength at *
        omega
  · refine ⟨fun _ => ⟨buf, rfl, ?_⟩, fun hlen => ?_⟩
    · rwa [List.append_nil]
    · rw [List.length_nil] at hlen
      omega

/-- **What a log line should be.** -/
def line (vsprintf : List UInt8 → Args → List UInt8) (logger : Logger) (fmt : Str UInt8) (now : Tm) (args : Args) : List UInt8 :=
  timeStamp now ++ body vsprintf logger fmt args (logMaxLineLength - (timeStamp now).length) ++ [10]

/-- The room behind the time stamp is enough for the prefix, the separator, the message, the newline and a NUL; or the format
is so long that none of this is written; or the prefix has left room for the newline and the NUL alone. -/
def Fits (vsprintf : List UInt8 → Args → List UInt8) (logger : Logger) (fmt : Str UInt8) (args : Args) (size : ℕ) : Prop :=
  if fmt.chars.length < (size - 1) / 2 then
    match logger.fnPrefix with
    | some fnPrefix =>
      let string := fnPrefix (UInt32.ofNat (size - fmt.chars.length))
      if string.length < size - 2 then string.length + 2 + (vsprintf fmt.chars args).length + 2 ≤ size
      else string.length = size - 2
    | none => (vsprintf fmt.chars args).length + 2 ≤ size
  else True

theorem fits_iff {size : ℕ} (h2 : 2 ≤ size) :
    Fits vsprintf logger fmt args size ↔ (body vsprintf logger fmt args size).length + 2 ≤ size := by
  unfold Fits body
  split
  · cases logger.fnPrefix with
    | none => exact Iff.rfl
    | some fnPrefix =>
      dsimp only
      split
      · simp only [List.length_append, List.length_cons, List.length_nil]
      · omega
  · exact iff_of_true trivial h2

/-- **Log lines.** For every enabled logger whose prefix leaves room for its NUL in the size that it is told, every format,
all arguments, every time and any earlier contents of the array: nothing is written outside the array and the line comes
out as it should be, with a NUL behind it, if and only if its parts fit. -/
theorem log_line_iff (vsprintf : List UInt8 → Args → List UInt8) (logger : Logger) (henabled : logger.isEnabled = true)
    (fmt : Str UInt8) (args : Args) (buf : ℕ → UInt8) (now : Tm)
    (hroomy : PrefixFits logger fmt (logMaxLineLength - (timeStamp now).length)) :
    (∃ buf', consoleLog vsprintf (some logger) fmt buf now args = some (some buf') ∧
        Reads buf' 0 (line vsprintf logger fmt now args ++ [0])) ↔
      Fits vsprintf logger fmt args (logMaxLineLength - (timeStamp now).length) := by
  have hstamp := length_timeStamp_le now
  have hsize : (timeStamp now).length + (logMaxLineLength - (timeStamp now).length) = logMaxLineLength := by
    unfold logMaxLineLength
    omega
  have h2 : 2 ≤ logMaxLineLength - (timeStamp now).length := by
    unfold logMaxLineLength
    omega
  rw [fits_iff h2]
  obtain ⟨buf₁, hputs₁, hreads₁⟩ := puts_append (Reads.nil buf 0) (timeStamp now) (by
    unfold logMaxLineLength
    rw [List.length_nil]
    omega)
  rw [List.nil_append] at hreads₁
  rw [List.length_nil] at hputs₁
  obtain ⟨hgood, hbad⟩ := loggerWriteString_eq vsprintf args hreads₁ hsize h2 hroomy
  simp only [consoleLog, henabled, if_true, hputs₁, Option.bind_some]
  unfold line
  generalize body vsprintf logger fmt args (logMaxLineLength - (timeStamp now).length) = written at *
  rcases Nat.lt_or_ge ((timeStamp now).length + written.length) logMaxLineLength with hlt | hge
  · obtain ⟨buf₂, hwrite, hreads₂⟩ := hgood hlt
    have hindex : (timeStamp now).length + (UInt32.ofNat written.length).toNat = (timeStamp now ++ written).length := by
      rw [UInt32.toNat_ofNat_of_lt' (by unfold logMaxLineLength at hlt; show written.length < 2 ^ 32; omega), List.length_append]
    rw [hwrite, Option.bind_some, hindex]
    constructor
    · rintro ⟨buf', hlast, -⟩
      by_contra hnot
      rw [puts_eq_none (by simp)] at hlast
      · cases hlast
      · simp only [List.length_append, List.length_cons, List.length_nil]
        omega
    · intro hfits
      have hlast := hreads₂.overlay [10, 0]
      have hroom : (timeStamp now ++ written).length + ([10, 0] : List UInt8).length ≤ logMaxLineLength := by
        simp only [List.length_append, List.length_cons, List.length_nil]
        omega
      rw [Nat.zero_add] at hlast
      rw [puts_eq hroom, Option.map_some, List.append_assoc]
      exact ⟨_, rfl, hlast⟩
  · rw [hbad hge]
    refine iff_of_false ?_ (by omega)
    rintro ⟨buf', hnone, -⟩
    cases hnone

/-- A logger with the prefix "general", at a quarter past ten. -/
def general : Logger := ⟨true, some (simpleLoggerPrefix [103, 101, 110, 101, 114, 97, 108])⟩

def quarterPastTen : Tm := ⟨125, 2, 14, 10, 15, 7⟩

/-- The format "%s". -/
def percentS : Str UInt8 := ⟨[37, 115], by simp⟩

/-- An argument of 40 characters. -/
theorem log_line_iff_general : ∃ buf',
    consoleLog (fun _ (arg : List UInt8) => arg) (some general) percentS (fun _ => 0) quarterPastTen
      (List.replicate 40 97) = some (some buf') ∧
    Reads buf' 0 (line (fun _ (arg : List UInt8) => arg) general percentS quarterPastTen (List.replicate 40 97) ++ [0]) := by
  refine (log_line_iff _ general rfl percentS _ (fun _ => 0) quarterPastTen ?_).2 ?_
  · rintro fnPrefix ⟨⟩ -
    decide
  · have hlen : (timeStamp quarterPastTen).length = 23 := by decide
    rw [hlen]
    show 7 + 2 + (List.replicate 40 (97 : UInt8)).length + 2 ≤ 489
    decide

/-- **A long argument**, of 500 characters. -/
theorem log_line_overflow : consoleLog (fun _ (arg : List UInt8) => arg) (some general) percentS (fun _ => 0) quarterPastTen
    (List.replicate 500 97) = none := by
  decide +kernel

end Cutils.LogLine
