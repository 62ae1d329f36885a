import Cutils.Spec.Endian
import Mathlib.Tactic.IntervalCases

/-!
# What the byte swaps do

`byteswap16` and `byteswap32` move lane `i` to lane `n - 1 - i`. `byteswap64` swaps the halves of a number one by one,
and it is the union that exchanges them: the more significant half is stored first, which is where the less significant
one is read from on a little-endian host. On a big-endian host the halves stay where they were.

* `byteswap_iff`: when the byte swaps reverse the bytes of their arguments; they always are their own inverses.
-/

namespace Cutils.Endian

open Bytes Cyclic

/-- Numbers whose lanes are in reverse order have their bytes in reverse order. -/
theorem bytes_reverse {w : ℕ} {x y : BitVec w} (h : ∀ i < w / 8, lane y i = lane x (w / 8 - 1 - i)) (o : ByteOrder) :
    bytes o y = (bytes o x).reverse := by
  have hlanes : firstN (lane y) (w / 8) = (firstN (lane x) (w / 8)).reverse := by
    refine List.ext_getElem? fun i => ?_
    rcases Nat.lt_or_ge i (w / 8) with hi | hi
    · rw [getElem?_firstN _ hi, List.getElem?_reverse (by rw [length_firstN]; exact hi), length_firstN,
        getElem?_firstN _ (by omega), h i hi]
    · rw [List.getElem?_eq_none (by rw [length_firstN]; exact hi),
        List.getElem?_eq_none (by rw [List.length_reverse, length_firstN]; exact hi)]
  cases o with
  | little => exact hlanes
  | big => exact congrArg List.reverse hlanes

theorem lane_byteswap16 (x : BitVec 16) {i : ℕ} (hi : i < 2) : lane (byteswap16 x) i = lane x (1 - i) := by
  have hwide : ∀ j, lane (x.setWidth 32) j = lane x j := by
    intro j
    rcases Nat.lt_or_ge j 4 with hj | hj
    · exact lane_setWidth x (by omega)
    · rw [lane_of_ge _ (by omega), lane_of_ge _ (by omega)]
  unfold byteswap16
  rw [lane_setWidth _ (by omega), lane_or, lane_shiftLeft _ (show 8 = 8 * 1 from rfl) (by omega),
    lane_shiftRight _ i (show 8 = 8 * 1 from rfl), hwide, hwide]
  interval_cases i
  · exact BitVec.zero_or
  · -- what was promoted has zeros above
    rw [if_neg (by decide), lane_of_ge x (show 16 ≤ 8 * (1 + 1) by decide)]
    exact BitVec.or_zero

/-- The lanes of the mask. -/
theorem lane_mask {j : ℕ} (hj : j < 4) : lane (0xFF00FFFF : BitVec 32) j = if j = 2 then 0 else BitVec.allOnes 8 := by
  interval_cases j <;> decide

/-- **The masked value**: what is in a lane and two lanes up, in all lanes but one. -/
theorem lane_masked (x : BitVec 32) {j : ℕ} (hj : j < 4) : lane ((x ^^^ (x >>> 16 ||| x <<< 16)) &&& 0xFF00FFFF) j =
    if j = 2 then 0 else lane x j ^^^ lane x ((2 + j) % 4) := by
  rw [lane_and, lane_mask hj, lane_xor, lane_rotate x (show 8 ∣ 32 by decide) (show 16 = 8 * 2 from rfl) rfl hj (by decide)]
  split
  · exact BitVec.and_zero
  · exact BitVec.and_allOnes

theorem lane_byteswap32 (x : BitVec 32) {i : ℕ} (hi : i < 4) : lane (byteswap32 x) i = lane x (3 - i) := by
  unfold byteswap32
  rw [lane_xor, lane_shiftRight _ i (show 8 = 8 * 1 from rfl),
    lane_rotate x (show 8 ∣ 32 by decide) (show 8 = 8 * 1 from rfl) rfl hi (by decide)]
  interval_cases i
  · -- the rotated number takes one of the two away again
    rw [lane_masked x (by decide), if_neg (by decide)]
    show lane x 1 ^^^ lane x 3 ^^^ lane x 1 = lane x 3
    rw [BitVec.xor_comm (lane x 1), BitVec.xor_assoc, BitVec.xor_self, BitVec.xor_zero]
  · -- here the rotated number is right by itself
    rw [lane_masked x (by decide), if_pos rfl]
    exact BitVec.zero_xor
  · rw [lane_masked x (by decide), if_neg (by decide)]
    show lane x 3 ^^^ lane x 1 ^^^ lane x 3 = lane x 1
    rw [BitVec.xor_comm (lane x 3), BitVec.xor_assoc, BitVec.xor_self, BitVec.xor_zero]
  · rw [lane_of_ge _ (show 32 ≤ 8 * (1 + 3) by decide)]
    exact BitVec.zero_xor

/-- **`byteswap16` reverses the bytes.** -/
theorem bytes_byteswap16 (o : ByteOrder) (x : BitVec 16) : bytes o (byteswap16 x) = (bytes o x).reverse :=
  bytes_reverse (fun _ hi => lane_byteswap16 x hi) o

/-- **`byteswap32` reverses the bytes.** -/
theorem bytes_byteswap32 (o : ByteOrder) (x : BitVec 32) : bytes o (byteswap32 x) = (bytes o x).reverse :=
  bytes_reverse (fun _ hi => lane_byteswap32 x hi) o

theorem byteswap16_byteswap16 (x : BitVec 16) : byteswap16 (byteswap16 x) = x := by
  refine bytes_inj (o := .little) (by decide) ?_
  rw [bytes_byteswap16, bytes_byteswap16, List.reverse_reverse]

theorem byteswap32_byteswap32 (x : BitVec 32) : byteswap32 (byteswap32 x) = x := by
  refine bytes_inj (o := .little) (by decide) ?_
  rw [bytes_byteswap32, bytes_byteswap32, List.reverse_reverse]

/-- The halves of a number, as `byteswap64` has them. -/
def high (x : BitVec 64) : BitVec 32 := (x >>> 32).setWidth 32

def low (x : BitVec 64) : BitVec 32 := x.setWidth 32

theorem setWidth_and_low (x : BitVec 64) : (x &&& 0xffffffff).setWidth 32 = low x := by
  have hmask : (0xffffffff : BitVec 64).setWidth 32 = BitVec.allOnes 32 := by decide
  rw [BitVec.setWidth_and, hmask, BitVec.and_allOnes, low]

/-- A number by its halves. -/
theorem bytes_halves (x : BitVec 64) : bytes .little x = bytes .little (low x) ++ bytes .little (high x) ∧
    bytes .big x = bytes .big (high x) ++ bytes .big (low x) :=
  bytes_append (u := 32) (v := 32) (by decide) (by decide) x

/-- **`byteswap64` swaps each half**, and the union has that of the more significant half first. -/
theorem bytes_byteswap64 (host : ByteOrder) (u : Memory) (x : BitVec 64) :
    bytes host (byteswap64 host u x) = (bytes host (high x)).reverse ++ (bytes host (low x)).reverse := by
  unfold byteswap64
  dsimp only
  rw [setWidth_and_low, ← high, bytes_load, show 64 / 8 = 4 + 4 from rfl, loadBytes_add]
  -- the two words of the union do not overlap
  rw [load_store_of_disjoint (v := 32) (show 0 + 32 / 8 ≤ 4 ∨ 4 + 32 / 8 ≤ 0 by decide), load_store (by decide),
    load_store_of_disjoint (v := 32) (show 4 + 32 / 8 ≤ 0 ∨ 0 + 32 / 8 ≤ 4 by decide), load_store (by decide),
    loadBytes_store_of_disjoint (show 0 + 4 ≤ 4 ∨ 4 + 32 / 8 ≤ 0 by decide)]
  rw [loadBytes_store host _ 0 (byteswap32 (high x)), loadBytes_store host _ 4 (byteswap32 (low x)), bytes_byteswap32,
    bytes_byteswap32]

/-- The halves of the result. -/
theorem halves_byteswap64 (host : ByteOrder) (u : Memory) (x : BitVec 64) :
    high (byteswap64 host u x) = byteswap32 (if host = .little then low x else high x) ∧
      low (byteswap64 host u x) = byteswap32 (if host = .little then high x else low x) := by
  have hbytes := bytes_byteswap64 host u x
  rw [← bytes_byteswap32, ← bytes_byteswap32] at hbytes
  cases host with
  | little =>
    rw [(bytes_halves _).1] at hbytes
    obtain ⟨hlow, hhigh⟩ := List.append_inj hbytes (by rw [length_bytes, length_bytes])
    exact ⟨bytes_inj (by decide) hhigh, bytes_inj (by decide) hlow⟩
  | big =>
    rw [(bytes_halves _).2] at hbytes
    obtain ⟨hhigh, hlow⟩ := List.append_inj hbytes (by rw [length_bytes, length_bytes])
    exact ⟨bytes_inj (by decide) hhigh, bytes_inj (by decide) hlow⟩

/-- **`byteswap64` is its own inverse**, on every host. -/
theorem byteswap64_byteswap64 (host : ByteOrder) (u u' : Memory) (x : BitVec 64) :
    byteswap64 host u' (byteswap64 host u x) = x := by
  refine bytes_inj (o := host) (by decide) ?_
  obtain ⟨hhigh, hlow⟩ := halves_byteswap64 host u x
  rw [bytes_byteswap64, ← bytes_byteswap32, ← bytes_byteswap32, hhigh, hlow, byteswap32_byteswap32, byteswap32_byteswap32]
  cases host with
  | little => exact (bytes_halves x).1.symm
  | big => exact (bytes_halves x).2.symm

/-- **When `byteswap64` reverses the bytes.** -/
theorem bytes_byteswap64_iff (host : ByteOrder) (u : Memory) (x : BitVec 64) :
    bytes host (byteswap64 host u x) = (bytes host x).reverse ↔ host = .little ∨ high x = low x := by
  rw [bytes_byteswap64]
  cases host with
  | little =>
    rw [(bytes_halves x).1, List.reverse_append]
    exact iff_of_true rfl (.inl rfl)
  | big =>
    rw [(bytes_halves x).2, List.reverse_append]
    constructor
    · intro h
      have hhigh := (List.append_inj h (by rw [List.length_reverse, List.length_reverse, length_bytes, length_bytes])).1
      exact .inr (bytes_inj (by decide) (List.reverse_injective hhigh))
    · rintro (h | h)
      · cases h
      · rw [h]

/-- **Byte swaps.** For all numbers, on a host of either byte order: the byte swaps have reversed the bytes, and are their
own inverses, if and only if the host is little-endian, or the halves of the 64-bit number are the same. -/
theorem byteswap_iff (host : ByteOrder) (u u' : Memory) (x₁₆ : BitVec 16) (x₃₂ : BitVec 32) (x₆₄ : BitVec 64) :
    ((bytes host (byteswap16 x₁₆) = (bytes host x₁₆).reverse ∧ byteswap16 (byteswap16 x₁₆) = x₁₆) ∧
      (bytes host (byteswap32 x₃₂) = (bytes host x₃₂).reverse ∧ byteswap32 (byteswap32 x₃₂) = x₃₂) ∧
      bytes host (byteswap64 host u x₆₄) = (bytes host x₆₄).reverse ∧
        byteswap64 host u' (byteswap64 host u x₆₄) = x₆₄) ↔
    host = .little ∨ (x₆₄ >>> 32).setWidth 32 = x₆₄.setWidth 32 := by
  constructor
  · rintro ⟨-, -, hbytes, -⟩
    exact (bytes_byteswap64_iff host u x₆₄).1 hbytes
  · intro h
    exact ⟨⟨bytes_byteswap16 host x₁₆, byteswap16_byteswap16 x₁₆⟩,
      ⟨bytes_byteswap32 host x₃₂, byteswap32_byteswap32 x₃₂⟩,
      (bytes_byteswap64_iff host u x₆₄).2 h, byteswap64_byteswap64 host u u' x₆₄⟩

/-- On a big-endian host each half is swapped, and stays where it was. -/
theorem byteswap64_big : byteswap64 .big (fun _ => 0) 0x0102030405060708 = 0x0403020108070605 ∧
    bytes .big (byteswap64 .big (fun _ => 0) 0x0102030405060708) ≠ (bytes .big (0x0102030405060708 : BitVec 64)).reverse := by
  decide

end Cutils.Endian
