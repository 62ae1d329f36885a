import Cutils.Lib.Cyclic
import Mathlib.Data.BitVec

/-!
# Fixed-width numbers as bytes

`lane x i` is byte `i` of a number, the least significant one first; two numbers of whole bytes are the same if all
their lanes are (`eq_of_lanes`), and the bit operations work lane by lane. `bytes o x` is the number as it stands in
memory in byte order `o`, and `store` and `load` access a memory of bytes.

* `lane_rotate`: rotating by whole bytes rotates the lanes.
* `ofBytes_bytes`, `bytes_ofBytes`: numbers and their bytes.
* `load_store`, `load_store_of_disjoint`: what a load finds after a store.
-/

namespace Bytes

open Cyclic

variable {v w : ℕ}

/-- Byte `i` of a number, the least significant one first. -/
def lane (x : BitVec w) (i : ℕ) : BitVec 8 := x.extractLsb' (8 * i) 8

section Lanes

variable (x y : BitVec w) (i : ℕ)

theorem getLsbD_lane (j : ℕ) : (lane x i).getLsbD j = (decide (j < 8) && x.getLsbD (8 * i + j)) :=
  BitVec.getLsbD_extractLsb' ..

/-- **Numbers of whole bytes** are the same if their bytes are. -/
theorem eq_of_lanes {x y : BitVec w} (hw : 8 ∣ w) (h : ∀ i < w / 8, lane x i = lane y i) : x = y := by
  refine BitVec.eq_of_getLsbD_eq fun j hj => ?_
  have hlane := congrArg (·.getLsbD (j % 8)) (h (j / 8) (by omega))
  have hmod : j % 8 < 8 := Nat.mod_lt j (by decide)
  simp only [getLsbD_lane, decide_eq_true hmod, Bool.true_and, Nat.div_add_mod] at hlane
  exact hlane

@[simp] theorem lane_xor : lane (x ^^^ y) i = lane x i ^^^ lane y i := BitVec.extractLsb'_xor

@[simp] theorem lane_or : lane (x ||| y) i = lane x i ||| lane y i := BitVec.extractLsb'_or

@[simp] theorem lane_and : lane (x &&& y) i = lane x i &&& lane y i := BitVec.extractLsb'_and

/-- There is nothing above the number. -/
theorem lane_of_ge {i : ℕ} (hi : w ≤ 8 * i) : lane x i = 0 := by
  refine BitVec.eq_of_getLsbD_eq fun j _ => ?_
  rw [getLsbD_lane, BitVec.getLsbD_of_ge x _ (by omega), Bool.and_false]
  simp

theorem lane_setWidth {i : ℕ} (hi : 8 * (i + 1) ≤ v) : lane (x.setWidth v) i = lane x i := by
  refine BitVec.eq_of_getLsbD_eq fun j hj => ?_
  rw [getLsbD_lane, getLsbD_lane, BitVec.getLsbD_setWidth, decide_eq_true (show 8 * i + j < v by omega), Bool.true_and]

/-- A shift to the right by `k` bytes. -/
theorem lane_shiftRight {s k : ℕ} (hs : s = 8 * k) : lane (x >>> s) i = lane x (k + i) := by
  refine BitVec.eq_of_getLsbD_eq fun j _ => ?_
  rw [getLsbD_lane, getLsbD_lane, BitVec.getLsbD_ushiftRight, show s + (8 * i + j) = 8 * (k + i) + j by omega]

/-- A shift to the left by `k` bytes. -/
theorem lane_shiftLeft {s k i : ℕ} (hs : s = 8 * k) (hi : 8 * (i + 1) ≤ w) :
    lane (x <<< s) i = if i < k then 0 else lane x (i - k) := by
  refine BitVec.eq_of_getLsbD_eq fun j hj => ?_
  rw [getLsbD_lane, BitVec.getLsbD_shiftLeft, decide_eq_true (show 8 * i + j < w by omega), decide_eq_true hj]
  split
  · rename_i hlt
    rw [decide_eq_true (show 8 * i + j < s by omega)]
    simp
  · rename_i hge
    rw [decide_eq_false (show ¬ 8 * i + j < s by omega), getLsbD_lane, decide_eq_true hj,
      show 8 * i + j - s = 8 * (i - k) + j by omega]
    rfl

/-- **A rotation by whole bytes.** -/
theorem lane_rotate {s t k i : ℕ} (hw : 8 ∣ w) (hs : s = 8 * k) (ht : s + t = w) (hi : i < w / 8) (hk : k < w / 8) :
    lane (x >>> s ||| x <<< t) i = lane x ((k + i) % (w / 8)) := by
  rw [lane_or, lane_shiftRight x i hs, lane_shiftLeft x (show t = 8 * (w / 8 - k) by omega) (by omega)]
  rcases Nat.lt_or_ge (k + i) (w / 8) with hlow | hhigh
  · rw [if_pos (by omega), Nat.mod_eq_of_lt hlow]
    exact BitVec.or_zero
  · -- the lane comes around from the other end
    rw [if_neg (by omega), lane_of_ge x (by omega), Nat.mod_eq_sub_mod hhigh, Nat.mod_eq_of_lt (by omega),
      show i - (w / 8 - k) = k + i - w / 8 by omega]
    exact BitVec.zero_or

end Lanes

/-- Which byte of a number comes first in memory: the least or the most significant one. -/
inductive ByteOrder
  | little
  | big
  deriving DecidableEq, Repr

/-- The bytes of a number as they stand in memory. -/
def bytes : ByteOrder → BitVec w → List (BitVec 8)
  | .little, x => firstN (lane x) (w / 8)
  | .big, x => (firstN (lane x) (w / 8)).reverse

/-- The number with these lanes. -/
def ofLanes (w : ℕ) : List (BitVec 8) → BitVec w
  | [] => 0
  | b :: bs => (ofLanes w bs <<< 8) ||| b.setWidth w

/-- The number that stands in memory as these bytes. -/
def ofBytes (w : ℕ) : ByteOrder → List (BitVec 8) → BitVec w
  | .little, l => ofLanes w l
  | .big, l => ofLanes w l.reverse

variable {o : ByteOrder}

@[simp] theorem length_bytes (o : ByteOrder) (x : BitVec w) : (bytes o x).length = w / 8 := by
  cases o with
  | little => exact length_firstN ..
  | big => rw [bytes, List.length_reverse, length_firstN]

theorem lane_ofLanes (l : List (BitVec 8)) {i : ℕ} (hi : 8 * (i + 1) ≤ w) : lane (ofLanes w l) i = l[i]?.getD 0 := by
  induction l generalizing i with
  | nil =>
    refine BitVec.eq_of_getLsbD_eq fun j _ => ?_
    rw [getLsbD_lane]
    simp [ofLanes]
  | cons b bs ih =>
    rw [ofLanes, lane_or, lane_shiftLeft _ (show 8 = 8 * 1 from rfl) hi, lane_setWidth b hi]
    cases i with
    | zero =>
      rw [if_pos Nat.one_pos]
      refine BitVec.zero_or.trans (BitVec.eq_of_getLsbD_eq fun j hj => ?_)
      rw [getLsbD_lane, decide_eq_true hj]
      simp
    | succ i =>
      rw [if_neg (by omega), Nat.add_sub_cancel, ih (by omega), lane_of_ge b (by omega), List.getElem?_cons_succ]
      exact BitVec.or_zero

theorem ofLanes_lanes (hw : 8 ∣ w) (x : BitVec w) : ofLanes w (firstN (lane x) (w / 8)) = x := by
  refine eq_of_lanes hw fun i hi => ?_
  rw [lane_ofLanes _ (by omega), getElem?_firstN _ hi]
  rfl

theorem lanes_ofLanes {l : List (BitVec 8)} (hl : l.length = w / 8) : firstN (lane (ofLanes w l)) (w / 8) = l := by
  refine List.ext_getElem? fun i => ?_
  rcases Nat.lt_or_ge i (w / 8) with hi | hi
  · rw [getElem?_firstN _ hi, lane_ofLanes l (by omega), List.getElem?_eq_getElem (by omega)]
    rfl
  · rw [List.getElem?_eq_none (by rw [length_firstN]; exact hi), List.getElem?_eq_none (by omega)]

/-- **A number is read back** from its bytes. -/
theorem ofBytes_bytes (hw : 8 ∣ w) (o : ByteOrder) (x : BitVec w) : ofBytes w o (bytes o x) = x := by
  cases o with
  | little => exact ofLanes_lanes hw x
  | big => rw [bytes, ofBytes, List.reverse_reverse, ofLanes_lanes hw x]

/-- **Bytes are read back** from their number. -/
theorem bytes_ofBytes (o : ByteOrder) {l : List (BitVec 8)} (hl : l.length = w / 8) : bytes o (ofBytes w o l) = l := by
  cases o with
  | little => exact lanes_ofLanes hl
  | big => rw [bytes, ofBytes, lanes_ofLanes (by rw [List.length_reverse]; exact hl), List.reverse_reverse]

theorem bytes_inj (hw : 8 ∣ w) {x y : BitVec w} (h : bytes o x = bytes o y) : x = y := by
  rw [← ofBytes_bytes hw o x, h, ofBytes_bytes hw]

/-- **A number in two parts**: the less significant one comes first in memory, or last. -/
theorem bytes_append {u : ℕ} (hu : 8 ∣ u) (hv : 8 ∣ v) (x : BitVec (u + v)) :
    bytes .little x = bytes .little (x.setWidth u) ++ bytes .little ((x >>> u).setWidth v) ∧
      bytes .big x = bytes .big ((x >>> u).setWidth v) ++ bytes .big (x.setWidth u) := by
  have hlow : firstN (lane x) (u / 8) = firstN (lane (x.setWidth u)) (u / 8) :=
    List.map_congr_left fun i hi => (lane_setWidth x (by rw [List.mem_range] at hi; omega)).symm
  have hhigh : firstN (fun i => lane x (u / 8 + i)) (v / 8) = firstN (lane ((x >>> u).setWidth v)) (v / 8) := by
    refine List.map_congr_left fun i hi => ?_
    rw [List.mem_range] at hi
    rw [lane_setWidth _ (by omega), lane_shiftRight x i (show u = 8 * (u / 8) by omega)]
  have hlanes : firstN (lane x) ((u + v) / 8) =
      firstN (lane (x.setWidth u)) (u / 8) ++ firstN (lane ((x >>> u).setWidth v)) (v / 8) := by
    rw [show (u + v) / 8 = u / 8 + v / 8 by omega, firstN_add, hlow, hhigh]
  exact ⟨hlanes, by rw [bytes, hlanes, List.reverse_append]; rfl⟩

/-- Bytes at addresses. -/
abbrev Memory := ℕ → BitVec 8

def storeBytes (mem : Memory) (addr : ℕ) (l : List (BitVec 8)) : Memory :=
  fun i => if addr ≤ i then l[i - addr]?.getD (mem i) else mem i

def loadBytes (mem : Memory) (addr len : ℕ) : List (BitVec 8) := firstN (fun i => mem (addr + i)) len

/-- Store a number at an address. -/
def store (o : ByteOrder) (mem : Memory) (addr : ℕ) (x : BitVec w) : Memory := storeBytes mem addr (bytes o x)

/-- Load a number of `w` bits from an address. -/
def load (w : ℕ) (o : ByteOrder) (mem : Memory) (addr : ℕ) : BitVec w := ofBytes w o (loadBytes mem addr (w / 8))

section Memory

variable {mem mem' : Memory} {addr addr' len : ℕ} {x : BitVec w}

theorem storeBytes_outside {l : List (BitVec 8)} {i : ℕ} (h : i < addr ∨ addr + l.length ≤ i) :
    storeBytes mem addr l i = mem i := by
  unfold storeBytes
  split
  · rw [List.getElem?_eq_none (by omega)]
    rfl
  · rfl

/-- A store changes the bytes of its number only. -/
theorem store_outside {i : ℕ} (h : i < addr ∨ addr + w / 8 ≤ i) : store o mem addr x i = mem i :=
  storeBytes_outside (by rwa [length_bytes])

theorem loadBytes_storeBytes (mem : Memory) (addr : ℕ) (l : List (BitVec 8)) :
    loadBytes (storeBytes mem addr l) addr l.length = l := by
  refine List.ext_getElem? fun i => ?_
  rcases Nat.lt_or_ge i l.length with hi | hi
  · rw [loadBytes, getElem?_firstN _ hi, storeBytes, if_pos (Nat.le_add_right ..), Nat.add_sub_cancel_left,
      List.getElem?_eq_getElem hi]
    rfl
  · rw [List.getElem?_eq_none (by rw [loadBytes, length_firstN]; exact hi), List.getElem?_eq_none hi]

theorem loadBytes_congr (h : ∀ i, addr ≤ i → i < addr + len → mem i = mem' i) :
    loadBytes mem addr len = loadBytes mem' addr len :=
  List.map_congr_left fun _ hi => h _ (Nat.le_add_right ..) (Nat.add_lt_add_left (List.mem_range.1 hi) addr)

theorem loadBytes_add (mem : Memory) (addr a b : ℕ) :
    loadBytes mem addr (a + b) = loadBytes mem addr a ++ loadBytes mem (addr + a) b := by
  unfold loadBytes
  rw [firstN_add]
  simp only [Nat.add_assoc]

/-- The bytes of a number that was loaded. -/
theorem bytes_load (o : ByteOrder) (mem : Memory) (addr : ℕ) : bytes o (load w o mem addr) = loadBytes mem addr (w / 8) :=
  bytes_ofBytes o (length_firstN ..)

/-- A load sees the bytes of its number only. -/
theorem load_congr (h : ∀ i, addr ≤ i → i < addr + w / 8 → mem i = mem' i) : load w o mem addr = load w o mem' addr :=
  congrArg (ofBytes w o) (loadBytes_congr h)

theorem ofLanes_zero {l : List (BitVec 8)} (h : ∀ b ∈ l, b = 0) : ofLanes w l = 0 := by
  induction l with
  | nil => rfl
  | cons b bs ih =>
    rw [ofLanes, ih fun c hc => h c (List.mem_cons_of_mem _ hc), h b List.mem_cons_self]
    simp

/-- **Zeros** are the number 0. -/
theorem load_zero (h : ∀ i, addr ≤ i → i < addr + w / 8 → mem i = 0) : load w o mem addr = 0 := by
  have hbytes : ∀ b ∈ loadBytes mem addr (w / 8), b = 0 := by
    intro b hb
    obtain ⟨i, hi, rfl⟩ := List.mem_map.1 hb
    rw [List.mem_range] at hi
    exact h _ (Nat.le_add_right ..) (Nat.add_lt_add_left hi addr)
  unfold load
  cases o with
  | little => exact ofLanes_zero hbytes
  | big => exact ofLanes_zero fun b hb => hbytes b (List.mem_reverse.1 hb)

theorem loadBytes_store (o : ByteOrder) (mem : Memory) (addr : ℕ) (x : BitVec w) :
    loadBytes (store o mem addr x) addr (w / 8) = bytes o x := by
  have h := loadBytes_storeBytes mem addr (bytes o x)
  rwa [length_bytes] at h

/-- **A load after a store** at the same address. -/
theorem load_store (hw : 8 ∣ w) (o : ByteOrder) (mem : Memory) (addr : ℕ) (x : BitVec w) :
    load w o (store o mem addr x) addr = x := by
  rw [load, loadBytes_store, ofBytes_bytes hw]

theorem loadBytes_store_of_disjoint (h : addr' + len ≤ addr ∨ addr + w / 8 ≤ addr') :
    loadBytes (store o mem addr x) addr' len = loadBytes mem addr' len :=
  loadBytes_congr fun _ _ _ => store_outside (by omega)

/-- **A load after a store** elsewhere. -/
theorem load_store_of_disjoint (h : addr' + v / 8 ≤ addr ∨ addr + w / 8 ≤ addr') :
    load v o (store o mem addr x) addr' = load v o mem addr' :=
  congrArg (ofBytes v o) (loadBytes_store_of_disjoint h)

end Memory

end Bytes
