import Mathlib.Data.List.Basic
import Mathlib.Data.Nat.ModEq

/-!
# A stream in a cyclic store

Position `p` of an unbounded stream lives in slot `p % n` of a store with `n`
slots. `Holds n mem lo q`: the store has the list `q` at positions `lo`, `lo + 1`, ...

* `slot_ne`: fewer than `n` positions apart, slots are distinct.
* `Holds.store`: storing a chunk at the end of a window of at most `n` positions
  appends it and keeps the window.
* `Holds.read`: reading a chunk that does not cross the last slot.
* `Holds.storeAround`, `Holds.readAround`: the same for chunks that wrap around to the first slot.
* `Holds.readChunks`: a whole window, as the two chunks it is in.
* `counters_eq`: the positions are counters that wrap around themselves; when they do can be seen in the slots.
-/

namespace Cyclic

variable {α : Type*} {n : ℕ}

/-- The store `mem` has `q` at positions `lo`, `lo + 1`, ... of the stream. -/
def Holds (n : ℕ) (mem : ℕ → α) (lo : ℕ) (q : List α) : Prop :=
  ∀ k x, q[k]? = some x → mem ((lo + k) % n) = x

/-- Copy `len` elements of `src` to `dst` and the places after it. -/
def copy (mem : ℕ → α) (dst : ℕ) (src : ℕ → α) (len : ℕ) : ℕ → α :=
  fun i => if dst ≤ i ∧ i < dst + len then src (i - dst) else mem i

/-- The first `len` elements of `src`. -/
def firstN (src : ℕ → α) (len : ℕ) : List α := (List.range len).map src

@[simp] theorem length_firstN (src : ℕ → α) (len : ℕ) : (firstN src len).length = len := by
  simp [firstN]

theorem getElem?_firstN (src : ℕ → α) {len k : ℕ} (h : k < len) :
    (firstN src len)[k]? = some (src k) := by
  simp [firstN, h]

theorem firstN_add (src : ℕ → α) (a b : ℕ) :
    firstN src (a + b) = firstN src a ++ firstN (fun i => src (a + i)) b := by
  simp [firstN, List.range_add, Function.comp_def]

theorem take_firstN (src : ℕ → α) (a k : ℕ) : (firstN src a).take k = firstN src (min a k) := by
  rw [firstN, ← List.map_take, List.take_range, Nat.min_comm, firstN]

theorem drop_firstN (src : ℕ → α) (a k : ℕ) : (firstN src a).drop k = firstN (fun i => src (k + i)) (a - k) := by
  apply List.ext_getElem?
  intro j
  rw [List.getElem?_drop]
  rcases Nat.lt_or_ge j (a - k) with hj | hj
  · rw [getElem?_firstN _ hj, getElem?_firstN _ (show k + j < a by omega)]
  · rw [List.getElem?_eq_none (by rw [length_firstN]; omega), List.getElem?_eq_none (by rw [length_firstN]; omega)]

/-- Slots of distinct positions less than `n` apart are distinct. -/
theorem slot_ne {a b : ℕ} (h1 : a < b) (h2 : b < a + n) : a % n ≠ b % n := by
  intro h
  have hd : (b - a) % n = 0 := Nat.sub_mod_eq_zero_of_mod_eq h.symm
  rw [Nat.mod_eq_of_lt (by omega)] at hd
  omega

/-- Within the store, the slot moves with the position. -/
theorem slot_add {p k : ℕ} (h : p % n + k < n) : (p + k) % n = p % n + k := by
  rw [Nat.add_mod, Nat.mod_eq_of_lt (show k < n by omega), Nat.mod_eq_of_lt h]

/-- The position after the last slot is in the first one. -/
theorem slot_wrap (hn : 0 < n) (p : ℕ) : (p + (n - p % n)) % n = 0 := by
  have h1 := Nat.mod_lt p hn
  have h2 := Nat.div_add_mod p n
  have h3 : p + (n - p % n) = n * (p / n) + n := by omega
  rw [h3]
  simp

theorem Holds.nil (mem : ℕ → α) (lo : ℕ) : Holds n mem lo [] := by
  intro k x h
  simp at h

theorem Holds.append {mem : ℕ → α} {lo : ℕ} {q xs : List α} (hq : Holds n mem lo q)
    (hx : Holds n mem (lo + q.length) xs) : Holds n mem lo (q ++ xs) := by
  intro k x h
  rcases Nat.lt_or_ge k q.length with hk | hk
  · rw [List.getElem?_append_left hk] at h
    exact hq k x h
  · rw [List.getElem?_append_right hk] at h
    have := hx _ x h
    rwa [show lo + q.length + (k - q.length) = lo + k by omega] at this

theorem Holds.left {mem : ℕ → α} {lo : ℕ} {q xs : List α} (h : Holds n mem lo (q ++ xs)) :
    Holds n mem lo q := by
  intro k x hk
  have hlt : k < q.length := by
    by_contra hge
    rw [List.getElem?_eq_none (by omega)] at hk
    cases hk
  exact h k x (by rw [List.getElem?_append_left hlt]; exact hk)

theorem Holds.drop {mem : ℕ → α} {lo : ℕ} {q : List α} (h : Holds n mem lo q) (k : ℕ) :
    Holds n mem (lo + k) (q.drop k) := by
  intro j x hj
  rw [List.getElem?_drop] at hj
  rw [Nat.add_assoc]
  exact h _ x hj

/-- A store that writes only slots of positions `p`, ..., `p + len - 1`, all of them
past the window and less than `n` after its start, keeps the window. -/
theorem Holds.keep {mem mem' : ℕ → α} {lo p len : ℕ} {q : List α} (h : Holds n mem lo q)
    (hp : lo + q.length ≤ p) (hn : p + len ≤ lo + n)
    (hother : ∀ i, (∀ k < len, i ≠ (p + k) % n) → mem' i = mem i) : Holds n mem' lo q := by
  intro k x hk
  have hlt : k < q.length := by
    by_contra hge
    rw [List.getElem?_eq_none (by omega)] at hk
    cases hk
  rw [hother]
  · exact h k x hk
  · intro j hj
    exact slot_ne (by omega) (by omega)

/-- A chunk that does not cross the last slot, stored at position `p`. -/
theorem copy_holds (mem src : ℕ → α) {p len : ℕ} (h : p % n + len ≤ n) :
    Holds n (copy mem (p % n) src len) p (firstN src len) := by
  intro k x hk
  have hlt : k < len := by
    by_contra hge
    rw [List.getElem?_eq_none (by simp; omega)] at hk
    cases hk
  rw [getElem?_firstN src hlt, Option.some.injEq] at hk
  rw [slot_add (by omega), copy, if_pos (by omega), ← hk]
  congr 1
  omega

theorem copy_other (mem src : ℕ → α) {p len : ℕ} (h : p % n + len ≤ n) (i : ℕ)
    (hi : ∀ k < len, i ≠ (p + k) % n) : copy mem (p % n) src len i = mem i := by
  rw [copy, if_neg]
  rintro ⟨h1, h2⟩
  refine hi (i - p % n) (by omega) ?_
  rw [slot_add (by omega)]
  omega

/-- **Storing a chunk** at position `p` keeps the window before it. -/
theorem Holds.store {mem src : ℕ → α} {lo p len : ℕ} {q : List α} (hq : Holds n mem lo q)
    (hp : lo + q.length ≤ p) (hn : p + len ≤ lo + n) (h : p % n + len ≤ n) :
    Holds n (copy mem (p % n) src len) lo q :=
  hq.keep hp hn (copy_other mem src h)

/-- **Reading a chunk** that does not cross the last slot. -/
theorem Holds.read {mem : ℕ → α} {lo len : ℕ} {q : List α} (hq : Holds n mem lo q)
    (hlen : len ≤ q.length) (h : lo % n + len ≤ n) :
    firstN (fun i => mem (lo % n + i)) len = q.take len := by
  apply List.ext_getElem?
  intro k
  rcases Nat.lt_or_ge k len with hk | hk
  · rw [getElem?_firstN _ hk, List.getElem?_take_of_lt hk, List.getElem?_eq_getElem (by omega),
      ← slot_add (by omega), hq k _ (List.getElem?_eq_getElem (by omega))]
  · rw [List.getElem?_eq_none (by simp; omega), List.getElem?_eq_none (by simp; omega)]

/-- Storing one element at the end of a window that leaves a slot free. -/
theorem Holds.put {mem : ℕ → α} {lo p : ℕ} {q : List α} (hq : Holds n mem lo q) (hp : p = lo + q.length)
    (hfit : q.length + 1 ≤ n) (x : α) : Holds n (Function.update mem (p % n) x) lo (q ++ [x]) := by
  have hkeep : Holds n (Function.update mem (p % n) x) lo q := by
    refine hq.keep (p := p) (show lo + q.length ≤ p by omega) (show p + 1 ≤ lo + n by omega) fun i hi => ?_
    have hne : i ≠ p % n := by simpa using hi 0 Nat.one_pos
    exact Function.update_of_ne hne ..
  refine hkeep.append ?_
  intro k y hk
  cases k with
  | zero =>
    rw [← hp, Nat.add_zero, Function.update_self]
    exact Option.some.inj hk
  | succ k => cases hk

section Around

variable {mem src : ℕ → α} {lo p s len : ℕ} {q : List α}

/-- The slot of the first position says where the window is. -/
theorem Holds.mod_iff : Holds n mem (lo % n) q ↔ Holds n mem lo q := by
  have hslot : ∀ k, (lo % n + k) % n = (lo + k) % n := fun k => Nat.mod_add_mod lo n k
  constructor
  · intro h k x hk
    rw [← hslot]
    exact h k x hk
  · intro h k x hk
    rw [hslot]
    exact h k x hk

/-- Copy `len` elements to slot `s` and the slots after it, around the end of the store. -/
def copyAround (n : ℕ) (mem : ℕ → α) (s : ℕ) (src : ℕ → α) (len : ℕ) : ℕ → α :=
  if n < s + len then copy (copy mem s src (n - s)) 0 (fun i => src (n - s + i)) (len - (n - s))
  else copy mem s src len

/-- `len` elements from slot `s` on, around the end of the store. -/
def readAround (n : ℕ) (mem : ℕ → α) (s len : ℕ) : List α :=
  if n < s + len then firstN (fun i => mem (s + i)) (n - s) ++ firstN mem (len - (n - s))
  else firstN (fun i => mem (s + i)) len

/-- Copies stay inside the store. -/
theorem copyAround_outside (hs : s < n) (hlen : len ≤ n) {i : ℕ} (hi : n ≤ i) : copyAround n mem s src len i = mem i := by
  unfold copyAround
  split
  · rename_i hwrap
    simp only [copy]
    rw [if_neg (by omega), if_neg (by omega)]
  · rename_i hwrap
    simp only [copy]
    rw [if_neg (by omega)]

/-- **Appending a chunk** to a window that has room for it. -/
theorem Holds.storeAround (hq : Holds n mem lo q) (hn : 0 < n) (hp : p = lo + q.length) (hfit : q.length + len ≤ n) :
    Holds n (copyAround n mem (p % n) src len) lo (q ++ firstN src len) := by
  have hlt := Nat.mod_lt p hn
  unfold copyAround
  split
  · rename_i hwrap
    -- the second copy starts at the position that wraps to slot 0
    have h0 := slot_wrap hn p
    have hkeep : Holds n (copy mem (p % n) src (n - p % n)) lo q := hq.store (by omega) (by omega) (by omega)
    have hnew : Holds n (copy mem (p % n) src (n - p % n)) p (firstN src (n - p % n)) := copy_holds mem src (by omega)
    rw [show firstN src len = firstN src (n - p % n) ++ firstN (fun i => src (n - p % n + i)) (len - (n - p % n)) by
      rw [← firstN_add, Nat.add_sub_cancel' (by omega)], ← List.append_assoc]
    have hboth : Holds n (copy mem (p % n) src (n - p % n)) lo (q ++ firstN src (n - p % n)) :=
      hkeep.append (hp ▸ hnew)
    have hlen : (q ++ firstN src (n - p % n)).length = q.length + (n - p % n) := by simp
    rw [← h0]
    refine (hboth.store (by omega) (by omega) (by omega)).append ?_
    rw [hlen, ← Nat.add_assoc, ← hp]
    exact copy_holds _ _ (by omega)
  · rename_i hwrap
    have hkeep : Holds n (copy mem (p % n) src len) lo q := hq.store (by omega) (by omega) (by omega)
    exact hkeep.append (hp ▸ copy_holds mem src (by omega))

/-- **Reading a chunk** from the start of a window. -/
theorem Holds.readAround (hq : Holds n mem lo q) (hn : 0 < n) (hlen : len ≤ q.length) (hfit : len ≤ n) :
    readAround n mem (lo % n) len = q.take len := by
  have hlt := Nat.mod_lt lo hn
  unfold Cyclic.readAround
  split
  · rename_i hwrap
    have hfirst : firstN (fun i => mem (lo % n + i)) (n - lo % n) = q.take (n - lo % n) := hq.read (by omega) (by omega)
    have hrest : firstN (fun i => mem ((lo + (n - lo % n)) % n + i)) (len - (n - lo % n)) =
        (q.drop (n - lo % n)).take (len - (n - lo % n)) :=
      (hq.drop (n - lo % n)).read (by rw [List.length_drop]; omega) (by rw [slot_wrap hn]; omega)
    rw [slot_wrap hn] at hrest
    simp only [Nat.zero_add] at hrest
    rw [hfirst, hrest, ← List.take_add, Nat.add_sub_cancel' (by omega)]
  · rename_i hwrap
    exact hq.read hlen (by omega)

/-- **Reading a whole window** as the part up to the last slot and the part from the first one on. -/
theorem Holds.readChunks {a b : ℕ} (hq : Holds n mem lo q) (hlo : lo < n) (ha : lo + a ≤ n) (hb : b = 0 ∨ lo + a = n)
    (hfit : b ≤ lo) (hlen : a + b = q.length) : firstN (fun i => mem (lo + i)) a ++ firstN mem b = q := by
  have hslot : lo % n = lo := Nat.mod_eq_of_lt hlo
  rcases Nat.eq_zero_or_pos b with rfl | hpos
  · have hread : firstN (fun i => mem (lo % n + i)) a = q.take a := hq.read (by omega) (by omega)
    rw [hslot, List.take_of_length_le (by omega)] at hread
    rw [hread]
    exact List.append_nil q
  · have hread : Cyclic.readAround n mem (lo % n) (a + b) = q.take (a + b) :=
      hq.readAround (by omega) (by omega) (by omega)
    rw [hslot, List.take_of_length_le (by omega), Cyclic.readAround, if_pos (by omega)] at hread
    rwa [show n - lo = a by omega, Nat.add_sub_cancel_left] at hread

end Around

section Counters

variable {N : ℕ}

/-- A counter that wraps around at `N`, after one more step. -/
theorem counter_succ (hN : 0 < N) (a t : ℕ) :
    (a + (t + 1)) % N = if (a + t) % N = N - 1 then 0 else (a + t) % N + 1 := by
  have hlt := Nat.mod_lt (a + t) hN
  rw [← Nat.add_assoc, ← Nat.mod_add_mod]
  split
  · rename_i hlast
    rw [hlast, Nat.sub_add_cancel hN, Nat.mod_self]
  · rename_i hlast
    exact Nat.mod_eq_of_lt (by omega)

/-- The distance on `n` slots between two positions, as a congruence. -/
theorem dist_modEq {x₁ y₁ x₂ y₂ : ℕ} (hn : 0 < n) (h : ∀ j < n, (x₁ + j) % n = y₁ % n → (x₂ + j) % n = y₂ % n) :
    y₁ + x₂ ≡ y₂ + x₁ [MOD n] := by
  have hj := Nat.mod_lt (y₁ + (n - x₁ % n)) hn
  have h₁ : (x₁ + (y₁ + (n - x₁ % n)) % n) % n = y₁ % n := by
    have hwrap := slot_wrap hn x₁
    rw [Nat.add_mod_mod, Nat.add_left_comm, Nat.add_mod, hwrap, Nat.add_zero, Nat.mod_mod]
  have h₂ := h _ hj h₁
  have e₁ : x₁ + (y₁ + (n - x₁ % n)) % n ≡ y₁ [MOD n] := h₁
  have e₂ : x₂ + (y₁ + (n - x₁ % n)) % n ≡ y₂ [MOD n] := h₂
  calc y₁ + x₂ ≡ (x₁ + (y₁ + (n - x₁ % n)) % n) + x₂ [MOD n] := e₁.symm.add_right x₂
    _ = (x₂ + (y₁ + (n - x₁ % n)) % n) + x₁ := by omega
    _ ≡ y₂ + x₁ [MOD n] := e₂.add_right x₁

/-- **When a counter wraps is seen in distances.** Two pairs of counters go around `N`, the first two of them apart, and
the pairs always are as far apart as each other on `n` slots, which do not divide `2 * N`: then their first counters
wrap around together. -/
theorem counter_eq {y₁ x₁ y₂ x₂ : ℕ} (hN : 0 < N) (hy₁ : y₁ < N) (hx₁ : x₁ < N) (hy₂ : y₂ < N) (hne : y₁ ≠ x₁)
    (hdvd : ¬ n ∣ 2 * N)
    (hdist : ∀ t, N ≤ t → (y₁ + t) % N + (x₂ + t) % N ≡ (y₂ + t) % N + (x₁ + t) % N [MOD n]) : y₂ = y₁ := by
  by_contra hy
  -- the last time before the first counter wraps around
  have hlast : (y₁ + (2 * N - 1 - y₁)) % N = N - 1 := by
    rw [Nat.add_sub_cancel' (by omega), show 2 * N - 1 = N - 1 + N by omega, Nat.add_mod_right]
    exact Nat.mod_eq_of_lt (by omega)
  have hother : ∀ z < N, z ≠ y₁ → (z + (2 * N - 1 - y₁)) % N ≠ N - 1 := by
    intro z hz hzy heq
    rcases Nat.lt_or_ge z y₁ with hlt | hge
    · rw [show z + (2 * N - 1 - y₁) = z + (N - 1 - y₁) + N by omega, Nat.add_mod_right,
        Nat.mod_eq_of_lt (by omega)] at heq
      omega
    · rw [show z + (2 * N - 1 - y₁) = z - y₁ - 1 + N + N by omega, Nat.add_mod_right, Nat.add_mod_right,
        Nat.mod_eq_of_lt (by omega)] at heq
      omega
  have hx := hother x₁ hx₁ hne.symm
  have hy' := hother y₂ hy₂ hy
  have h0 := hdist (2 * N - 1 - y₁) (by omega)
  have h1 := hdist (2 * N - 1 - y₁ + 1) (by omega)
  rw [counter_succ hN, counter_succ hN, counter_succ hN, counter_succ hN, if_pos hlast, if_neg hy', if_neg hx] at h1
  rw [hlast] at h0
  rw [Nat.modEq_iff_dvd] at h0 h1
  have hsub := Int.dvd_sub h1 h0
  refine hdvd (Int.natCast_dvd_natCast.1 ?_)
  by_cases hx₂ : (x₂ + (2 * N - 1 - y₁)) % N = N - 1
  · -- the last counter wraps around as well, the other way
    rw [if_pos hx₂, hx₂] at hsub
    convert hsub using 1
    omega
  · rw [if_neg hx₂] at hsub
    have hone : (n : ℤ) ∣ (N : ℤ) := by
      convert hsub using 1
      omega
    exact Int.natCast_dvd_natCast.2 ((Int.natCast_dvd_natCast.1 hone).mul_left 2)

/-- **Counters of pairs that are always as far apart** are the same. -/
theorem counters_eq {y₁ x₁ y₂ x₂ : ℕ} (hN : 0 < N) (hy₁ : y₁ < N) (hx₁ : x₁ < N) (hy₂ : y₂ < N) (hx₂ : x₂ < N)
    (hne : y₁ ≠ x₁) (hdvd : ¬ n ∣ 2 * N)
    (hdist : ∀ t, N ≤ t → (y₁ + t) % N + (x₂ + t) % N ≡ (y₂ + t) % N + (x₁ + t) % N [MOD n]) :
    y₂ = y₁ ∧ x₂ = x₁ := by
  have hswap : ∀ t, N ≤ t → (x₁ + t) % N + (y₂ + t) % N ≡ (x₂ + t) % N + (y₁ + t) % N [MOD n] := by
    intro t ht
    rw [Nat.add_comm ((x₁ + t) % N), Nat.add_comm ((x₂ + t) % N)]
    exact (hdist t ht).symm
  exact ⟨counter_eq hN hy₁ hx₁ hy₂ hne hdvd hdist, counter_eq hN hx₁ hy₁ hx₂ hne.symm hdvd hswap⟩

end Counters

end Cyclic
