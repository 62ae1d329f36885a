import Cutils.Spec.PoolMemory

/-!
# The guard words of the pool

The trailer word is not where the struct has `trailer_sanity`, but right behind the data: in the padding in front of that
member and in the member's first bytes. `Places` is where everything stands in an element; elements do not overlap
(`start_add_size_le`). From these, every store of an operation leaves all that it does not mean to change, and so do the
clients' stores (`Sound.step`).

* `pool_guard_words`: where header and trailer are, and that no sanity assertion fails, in any run.
* `pool_blocks_aligned`: how the blocks are aligned.
-/

namespace Cutils.Blocks

open Bytes Layout

namespace StoreDecl

variable (d : StoreDecl)

/-- The distance of the data from the header. -/
def offsetData : ℕ := offsetof d.elementMembers 1

/-- The address of element `b` of storage at `elements`. -/
def start (elements b : ℕ) : ℕ := elements + b * d.element.size

/-- **Where things stand in an element.** -/
structure Places : Prop where
  sanity : offsetof d.headerMembers 0 = 0
  retainCount : 4 ≤ offsetof d.headerMembers 1
  destructor : offsetof d.headerMembers 1 + 4 ≤ offsetof d.headerMembers 2
  destructorPrivate : offsetof d.headerMembers 2 + d.target.pointer.size ≤ offsetof d.headerMembers 3
  header : offsetof d.headerMembers 3 + d.target.pointer.size ≤ d.header.size
  data : d.header.size ≤ d.offsetData
  trailer : d.offsetData + d.elementSize + 4 ≤ d.element.size

theorem places : d.Places := by
  have hsanity : offsetof d.headerMembers 0 = 0 := offsetof_zero ..
  have hheader : offsetof d.elementMembers 0 = 0 := offsetof_zero ..
  have h01 := offsetof_add_size_le d.headerMembers (i := 0) (j := 1) rfl rfl (by decide)
  have h12 := offsetof_add_size_le d.headerMembers (i := 1) (j := 2) rfl rfl (by decide)
  have h23 := offsetof_add_size_le d.headerMembers (i := 2) (j := 3) rfl rfl (by decide)
  have h3 := offsetof_add_size_le_size d.headerMembers (i := 3) rfl
  have e01 := offsetof_add_size_le d.elementMembers (i := 0) (j := 1) rfl rfl (by decide)
  -- the trailer is not behind the member that is declared for it
  have e12 := offsetof_add_size_le d.elementMembers (i := 1) (j := 2) rfl rfl (by decide)
  have e2 := offsetof_add_size_le_size d.elementMembers (i := 2) rfl
  have hword := d.target.uint32_size
  have htrailer : d.offsetData + d.elementSize + 4 ≤ d.element.size := by
    have h : d.offsetData + d.elementSize ≤ offsetof d.elementMembers 2 := e12
    have h' : offsetof d.elementMembers 2 + d.target.uint32.size ≤ d.element.size := e2
    omega
  exact ⟨hsanity, by omega, by omega, h23, h3, by rw [hheader, Nat.zero_add] at e01; exact e01, htrailer⟩

variable {d} {elements b b' : ℕ}

/-- **Elements do not overlap.** -/
theorem start_add_size_le (h : b < b') : d.start elements b + d.element.size ≤ d.start elements b' := by
  have hmul := Nat.mul_le_mul_right d.element.size (Nat.succ_le_of_lt h)
  rw [Nat.succ_mul] at hmul
  unfold start
  omega

theorem start_apart (h : b ≠ b') : d.start elements b + d.element.size ≤ d.start elements b' ∨
    d.start elements b' + d.element.size ≤ d.start elements b :=
  (Nat.lt_or_gt_of_ne h).imp start_add_size_le start_add_size_le

end StoreDecl

/-- A pointer to a destructor, as `Spec/Pool.lean` has it. -/
def decode {w : ℕ} (x : BitVec w) : Option ℕ := if x = 0 then none else some x.toNat

/-- The element that is stored at address `p`. -/
def StoreDecl.elementAt (d : StoreDecl) (mem : Memory) (p : ℕ) : Element :=
  ⟨⟨load 32 d.target.byteOrder mem (p + offsetof d.headerMembers 0), load 32 d.target.byteOrder mem (p + offsetof d.headerMembers 1),
      decode (load (8 * d.target.pointer.size) d.target.byteOrder mem (p + offsetof d.headerMembers 2)),
      (load (8 * d.target.pointer.size) d.target.byteOrder mem (p + offsetof d.headerMembers 3)).toNat⟩,
    load 32 d.target.byteOrder mem (p + d.offsetData + d.elementSize)⟩

namespace StoreDecl

variable {d : StoreDecl} {mem mem' : Memory} {p : ℕ}

theorem pointer_bytes (d : StoreDecl) : 8 * d.target.pointer.size / 8 = d.target.pointer.size :=
  Nat.mul_div_cancel_left _ (by decide)

/-- **An element is its header and its trailer word.** -/
theorem elementAt_congr (hheader : ∀ i, p ≤ i → i < p + d.header.size → mem i = mem' i)
    (htrailer : ∀ i, p + d.offsetData + d.elementSize ≤ i → i < p + d.offsetData + d.elementSize + 4 → mem i = mem' i) :
    d.elementAt mem p = d.elementAt mem' p := by
  obtain ⟨h0, h1, h2, h3, h4, -, -⟩ := d.places
  have hptr := d.pointer_bytes
  have hmember : ∀ w i : ℕ, offsetof d.headerMembers i + w / 8 ≤ d.header.size →
      load w d.target.byteOrder mem (p + offsetof d.headerMembers i) =
        load w d.target.byteOrder mem' (p + offsetof d.headerMembers i) :=
    fun w i hi => load_congr fun j hj hj' => hheader j (by omega) (by omega)
  have hword : load 32 d.target.byteOrder mem (p + d.offsetData + d.elementSize) =
      load 32 d.target.byteOrder mem' (p + d.offsetData + d.elementSize) :=
    load_congr fun j hj hj' => htrailer j hj (by omega)
  rw [elementAt, elementAt, hmember 32 0 (by omega), hmember 32 1 (by omega), hmember _ 2 (by omega),
    hmember _ 3 (by omega), hword]

/-- A store to the retain count. -/
theorem elementAt_retainCount (x : BitVec 32) :
    d.elementAt (store d.target.byteOrder mem (p + offsetof d.headerMembers 1) x) p =
      { d.elementAt mem p with header := { (d.elementAt mem p).header with retainCount := x } } := by
  obtain ⟨h0, h1, h2, h3, h4, h5, -⟩ := d.places
  have hptr := d.pointer_bytes
  unfold elementAt
  rw [load_store_of_disjoint (by omega), load_store (by decide), load_store_of_disjoint (by omega),
    load_store_of_disjoint (by omega), load_store_of_disjoint (by omega)]

/-- A store to the destructor and to its private data. -/
theorem elementAt_destructor (fnDestroy priv : d.Pointer) :
    d.elementAt (store d.target.byteOrder (store d.target.byteOrder mem (p + offsetof d.headerMembers 2) fnDestroy)
        (p + offsetof d.headerMembers 3) priv) p =
      { d.elementAt mem p with
        header := { (d.elementAt mem p).header with destructor := decode fnDestroy, destructorPrivate := priv.toNat } } := by
  obtain ⟨h0, h1, h2, h3, h4, h5, -⟩ := d.places
  have hptr := d.pointer_bytes
  have hdvd : 8 ∣ 8 * d.target.pointer.size := Nat.dvd_mul_right ..
  unfold elementAt
  rw [load_store hdvd, load_store_of_disjoint (v := 8 * d.target.pointer.size) (by omega), load_store hdvd]
  rw [load_store_of_disjoint (v := 32) (by omega), load_store_of_disjoint (v := 32) (by omega),
    load_store_of_disjoint (v := 32) (by omega), load_store_of_disjoint (v := 32) (by omega),
    load_store_of_disjoint (v := 32) (by omega), load_store_of_disjoint (v := 32) (by omega)]

end StoreDecl

/-- An element as `pool_create` leaves it. -/
def Element.fresh : Element := ⟨⟨ELEMENT_HEADER_SANITY, 0, none, 0⟩, ELEMENT_TRAILER_SANITY⟩

namespace StoreDecl

variable {d : StoreDecl}

/-- **What `POOL_CREATE_INIT` says**, in storage of less than 2³² bytes: the 32-bit parameters and products are what they
should be. -/
theorem createInit_eq (elements : ℕ) (hfits : d.numElems * d.element.size < 2 ^ 32) :
    (d.createInit elements).numOfElements.toNat = d.numElems ∧
      (d.createInit elements).offsetDataFromHeader = d.offsetData ∧
      (0 < d.numElems → (d.createInit elements).elementSizeRequested.toNat = d.elementSize) ∧
      ∀ i < d.numElems, (UInt32.ofNat i * (d.createInit elements).totalElementSize).toNat = i * d.element.size := by
  have htrailer := d.places.trailer
  have hoffset : (d.createInit elements).offsetDataFromHeader = d.offsetData := by
    show offsetof d.elementMembers 1 - offsetof d.elementMembers 0 = _
    rw [show offsetof d.elementMembers 0 = 0 from offsetof_zero .., Nat.sub_zero]
    rfl
  have hcount : d.numElems ≤ d.numElems * d.element.size := Nat.le_mul_of_pos_right _ (by omega)
  refine ⟨UInt32.toNat_ofNat_of_lt' (lt_of_le_of_lt hcount hfits), hoffset, ?_, ?_⟩
  · intro hpos
    have hsize : d.element.size ≤ d.numElems * d.element.size := Nat.le_mul_of_pos_left _ hpos
    exact UInt32.toNat_ofNat_of_lt' (show d.elementSize < 2 ^ 32 by omega)
  · intro i hi
    have hsize : d.element.size ≤ d.numElems * d.element.size := Nat.le_mul_of_pos_left _ (Nat.zero_lt_of_lt hi)
    have hmul : i * d.element.size ≤ d.numElems * d.element.size := Nat.mul_le_mul_right _ (Nat.le_of_lt hi)
    rw [UInt32.toNat_mul, UInt32.toNat_ofNat_of_lt' (show i < 2 ^ 32 by omega)]
    show i * (UInt32.ofNat d.element.size).toNat % 2 ^ 32 = _
    rw [UInt32.toNat_ofNat_of_lt' (show d.element.size < 2 ^ 32 by omega), Nat.mod_eq_of_lt (by omega)]

/-- **The stores of `pool_create`** stay in their element, and leave it fresh. -/
theorem initElement_eq {params : CreateParams} (hoffset : params.offsetDataFromHeader = d.offsetData)
    (hsize : params.elementSizeRequested.toNat = d.elementSize) (mem : Memory) (p : ℕ) :
    d.elementAt (PoolMemory.initElement (d := d) params mem (p + d.offsetData)) p = .fresh ∧
      ∀ i, i < p ∨ p + d.element.size ≤ i → PoolMemory.initElement (d := d) params mem (p + d.offsetData) i = mem i := by
  obtain ⟨h0, h1, h2, h3, h4, h5, h6⟩ := d.places
  have hptr := d.pointer_bytes
  have hlen : (List.replicate d.header.size (0 : BitVec 8)).length = d.header.size := List.length_replicate
  unfold PoolMemory.initElement
  dsimp only
  rw [hoffset, hsize, Nat.add_sub_cancel]
  have hzero : ∀ i, p ≤ i → i < p + d.header.size → storeBytes mem p (List.replicate d.header.size 0) i = 0 := by
    intro i hi hi'
    rw [storeBytes, if_pos hi, List.getElem?_replicate_of_lt (by omega)]
    rfl
  constructor
  · -- a pointer member has the zeros of the memset
    have hnull : ∀ j, 4 + offsetof d.headerMembers 1 ≤ offsetof d.headerMembers j →
        offsetof d.headerMembers j + d.target.pointer.size ≤ d.header.size →
        load (8 * d.target.pointer.size) d.target.byteOrder (store d.target.byteOrder (store d.target.byteOrder
          (store d.target.byteOrder (storeBytes mem p (List.replicate d.header.size 0)) (p + offsetof d.headerMembers 0)
            ELEMENT_HEADER_SANITY) (p + offsetof d.headerMembers 1) (0 : BitVec 32)) (p + d.offsetData + d.elementSize)
          ELEMENT_TRAILER_SANITY) (p + offsetof d.headerMembers j) = 0 := by
      intro j hj hj'
      refine load_zero fun i hi hi' => ?_
      rw [store_outside (by omega), store_outside (by omega), store_outside (by omega)]
      exact hzero i (by omega) (by omega)
    unfold elementAt
    rw [hnull 2 (by omega) (by omega), hnull 3 (by omega) (by omega), load_store (by decide),
      load_store_of_disjoint (by omega), load_store_of_disjoint (by omega), load_store (by decide),
      load_store_of_disjoint (by omega), load_store (by decide)]
    simp [decode, Element.fresh]
  · intro i hi
    rw [store_outside (by omega), store_outside (by omega), store_outside (by omega), storeBytes_outside (by omega)]

end StoreDecl

namespace PoolMemory

variable {d : StoreDecl} {τ : Type} {m m' : PoolMemory d τ} {elements b b' : ℕ} {t : τ}

/-- The element that the operations on block `b` see. -/
def element (m : PoolMemory d τ) (b : ℕ) : Element :=
  ⟨⟨m.sanity b, m.retainCount b, decode (m.destructor b), (m.destructorPrivate b).toNat⟩, m.trailerSanity b⟩

theorem check_eq_none : m.check b = none ↔ (m.element b).sane = true := by
  unfold check element Element.sane
  rw [Bool.and_eq_true, beq_iff_eq, beq_iff_eq]
  split_ifs with h1 h2
  · exact iff_of_false (by simp) fun h => h1 h.1
  · exact iff_of_false (by simp) fun h => h2 h.2
  · exact iff_of_true rfl ⟨not_not.1 h1, not_not.1 h2⟩

/-- The block that a thread is working on. -/
def Pc.block {π : Type} : Pc π → Option ℕ
  | .idle => none
  | .addRef b _ _ | .install b _ _ | .destroy b | .enqueue b => some b

/-- **The pool is over the storage** at address `elements`. -/
structure Placed (elements : ℕ) (m : PoolMemory d τ) : Prop where
  count : m.numOfElements = d.numElems
  data : ∀ b < d.numElems, m.data b = d.start elements b + d.offsetData
  offset : m.offsetDataFromHeader = d.offsetData
  size : 0 < d.numElems → m.elementSize = d.elementSize

theorem Placed.header (h : Placed elements m) (hb : b < d.numElems) : m.header b = d.start elements b := by
  unfold PoolMemory.header
  rw [h.data b hb, h.offset, Nat.add_sub_cancel]

theorem Placed.member (h : Placed elements m) (hb : b < d.numElems) (i : ℕ) :
    m.member b i = d.start elements b + offsetof d.headerMembers i := by
  unfold PoolMemory.member
  rw [h.header hb]

theorem Placed.element (h : Placed elements m) (hb : b < d.numElems) :
    m.element b = d.elementAt m.mem (d.start elements b) := by
  unfold PoolMemory.element sanity retainCount destructor destructorPrivate trailerSanity StoreDecl.elementAt
  rw [h.member hb, h.member hb, h.member hb, h.member hb, h.data b hb, h.size (Nat.zero_lt_of_lt hb)]

/-- **A change of memory in one element** is not seen in the others. -/
theorem Placed.element_other {mem : Memory} (h : Placed elements m) (hb' : b' < d.numElems) (hne : b' ≠ b)
    (hmem : ∀ i, i < d.start elements b ∨ d.start elements b + d.element.size ≤ i → mem i = m.mem i) :
    ({ m with mem := mem } : PoolMemory d τ).element b' = m.element b' := by
  have hplaced : Placed elements { m with mem := mem } := ⟨h.count, h.data, h.offset, h.size⟩
  obtain ⟨-, -, -, -, h4, h5, h6⟩ := d.places
  have hapart : d.start elements b' + d.element.size ≤ d.start elements b ∨
      d.start elements b + d.element.size ≤ d.start elements b' := StoreDecl.start_apart hne
  rw [hplaced.element hb', h.element hb']
  exact StoreDecl.elementAt_congr (fun i _ _ => hmem i (by omega)) fun i _ _ => hmem i (by omega)

/-- **A store to a retain count.** -/
theorem Placed.element_retainCount (h : Placed elements m) (hb : b < d.numElems) (hb' : b' < d.numElems) (x : BitVec 32) :
    (m.assign (m.member b 1) x).element b' =
      if b' = b then { m.element b with header := { (m.element b).header with retainCount := x } } else m.element b' := by
  have hplaced : Placed elements (m.assign (m.member b 1) x) := ⟨h.count, h.data, h.offset, h.size⟩
  obtain ⟨h0, h1, h2, h3, h4, h5, h6⟩ := d.places
  split
  · rename_i heq
    rw [heq, hplaced.element hb, h.element hb]
    unfold assign
    dsimp only
    rw [h.member hb, StoreDecl.elementAt_retainCount]
  · rename_i hne
    refine h.element_other hb' hne fun i hi => store_outside ?_
    rw [h.member hb]
    omega

/-- **The stores of a destructor.** -/
theorem Placed.element_writeDestructor (h : Placed elements m) (hb : b < d.numElems) (hb' : b' < d.numElems)
    (fnDestroy priv : d.Pointer) : (m.writeDestructor b fnDestroy priv).element b' =
      if b' = b then { m.element b with
        header := { (m.element b).header with destructor := decode fnDestroy, destructorPrivate := priv.toNat } }
      else m.element b' := by
  have hplaced : Placed elements (m.writeDestructor b fnDestroy priv) := ⟨h.count, h.data, h.offset, h.size⟩
  obtain ⟨h0, h1, h2, h3, h4, h5, h6⟩ := d.places
  have hptr := d.pointer_bytes
  split
  · rename_i heq
    rw [heq, hplaced.element hb, h.element hb]
    unfold writeDestructor assign
    dsimp only
    rw [h.member hb, h.member hb, StoreDecl.elementAt_destructor]
  · rename_i hne
    refine h.element_other hb' hne fun i hi => (store_outside ?_).trans (store_outside ?_)
    · rw [h.member hb]
      omega
    · rw [h.member hb]
      omega

/-- **A client's store** to the data of a block is in no header and in no trailer word. -/
theorem Placed.element_write (h : Placed elements m) (hb : b < d.numElems) (hb' : b' < d.numElems) {i : ℕ}
    (hi : i < m.elementSize) (value : BitVec 8) :
    ({ m with mem := Function.update m.mem (m.data b + i) value } : PoolMemory d τ).element b' = m.element b' := by
  have hplaced : Placed elements { m with mem := Function.update m.mem (m.data b + i) value } :=
    ⟨h.count, h.data, h.offset, h.size⟩
  obtain ⟨-, -, -, -, h4, h5, h6⟩ := d.places
  have hdata := h.data b hb
  have hsize := h.size (Nat.zero_lt_of_lt hb)
  by_cases heq : b' = b
  · rw [heq, hplaced.element hb, h.element hb]
    exact StoreDecl.elementAt_congr (fun j _ _ => Function.update_of_ne (by omega) ..)
      fun j _ _ => Function.update_of_ne (by omega) ..
  · exact h.element_other hb' heq fun j _ => Function.update_of_ne (by omega) ..

/-- **What every state has**: the guard words are intact, and there are no blocks but those of the pool. -/
structure Sound (elements : ℕ) (m : PoolMemory d τ) : Prop extends Placed elements m where
  sane : ∀ b < d.numElems, (m.element b).sane = true
  queued : ∀ b ∈ m.q, b < d.numElems
  held : ∀ x ∈ m.refs, x.2 < d.numElems
  busy : ∀ t b, (m.pc t).block = some b → b < d.numElems
  quiet : m.tripped ≠ some .headerSanity ∧ m.tripped ≠ some .trailerSanity

section Create

variable {m₀ : PoolMemory d τ}

/-- The state of `pool_create` after `i` iterations of its loop. -/
def created (params : CreateParams) (m₀ : PoolMemory d τ) (i : ℕ) : PoolMemory d τ :=
  (List.range i).foldl (fun m i => m.createElement params i)
    { m₀ with
      numOfElements := params.numOfElements.toNat
      elementSize := params.elementSizeRequested.toNat
      offsetDataFromHeader := params.offsetDataFromHeader
      queueSize := params.queueSize
      q := [] }

/-- What the loop has done after `i` iterations. -/
structure Created (elements : ℕ) (m₀ m : PoolMemory d τ) (i : ℕ) : Prop where
  count : m.numOfElements = d.numElems
  offset : m.offsetDataFromHeader = d.offsetData
  size : 0 < d.numElems → m.elementSize = d.elementSize
  data : ∀ b < i, m.data b = d.start elements b + d.offsetData
  fresh : ∀ b < i, d.elementAt m.mem (d.start elements b) = .fresh
  q : m.q = List.range i
  queueSize : m.queueSize = d.numElems
  pc : m.pc = m₀.pc
  refs : m.refs = m₀.refs
  retval : m.retval = m₀.retval
  calls : m.calls = m₀.calls
  tripped : m.tripped = m₀.tripped

theorem created_loop (hfits : d.numElems * d.element.size < 2 ^ 32) (m₀ : PoolMemory d τ) {i : ℕ} (hi : i ≤ d.numElems) :
    Created elements m₀ (created (d.createInit elements) m₀ i) i := by
  obtain ⟨hcount, hoffset, hsize, hproduct⟩ := StoreDecl.createInit_eq elements hfits
  induction i with
  | zero =>
    refine ⟨hcount, hoffset, hsize, ?_, ?_, rfl, rfl, rfl, rfl, rfl, rfl, rfl⟩
    · intro b hb
      omega
    · intro b hb
      omega
  | succ i ih =>
    have hm := ih (by omega)
    have hsucc : created (d.createInit elements) m₀ (i + 1) =
        (created (d.createInit elements) m₀ i).createElement (d.createInit elements) i := by
      unfold created
      rw [List.range_succ, List.foldl_append]
      rfl
    rw [hsucc]
    generalize created (d.createInit elements) m₀ i = m at hm
    -- the queue is as long as the pool, so every element of the loop has its place in it
    have hroom : m.q.length < m.queueSize := by
      rw [hm.q, hm.queueSize, List.length_range]
      omega
    have hpointer : (d.createInit elements).pBacking + (UInt32.ofNat i * (d.createInit elements).totalElementSize).toNat +
        (d.createInit elements).offsetDataFromHeader = d.start elements i + d.offsetData := by
      rw [hproduct i (by omega), hoffset]
      rfl
    obtain ⟨hfresh, hother⟩ := StoreDecl.initElement_eq hoffset (hsize (by omega)) m.mem (d.start elements i)
    unfold createElement enqueue
    dsimp only
    rw [if_pos hroom, hpointer]
    refine ⟨hm.count, hm.offset, hm.size, ?_, ?_, ?_, hm.queueSize, hm.pc, hm.refs, hm.retval, hm.calls, hm.tripped⟩
    · intro b hb
      dsimp only
      rw [Function.update_apply]
      split
      · rename_i heq
        rw [heq]
      · exact hm.data b (by omega)
    · intro b hb
      rcases Nat.lt_succ_iff_lt_or_eq.1 hb with hlt | rfl
      · -- the elements in front are not touched
        rw [← hm.fresh b hlt]
        have hbefore : d.start elements b + d.element.size ≤ d.start elements i := StoreDecl.start_add_size_le hlt
        obtain ⟨-, -, -, -, -, h5, h6⟩ := d.places
        exact StoreDecl.elementAt_congr (fun j _ _ => hother j (by omega)) fun j _ _ => hother j (by omega)
      · exact hfresh
    · dsimp only
      rw [List.range_succ, hm.q]

theorem created_create (hfits : d.numElems * d.element.size < 2 ^ 32) (m₀ : PoolMemory d τ) :
    Created elements m₀ (m₀.create (d.createInit elements)) d.numElems := by
  have hcount : (d.createInit elements).numOfElements.toNat = d.numElems := (StoreDecl.createInit_eq elements hfits).1
  have h : Created elements m₀ (created (d.createInit elements) m₀ d.numElems) d.numElems :=
    created_loop hfits m₀ (Nat.le_refl _)
  unfold created at h
  unfold create
  rw [hcount] at h ⊢
  exact h

/-- **A pool is sound as it is created**, whatever its storage was used for before. -/
theorem Sound.create (hfits : d.numElems * d.element.size < 2 ^ 32) (hheld : ∀ x ∈ m₀.refs, x.2 < d.numElems)
    (hbusy : ∀ t b, (m₀.pc t).block = some b → b < d.numElems)
    (hquiet : m₀.tripped ≠ some .headerSanity ∧ m₀.tripped ≠ some .trailerSanity) :
    Sound elements (m₀.create (d.createInit elements)) := by
  have h : Created elements m₀ _ _ := created_create hfits m₀
  generalize m₀.create (d.createInit elements) = m at h ⊢
  have hplaced : Placed elements m := ⟨h.count, h.data, h.offset, h.size⟩
  refine ⟨hplaced, ?_, ?_, ?_, ?_, ?_⟩
  · intro b hb
    rw [hplaced.element hb, h.fresh b hb]
    decide
  · intro b hb
    rw [h.q] at hb
    exact List.mem_range.1 hb
  · rw [h.refs]
    exact hheld
  · rw [h.pc]
    exact hbusy
  · rw [h.tripped]
    exact hquiet

end Create

section Steps

theorem Sound.retainCount (h : Sound elements m) (hb : b < d.numElems) (x : BitVec 32) :
    Sound elements (m.assign (m.member b 1) x) := by
  refine ⟨⟨h.count, h.data, h.offset, h.size⟩, fun b' hb' => ?_, h.queued, h.held, h.busy, h.quiet⟩
  rw [h.element_retainCount hb hb']
  split
  · exact h.sane b hb
  · exact h.sane b' hb'

theorem Sound.writeDestructor (h : Sound elements m) (hb : b < d.numElems) (fnDestroy priv : d.Pointer) :
    Sound elements (m.writeDestructor b fnDestroy priv) := by
  refine ⟨⟨h.count, h.data, h.offset, h.size⟩, fun b' hb' => ?_, h.queued, h.held, h.busy, h.quiet⟩
  rw [h.element_writeDestructor hb hb']
  split
  · exact h.sane b hb
  · exact h.sane b' hb'

/-- Clients store to blocks of the pool. -/
theorem Sound.written (h : Sound elements m) (hb : (t, b) ∈ m.refs ∨ m.pc t = .destroy b) : b < d.numElems := by
  rcases hb with hb | hb
  · exact h.held _ hb
  · exact h.busy t b (by rw [hb]; rfl)

theorem Sound.setRefs (h : Sound elements m) {refs : List (τ × ℕ)} (hrefs : ∀ x ∈ refs, x.2 < d.numElems) :
    Sound elements { m with refs := refs } :=
  ⟨⟨h.count, h.data, h.offset, h.size⟩, h.sane, h.queued, hrefs, h.busy, h.quiet⟩

variable [DecidableEq τ]

theorem Sound.setPc (h : Sound elements m) (t : τ) {pc : Pc d.Pointer} (hpc : ∀ b, pc.block = some b → b < d.numElems) :
    Sound elements (m.setPc t pc) := by
  refine ⟨⟨h.count, h.data, h.offset, h.size⟩, h.sane, h.queued, h.held, fun u b hb => ?_, h.quiet⟩
  unfold PoolMemory.setPc at hb
  dsimp only at hb
  rw [Function.update_apply] at hb
  split at hb
  · exact hpc b hb
  · exact h.busy u b hb

/-- Everything a step can do, when no sanity assertion fails. -/
inductive Trans (params : CreateParams) (m : PoolMemory d τ) : Act d.Pointer τ → PoolMemory d τ → Prop
  | create : Trans params m .create (m.create params)
  | allocNull (t : τ) (f p : d.Pointer) (hpc : m.pc t = .idle) (hq : m.q = []) :
      Trans params m (.alloc t f p) { m with retval := Function.update m.retval t none }
  | alloc (t : τ) (f p : d.Pointer) (b : ℕ) (rest : List ℕ) (hpc : m.pc t = .idle) (hq : m.q = b :: rest) :
      Trans params m (.alloc t f p) { m.setPc t (.addRef b f p) with q := rest }
  | retain (t : τ) (b : ℕ) (hpc : m.pc t = .idle) (hb : b < m.numOfElements) :
      Trans params m (.retain t b) { m.fetchAdd b with refs := (t, b) :: m.refs }
  | free (t : τ) (b : ℕ) (hpc : m.pc t = .idle) (hb : b < m.numOfElements) : Trans params m (.free t b) (m.freeStep b t)
  | setDestructor (t : τ) (b : ℕ) (f p : d.Pointer) (hpc : m.pc t = .idle) (hb : b < m.numOfElements) :
      Trans params m (.setDestructor t b f p) (m.writeDestructor b f p)
  | pass (t t' : τ) (b : ℕ) (hpc : m.pc t = .idle) (hm : (t, b) ∈ m.refs) :
      Trans params m (.pass t t' b) { m with refs := (t', b) :: m.refs.erase (t, b) }
  | addRef (t : τ) (b : ℕ) (f p : d.Pointer) (hpc : m.pc t = .addRef b f p) :
      Trans params m (.run t) { (m.fetchAdd b).setPc t (.install b f p) with refs := (t, b) :: m.refs }
  | install (t : τ) (b : ℕ) (f p : d.Pointer) (hpc : m.pc t = .install b f p) :
      Trans params m (.run t) { (if f = 0 then m else m.writeDestructor b f p).setPc t .idle with
        retval := Function.update m.retval t (some b) }
  | destroy (t : τ) (b : ℕ) (hpc : m.pc t = .destroy b) :
      Trans params m (.run t) { m.setPc t (.enqueue b) with
        calls := m.calls ++ if m.destructor b = 0 then [] else [(b, m.destructor b, m.destructorPrivate b)] }
  | enqueue (t : τ) (b : ℕ) (hpc : m.pc t = .enqueue b) : Trans params m (.run t) ((m.enqueue b).setPc t .idle)
  | write (t : τ) (b i : ℕ) (value : BitVec 8) (hb : (t, b) ∈ m.refs ∨ m.pc t = .destroy b) (hi : i < m.elementSize) :
      Trans params m (.write t b i value) { m with mem := Function.update m.mem (m.data b + i) value }

omit [DecidableEq τ] in
/-- **The assertions of an operation hold.** -/
theorem Sound.asserting (h : Sound elements m) (hb : b < d.numElems) (body : PoolMemory d τ) : m.asserting b body = body := by
  have hcheck := check_eq_none.2 (h.sane b hb)
  unfold PoolMemory.asserting
  rw [hcheck]

variable {params : CreateParams}

theorem Sound.guarded_trans {a : Act d.Pointer τ} {body : PoolMemory d τ} (h : Sound elements m)
    (hs : m.guarded b t body = some m') (hbody : m.pc t = .idle → b < m.numOfElements → Trans params m a body) : Trans params m a m' := by
  unfold guarded at hs
  split at hs
  · rename_i hg
    rw [h.asserting (h.count ▸ hg.2)] at hs
    cases hs
    exact hbody hg.1 hg.2
  · cases hs

/-- **Every step is one of these.** -/
theorem Sound.step_trans {a : Act d.Pointer τ} (h : Sound elements m) (hs : m.step params a = some m') :
    Trans params m a m' := by
  unfold PoolMemory.step at hs
  split at hs
  · cases hs
  cases a with
  | create =>
    cases hs
    exact .create
  | alloc t f p =>
    simp only [allocStep] at hs
    split at hs
    · rename_i hpc
      split at hs
      · cases hs
        exact .allocNull t f p hpc ‹_›
      · cases hs
        exact .alloc t f p _ _ hpc ‹_›
    · cases hs
  -- the three calls that take a reference pass the same guard
  | retain t b => exact h.guarded_trans hs (.retain t b)
  | free t b => exact h.guarded_trans hs (.free t b)
  | setDestructor t b f p => exact h.guarded_trans hs (.setDestructor t b f p)
  | pass t t' b =>
    simp only at hs
    split at hs
    · rename_i hg
      cases hs
      exact .pass t t' b hg.1 (List.contains_iff_mem.1 hg.2)
    · cases hs
  | run t =>
    simp only [runStep] at hs
    cases hpc : m.pc t with
    | idle => simp [hpc] at hs
    -- the assertion of the increment holds, so it is not the tripped branch
    | addRef b f p =>
      simp only [hpc, h.asserting (h.busy t b (by rw [hpc]; rfl))] at hs
      cases hs
      exact .addRef t b f p hpc
    | install b f p =>
      simp only [hpc] at hs
      cases hs
      exact .install t b f p hpc
    | destroy b =>
      simp only [hpc] at hs
      cases hs
      exact .destroy t b hpc
    | enqueue b =>
      simp only [hpc] at hs
      cases hs
      exact .enqueue t b hpc
  | write t b i value =>
    simp only at hs
    split at hs
    · rename_i hg
      cases hs
      exact .write t b i value (hg.1.imp_left List.contains_iff_mem.1) hg.2
    · cases hs

/-- The decrement of `pool_free` may fail the assertion on the retain count, which is not one of the two. -/
theorem Sound.freeStep (h : Sound elements m) (hb : b < d.numElems) : Sound elements (m.freeStep b t) := by
  have hsub : Sound elements { m.fetchSub b with refs := m.refs.erase (t, b) } :=
    (h.retainCount hb _).setRefs fun x hx => h.held x (List.mem_of_mem_erase hx)
  unfold PoolMemory.freeStep
  dsimp only
  split_ifs
  · exact ⟨⟨hsub.count, hsub.data, hsub.offset, hsub.size⟩, hsub.sane, hsub.queued, hsub.held, hsub.busy, by simp, by simp⟩
  · exact hsub.setPc t fun b' hb' => by cases hb'; exact hb
  · exact hsub

/-- **Every step keeps the guard words.** -/
theorem Sound.step (hfits : d.numElems * d.element.size < 2 ^ 32) {a : Act d.Pointer τ} (h : Sound elements m)
    (hs : m.step (d.createInit elements) a = some m') : Sound elements m' := by
  cases h.step_trans hs with
  | create => exact .create hfits h.held h.busy h.quiet
  | allocNull t f p => exact ⟨⟨h.count, h.data, h.offset, h.size⟩, h.sane, h.queued, h.held, h.busy, h.quiet⟩
  | alloc t f p b rest hpc hq =>
    have hb : b < d.numElems := h.queued b (by rw [hq]; exact List.mem_cons_self)
    have hset : Sound elements (m.setPc t (.addRef b f p)) := h.setPc t fun b' hb' => by cases hb'; exact hb
    refine ⟨⟨hset.count, hset.data, hset.offset, hset.size⟩, hset.sane, fun b' hb' => h.queued b' ?_, hset.held, hset.busy, hset.quiet⟩
    rw [hq]
    exact List.mem_cons_of_mem _ hb'
  | retain t b hpc hb =>
    rw [h.count] at hb
    exact (h.retainCount hb _).setRefs (List.forall_mem_cons.2 ⟨hb, h.held⟩)
  -- the bound of a caller's reference is the field of the pool, which is the declared number
  | free t b hpc hb => exact h.freeStep (h.count ▸ hb)
  | setDestructor t b f p hpc hb => exact h.writeDestructor (h.count ▸ hb) f p
  | pass t t' b hpc hm =>
    exact h.setRefs (List.forall_mem_cons.2 ⟨h.held (t, b) hm, fun x hx => h.held x (List.mem_of_mem_erase hx)⟩)
  | addRef t b f p hpc =>
    have hb : b < d.numElems := h.busy t b (by rw [hpc]; rfl)
    exact ((h.retainCount hb _).setPc t fun b' hb' => by cases hb'; exact hb).setRefs
      (List.forall_mem_cons.2 ⟨hb, h.held⟩)
  | install t b f p hpc =>
    have hb : b < d.numElems := h.busy t b (by rw [hpc]; rfl)
    have hset : Sound elements ((if f = 0 then m else m.writeDestructor b f p).setPc t .idle) := by
      refine Sound.setPc ?_ t fun b' hb' => by cases hb'
      split
      · exact h
      · exact h.writeDestructor hb f p
    exact ⟨⟨hset.count, hset.data, hset.offset, hset.size⟩, hset.sane, hset.queued, hset.held, hset.busy, hset.quiet⟩
  -- a destructor is called, not followed: the memory is what it was
  | destroy t b hpc =>
    have hb : b < d.numElems := h.busy t b (by rw [hpc]; rfl)
    have hset : Sound elements (m.setPc t (.enqueue b)) := h.setPc t fun b' hb' => by cases hb'; exact hb
    exact ⟨⟨hset.count, hset.data, hset.offset, hset.size⟩, hset.sane, hset.queued, hset.held, hset.busy, hset.quiet⟩
  | enqueue t b hpc =>
    have hb : b < d.numElems := h.busy t b (by rw [hpc]; rfl)
    have hput : Sound elements (m.enqueue b) := by
      unfold PoolMemory.enqueue
      split
      · refine ⟨⟨h.count, h.data, h.offset, h.size⟩, h.sane, fun b' hb' => ?_, h.held, h.busy, h.quiet⟩
        rcases List.mem_append.1 hb' with hb' | hb'
        · exact h.queued b' hb'
        · rw [List.mem_singleton.1 hb']
          exact hb
      · exact h
    exact hput.setPc t fun b' hb' => by cases hb'
  -- the write of a caller stays inside the data it holds, and a header is never there
  | write t b i value hb hi =>
    refine ⟨⟨h.count, h.data, h.offset, h.size⟩, fun b' hb' => ?_, h.queued, h.held, h.busy, h.quiet⟩
    rw [h.element_write (h.written hb) hb' hi]
    exact h.sane b' hb'

/-- **In every run.** -/
theorem reach_sound (hfits : d.numElems * d.element.size < 2 ^ 32) {ok : PoolMemory d τ → Act d.Pointer τ → Prop}
    (h : Sys.Reach (system d τ elements) ok m) : Sound elements m := by
  refine h.inv ?_ fun m a m' hm _ hs => hm.step hfits hs
  rintro _ ⟨mem, rfl⟩
  exact .create hfits (fun x hx => by cases hx) (fun t b hb => by cases hb) ⟨by simp [blank], by simp [blank]⟩

end Steps

end PoolMemory

open PoolMemory

/-- Two ranges of addresses that do not overlap. -/
def Apart (p n p' n' : ℕ) : Prop := p + n ≤ p' ∨ p' + n' ≤ p

/-- **What is promised of the guard words** of a pool in storage at address `elements`. -/
structure Guarded {d : StoreDecl} {τ : Type} (elements : ℕ) (m : PoolMemory d τ) : Prop where
  /-- Header and trailer are inside their element. -/
  inside : ∀ b < d.numElems,
    (elements + b * d.element.size ≤ m.header b ∧ m.header b + d.header.size ≤ elements + (b + 1) * d.element.size) ∧
      elements + b * d.element.size ≤ m.data b + m.elementSize ∧
        m.data b + m.elementSize + 4 ≤ elements + (b + 1) * d.element.size
  /-- Headers are apart from all data, from all trailers and from each other, -/
  header : ∀ b < d.numElems, ∀ b' < d.numElems, Apart (m.header b) d.header.size (m.data b') d.elementSize ∧
    Apart (m.header b) d.header.size (m.data b' + m.elementSize) 4 ∧
      (b ≠ b' → Apart (m.header b) d.header.size (m.header b') d.header.size)
  /-- and trailers from all data and from each other. -/
  trailer : ∀ b < d.numElems, ∀ b' < d.numElems, Apart (m.data b + m.elementSize) 4 (m.data b') d.elementSize ∧
    (b ≠ b' → Apart (m.data b + m.elementSize) 4 (m.data b' + m.elementSize) 4)
  /-- The words are intact, so that an operation on any block finds its assertions true, -/
  intact : ∀ b < d.numElems, m.sanity b = ELEMENT_HEADER_SANITY ∧ m.trailerSanity b = ELEMENT_TRAILER_SANITY ∧
    m.check b = none
  /-- and none that was made has failed. -/
  quiet : m.tripped ≠ some .headerSanity ∧ m.tripped ≠ some .trailerSanity

/-- **Pool guard words.** For every declaration of a pool whose storage has less than 2³² bytes, on every target, and every
run of the pool operations by any threads, with stores of the clients to the data of the blocks they hold: header
and trailer words are inside their elements, overlap nothing else, and no sanity assertion fails. -/
theorem pool_guard_words {d : StoreDecl} {τ : Type} [DecidableEq τ] {elements : ℕ}
    (hfits : d.numElems * d.element.size < 2 ^ 32) {m : PoolMemory d τ}
    (h : Sys.Reach (system d τ elements) Sys.Always m) : Guarded elements m := by
  have hm := reach_sound hfits h
  obtain ⟨-, -, -, -, -, h5, h6⟩ := d.places
  -- where things are in the element of a block
  have hat : ∀ b < d.numElems, m.header b = elements + b * d.element.size ∧
      m.data b = elements + b * d.element.size + d.offsetData ∧ m.elementSize = d.elementSize :=
    fun b hb => ⟨hm.header hb, hm.data b hb, hm.size (Nat.zero_lt_of_lt hb)⟩
  have happ : ∀ b b', b ≠ b' → elements + b * d.element.size + d.element.size ≤ elements + b' * d.element.size ∨
      elements + b' * d.element.size + d.element.size ≤ elements + b * d.element.size :=
    fun b b' hne => StoreDecl.start_apart hne
  refine ⟨fun b hb => ?_, fun b hb b' hb' => ?_, fun b hb b' hb' => ?_, fun b hb => ?_, hm.quiet⟩
  · obtain ⟨e1, e2, e3⟩ := hat b hb
    rw [Nat.succ_mul]
    omega
  · obtain ⟨e1, e2, e3⟩ := hat b hb
    obtain ⟨f1, f2, -⟩ := hat b' hb'
    unfold Apart
    by_cases hne : b = b'
    · rw [← hne] at f1 f2 ⊢
      exact ⟨by omega, by omega, fun h => absurd rfl h⟩
    · have := happ b b' hne
      exact ⟨by omega, by omega, fun _ => by omega⟩
  · obtain ⟨e1, e2, e3⟩ := hat b hb
    obtain ⟨f1, f2, -⟩ := hat b' hb'
    unfold Apart
    by_cases hne : b = b'
    · rw [← hne] at f1 f2 ⊢
      exact ⟨by omega, fun h => absurd rfl h⟩
    · have := happ b b' hne
      exact ⟨by omega, fun _ => by omega⟩
  · have hsane := hm.sane b hb
    have hcheck := check_eq_none.2 hsane
    unfold Element.sane at hsane
    rw [Bool.and_eq_true, beq_iff_eq, beq_iff_eq] at hsane
    exact ⟨hsane.1, hsane.2, hcheck⟩

/-- Two elements of five bytes, aligned to 16: the trailer is in the padding. -/
def pairOfFive : StoreDecl :=
  ⟨⟨.little, ⟨4, 4, 2, rfl⟩, ⟨8, 8, 3, rfl⟩, rfl⟩, 2, 5, 16, 4, rfl⟩

/-- A block is allocated, all of its data is written, and it is released. -/
theorem pool_guard_words_pair : ∃ m : PoolMemory pairOfFive Unit, Sys.Reach (system pairOfFive Unit 4096) Sys.Always m ∧
    m.q = [1, 0] ∧ m.data 1 + m.elementSize = 4096 + 48 + 32 + 5 ∧ Guarded 4096 m := by
  have hinit : Sys.Reach (system pairOfFive Unit 4096) Sys.Always ((blank fun _ => 0xAA).create (pairOfFive.createInit 4096)) :=
    .init ⟨_, rfl⟩
  have htrace : (Sys.exec (system pairOfFive Unit 4096) Sys.Always ((blank fun _ => 0xAA).create (pairOfFive.createInit 4096))
      [.alloc () 0 0, .run (), .run (), .write () 0 0 1, .write () 0 4 0xFF, .free () 0, .run (), .run ()]).map
      (fun m => m.q == [1, 0] && m.data 1 + m.elementSize == 4096 + 48 + 32 + 5) = some true := by decide +kernel
  obtain ⟨m, hm, hp⟩ := hinit.of_trace htrace
  rw [Bool.and_eq_true, beq_iff_eq, beq_iff_eq] at hp
  exact ⟨m, hm, hp.1, hp.2, pool_guard_words (by decide) hm⟩

/-- **Blocks are aligned** as declared, and their headers as `pool_header_t` is, in storage that is aligned. -/
theorem pool_blocks_aligned {d : StoreDecl} {τ : Type} [DecidableEq τ] {elements : ℕ}
    (hfits : d.numElems * d.element.size < 2 ^ 32) (helements : d.element.align ∣ elements) {m : PoolMemory d τ}
    (h : Sys.Reach (system d τ elements) Sys.Always m) {b : ℕ} (hb : b < d.numElems) :
    d.align ∣ m.data b ∧ d.header.align ∣ m.header b := by
  have hm := reach_sound hfits h
  have hstart : d.element.align ∣ d.start elements b :=
    (Nat.dvd_add_right helements).2 ((align_dvd_size d.elementMembers).mul_left b)
  constructor
  · have halign : d.align ∣ d.element.align := align_dvd_align d.elementMembers (i := 1) rfl
    have hoffset : d.align ∣ d.offsetData := align_dvd_offsetof d.elementMembers (i := 1) rfl
    rw [hm.data b hb]
    exact (Nat.dvd_add_right (halign.trans hstart)).2 hoffset
  · have halign : d.header.align ∣ d.element.align := align_dvd_align d.elementMembers (i := 0) rfl
    rw [hm.header hb]
    exact halign.trans hstart

end Cutils.Blocks
