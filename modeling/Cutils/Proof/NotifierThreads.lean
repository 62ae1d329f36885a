import Cutils.Lib.Count
import Cutils.Proof.NotifierLists
import Cutils.Spec.NotifierThreads

/-!
# A notifier with threads is a notifier whose calls are whole

An allocation clears its block after it has let go of the mutex. `mask` clears the blocks that are still to be
cleared: nobody reads them, since they are in no list, so that clearing them earlier makes no difference to the
operations on the others (`unlist_mask`, `register_mask`). `Follows` relates the notifier of the threads to the one whose
calls are whole, with the blocks to be cleared masked and the operation of the call that holds the mutex not yet done.

* `notifier_threads_linearizable`: every run of the threads is one of whole calls, in the order of their effects.
-/

namespace Cutils.Notify

open KList Blocks Links History

variable {δ : Type} {numOfElements : ℕ} {totalCategories : UInt32}

section Mask

variable (P : ℕ → Bool)

/-- A field that is cleared on `P`. -/
def clearOn {β : Type} (z : β) (f : ℕ → β) : ℕ → β := fun b => if P b then z else f b

/-- The notifier with the blocks of `P` cleared. -/
def Notifier.mask (n : Notifier) : Notifier :=
  { n with
    elems := ⟨clearOn P none n.elems.prev, clearOn P none n.elems.next⟩
    category := clearOn P 0 n.category }

variable {P} {n n' : Notifier} {b : ℕ} {β : Type} {z v : β} {f : ℕ → β}

theorem clearOn_of_not (h : P b = false) : clearOn P z f b = f b := by
  simp [clearOn, h]

/-- A write to a block that is not cleared. -/
theorem clearOn_update (h : P b = false) :
    clearOn P z (Function.update f b v) = Function.update (clearOn P z f) b v := by
  funext x
  by_cases hx : x = b
  · subst hx
    rw [clearOn_of_not h, Function.update_self, Function.update_self]
  · simp only [clearOn, Function.update_of_ne hx]

/-- Clearing one block is a mask. -/
theorem clear_eq_mask (n : Notifier) (b : ℕ) : n.clear b = n.mask (· == b) := by
  have hone : ∀ {β : Type} (z : β) (f : ℕ → β), Function.update f b z = clearOn (· == b) z f := by
    intro β z f
    funext x
    by_cases hx : x = b
    · subst hx; simp [clearOn]
    · simp [clearOn, hx]
  unfold Notifier.clear Notifier.mask
  simp only [hone]

theorem mask_mask (n : Notifier) (P P' : ℕ → Bool) : (n.mask P).mask P' = n.mask fun b => P' b || P b := by
  have hboth : ∀ {β : Type} (z : β) (f : ℕ → β),
      clearOn P' z (clearOn P z f) = clearOn (fun b => P' b || P b) z f := by
    intro β z f
    funext x
    cases hx : P' x <;> simp [clearOn, hx]
  unfold Notifier.mask
  simp only [hboth]

theorem headPop_mask {m : Elems ℕ} {h : ℕ} (hh : P h = false) :
    (⟨clearOn P none m.prev, clearOn P none m.next⟩ : Elems ℕ).headPop (some h) =
      (⟨clearOn P none (m.headPop (some h)).1.prev, clearOn P none (m.headPop (some h)).1.next⟩,
        (m.headPop (some h)).2) := by
  simp only [Elems.headPop, clearOn_update hh, clearOn_of_not hh]

theorem removeElem_mask {m : Elems ℕ} (hb : P b = false) (hnext : ∀ x, m.next b = some x → P x = false)
    (hprev : ∀ x, m.prev b = some x → P x = false) :
    (⟨clearOn P none m.prev, clearOn P none m.next⟩ : Elems ℕ).removeElem b =
      ⟨clearOn P none (m.removeElem b).prev, clearOn P none (m.removeElem b).next⟩ := by
  -- a cleared block is none of those that are written
  have hnot : ∀ x, P x = true → x ≠ b ∧ m.next b ≠ some x ∧ m.prev b ≠ some x := by
    intro x hx
    refine ⟨?_, ?_, ?_⟩
    · rintro rfl; rw [hb] at hx; cases hx
    · intro h; rw [hnext x h] at hx; cases hx
    · intro h; rw [hprev x h] at hx; cases hx
  have hp : (Elems.removeElem ⟨clearOn P none m.prev, clearOn P none m.next⟩ b).prev =
      clearOn P none (m.removeElem b).prev := by
    funext x
    rw [removeElem_prev]
    cases hx : P x with
    | true =>
      obtain ⟨h1, h2, -⟩ := hnot x hx
      simp only [clearOn_of_not hb, if_neg h1, if_neg h2]
      simp [clearOn, hx]
    | false => simp only [clearOn_of_not hb, clearOn_of_not hx, removeElem_prev]
  have hn : (Elems.removeElem ⟨clearOn P none m.prev, clearOn P none m.next⟩ b).next =
      clearOn P none (m.removeElem b).next := by
    funext x
    rw [removeElem_next]
    cases hx : P x with
    | true =>
      obtain ⟨h1, -, h3⟩ := hnot x hx
      simp only [clearOn_of_not hb, if_neg h1, if_neg h3]
      simp [clearOn, hx]
    | false => simp only [clearOn_of_not hb, clearOn_of_not hx, removeElem_next]
  cases hm : Elems.removeElem ⟨clearOn P none m.prev, clearOn P none m.next⟩ b with
  | mk prev next =>
    rw [hm] at hp hn
    rw [← hp, ← hn]

/-- **A deregistration does not see the blocks that are to be cleared**: neither the block nor its neighbours are
among them. -/
theorem unlist_mask (hb : P b = false)
    (hnb : n.notifArray (n.category b) ≠ some b →
      (∀ x, n.elems.next b = some x → P x = false) ∧ ∀ x, n.elems.prev b = some x → P x = false)
    (h : n.unlist b = .ok n') : (n.mask P).unlist b = .ok (n'.mask P) := by
  have hcat : (n.mask P).category b = n.category b := clearOn_of_not hb
  unfold Notifier.unlist at h ⊢
  simp only [hcat] at h ⊢
  by_cases hhead : n.notifArray (n.category b) = some b
  · have hhead' : (n.mask P).notifArray (n.category b) = some b := hhead
    rw [if_pos hhead, hhead] at h
    rw [if_pos hhead', hhead']
    have hpop := headPop_mask (m := n.elems) hb
    have hpop : (n.mask P).elems.headPop (some b) = _ := hpop
    rw [hpop]
    split at h
    · rename_i hpopped
      rw [if_pos hpopped]
      simp only [Except.ok.injEq] at h ⊢
      rw [← h]
      rfl
    · cases h
  · have hhead' : (n.mask P).notifArray (n.category b) ≠ some b := hhead
    rw [if_neg hhead] at h
    rw [if_neg hhead']
    obtain ⟨h1, h2⟩ := hnb hhead
    have hrem : (n.mask P).elems.removeElem b = _ := removeElem_mask hb h1 h2
    rw [hrem]
    simp only [Except.ok.injEq] at h ⊢
    rw [← h]
    rfl

/-- **Nor does a registration**: neither its block nor the first one of the list is to be cleared. -/
theorem register_mask {category : UInt32} (hb : P b = false)
    (hhead : ∀ x, n.notifArray category = some x → P x = false)
    (h : n.registerNotificationBlock category b = .ok n') :
    (n.mask P).registerNotificationBlock category b = .ok (n'.mask P) := by
  unfold Notifier.registerNotificationBlock at h ⊢
  have htotal : (n.mask P).totalNotificationCategories = n.totalNotificationCategories := rfl
  have harray : (n.mask P).notifArray = n.notifArray := rfl
  rw [htotal, harray]
  split at h
  · rename_i hc
    rw [if_pos hc]
    simp only [Except.ok.injEq] at h ⊢
    rw [← h]
    unfold Notifier.mask
    cases hx : n.notifArray category with
    | none => simp only [Elems.headPrepend, clearOn_update hb]
    | some x => simp only [Elems.headPrepend, clearOn_update hb, clearOn_update (hhead x hx)]
  · cases h

end Mask

/-- An operation with a category there is. -/
def Op.valid (totalCategories : UInt32) : Op δ → Prop
  | .register category _ | .post category _ => category < totalCategories
  | _ => True

/-- Before the effect of the call. -/
def Place.early : Place → Bool
  | .check | .lock | .inside _ => true
  | _ => false

namespace ThreadCall

variable (c : ThreadCall δ)

/-- The block that an allocation still has to clear. -/
def clears : Option ℕ :=
  match c.request, c.place with
  | .allocate, .unlock (some b) | _, .clear b => some b
  | _, _ => none

/-- The allocated block that is with the call. -/
def giving : Option ℕ :=
  match c.clears, c.request with
  | some b, _ => some b
  | none, .register _ b => if c.place.early then some b else none
  | none, _ => none

/-- The registered block that is with the call. -/
def listing : Option ℕ :=
  match c.request, c.place with
  | .register _ b, .unlock _ => some b
  | .deregister b, place => if place.early then some b else none
  | _, _ => none

theorem giving_of_clears {c : ThreadCall δ} {b : ℕ} (h : c.clears = some b) : c.giving = some b := by
  unfold giving
  rw [h]

/-- Before its effect a call has the block its client gave it. -/
theorem tokens_early {c : ThreadCall δ} (hc : c.place.early = true) : c.clears = none ∧
    c.giving = (match c.request with | .register _ b => some b | _ => none) ∧
    c.listing = (match c.request with | .deregister b => some b | _ => none) := by
  have hnone : c.clears = none := by
    unfold clears
    cases hp : c.place with
    | unlock answer | clear b => rw [hp] at hc; cases hc
    | _ => cases c.request <;> rfl
  refine ⟨hnone, ?_, ?_⟩
  · unfold giving
    rw [hnone]
    cases c.request with
    | register category b => exact if_pos hc
    | _ => rfl
  · unfold listing
    cases c.request with
    | register category b =>
      cases hp : c.place with
      | unlock answer => rw [hp] at hc; cases hc
      | _ => rfl
    | deregister b => exact if_pos hc
    | _ => rfl

theorem giving_register {c : ThreadCall δ} {category : UInt32} {b : ℕ} (hr : c.request = .register category b)
    (hc : c.place.early = true) : c.giving = some b := by
  rw [(tokens_early hc).2.1, hr]

theorem listing_deregister {c : ThreadCall δ} {b : ℕ} (hr : c.request = .deregister b)
    (hc : c.place.early = true) : c.listing = some b := by
  rw [(tokens_early hc).2.2, hr]

end ThreadCall

section Whole

variable {r : Run δ} {category : UInt32} {b : ℕ}

theorem does_allocate (hinv : Run.Inv numOfElements totalCategories r) (hfree : r.notifier.pool.free ≠ []) :
    ∃ b pool, r.notifier.pool.alloc = (some b, pool) ∧ b ∈ r.notifier.pool.free ∧
      r.does (.allocated b) { r with
        notifier := ({ r.notifier with pool := pool } : Notifier).clear b
        allocated := b :: r.allocated } := by
  obtain ⟨b, n, hgo, hfirst, -⟩ := hinv.allocate hfree
  have hstep : r.step .allocate = some { r with notifier := n, allocated := b :: r.allocated } := by
    simp only [Run.step, hinv.fault, Option.isSome_none, Bool.false_eq_true, if_false, hgo]
  unfold Notifier.allocateNotificationBlock at hgo
  split at hgo
  · rename_i b' pool hal
    simp only [Except.ok.injEq, Prod.mk.injEq] at hgo
    obtain ⟨rfl, rfl⟩ := hgo
    exact ⟨b', pool, hal, by rw [hfirst]; exact List.mem_cons_self, by rw [hfirst]; rfl, hstep⟩
  · cases hgo

theorem does_register (hinv : Run.Inv numOfElements totalCategories r) (hc : category < totalCategories)
    (hb : b ∈ r.allocated) : ∃ n, r.notifier.registerNotificationBlock category b = .ok n ∧
      r.does (.registered category b) { r with
        notifier := n
        allocated := r.allocated.erase b
        registered := Function.update r.registered category (b :: r.registered category) } := by
  obtain ⟨n, hgo, -, -⟩ := hinv.register hc hb
  refine ⟨n, hgo, ⟨hinv.total ▸ hc, hb⟩, ?_⟩
  simp only [Run.step, hinv.fault, Option.isSome_none, Bool.false_eq_true, if_false, hgo]

theorem does_deregister (hinv : Run.Inv numOfElements totalCategories r) (hb : b ∈ r.registered category) :
    ∃ n pool, r.notifier.unlist b = .ok n ∧ n.pool.release b = some pool ∧
      r.does (.deregistered b) { r with
        notifier := { n with pool := pool }
        registered := fun c => (r.registered c).erase b } := by
  obtain ⟨n, hgo, -, -⟩ := hinv.deregister hb
  have hdoes : r.does (.deregistered b) { r with
      notifier := n, registered := fun c => (r.registered c).erase b } := by
    refine ⟨⟨category, hb⟩, ?_⟩
    simp only [Run.step, hinv.fault, Option.isSome_none, Bool.false_eq_true, if_false, hgo]
  unfold Notifier.deregisterNotificationBlock at hgo
  split at hgo
  · split at hgo
    · rename_i n' hunlist
      split at hgo
      · rename_i pool hrelease
        simp only [Except.ok.injEq] at hgo
        subst hgo
        exact ⟨n', pool, hunlist, hrelease, hdoes⟩
      · cases hgo
    · cases hgo
  · cases hgo

theorem does_post (hinv : Run.Inv numOfElements totalCategories r) (hc : category < totalCategories) (data : δ) :
    r.does (.posted category data (r.registered category)) { r with
      calls := r.calls ++ (r.registered category).map fun b => ⟨b, category, data⟩ } := by
  have hen : r.Enabled (.post category data) := by
    unfold Run.Enabled
    rw [hinv.total]
    exact hc
  refine ⟨rfl, hen, ?_⟩
  simp only [Run.step, hinv.fault, Option.isSome_none, Bool.false_eq_true, if_false, hinv.post hc data]

/-- An effect is a whole call. -/
theorem does_reach {r' : Run δ} {e : Effect δ}
    (h : Sys.Reach (Run.system δ numOfElements totalCategories) Run.Enabled r) (hdoes : r.does e r') :
    Sys.Reach (Run.system δ numOfElements totalCategories) Run.Enabled r' := by
  cases e with
  | allocated b =>
    obtain ⟨hfirst, hstep⟩ := hdoes
    refine h.step (a := .allocate) ?_ hstep
    show r.notifier.pool.free ≠ []
    intro hnil
    rw [hnil] at hfirst
    cases hfirst
  | registered category b | deregistered b => exact h.step hdoes.1 hdoes.2
  | posted category data blocks => exact h.step hdoes.2.1 hdoes.2.2

end Whole

namespace Threads

variable {t t' : Threads δ} {r r' : Run δ} {n₀ n₁ : Notifier} {i : ℕ} {c : ThreadCall δ} {b : ℕ}

/-- The calls that have block `b`, in the sense of `f`. -/
def having (t : Threads δ) (f : ThreadCall δ → Option ℕ) (b : ℕ) : ℕ := t.calls.countP fun c => f c == some b

/-- The blocks still to be cleared. -/
def clearing (t : Threads δ) (b : ℕ) : Bool := 0 < t.having ThreadCall.clears b

theorem getElem?_setPlace (hc : t.calls[i]? = some c) (place : Place) (j : ℕ) :
    (t.setPlace i c place).calls[j]? = if i = j then some { c with place := place } else t.calls[j]? :=
  List.getElem?_set_of_some hc _ j

theorem having_setPlace (hc : t.calls[i]? = some c) (place : Place) (f : ThreadCall δ → Option ℕ) (b : ℕ) :
    (t.setPlace i c place).having f b + (if f c = some b then 1 else 0) =
      t.having f b + (if f { c with place := place } = some b then 1 else 0) := by
  have h := List.countP_set_add (fun c => f c == some b) hc (y := { c with place := place })
  simp only [beq_iff_eq] at h
  exact h

/-- A place that changes nothing for `f`. -/
theorem having_same (hc : t.calls[i]? = some c) (place : Place) (f : ThreadCall δ → Option ℕ)
    (hf : f { c with place := place } = f c) : (t.setPlace i c place).having f = t.having f := by
  funext b
  have h := having_setPlace hc place f b
  rw [hf] at h
  omega

section Having

/-- The call gets a block. -/
theorem having_add (hc : t.calls[i]? = some c) (place : Place) (f : ThreadCall δ → Option ℕ)
    (hold : f c = none) (hnew : f { c with place := place } = some b) (x : ℕ) :
    (t.setPlace i c place).having f x = t.having f x + if b = x then 1 else 0 := by
  have hcount := having_setPlace hc place f x
  rw [hold, hnew] at hcount
  simpa using hcount

/-- The call gives its block away. -/
theorem having_remove (hc : t.calls[i]? = some c) (place : Place) (f : ThreadCall δ → Option ℕ)
    (hold : f c = some b) (hnew : f { c with place := place } = none) (x : ℕ) :
    (t.setPlace i c place).having f x + (if b = x then 1 else 0) = t.having f x := by
  have hcount := having_setPlace hc place f x
  rw [hold, hnew] at hcount
  simpa using hcount

theorem clearing_add (hc : t.calls[i]? = some c) (place : Place) (hold : c.clears = none)
    (hnew : ({ c with place := place } : ThreadCall δ).clears = some b) :
    (t.setPlace i c place).clearing = fun x => x == b || t.clearing x := by
  funext x
  unfold clearing
  rw [having_add hc place _ hold hnew x]
  by_cases hx : b = x
  · simp [hx]
  · simp [hx, Ne.symm hx]

theorem clearing_remove (hc : t.calls[i]? = some c) (place : Place) (hold : c.clears = some b)
    (hnew : ({ c with place := place } : ThreadCall δ).clears = none) :
    t.clearing = fun x => (t.setPlace i c place).clearing x || x == b := by
  funext x
  unfold clearing
  rw [← having_remove hc place _ hold hnew x]
  by_cases hx : b = x
  · simp [hx]
  · simp [hx, Ne.symm hx]

end Having

/-- Each block is counted once at most, and then `p` holds of it. -/
def Owned (n : ℕ → ℕ) (p : ℕ → Prop) : Prop := ∀ b, n b ≤ 1 ∧ (0 < n b → p b)

section Owned

variable {n n' : ℕ → ℕ} {p p' : ℕ → Prop}

theorem Owned.add (h : Owned n p) (hn : ∀ x, n' x = n x + if b = x then 1 else 0) (hb : ¬ p b) (hb' : p' b)
    (hp : ∀ x, p x → p' x) : Owned n' p' := by
  intro x
  obtain ⟨hone, hpos⟩ := h x
  have hx := hn x
  by_cases hxb : b = x
  · subst hxb
    rw [if_pos rfl] at hx
    have hzero : n b = 0 := by
      by_contra hne
      exact hb (hpos (by omega))
    exact ⟨by omega, fun _ => hb'⟩
  · rw [if_neg hxb] at hx
    exact ⟨by omega, fun hlt => hp x (hpos (by omega))⟩

theorem Owned.remove (h : Owned n p) (hn : ∀ x, n' x + (if b = x then 1 else 0) = n x)
    (hp : ∀ x, x ≠ b → p x → p' x) : Owned n' p' := by
  intro x
  obtain ⟨hone, hpos⟩ := h x
  have hx := hn x
  by_cases hxb : b = x
  · rw [if_pos hxb] at hx
    exact ⟨by omega, fun hlt => absurd hlt (by omega)⟩
  · rw [if_neg hxb] at hx
    exact ⟨by omega, fun hlt => hp x (Ne.symm hxb) (hpos (by omega))⟩

/-- The same blocks are counted. -/
theorem Owned.same (h : Owned n p) (hn : ∀ x, n' x = n x) (hp : ∀ x, p x → p' x) : Owned n' p' := by
  intro x
  rw [hn x]
  exact ⟨(h x).1, fun hlt => hp x ((h x).2 hlt)⟩

end Owned

/-- The memory `n` of a call in its critical section, over the memory `n₀` before it. -/
def Within (n₀ : Notifier) (r : Run δ) (n : Notifier) (executed : List (ℕ × Call δ)) (i : ℕ) (request : Op δ)
    (k : Inside) : Prop :=
  match k, request with
  | .start, _ => n = n₀ ∧ executed.map Prod.snd = r.calls
  | .marked, .register category b =>
    n = { n₀ with category := Function.update n₀.category b category } ∧ executed.map Prod.snd = r.calls
  | .unlisted, .deregister b => n₀.unlist b = .ok n ∧ executed.map Prod.snd = r.calls
  | .walk elem, .post category data => n = n₀ ∧ ∃ done rest, r.registered category = done ++ rest ∧
    elem = rest.head? ∧ executed.map Prod.snd = r.calls ++ done.map (⟨·, category, data⟩) ∧
    (executed.filter (·.1 == i)).map Prod.snd = done.map (⟨·, category, data⟩)
  | .calling elem next, .post category data => n = n₀ ∧ ∃ done rest, r.registered category = done ++ elem :: rest ∧
    next = rest.head? ∧ executed.map Prod.snd = r.calls ++ done.map (⟨·, category, data⟩) ∧
    (executed.filter (·.1 == i)).map Prod.snd = done.map (⟨·, category, data⟩)
  | _, _ => False

/-- Within a critical section, a block is cleared that the call does not have. -/
theorem Within.cleared {n : Notifier} {executed : List (ℕ × Call δ)} {request : Op δ} {k : Inside}
    (hw : Within n₀ r n executed i request k)
    (hreg : ∀ category x, request = .register category x → k = .marked → x ≠ b)
    (hunlist : ∀ x, request = .deregister x → k = .unlisted → (n₀.clear b).unlist x = .ok (n.clear b)) :
    Within (n₀.clear b) r (n.clear b) executed i request k := by
  cases k with
  | start => exact ⟨congrArg (Notifier.clear · b) hw.1, hw.2⟩
  | marked =>
    cases request with
    | register category x =>
      refine ⟨?_, hw.2⟩
      rw [hw.1]
      unfold Notifier.clear
      simp only [Function.update_comm (hreg category x rfl rfl)]
    | _ => exact hw.elim
  | unlisted =>
    cases request with
    | deregister x => exact ⟨hunlist x rfl rfl, hw.2⟩
    | _ => exact hw.elim
  | walk elem | calling elem next =>
    cases request with
    | post category data => exact ⟨congrArg (Notifier.clear · b) hw.1, hw.2⟩
    | _ => exact hw.elim

/-- The memory, when no call is in its critical section, and when one is. -/
inductive Memory (t : Threads δ) (r : Run δ) (n₀ : Notifier) : Prop
  | quiet (hno : ∀ (j : ℕ) (d : ThreadCall δ) (k : Inside), t.calls[j]? = some d → d.place ≠ .inside k)
      (hn : t.notifier = n₀) (hx : t.executed.map Prod.snd = r.calls)
  | busy (i : ℕ) (c : ThreadCall δ) (k : Inside) (hc : t.calls[i]? = some c) (hk : c.place = .inside k)
      (honly : ∀ (j : ℕ) (d : ThreadCall δ) (k : Inside), t.calls[j]? = some d → d.place = .inside k → j = i)
      (hw : Within n₀ r t.notifier t.executed i c.request k)

/-- A post that may have called `execute_f`. -/
def late : Place → Bool
  | .check | .lock | .inside .start => false
  | _ => true

/-- **The threads follow a run of whole calls.** -/
structure Follows (totalCategories : UInt32) (t : Threads δ) (r : Run δ) (n₀ : Notifier) : Prop where
  fault : t.fault = none
  masked : r.notifier = n₀.mask t.clearing
  critical : ∀ (i : ℕ) (c : ThreadCall δ), t.calls[i]? = some c → c.place.critical = true → t.owner = some i
  memory : Memory t r n₀
  given : Owned (fun b => t.held.count b + t.having ThreadCall.giving b) (· ∈ r.allocated)
  listed : Owned (fun b => t.listed.count b + t.having ThreadCall.listing b)
    (fun b => ∃ category, b ∈ r.registered category)
  tags : ∀ x ∈ t.executed, ∃ c, t.calls[x.1]? = some c ∧ late c.place = true
  valid : ∀ (i : ℕ) (c : ThreadCall δ), t.calls[i]? = some c → c.request.valid totalCategories

theorem having_pos {f : ThreadCall δ → Option ℕ} (hc : t.calls[i]? = some c) (hf : f c = some b) :
    0 < t.having f b :=
  List.one_le_countP hc (by simp [hf])

section Facts

variable (h : Follows totalCategories t r n₀)
include h

/-- A block that a call is to register or has not given back yet is allocated. -/
theorem Follows.allocated (hc : t.calls[i]? = some c) (hb : c.giving = some b) : b ∈ r.allocated := by
  exact (h.given b).2 (Nat.lt_of_lt_of_le (having_pos hc hb) (Nat.le_add_left ..))

theorem Follows.registered (hc : t.calls[i]? = some c) (hb : c.listing = some b) :
    ∃ category, b ∈ r.registered category := by
  exact (h.listed b).2 (Nat.lt_of_lt_of_le (having_pos hc hb) (Nat.le_add_left ..))

/-- A block still to be cleared is allocated. -/
theorem Follows.allocated_of_clearing (hb : t.clearing b = true) : b ∈ r.allocated := by
  simp only [clearing, decide_eq_true_eq, having, List.countP_pos_iff, beq_iff_eq] at hb
  obtain ⟨c, hmem, hclears⟩ := hb
  obtain ⟨i, hi⟩ := List.mem_iff_getElem?.1 hmem
  exact h.allocated hi (ThreadCall.giving_of_clears hclears)

/-- A registered block is cleared. -/
theorem Follows.clear_of_registered (hinv : Run.Inv numOfElements totalCategories r) {category : UInt32}
    (hb : b ∈ r.registered category) : t.clearing b = false := by
  by_contra hne
  have hall := h.allocated_of_clearing (by simpa using hne)
  exact hinv.partition.allocated_only b hall category hb

/-- So is a block that another call has. -/
theorem Follows.clear_of_giving (hc : t.calls[i]? = some c) (hb : c.giving = some b) (hnot : c.clears ≠ some b) :
    t.clearing b = false := by
  by_contra hne
  have hclear : t.clearing b = true := by simpa using hne
  simp only [clearing, decide_eq_true_eq, having, List.countP_pos_iff, beq_iff_eq] at hclear
  obtain ⟨d, hmem, hclears⟩ := hclear
  obtain ⟨j, hj⟩ := List.mem_iff_getElem?.1 hmem
  have hij : i ≠ j := by
    rintro rfl
    rw [hc, Option.some.injEq] at hj
    exact hnot (hj ▸ hclears)
  have htwo : 2 ≤ t.having ThreadCall.giving b :=
    List.two_le_countP hij hc hj (by simp [hb]) (by simp [ThreadCall.giving_of_clears hclears])
  have hone : t.held.count b + t.having ThreadCall.giving b ≤ 1 := (h.given b).1
  omega

/-- The call in its critical section. -/
theorem Follows.inside {k : Inside} (hc : t.calls[i]? = some c) (hk : c.place = .inside k) :
    Within n₀ r t.notifier t.executed i c.request k ∧
      ∀ (j : ℕ) (d : ThreadCall δ) (k : Inside), t.calls[j]? = some d → d.place = .inside k → j = i := by
  cases h.memory with
  | quiet hno hn hx => exact absurd hk (hno i c k hc)
  | busy j d k' hd hk' honly hw =>
    have hij := honly i c k hc hk
    subst hij
    rw [hc, Option.some.injEq] at hd
    subst hd
    rw [hk, Place.inside.injEq] at hk'
    subst hk'
    exact ⟨hw, honly⟩

/-- No call is in its critical section while the mutex is free. -/
theorem Follows.quiet (ho : t.owner = none) : t.notifier = n₀ ∧ t.executed.map Prod.snd = r.calls ∧
    ∀ (j : ℕ) (d : ThreadCall δ) (k : Inside), t.calls[j]? = some d → d.place ≠ .inside k := by
  cases h.memory with
  | quiet hno hn hx => exact ⟨hn, hx, hno⟩
  | busy j d k hd hk honly hw =>
    have hown := h.critical j d hd (by rw [hk]; rfl)
    rw [ho] at hown
    cases hown

end Facts

/-- A call that moves outside its critical section, and may clear a block. -/
theorem Memory.apart (h : Memory t r n₀) (hc : t.calls[i]? = some c) (hold : ∀ k, c.place ≠ .inside k)
    (place : Place) (hplace : ∀ k, place ≠ .inside k) (hcalls : t'.calls = (t.setPlace i c place).calls)
    (hx : t'.executed = t.executed) (hn : t.notifier = n₀ → t'.notifier = n₁)
    (hw : ∀ (j : ℕ) (d : ThreadCall δ) (k : Inside), t.calls[j]? = some d → d.place = .inside k →
      Within n₀ r t.notifier t.executed j d.request k → Within n₁ r t'.notifier t.executed j d.request k) :
    Memory t' r n₁ := by
  have hget : ∀ (j : ℕ) (d : ThreadCall δ) (k : Inside), t'.calls[j]? = some d → d.place = .inside k →
      i ≠ j ∧ t.calls[j]? = some d := by
    intro j d k hd hk
    rw [hcalls, getElem?_setPlace hc] at hd
    split at hd
    · rw [← Option.some.inj hd] at hk
      exact absurd hk (hplace k)
    · exact ⟨‹_›, hd⟩
  cases h with
  | quiet hno hn₀ hx₀ =>
    refine .quiet ?_ (hn hn₀) (by rw [hx]; exact hx₀)
    intro j d k hd hk
    exact hno j d k (hget j d k hd hk).2 hk
  | busy j d k hd hk honly hw₀ =>
    have hij : i ≠ j := by
      rintro rfl
      rw [hc, Option.some.injEq] at hd
      exact hold k (hd ▸ hk)
    refine .busy j d k ?_ hk ?_ (by rw [hx]; exact hw j d k hd hk hw₀)
    · rw [hcalls, getElem?_setPlace hc, if_neg hij]
      exact hd
    · intro j' d' k' hd' hk'
      exact honly j' d' k' (hget j' d' k' hd' hk').2 hk'

theorem Memory.aside (h : Memory t r n₀) (hc : t.calls[i]? = some c) (hold : ∀ k, c.place ≠ .inside k)
    (place : Place) (hplace : ∀ k, place ≠ .inside k) (hcalls : t'.calls = (t.setPlace i c place).calls)
    (hn : t'.notifier = t.notifier) (hx : t'.executed = t.executed) : Memory t' r n₀ :=
  h.apart hc hold place hplace hcalls hx (fun hn₀ => hn.trans hn₀) fun _ _ _ _ _ hw => by rw [hn]; exact hw

/-- A call that enters its critical section, or goes on there. -/
theorem Memory.entered {k : Inside} (hc : t.calls[i]? = some c)
    (hno : ∀ (j : ℕ) (d : ThreadCall δ) (k : Inside), t.calls[j]? = some d → d.place = .inside k → j = i)
    (hcalls : t'.calls = (t.setPlace i c (.inside k)).calls)
    (hw : Within n₀ r t'.notifier t'.executed i c.request k) : Memory t' r n₀ := by
  refine .busy i { c with place := .inside k } k ?_ rfl ?_ hw
  · rw [hcalls, getElem?_setPlace hc, if_pos rfl]
  · intro j d k' hd hk
    rw [hcalls, getElem?_setPlace hc] at hd
    split at hd
    · exact Eq.symm ‹_›
    · exact hno j d k' hd hk

/-- A call that leaves it. -/
theorem Memory.left (hc : t.calls[i]? = some c) {place : Place}
    (hno : ∀ (j : ℕ) (d : ThreadCall δ) (k : Inside), t.calls[j]? = some d → d.place = .inside k → j = i)
    (hplace : ∀ k, place ≠ .inside k) (hcalls : t'.calls = (t.setPlace i c place).calls)
    (hn : t'.notifier = n₁) (hx : t'.executed.map Prod.snd = r'.calls) : Memory t' r' n₁ := by
  refine .quiet ?_ hn hx
  intro j d k hd hk
  rw [hcalls, getElem?_setPlace hc] at hd
  split at hd
  · rw [← Option.some.inj hd] at hk
    exact hplace k hk
  · rename_i hij
    exact hij (hno j d k hd hk).symm

section Frame

variable (h : Follows totalCategories t r n₀) (hc : t.calls[i]? = some c)
include h hc

/-- The owner is the call in its critical section. -/
theorem Follows.critical_setPlace {place : Place} (hcalls : t'.calls = (t.setPlace i c place).calls)
    (hnew : place.critical = true → t'.owner = some i)
    (hsame : c.place.critical = true ∨ t.owner = none ∨ t'.owner = t.owner)
    (j : ℕ) (d : ThreadCall δ) (hd : t'.calls[j]? = some d) (hcrit : d.place.critical = true) :
    t'.owner = some j := by
  rw [hcalls, getElem?_setPlace hc] at hd
  split at hd
  · rename_i hij
    rw [← Option.some.inj hd] at hcrit
    rw [← hij]
    exact hnew hcrit
  · rename_i hij
    have hown := h.critical j d hd hcrit
    rcases hsame with hsame | hsame | hsame
    · rw [h.critical i c hc hsame, Option.some.injEq] at hown
      exact absurd hown hij
    · rw [hsame] at hown
      cases hown
    · rw [hsame, hown]

theorem Follows.tags_setPlace {place : Place} (hcalls : t'.calls = (t.setPlace i c place).calls)
    (hlate : late c.place = true → late place = true) (x : ℕ × Call δ) (hx : x ∈ t.executed) :
    ∃ c, t'.calls[x.1]? = some c ∧ late c.place = true := by
  obtain ⟨d, hd, hdlate⟩ := h.tags x hx
  rw [hcalls, getElem?_setPlace hc]
  split
  · rename_i hij
    rw [← hij, hc, Option.some.injEq] at hd
    exact ⟨_, rfl, hlate (hd ▸ hdlate)⟩
  · exact ⟨d, hd, hdlate⟩

theorem Follows.valid_setPlace {place : Place} (hcalls : t'.calls = (t.setPlace i c place).calls)
    (j : ℕ) (d : ThreadCall δ) (hd : t'.calls[j]? = some d) : d.request.valid totalCategories := by
  rw [hcalls, getElem?_setPlace hc] at hd
  split at hd
  · rw [← Option.some.inj hd]
    exact h.valid i c hc
  · exact h.valid j d hd

/-- **A step without effect** that leaves the blocks where they are. -/
theorem Follows.silent {place : Place} (hcalls : t'.calls = (t.setPlace i c place).calls) (hfault : t'.fault = none)
    (hnew : place.critical = true → t'.owner = some i)
    (hsame : c.place.critical = true ∨ t.owner = none ∨ t'.owner = t.owner)
    (hmem : Memory t' r n₀) (hheld : t'.held = t.held) (hlisted : t'.listed = t.listed)
    (hclears : ({ c with place := place } : ThreadCall δ).clears = c.clears)
    (hgiving : ({ c with place := place } : ThreadCall δ).giving = c.giving)
    (hlisting : ({ c with place := place } : ThreadCall δ).listing = c.listing)
    (htags : ∀ x ∈ t'.executed, ∃ c, t'.calls[x.1]? = some c ∧ late c.place = true) :
    Follows totalCategories t' r n₀ := by
  have hhaving : ∀ f : ThreadCall δ → Option ℕ, f { c with place := place } = f c → t'.having f = t.having f := by
    intro f hf
    rw [← having_same hc place f hf]
    unfold having
    rw [hcalls]
  refine ⟨hfault, ?_, h.critical_setPlace hc hcalls hnew hsame, hmem, ?_, ?_, htags, h.valid_setPlace hc hcalls⟩
  · have hclearing : t'.clearing = t.clearing := by
      unfold clearing
      rw [hhaving _ hclears]
    rw [hclearing]
    exact h.masked
  · rw [hheld, hhaving _ hgiving]
    exact h.given
  · rw [hlisted, hhaving _ hlisting]
    exact h.listed

end Frame

/-- The block that is popped is the first one. -/
theorem unlist_total (n : Notifier) (b : ℕ) : ∃ n', n.unlist b = .ok n' := by
  unfold Notifier.unlist
  by_cases hhead : n.notifArray (n.category b) = some b
  · simp only [hhead]
    exact ⟨_, if_pos rfl⟩
  · simp only [if_neg hhead]
    exact ⟨_, rfl⟩

/-- A deregistration's first step changes links and heads only. -/
theorem unlist_fields {n n' : Notifier} (h : n.unlist b = .ok n') : n'.category = n.category ∧
    n'.totalNotificationCategories = n.totalNotificationCategories ∧ n'.pool = n.pool := by
  unfold Notifier.unlist at h
  simp only at h
  split at h
  · split at h
    · simp only [Except.ok.injEq] at h
      rw [← h]
      exact ⟨rfl, rfl, rfl⟩
    · cases h
  · simp only [Except.ok.injEq] at h
    rw [← h]
    exact ⟨rfl, rfl, rfl⟩

section Reads

variable (h : Follows totalCategories t r n₀) (hinv : Run.Inv numOfElements totalCategories r)
include h hinv

/-- What a critical section leaves alone. -/
theorem Follows.reads : t.notifier.totalNotificationCategories = totalCategories ∧
    ∀ category, ∀ b ∈ r.registered category, t.notifier.category b = category := by
  have htotal : n₀.totalNotificationCategories = totalCategories := by
    rw [← hinv.total, h.masked]
    rfl
  have hcat : ∀ category, ∀ b ∈ r.registered category, n₀.category b = category := by
    intro category b hb
    have hmask := (hinv.category category b hb).1
    rw [h.masked] at hmask
    exact (clearOn_of_not (h.clear_of_registered hinv hb)).symm.trans hmask
  have hsame : t.notifier = n₀ → t.notifier.totalNotificationCategories = totalCategories ∧
      ∀ category, ∀ b ∈ r.registered category, t.notifier.category b = category := by
    intro hn
    rw [hn]
    exact ⟨htotal, hcat⟩
  cases h.memory with
  | quiet hno hn hx => exact hsame hn
  | busy i c k hc hk honly hw =>
    cases k with
    | start => exact hsame hw.1
    | walk elem | calling elem next =>
      cases hr : c.request with
      | post category data => rw [hr] at hw; exact hsame hw.1
      | _ => rw [hr] at hw; exact hw.elim
    | marked =>
      cases hr : c.request with
      | register category b =>
        rw [hr] at hw
        rw [hw.1]
        refine ⟨htotal, ?_⟩
        intro category' x hx
        -- the block of the registration is not registered yet
        have hall : b ∈ r.allocated := h.allocated hc (ThreadCall.giving_register hr (by rw [hk]; rfl))
        have hxb : x ≠ b := by
          rintro rfl
          exact hinv.partition.allocated_only x hall category' hx
        show Function.update n₀.category b category x = category'
        rw [Function.update_of_ne hxb]
        exact hcat category' x hx
      | _ => rw [hr] at hw; exact hw.elim
    | unlisted =>
      cases hr : c.request with
      | deregister b =>
        rw [hr] at hw
        obtain ⟨h1, h2, -⟩ := unlist_fields hw.1
        rw [h1, h2]
        exact ⟨htotal, hcat⟩
      | _ => rw [hr] at hw; exact hw.elim

/-- **No assertion at the head of a function fails.** -/
theorem Follows.check (hc : t.calls[i]? = some c) (hplace : c.place = .check) : t.notifier.check c.request = true := by
  obtain ⟨htotal, hcat⟩ := h.reads hinv
  have hvalid := h.valid i c hc
  cases hr : c.request with
  | allocate => rfl
  | register category b | post category data =>
    rw [hr] at hvalid
    simp only [Notifier.check, htotal, decide_eq_true_eq]
    exact hvalid
  | deregister b =>
    have hlist : c.listing = some b := ThreadCall.listing_deregister hr (by rw [hplace]; rfl)
    obtain ⟨category, hb⟩ := h.registered hc hlist
    simp only [Notifier.check, htotal, hcat category b hb, decide_eq_true_eq]
    exact (hinv.category category b hb).2

/-- The memory before a critical section, at a registered block. -/
theorem Follows.links {category : UInt32} (hb : b ∈ r.registered category) :
    n₀.elems.next b = r.notifier.elems.next b ∧ n₀.elems.prev b = r.notifier.elems.prev b ∧
      n₀.category b = category ∧ n₀.notifArray = r.notifier.notifArray := by
  have hclear := h.clear_of_registered hinv hb
  have hcat := (hinv.category category b hb).1
  rw [h.masked] at hcat ⊢
  exact ⟨(clearOn_of_not hclear).symm, (clearOn_of_not hclear).symm, (clearOn_of_not hclear).symm.trans hcat, rfl⟩

end Reads

/-- The neighbours of a registered block are registered under its category. -/
theorem neighbours (hinv : Run.Inv numOfElements totalCategories r) {category : UInt32}
    (hb : b ∈ r.registered category) : (∀ x, r.notifier.elems.next b = some x → x ∈ r.registered category) ∧
      (r.notifier.notifArray category ≠ some b → ∀ x, r.notifier.elems.prev b = some x → x ∈ r.registered category) := by
  obtain ⟨back, hfam⟩ := hinv.lists
  obtain ⟨l₁, l₂, hl⟩ := List.append_of_mem hb
  have hfwd := hfam.fwd category
  have hbwd := hfam.bwd category
  have hhead := hfam.head category
  rw [hl] at hfwd hbwd hhead ⊢
  constructor
  · intro x hx
    rw [hfwd.next_eq] at hx
    exact List.mem_append_right _ (List.mem_cons_of_mem _ (List.mem_of_head? hx))
  · intro hne x hx
    rcases List.eq_nil_or_concat l₁ with rfl | ⟨l₁, a, rfl⟩
    · exact absurd hhead hne
    · rw [List.concat_eq_append, List.append_assoc, List.singleton_append] at hbwd ⊢
      rw [hbwd.prev_eq, Option.some.injEq] at hx
      rw [← hx]
      simp

/-- A deregistration's first step is the same when blocks that are not registered are cleared. -/
theorem Follows.unlist {n : Notifier} (h : Follows totalCategories t r n₀)
    (hinv : Run.Inv numOfElements totalCategories r) {P : ℕ → Bool}
    (hP : ∀ category, ∀ x ∈ r.registered category, P x = false) {category : UInt32} (hb : b ∈ r.registered category)
    (hn : n₀.unlist b = .ok n) : (n₀.mask P).unlist b = .ok (n.mask P) := by
  obtain ⟨hnext, hprev, hcat, harray⟩ := h.links hinv hb
  obtain ⟨hafter, hbefore⟩ := neighbours hinv hb
  refine unlist_mask (hP category b hb) ?_ hn
  intro hhead
  rw [hcat, harray] at hhead
  constructor
  · intro x hx
    exact hP category x (hafter x (hnext ▸ hx))
  · intro x hx
    exact hP category x (hbefore hhead x (hprev ▸ hx))

/-- The moves without effect. -/
inductive Goes : Place → Place → Prop
  | pass : Goes .check .lock
  | enter : Goes .lock (.inside .start)
  | on (k k' : Inside) : Goes (.inside k) (.inside k')
  | toClear (b : ℕ) : Goes (.unlock (some b)) (.clear b)
  | toReturn (answer : Option ℕ) : Goes (.unlock answer) (.returned answer)
  | cleared (b : ℕ) : Goes (.clear b) (.returned (some b))

/-- What a step of call `i` does: it moves on, or takes effect as a whole call would. -/
inductive Next (totalCategories : UInt32) (t : Threads δ) (r : Run δ) (i : ℕ) (c : ThreadCall δ) (t' : Threads δ) : Prop
  | silent (place : Place) (n₁ : Notifier) (hcalls : t'.calls = (t.setPlace i c place).calls)
      (hgoes : Goes c.place place) (hexec : ∀ j d, t.calls[j]? = some d → d.place.early = false →
        t'.executedBy j = t.executedBy j) (hF : Follows totalCategories t' r n₁)
  | effect (k : Inside) (answer : Option ℕ) (e : Effect δ) (r' : Run δ)
      (hcalls : t'.calls = (t.setPlace i c (.unlock answer)).calls) (hk : c.place = .inside k)
      (hexec : t'.executed = t.executed) (hdoes : r.does e r') (hdid : Did t' i c.request answer e)
      (heff : t'.effects i c.request answer = [e]) (hF : Follows totalCategories t' r' t'.notifier)

section Inside

variable (h : Follows totalCategories t r n₀) (hinv : Run.Inv numOfElements totalCategories r)
  (hc : t.calls[i]? = some c)
include h hc

/-- A step before the effect. -/
theorem Follows.early {place : Place} (hcalls : t'.calls = (t.setPlace i c place).calls) (hfault : t'.fault = none)
    (hnew : place.critical = true → t'.owner = some i)
    (hsame : c.place.critical = true ∨ t.owner = none ∨ t'.owner = t.owner)
    (hmem : Memory t' r n₀) (hheld : t'.held = t.held) (hlisted : t'.listed = t.listed)
    (hold : c.place.early = true) (hplace : place.early = true)
    (htags : ∀ x ∈ t'.executed, ∃ c, t'.calls[x.1]? = some c ∧ late c.place = true) :
    Follows totalCategories t' r n₀ := by
  obtain ⟨h1, h2, h3⟩ := ThreadCall.tokens_early hold
  obtain ⟨k1, k2, k3⟩ := ThreadCall.tokens_early (c := { c with place := place }) hplace
  exact h.silent hc hcalls hfault hnew hsame hmem hheld hlisted (k1.trans h1.symm) (k2.trans h2.symm)
    (k3.trans h3.symm) htags

/-- A step that stays in the critical section, and calls nothing. -/
theorem Follows.goOn {k k' : Inside} {n : Notifier} (hk : c.place = .inside k) (hk' : k' ≠ .start)
    (hw : Within n₀ r n t.executed i c.request k') :
    Next totalCategories t r i c { t.setPlace i c (.inside k') with notifier := n } := by
  refine .silent (.inside k') n₀ rfl (hk ▸ .on k k') (fun _ _ _ _ => rfl) ?_
  refine h.early hc rfl h.fault (fun _ => ?_) (.inl (by rw [hk]; rfl)) ?_ rfl rfl (by rw [hk]; rfl) rfl
    (h.tags_setPlace hc rfl fun _ => ?_)
  · exact h.critical i c hc (by rw [hk]; rfl)
  · exact .entered hc (h.inside hc hk).2 rfl hw
  · cases k' with
    | start => exact absurd rfl hk'
    | _ => rfl

/-- A call of `execute_f`. -/
theorem Follows.execute {elem : ℕ} {next : Option ℕ} {category : UInt32} {data : δ}
    (hinv : Run.Inv numOfElements totalCategories r) (hk : c.place = .inside (.calling elem next))
    (hr : c.request = .post category data) :
    Next totalCategories t r i c { t.setPlace i c (.inside (.walk next)) with
      executed := t.executed ++ [(i, ⟨elem, t.notifier.category elem, data⟩)] } := by
  obtain ⟨hw, honly⟩ := h.inside hc hk
  rw [hr] at hw
  obtain ⟨hn, done, rest, hreg, hnext, hcalls, hmine⟩ := hw
  have hcat : t.notifier.category elem = category :=
    (h.reads hinv).2 category elem (by rw [hreg]; exact List.mem_append_right _ List.mem_cons_self)
  rw [hcat]
  refine .silent (.inside (.walk next)) n₀ rfl (hk ▸ .on _ _) ?_ ?_
  · -- the posts that are done are others
    intro j d hd hdone
    have hij : i ≠ j := by
      rintro rfl
      rw [hc, Option.some.injEq] at hd
      rw [← hd, hk] at hdone
      cases hdone
    simp [executedBy, List.filter_append, hij]
  · refine h.early hc rfl h.fault (fun _ => ?_) (.inl (by rw [hk]; rfl)) ?_ rfl rfl (by rw [hk]; rfl) rfl ?_
    · exact h.critical i c hc (by rw [hk]; rfl)
    · refine .entered hc honly rfl ?_
      rw [hr]
      refine ⟨hn, done ++ [elem], rest, ?_, hnext, ?_, ?_⟩
      · rw [hreg, List.append_assoc]; rfl
      · rw [List.map_append, hcalls, List.map_append, List.append_assoc]; rfl
      · rw [List.filter_append, List.map_append, hmine, List.map_append]
        simp
    · intro x hx
      rcases List.mem_append.1 hx with hx | hx
      · exact h.tags_setPlace hc rfl (fun _ => rfl) x hx
      · rw [List.mem_singleton.1 hx]
        exact ⟨_, (getElem?_setPlace hc _ i).trans (if_pos rfl), rfl⟩

/-- **A step that takes effect** as `r'` has it. -/
theorem Follows.took {k : Inside} {answer : Option ℕ} (hk : c.place = .inside k)
    (hcalls : t'.calls = (t.setPlace i c (.unlock answer)).calls) (hfault : t'.fault = none) (howner : t'.owner = t.owner)
    (hx : t'.executed = t.executed) (hx' : t.executed.map Prod.snd = r'.calls)
    (hmasked : r'.notifier = t'.notifier.mask t'.clearing)
    (hgiven : Owned (fun b => t'.held.count b + t'.having ThreadCall.giving b) (· ∈ r'.allocated))
    (hlisted : Owned (fun b => t'.listed.count b + t'.having ThreadCall.listing b)
      (fun b => ∃ category, b ∈ r'.registered category)) :
    Follows totalCategories t' r' t'.notifier := by
  have hcrit := h.critical i c hc (by rw [hk]; rfl)
  have hplace : ∀ k, Place.unlock answer ≠ .inside k := nofun
  refine ⟨hfault, hmasked, ?_, ?_, hgiven, hlisted, ?_, h.valid_setPlace hc hcalls⟩
  · exact h.critical_setPlace hc hcalls (fun _ => howner.trans hcrit) (.inl (by rw [hk]; rfl))
  · exact .left hc (h.inside hc hk).2 hplace hcalls rfl (by rw [hx]; exact hx')
  · rw [hx]
    exact h.tags_setPlace hc hcalls fun _ => rfl

/-- **An allocation.** -/
theorem Follows.allocate (hinv : Run.Inv numOfElements totalCategories r) (hk : c.place = .inside .start)
    (hr : c.request = .allocate) (hfree : t.notifier.pool.free ≠ []) (hs : t.insideStep i c .start = some t') :
    Next totalCategories t r i c t' := by
  obtain ⟨⟨hn, hx⟩, -⟩ := h.inside hc hk
  have hpool : r.notifier.pool = t.notifier.pool := by rw [h.masked, hn]; rfl
  obtain ⟨b, pool, hal, hbfree, hdoes⟩ := does_allocate hinv (hpool ▸ hfree)
  rw [hpool] at hal
  have hnot := hinv.partition.free_only b hbfree
  obtain ⟨request, place⟩ := c
  obtain rfl : request = _ := hr
  obtain rfl : place = _ := hk
  simp only [insideStep, hal, Option.some.injEq] at hs
  subst hs
  refine .effect .start (some b) _ _ rfl rfl rfl hdoes (.allocate b) rfl ?_
  refine h.took hc rfl rfl h.fault rfl rfl hx ?_ ?_ ?_
  · -- the block is cleared in the one, and still to be cleared in the other
    show ({ r.notifier with pool := pool } : Notifier).clear b =
      ({ t.notifier with pool := pool } : Notifier).mask (t.setPlace i _ (.unlock (some b))).clearing
    rw [clearing_add hc (.unlock (some b)) rfl rfl, ← mask_mask, ← clear_eq_mask, hn, h.masked]
    rfl
  · refine h.given.add (b := b) ?_ hnot.1 List.mem_cons_self fun x hx => List.mem_cons_of_mem _ hx
    intro x
    rw [Nat.add_assoc, ← having_add hc (.unlock (some b)) ThreadCall.giving rfl rfl x]
    rfl
  · show Owned (fun x => t.listed.count x + (t.setPlace i _ _).having _ x) _
    rw [having_same hc (.unlock (some b)) ThreadCall.listing rfl]
    exact h.listed

/-- **A registration.** -/
theorem Follows.register {category : UInt32} (hinv : Run.Inv numOfElements totalCategories r)
    (hk : c.place = .inside .marked) (hr : c.request = .register category b)
    (hs : t.insideStep i c .marked = some t') : Next totalCategories t r i c t' := by
  obtain ⟨hw, -⟩ := h.inside hc hk
  rw [hr] at hw
  obtain ⟨hn, hx⟩ := hw
  have hcat : category < totalCategories := by
    have hvalid := h.valid i c hc
    rw [hr] at hvalid
    exact hvalid
  have hgiving := ThreadCall.giving_register hr (by rw [hk]; rfl)
  have hball := h.allocated hc hgiving
  have hbclear := h.clear_of_giving hc hgiving (by rw [(ThreadCall.tokens_early (by rw [hk]; rfl)).1]; nofun)
  obtain ⟨n, hgo, hdoes⟩ := does_register hinv hcat hball
  obtain ⟨request, place⟩ := c
  obtain rfl : request = _ := hr
  obtain rfl : place = _ := hk
  simp only [insideStep, Option.some.injEq] at hs
  -- the memory after it is that of the whole registration
  have hwhole : n₀.registerNotificationBlock category b = .ok t'.notifier := by
    unfold Notifier.registerNotificationBlock
    have htotal : n₀.totalNotificationCategories = totalCategories := by
      rw [← hinv.total, h.masked]
      rfl
    rw [if_pos (htotal.symm ▸ hcat), ← hs, hn]
  have hhead : ∀ x, n₀.notifArray category = some x → t.clearing x = false := by
    intro x hx
    obtain ⟨back, hfam⟩ := hinv.lists
    have harray : r.notifier.notifArray category = some x := by rw [h.masked]; exact hx
    rw [hfam.head category] at harray
    exact h.clear_of_registered hinv (List.mem_of_head? harray)
  have hmask := register_mask hbclear hhead hwhole
  rw [← h.masked, hgo, Except.ok.injEq] at hmask
  subst hs
  refine .effect .marked none _ _ rfl rfl rfl hdoes (.register category b) rfl ?_
  refine h.took hc rfl rfl h.fault rfl rfl hx ?_ ?_ ?_
  · have hclearing : (t.setPlace i ⟨.register category b, .inside .marked⟩ (.unlock none)).clearing = t.clearing := by
      unfold clearing
      rw [having_same hc (.unlock none) ThreadCall.clears rfl]
    exact hmask.trans (congrArg (Notifier.mask · _) hclearing.symm)
  · refine h.given.remove (b := b) ?_ fun x hx hall => (List.mem_erase_of_ne hx).2 hall
    intro x
    rw [← having_remove hc (.unlock none) ThreadCall.giving rfl rfl x, ← Nat.add_assoc]
    rfl
  · refine h.listed.add (b := b) ?_ ?_ ⟨category, Partition.mem_register.2 (.inl ⟨rfl, rfl⟩)⟩ ?_
    · intro x
      rw [Nat.add_assoc, ← having_add hc (.unlock none) ThreadCall.listing rfl rfl x]
      rfl
    · rintro ⟨category', hb⟩
      exact hinv.partition.allocated_only b hball category' hb
    · rintro x ⟨category', hx⟩
      exact ⟨category', Partition.mem_register.2 (.inr hx)⟩

/-- **A deregistration.** -/
theorem Follows.deregister (hinv : Run.Inv numOfElements totalCategories r) (hk : c.place = .inside .unlisted)
    (hr : c.request = .deregister b) (hs : t.insideStep i c .unlisted = some t') :
    Next totalCategories t r i c t' := by
  obtain ⟨hw, -⟩ := h.inside hc hk
  rw [hr] at hw
  obtain ⟨hn, hx⟩ := hw
  obtain ⟨category, hb⟩ := h.registered hc (ThreadCall.listing_deregister hr (by rw [hk]; rfl))
  obtain ⟨n, pool, hgo, hrelease, hdoes⟩ := does_deregister hinv hb
  -- it is the whole deregistration's first step
  have hmask := h.unlist hinv (fun _ _ => h.clear_of_registered hinv) hb hn
  rw [← h.masked, hgo, Except.ok.injEq] at hmask
  have hpool : n.pool = t.notifier.pool := by rw [hmask]; rfl
  rw [hpool] at hrelease
  obtain ⟨request, place⟩ := c
  obtain rfl : request = _ := hr
  obtain rfl : place = _ := hk
  simp only [insideStep, hrelease, Option.some.injEq] at hs
  subst hs
  refine .effect .unlisted none _ _ rfl rfl rfl hdoes (.deregister b) rfl ?_
  refine h.took hc rfl rfl h.fault rfl rfl hx ?_ ?_ ?_
  · show ({ n with pool := pool } : Notifier) =
      ({ t.notifier with pool := pool } : Notifier).mask (t.setPlace i _ (.unlock none)).clearing
    unfold clearing
    rw [having_same hc (.unlock none) ThreadCall.clears rfl, hmask]
    rfl
  · show Owned (fun x => t.held.count x + (t.setPlace i _ _).having _ x) _
    rw [having_same hc (.unlock none) ThreadCall.giving rfl]
    exact h.given
  · refine h.listed.remove (b := b) ?_ ?_
    · intro x
      rw [← having_remove hc (.unlock none) ThreadCall.listing rfl rfl x, ← Nat.add_assoc]
      rfl
    · rintro x hx ⟨category', hreg⟩
      exact ⟨category', (List.mem_erase_of_ne hx).2 hreg⟩

/-- **The end of a post.** -/
theorem Follows.post {category : UInt32} {data : δ} (hinv : Run.Inv numOfElements totalCategories r)
    (hk : c.place = .inside (.walk none)) (hr : c.request = .post category data)
    (hs : t.insideStep i c (.walk none) = some t') : Next totalCategories t r i c t' := by
  obtain ⟨hw, -⟩ := h.inside hc hk
  rw [hr] at hw
  obtain ⟨hn, done, rest, hreg, hrest, hx, hmine⟩ := hw
  -- no block is left
  have hrest : rest = [] := List.head?_eq_none_iff.1 hrest.symm
  rw [hrest, List.append_nil] at hreg
  rw [← hreg] at hx hmine
  have hcat : category < totalCategories := by
    have hvalid := h.valid i c hc
    rw [hr] at hvalid
    exact hvalid
  have hdoes := does_post hinv hcat data
  obtain ⟨request, place⟩ := c
  obtain rfl : request = _ := hr
  obtain rfl : place = _ := hk
  simp only [insideStep, Option.some.injEq] at hs
  subst hs
  refine .effect (.walk none) none _ _ rfl rfl rfl hdoes (.post category data _ hmine) ?_ ?_
  · show [Effect.posted category data _] = _
    have hblocks : ((t.executed.filter (·.1 == i)).map Prod.snd).map (·.block) = r.registered category := by
      rw [hmine, List.map_map]
      exact List.map_id _
    exact congrArg (fun blocks => [Effect.posted category data blocks]) hblocks
  · refine h.took hc rfl rfl h.fault rfl rfl hx ?_ ?_ ?_
    · show r.notifier = t.notifier.mask (t.setPlace i _ (.unlock none)).clearing
      unfold clearing
      rw [having_same hc (.unlock none) ThreadCall.clears rfl, hn]
      exact h.masked
    · show Owned (fun x => t.held.count x + (t.setPlace i _ _).having _ x) _
      rw [having_same hc (.unlock none) ThreadCall.giving rfl]
      exact h.given
    · show Owned (fun x => t.listed.count x + (t.setPlace i _ _).having _ x) _
      rw [having_same hc (.unlock none) ThreadCall.listing rfl]
      exact h.listed

/-- **The unlock.** -/
theorem Follows.unlocked {answer : Option ℕ} (hk : c.place = .unlock answer) :
    Next totalCategories t r i c (t.unlockStep i c answer) := by
  have hout : ∀ k, c.place ≠ .inside k := by rw [hk]; nofun
  have htags : ∀ {t' : Threads δ} {place : Place}, t'.calls = (t.setPlace i c place).calls → late place = true →
      ∀ x ∈ t.executed, ∃ c, t'.calls[x.1]? = some c ∧ late c.place = true :=
    fun hcalls hlate => h.tags_setPlace hc hcalls fun _ => hlate
  obtain ⟨request, place⟩ := c
  obtain rfl : place = _ := hk
  cases request with
  | allocate =>
    cases answer with
    | none =>
      refine .silent (.returned none) n₀ rfl (.toReturn none) (fun _ _ _ _ => rfl) ?_
      exact h.silent hc rfl h.fault nofun (.inl rfl) (h.memory.aside hc hout (.returned none) nofun rfl rfl rfl)
        rfl rfl rfl rfl rfl (htags rfl rfl)
    | some b =>
      refine .silent (.clear b) n₀ rfl (.toClear b) (fun _ _ _ _ => rfl) ?_
      exact h.silent hc rfl h.fault nofun (.inl rfl) (h.memory.aside hc hout (.clear b) nofun rfl rfl rfl)
        rfl rfl rfl rfl rfl (htags rfl rfl)
  | register category b =>
    -- the block is the client's again
    refine .silent (.returned answer) n₀ rfl (.toReturn answer) (fun _ _ _ _ => rfl) ?_
    refine ⟨h.fault, ?_, h.critical_setPlace hc rfl nofun (.inl rfl),
      h.memory.aside hc hout (.returned answer) nofun rfl rfl rfl, ?_, ?_, htags rfl rfl, h.valid_setPlace hc rfl⟩
    · show r.notifier = n₀.mask (t.setPlace i _ (.returned answer)).clearing
      unfold clearing
      rw [having_same hc (.returned answer) ThreadCall.clears rfl]
      exact h.masked
    · show Owned (fun x => t.held.count x + (t.setPlace i _ (.returned answer)).having _ x) _
      rw [having_same hc (.returned answer) ThreadCall.giving rfl]
      exact h.given
    · refine h.listed.same ?_ fun x hx => hx
      intro x
      rw [← having_remove hc (.returned answer) ThreadCall.listing rfl rfl x]
      show (b :: t.listed).count x + (t.setPlace i _ (.returned answer)).having ThreadCall.listing x = _
      rw [List.count_cons]
      simp only [beq_iff_eq]
      omega
  | deregister b | post category data =>
    refine .silent (.returned answer) n₀ rfl (.toReturn answer) (fun _ _ _ _ => rfl) ?_
    exact h.silent hc rfl h.fault nofun (.inl rfl) (h.memory.aside hc hout (.returned answer) nofun rfl rfl rfl)
      rfl rfl rfl rfl rfl (htags rfl rfl)

/-- **The `memset`** of an allocated block. -/
theorem Follows.cleared (hinv : Run.Inv numOfElements totalCategories r) (hk : c.place = .clear b) :
    Next totalCategories t r i c { t.setPlace i c (.returned (some b)) with
      notifier := t.notifier.clear b, held := b :: t.held } := by
  have hclears : c.clears = some b := by
    unfold ThreadCall.clears
    rw [hk]
    cases c.request <;> rfl
  have hgiving := ThreadCall.giving_of_clears hclears
  have hball := h.allocated hc hgiving
  have hnot : ∀ category, ∀ x ∈ r.registered category, (x == b) = false := by
    intro category x hx
    rw [beq_eq_false_iff_ne]
    rintro rfl
    exact hinv.partition.allocated_only x hball category hx
  have hclears' : ({ c with place := .returned (some b) } : ThreadCall δ).clears = none := by
    unfold ThreadCall.clears
    cases c.request <;> rfl
  have hgiving' : ({ c with place := .returned (some b) } : ThreadCall δ).giving = none := by
    unfold ThreadCall.giving
    rw [hclears']
    cases c.request <;> rfl
  have hlisting' : ({ c with place := .returned (some b) } : ThreadCall δ).listing = c.listing := by
    unfold ThreadCall.listing
    rw [hk]
    cases c.request <;> rfl
  refine .silent (.returned (some b)) (n₀.clear b) rfl (hk ▸ .cleared b) (fun _ _ _ _ => rfl) ?_
  refine ⟨h.fault, ?_, h.critical_setPlace hc rfl nofun (.inr (.inr rfl)), ?_, ?_, ?_,
    h.tags_setPlace hc rfl fun _ => rfl, h.valid_setPlace hc rfl⟩
  · show r.notifier = (n₀.clear b).mask (t.setPlace i c (.returned (some b))).clearing
    rw [clear_eq_mask, mask_mask, ← clearing_remove hc (.returned (some b)) hclears hclears']
    exact h.masked
  · refine h.memory.apart hc (by rw [hk]; nofun) (.returned (some b)) nofun rfl rfl (fun hn => by rw [← hn]) ?_
    -- another call in its critical section does not see the block
    intro j d k hd hdk hw
    refine hw.cleared ?_ ?_
    · rintro category x hr rfl rfl
      have hearly : d.place.early = true := by rw [hdk]; rfl
      have hno := h.clear_of_giving hd (ThreadCall.giving_register hr hearly)
        (by rw [(ThreadCall.tokens_early hearly).1]; nofun)
      have hyes : t.clearing x = true := decide_eq_true (having_pos hc hclears)
      rw [hno] at hyes
      cases hyes
    · rintro x hr rfl
      rw [hr] at hw
      obtain ⟨category, hx⟩ := h.registered hd (ThreadCall.listing_deregister hr (by rw [hdk]; rfl))
      have hmask := h.unlist hinv hnot hx hw.1
      rwa [← clear_eq_mask, ← clear_eq_mask] at hmask
  · refine h.given.same ?_ fun x hx => hx
    intro x
    rw [← having_remove hc (.returned (some b)) ThreadCall.giving hgiving hgiving' x]
    show (b :: t.held).count x + (t.setPlace i c (.returned (some b))).having ThreadCall.giving x = _
    rw [List.count_cons]
    simp only [beq_iff_eq]
    omega
  · show Owned (fun x => t.listed.count x + (t.setPlace i c (.returned (some b))).having _ x) _
    rw [having_same hc (.returned (some b)) ThreadCall.listing hlisting']
    exact h.listed

/-- **A step in the critical section.** -/
theorem Follows.insideStep {k : Inside} (hinv : Run.Inv numOfElements totalCategories r) (hk : c.place = .inside k)
    (hfree : c.request = .allocate → k = .start → t.notifier.pool.free ≠ [])
    (hs : t.insideStep i c k = some t') : Next totalCategories t r i c t' := by
  obtain ⟨hw, -⟩ := h.inside hc hk
  cases k with
  | start =>
    obtain ⟨hn, hx⟩ := hw
    cases hr : c.request with
    | allocate => exact h.allocate hc hinv hk hr (hfree hr rfl) hs
    | register category b =>
      simp only [Threads.insideStep, hr, Option.some.injEq] at hs
      rw [← hs]
      refine h.goOn hc hk nofun ?_
      rw [hr]
      exact ⟨by rw [hn], hx⟩
    | deregister b =>
      obtain ⟨n, hgo⟩ := unlist_total t.notifier b
      simp only [Threads.insideStep, hr, hgo, Option.some.injEq] at hs
      rw [← hs]
      refine h.goOn hc hk nofun ?_
      rw [hr]
      exact ⟨hn ▸ hgo, hx⟩
    | post category data =>
      simp only [Threads.insideStep, hr, Option.some.injEq] at hs
      rw [← hs]
      refine h.goOn hc hk nofun ?_
      rw [hr]
      obtain ⟨back, hfam⟩ := hinv.lists
      have hhead : t.notifier.notifArray category = (r.registered category).head? := by
        rw [← hfam.head category, h.masked, hn]
        rfl
      refine ⟨hn, [], r.registered category, rfl, hhead, by rw [hx]; simp, ?_⟩
      -- it has called nothing yet
      rw [List.map_nil, List.map_eq_nil_iff, List.filter_eq_nil_iff]
      intro x hx
      obtain ⟨d, hd, hlate⟩ := h.tags x hx
      simp only [beq_iff_eq]
      rintro rfl
      rw [hc, Option.some.injEq] at hd
      rw [← hd, hk] at hlate
      cases hlate
  | marked =>
    cases hr : c.request with
    | register category b => exact h.register hc hinv hk hr hs
    | _ => rw [hr] at hw; exact hw.elim
  | unlisted =>
    cases hr : c.request with
    | deregister b => exact h.deregister hc hinv hk hr hs
    | _ => rw [hr] at hw; exact hw.elim
  | walk elem =>
    cases hr : c.request with
    | post category data =>
      cases elem with
      | none => exact h.post hc hinv hk hr hs
      | some e =>
        rw [hr] at hw
        obtain ⟨hn, done, rest, hreg, hhead, hx, hmine⟩ := hw
        simp only [Threads.insideStep, hr, Option.some.injEq] at hs
        rw [← hs]
        refine h.goOn hc hk nofun ?_
        rw [hr]
        obtain ⟨rest, rfl⟩ := List.head?_eq_some_iff.1 hhead.symm
        refine ⟨hn, done, rest, hreg, ?_, hx, hmine⟩
        -- the next one of a registered block is the next registered
        obtain ⟨back, hfam⟩ := hinv.lists
        have hfwd := hfam.fwd category
        rw [hreg] at hfwd
        have hmem : e ∈ r.registered category := by rw [hreg]; simp
        rw [hn, (h.links hinv hmem).1]
        exact hfwd.next_eq
    | _ => rw [hr] at hw; exact hw.elim
  | calling elem next =>
    cases hr : c.request with
    | post category data =>
      simp only [Threads.insideStep, hr, Option.some.injEq] at hs
      rw [← hs]
      exact h.execute hc hinv hk hr
    | _ => rw [hr] at hw; exact hw.elim

/-- **A step of a call.** -/
theorem Follows.runStep (hinv : Run.Inv numOfElements totalCategories r)
    (hfree : c.request = .allocate → c.place = .inside .start → t.notifier.pool.free ≠ [])
    (hs : t.runStep i c = some t') : Next totalCategories t r i c t' := by
  cases hk : c.place with
  | check =>
    simp only [Threads.runStep, hk, h.check hinv hc hk, if_true, Option.some.injEq] at hs
    rw [← hs]
    refine .silent .lock n₀ rfl (hk ▸ .pass) (fun _ _ _ _ => rfl) ?_
    exact h.early hc rfl h.fault nofun (.inr (.inr rfl))
      (h.memory.aside hc (by rw [hk]; nofun) .lock nofun rfl rfl rfl) rfl rfl (by rw [hk]; rfl) rfl
      (h.tags_setPlace hc rfl (by rw [hk]; nofun))
  | inside k =>
    simp only [Threads.runStep, hk] at hs
    exact h.insideStep hc hinv hk (fun hr hstart => hfree hr (hstart ▸ hk)) hs
  | unlock answer =>
    simp only [Threads.runStep, hk, Option.some.injEq] at hs
    rw [← hs]
    exact h.unlocked hc hk
  | clear b =>
    simp only [Threads.runStep, hk, Option.some.injEq] at hs
    rw [← hs]
    exact h.cleared hc hinv hk
  | lock | returned answer => simp [Threads.runStep, hk] at hs

/-- **A call that gets the mutex.** -/
theorem Follows.lockStep (hs : t.lockStep i c true = some t') : Next totalCategories t r i c t' := by
  unfold Threads.lockStep at hs
  split at hs
  · rename_i hlock
    obtain ⟨hk, hown⟩ := hlock
    have hown : t.owner = none := hown.1 rfl
    obtain ⟨hn, hx, hno⟩ := h.quiet hown
    simp only [if_true, Option.some.injEq] at hs
    rw [← hs]
    refine .silent (.inside .start) n₀ rfl (hk ▸ .enter) (fun _ _ _ _ => rfl) ?_
    exact h.early hc rfl h.fault (fun _ => rfl) (.inr (.inl hown))
      (.entered hc (fun j d k hd hdk => absurd hdk (hno j d k hd)) rfl ⟨hn, hx⟩) rfl rfl (by rw [hk]; rfl) rfl
      (h.tags_setPlace hc rfl (by rw [hk]; nofun))
  · cases hs

end Inside

section Call

variable (request : Op δ)

theorem callStep_fields : (t.callStep request).calls = t.calls ++ [⟨request, .check⟩] ∧
    (t.callStep request).notifier = t.notifier ∧ (t.callStep request).owner = t.owner ∧
    (t.callStep request).executed = t.executed ∧ (t.callStep request).fault = t.fault := by
  cases request <;> exact ⟨rfl, rfl, rfl, rfl, rfl⟩

theorem having_callStep (f : ThreadCall δ → Option ℕ) (x : ℕ) : (t.callStep request).having f x =
    t.having f x + if f ⟨request, .check⟩ = some x then 1 else 0 := by
  unfold having
  rw [(callStep_fields request).1, List.countP_append, List.countP_singleton]
  simp only [beq_iff_eq]

/-- An erased entry is counted with the call. -/
theorem count_erase_add {l : List ℕ} (hb : b ∈ l) (x : ℕ) :
    (l.erase b).count x + (if b = x then 1 else 0) = l.count x := by
  rw [List.count_erase]
  by_cases hx : b = x
  · subst hx
    have hpos := List.count_pos_iff.2 hb
    simp only [beq_self_eq_true, if_true]
    omega
  · simp [hx]

/-- **A call is made.** -/
theorem Follows.called (h : Follows totalCategories t r n₀) (hinv : Run.Inv numOfElements totalCategories r)
    (hp : t.Proper (.call request)) : Follows totalCategories (t.callStep request) r n₀ := by
  obtain ⟨hcalls, hn, howner, hx, hfault⟩ := callStep_fields (t := t) request
  have hget : ∀ (j : ℕ) (d : ThreadCall δ), (t.callStep request).calls[j]? = some d →
      d = ⟨request, .check⟩ ∨ t.calls[j]? = some d := by
    intro j d hd
    rw [hcalls] at hd
    rcases List.get_append_singleton hd with hd | hd
    · exact .inl hd.2
    · exact .inr hd
  have hkeep : ∀ (j : ℕ) (d : ThreadCall δ), t.calls[j]? = some d → (t.callStep request).calls[j]? = some d := by
    intro j d hd
    rw [hcalls, List.getElem?_append_left (List.getElem?_eq_some_iff.1 hd).1]
    exact hd
  have hinside : ∀ (j : ℕ) (d : ThreadCall δ) (k : Inside), (t.callStep request).calls[j]? = some d →
      d.place = .inside k → t.calls[j]? = some d := by
    intro j d k hd hk
    rcases hget j d hd with rfl | hd
    · cases hk
    · exact hd
  refine ⟨hfault.trans h.fault, ?_, ?_, ?_, ?_, ?_, ?_, ?_⟩
  · have hclearing : (t.callStep request).clearing = t.clearing := by
      funext x
      unfold clearing
      rw [having_callStep, (ThreadCall.tokens_early (c := ⟨request, .check⟩) rfl).1, if_neg nofun, Nat.add_zero]
    rw [hclearing]
    exact h.masked
  · intro j d hd hcrit
    rw [howner]
    rcases hget j d hd with rfl | hd
    · cases hcrit
    · exact h.critical j d hd hcrit
  · cases h.memory with
    | quiet hno hn₀ hx₀ =>
      exact .quiet (fun j d k hd hk => hno j d k (hinside j d k hd hk) hk) (hn.trans hn₀) (by rw [hx]; exact hx₀)
    | busy j d k hd hk honly hw =>
      refine .busy j d k (hkeep j d hd) hk ?_ (by rw [hn, hx]; exact hw)
      intro j' d' k' hd' hk'
      exact honly j' d' k' (hinside j' d' k' hd' hk') hk'
  · refine h.given.same ?_ fun x hx => hx
    intro x
    rw [having_callStep]
    cases request with
    | register category b =>
      have hcount := count_erase_add hp.2 x
      show (t.held.erase b).count x + (_ + if some b = some x then 1 else 0) = _
      simp only [Option.some.injEq]
      omega
    | _ => rfl
  · refine h.listed.same ?_ fun x hx => hx
    intro x
    rw [having_callStep]
    cases request with
    | deregister b =>
      have hcount := count_erase_add hp x
      show (t.listed.erase b).count x + (_ + if some b = some x then 1 else 0) = _
      simp only [Option.some.injEq]
      omega
    | _ => rfl
  · intro x hx'
    rw [hx] at hx'
    obtain ⟨d, hd, hlate⟩ := h.tags x hx'
    exact ⟨d, hkeep _ d hd, hlate⟩
  · intro j d hd
    rcases hget j d hd with rfl | hd
    · have htotal := (h.reads hinv).1
      cases request with
      | allocate | deregister b => trivial
      | register category b => exact htotal ▸ hp.1
      | post category data =>
        unfold Proper at hp
        exact htotal ▸ hp
    · exact h.valid j d hd

end Call

end Threads

theorem Did.congr {s s' : Threads δ} {i : ℕ} {request : Op δ} {answer : Option ℕ} {e : Effect δ}
    (h : Did s i request answer e) (hx : s'.executedBy i = s.executedBy i) : Did s' i request answer e := by
  cases h with
  | allocate b => exact .allocate b
  | register category b => exact .register category b
  | deregister b => exact .deregister b
  | post category data blocks hb => exact .post category data blocks (hx.trans hb)

namespace Threads

variable {s s' : Threads δ} {h : List (Event δ)} {i : ℕ} {c : ThreadCall δ}

theorem told_early {s : Threads δ} {h : List (Event δ)} {i : ℕ} {c : ThreadCall δ} (hc : c.place.early = true) :
    s.Told h i c ↔ ofCall i h = [.invoked i c.request] := by
  unfold Told
  cases hp : c.place with
  | unlock answer | clear b | returned answer => rw [hp] at hc; cases hc
  | _ => rfl

/-- What is told of a call does not change with the events and the calls of others. -/
theorem Told.append {es : List (Event δ)} (ht : s.Told h i c) (hes : ofCall i es = [])
    (hx : c.place.early = false → s'.executedBy i = s.executedBy i) : s'.Told (h ++ es) i c := by
  have hof : ofCall i (h ++ es) = ofCall i h := by rw [ofCall_append, hes, List.append_nil]
  unfold Told at *
  rw [hof]
  cases hp : c.place with
  | unlock answer | clear b | returned answer =>
    rw [hp] at ht hx
    obtain ⟨e, hdid, hh⟩ := ht
    exact ⟨e, hdid.congr (hx rfl), hh⟩
  | _ => rw [hp] at ht; exact ht

/-- **The invariant.** -/
structure Linear (numOfElements : ℕ) (totalCategories : UInt32) (s : Threads δ) (h : List (Event δ)) : Prop where
  follows : ∃ r₀ r n₀, (Run.system δ numOfElements totalCategories).init r₀ ∧ Leads Run.does r₀ h r ∧
    Sys.Reach (Run.system δ numOfElements totalCategories) Run.Enabled r ∧ Follows totalCategories s r n₀
  told : ∀ i c, s.calls[i]? = some c → s.Told h i c
  fresh : ∀ i, s.calls.length ≤ i → ofCall i h = []

/-- Call `i` moves, and what it adds to the history is told. -/
theorem Linear.move (hL : Linear numOfElements totalCategories s h) (hc : s.calls[i]? = some c) {place : Place}
    {es : List (Event δ)} (hcalls : s'.calls = (s.setPlace i c place).calls) (hes : ∀ j, j ≠ i → ofCall j es = [])
    (hfollows : ∃ r₀ r n₀, (Run.system δ numOfElements totalCategories).init r₀ ∧ Leads Run.does r₀ (h ++ es) r ∧
      Sys.Reach (Run.system δ numOfElements totalCategories) Run.Enabled r ∧ Follows totalCategories s' r n₀)
    (hx : ∀ j d, s.calls[j]? = some d → d.place.early = false → s'.executedBy j = s.executedBy j)
    (htold : s'.Told (h ++ es) i { c with place := place }) : Linear numOfElements totalCategories s' (h ++ es) := by
  refine ⟨hfollows, ?_, ?_⟩
  · intro j d hd
    rw [hcalls, getElem?_setPlace hc] at hd
    split at hd
    · rename_i hij
      rw [← Option.some.inj hd, ← hij]
      exact htold
    · rename_i hij
      exact (hL.told j d hd).append (hes j (Ne.symm hij)) (hx j d hd)
  · intro j hj
    have hlen : s'.calls.length = s.calls.length := by rw [hcalls]; exact List.length_set
    have hij : j ≠ i := by
      rintro rfl
      exact absurd (List.getElem?_eq_some_iff.1 hc).1 (by omega)
    rw [ofCall_append, hL.fresh j (hlen ▸ hj), hes j hij, List.append_nil]

/-- **A step of a call** keeps the history true. -/
theorem Linear.next (hL : Linear numOfElements totalCategories s h) (hc : s.calls[i]? = some c)
    (hnext : ∀ r n₀, Run.Inv numOfElements totalCategories r → Follows totalCategories s r n₀ →
      Next totalCategories s r i c s') : ∃ place, s'.calls = (s.setPlace i c place).calls ∧
      Linear numOfElements totalCategories s' (h ++ s'.events i c.request c.place place) := by
  obtain ⟨r₀, r, n₀, hinit, hleads, hreach, hF⟩ := hL.follows
  have htold := hL.told i c hc
  cases hnext r n₀ (Run.reach_inv hreach) hF with
  | silent place n₁ hcalls hgoes hexec hF' =>
    refine ⟨place, hcalls, ?_⟩
    have hquiet : s'.Told h i { c with place := place } →
        Linear numOfElements totalCategories s' (h ++ []) := fun htold' =>
      hL.move hc hcalls (fun _ _ => rfl) ⟨r₀, r, n₁, hinit, by rwa [List.append_nil], hreach, hF'⟩ hexec
        (by rwa [List.append_nil])
    have hreturn : ∀ answer, s'.Told (h ++ [.returned i answer]) i { c with place := place } →
        Linear numOfElements totalCategories s' (h ++ [.returned i answer]) := fun answer htold' =>
      hL.move hc hcalls (fun j hj => ofCall_other (Ne.symm hj)) ⟨r₀, r, n₁, hinit, hleads.returned i answer, hreach, hF'⟩
        hexec htold'
    have hexec := hexec i c hc
    obtain ⟨request, old⟩ := c
    cases hgoes with
    | pass | enter | on k k' => exact hquiet htold
    | toClear b =>
      obtain ⟨e, hdid, hh⟩ := htold
      exact hquiet ⟨e, hdid.congr (hexec rfl), hh⟩
    | toReturn answer =>
      obtain ⟨e, hdid, hh⟩ := htold
      refine hreturn answer ⟨e, hdid.congr (hexec rfl), ?_⟩
      rw [ofCall_append, hh, ofCall_returned]
      rfl
    | cleared b =>
      obtain ⟨e, hdid, hh⟩ := htold
      refine hreturn (some b) ⟨e, hdid.congr (hexec rfl), ?_⟩
      rw [ofCall_append, hh, ofCall_returned]
      rfl
  | effect k answer e r' hcalls hk hexec hdoes hdid heff hF' =>
    refine ⟨.unlock answer, hcalls, ?_⟩
    have hev : s'.events i c.request c.place (.unlock answer) = [.effect i e] := by
      rw [hk]
      show (s'.effects i c.request answer).map _ = _
      rw [heff]
      rfl
    rw [hev]
    refine hL.move hc hcalls (fun j hj => ofCall_other (Ne.symm hj))
      ⟨r₀, r', _, hinit, hleads.effect i e hdoes, does_reach hreach hdoes, hF'⟩ ?_ ⟨e, hdid, ?_⟩
    · intro j d hd hdone
      unfold executedBy
      rw [hexec]
    · rw [told_early (by rw [hk]; rfl)] at htold
      rw [ofCall_append, htold, ofCall_effect]
      rfl

/-- A call that is made. -/
theorem Linear.called {request : Op δ} (hL : Linear numOfElements totalCategories s h)
    (hp : s.Proper (.call request)) :
    Linear numOfElements totalCategories (s.callStep request) (h ++ [.invoked s.calls.length request]) := by
  obtain ⟨r₀, r, n₀, hinit, hleads, hreach, hF⟩ := hL.follows
  obtain ⟨hcalls, -, -, hx, -⟩ := callStep_fields (t := s) request
  have hother : ∀ i, i ≠ s.calls.length → ofCall i [(.invoked s.calls.length request : Event δ)] = [] :=
    fun i hi => ofCall_other (Ne.symm hi)
  refine ⟨⟨r₀, r, n₀, hinit, hleads.invoked _ request, hreach, hF.called request (Run.reach_inv hreach) hp⟩, ?_, ?_⟩
  · intro i c hc
    have hlt := (List.getElem?_eq_some_iff.1 hc).1
    rw [hcalls] at hc
    rcases List.get_append_singleton hc with ⟨rfl, rfl⟩ | hc
    · rw [told_early rfl, ofCall_append, hL.fresh _ (Nat.le_refl _), ofCall_invoked]
      rfl
    · have hi := (List.getElem?_eq_some_iff.1 hc).1
      refine (hL.told i c hc).append (hother i (by omega)) fun _ => ?_
      unfold executedBy
      rw [hx]
  · intro i hi
    rw [hcalls, List.length_append, List.length_singleton] at hi
    rw [ofCall_append, hL.fresh i (by omega), hother i (by omega), List.append_nil]

/-- **Every step** keeps the history true. -/
theorem step_linear {a : Act δ} (hL : Linear numOfElements totalCategories s h) (hp : s.Proper a)
    (hs : s.step a = some s') : Linear numOfElements totalCategories s' (s.note a s' h) := by
  have hfault : s.fault = none := by
    obtain ⟨r₀, r, n₀, hinit, hleads, hreach, hF⟩ := hL.follows
    exact hF.fault
  unfold step at hs
  rw [hfault, Option.isSome_none, if_neg nofun] at hs
  cases a with
  | call request =>
    simp only [Option.some.injEq] at hs
    rw [← hs]
    exact hL.called hp
  | lock i =>
    obtain ⟨c, hc, hs⟩ := Option.bind_eq_some_iff.1 hs
    obtain ⟨place, -, hL'⟩ := hL.next hc fun r n₀ _ hF => hF.lockStep hc hs
    have hk : c.place = .lock := by
      unfold lockStep at hs
      split at hs
      · rename_i hlock
        exact hlock.1
      · cases hs
    rw [hk] at hL'
    exact (List.append_nil h) ▸ hL'
  | lockFails i => exact hp.elim
  | run i =>
    obtain ⟨c, hc, hs⟩ := Option.bind_eq_some_iff.1 hs
    obtain ⟨place, hcalls, hL'⟩ := hL.next hc fun r n₀ hinv hF => hF.runStep hc hinv (fun h1 h2 => hp c hc h1 h2) hs
    have hc' : s'.calls[i]? = some { c with place := place } := by
      rw [hcalls, getElem?_setPlace hc, if_pos rfl]
    simp only [note, hc, hc']
    exact hL'

theorem init_linear (hs : (system δ numOfElements totalCategories).init s) :
    Linear numOfElements totalCategories s [] := by
  obtain ⟨elems, category, rfl⟩ := hs
  have hinit : (Run.system δ numOfElements totalCategories).init
      ⟨.init numOfElements totalCategories elems category, none, [], fun _ => [], []⟩ := ⟨elems, category, rfl⟩
  refine ⟨⟨_, _, .init numOfElements totalCategories elems category, hinit, .nil, .init hinit, ?_⟩, nofun, fun _ _ => rfl⟩
  exact ⟨rfl, rfl, nofun, .quiet nofun rfl rfl, fun _ => ⟨Nat.zero_le _, nofun⟩, fun _ => ⟨Nat.zero_le _, nofun⟩, nofun,
    nofun⟩

theorem reach_linear {p : Threads δ × List (Event δ)}
    (h : Sys.Reach (watched δ numOfElements totalCategories) (Sys.onState Proper) p) :
    Linear numOfElements totalCategories p.1 p.2 := by
  refine Sys.Reach.recorded_inv (fun s hs => init_linear hs) ?_ h
  intro s h a s' hr hL hp hs
  exact step_linear hL hp hs

/-- Nothing is to be cleared when all is quiet. -/
theorem mask_of_quiet {t : Threads δ} (hq : t.Quiet) (n : Notifier) : n.mask t.clearing = n := by
  have hclearing : ∀ b, t.clearing b = false := by
    intro b
    refine decide_eq_false (Nat.not_lt.2 (Nat.le_of_eq ?_))
    refine List.countP_eq_zero.2 fun c hc => ?_
    have hquiet := hq c hc
    unfold ThreadCall.clears
    cases hp : c.place with
    | unlock answer | clear b => rw [hp] at hquiet; cases hquiet
    | _ => cases c.request <;> simp
  have hsame : ∀ {β : Type} (z : β) (f : ℕ → β), clearOn t.clearing z f = f := fun z f =>
    funext fun b => clearOn_of_not (hclearing b)
  unfold Notifier.mask
  simp only [hsame]

end Threads

open Threads

/-- **A notifier with threads is linearizable.** For any number of calls by any number of clients, any pool and any
number of categories, in any order of their steps, of each call of `execute_f` by itself and of the `memset` of an
allocated block after its unlock: no assertion fails; the history is that of whole calls, one after the other, each
between its invocation and its return, where a post has called `execute_f` on the blocks registered under its category
and on no others, in the list's order; with nothing going on, the memory is that of the whole calls; and a block on which
`execute_f` is called is registered. -/
theorem notifier_threads_linearizable (δ : Type) (numOfElements : ℕ) (totalCategories : UInt32) (t : Threads δ)
    (h : List (Event δ))
    (hr : Sys.Reach (Threads.watched δ numOfElements totalCategories) (Sys.onState Threads.Proper) (t, h)) :
    t.fault = none ∧
    (∃ r₀ r, (Run.system δ numOfElements totalCategories).init r₀ ∧ Leads Run.does r₀ h r ∧
      Sys.Reach (Run.system δ numOfElements totalCategories) Run.Enabled r ∧
      (t.Quiet → t.notifier = r.notifier ∧ t.executed.map Prod.snd = r.calls) ∧
      ∀ (i : ℕ) (c : ThreadCall δ) (elem : ℕ) (next : Option ℕ), t.calls[i]? = some c →
        c.place = .inside (.calling elem next) →
        ∃ category data, c.request = .post category data ∧ elem ∈ r.registered category ∧
          t.notifier.category elem = category) ∧
    ∀ i c, t.calls[i]? = some c → t.Told h i c := by
  have hL := reach_linear hr
  obtain ⟨r₀, r, n₀, hinit, hleads, hreach, hF⟩ := hL.follows
  refine ⟨hF.fault, ⟨r₀, r, hinit, hleads, hreach, ?_, ?_⟩, hL.told⟩
  · intro hq
    have hmasked := hF.masked
    rw [mask_of_quiet hq] at hmasked
    cases hF.memory with
    | quiet hno hn hx => exact ⟨hn.trans hmasked.symm, hx⟩
    | busy i c k hc hk honly hw =>
      have hquiet := hq c (List.mem_of_getElem? hc)
      rw [hk] at hquiet
      cases hquiet
  · intro i c elem next hc hk
    obtain ⟨hw, -⟩ := hF.inside hc hk
    cases hreq : c.request with
    | post category data =>
      rw [hreq] at hw
      obtain ⟨-, done, rest, hreg, -⟩ := hw
      have hmem : elem ∈ r.registered category := by rw [hreg]; simp
      exact ⟨category, data, rfl, hmem, (hF.reads (Run.reach_inv hreach)).2 category elem hmem⟩
    | _ => rw [hreq] at hw; exact hw.elim

instance [DecidableEq δ] (s : Threads δ) : (a : Act δ) → Decidable (s.Proper a)
  | .call .allocate | .lock _ => .isTrue trivial
  | .lockFails _ => .isFalse id
  | .call (.register _ _) => inferInstanceAs (Decidable (_ ∧ _))
  | .call (.deregister _) => inferInstanceAs (Decidable (_ ∈ _))
  | .call (.post category _) => inferInstanceAs (Decidable (category < _))
  | .run i => decidable_of_iff (∀ c ∈ s.calls[i]?, c.request = .allocate → c.place = .inside .start →
      s.notifier.pool.free ≠ []) Iff.rfl

instance [DecidableEq δ] (p : Threads δ × List (Event δ)) (a : Act δ) : Decidable (Sys.onState Threads.Proper p a) :=
  inferInstanceAs (Decidable (p.1.Proper a))

/-- Two blocks. The first one is cleared while the second is being registered, and the second is to be deregistered while
a post calls `execute_f`. -/
theorem notifier_threads_linearizable_two : ∃ (t : Threads Bool) (h : List (Event Bool)),
    Sys.Reach (Threads.watched Bool 2 1) (Sys.onState Threads.Proper) (t, h) ∧
    t.executed = [(4, ⟨0, 0, true⟩), (4, ⟨1, 0, true⟩)] ∧
    h = [.invoked 0 .allocate, .effect 0 (.allocated 0), .invoked 1 .allocate, .effect 1 (.allocated 1),
      .returned 1 (some 1), .invoked 2 (.register 0 1), .returned 0 (some 0), .effect 2 (.registered 0 1),
      .returned 2 none, .invoked 3 (.register 0 0), .effect 3 (.registered 0 0), .returned 3 none,
      .invoked 4 (.post 0 true), .invoked 5 (.deregister 1), .effect 4 (.posted 0 true [0, 1]), .returned 4 none,
      .effect 5 (.deregistered 1), .returned 5 none] ∧
    ∃ r₀ r, Leads Run.does r₀ h r ∧ t.notifier = r.notifier ∧ t.executed.map Prod.snd = r.calls := by
  have htrace : (Sys.exec (Threads.watched Bool 2 1) (Sys.onState Threads.Proper)
      (⟨.init 2 1 ⟨fun _ => none, fun _ => none⟩ (fun _ => 0), none, [], [], [], [], none⟩, [])
      ([.call .allocate, .run 0, .lock 0, .run 0, .run 0, .call .allocate, .run 1, .lock 1, .run 1, .run 1, .run 1,
        .call (.register 0 1), .run 2, .lock 2, .run 2, .run 0, .run 2, .run 2,
        .call (.register 0 0), .run 3, .lock 3, .run 3, .run 3, .run 3,
        .call (.post 0 true), .run 4, .lock 4, .run 4, .run 4, .run 4, .call (.deregister 1), .run 5, .run 4, .run 4,
        .run 4, .run 4, .lock 5, .run 5, .run 5, .run 5])).map
      (fun p => p.1.calls.all (·.place.quiet) && p.1.executed == [(4, ⟨0, 0, true⟩), (4, ⟨1, 0, true⟩)] && p.2 ==
        [.invoked 0 .allocate, .effect 0 (.allocated 0), .invoked 1 .allocate, .effect 1 (.allocated 1),
          .returned 1 (some 1), .invoked 2 (.register 0 1), .returned 0 (some 0), .effect 2 (.registered 0 1),
          .returned 2 none, .invoked 3 (.register 0 0), .effect 3 (.registered 0 0), .returned 3 none,
          .invoked 4 (.post 0 true), .invoked 5 (.deregister 1), .effect 4 (.posted 0 true [0, 1]), .returned 4 none,
          .effect 5 (.deregistered 1), .returned 5 none]) = some true := by decide +kernel
  have hinit : Sys.Reach (Threads.watched Bool 2 1) (Sys.onState Threads.Proper)
      (⟨.init 2 1 ⟨fun _ => none, fun _ => none⟩ (fun _ => 0), none, [], [], [], [], none⟩, []) :=
    .init ⟨⟨_, _, rfl⟩, rfl⟩
  obtain ⟨⟨t, h⟩, ht, hp⟩ := hinit.of_trace htrace
  simp only [Bool.and_eq_true, beq_iff_eq, List.all_eq_true] at hp
  obtain ⟨⟨hquiet, hx⟩, hh⟩ := hp
  obtain ⟨-, ⟨r₀, r, -, hleads, -, hmem, -⟩, -⟩ := notifier_threads_linearizable Bool 2 1 t h ht
  exact ⟨t, h, ht, hx, hh, r₀, r, hleads, hmem hquiet⟩

end Cutils.Notify
