import Cutils.Lib.Simulation
import Cutils.Proof.AsyncioTokens

/-!
# Every accepted send is told once

`tx_f` drops a request without calling its `fn` when the stream is no longer started, and a request that
is posted behind the finisher comes too late. Otherwise what the log has about a send is what it should
have.

* `sends_complete`: in the runs in which neither happens, every accepted send is written and told at
  most once, in the order of acceptance, and exactly once when `asyncio_stop` has returned; then its
  block has come back to the pool once.
* `queued_send_is_dropped`: a send that is still queued when `asyncio_stop` is called is never told.
-/

namespace Cutils.Asyncio

open Blocks

/-- The use that an event is the `write_f` call of. -/
def Event.writes : Event → Option ℕ
  | .write k _ _ _ => some k
  | _ => none

/-- The use that an event is the return of the block of. -/
def Event.backs : Event → Option ℕ
  | .back k => some k
  | _ => none

/-- The events of use `k`. -/
def story (k : ℕ) (log : List Event) : List Event := log.filter fun e => e.use = some k

namespace Request

/-- The call of `fn` for use `k`; none if `fn` is null. -/
def told (r : Request) (k : ℕ) (status : SendStatus) (n : ℕ) : List Event :=
  r.fn.toList.map fun f => .notify k f status n r.priv

/-- **What the send of a request leads to**: one call of `write_f` with its size and payload, `fn` with
the status and the byte count of that call, and the return of the block; or `fn` with a failure, and
the return of the block. -/
def Done (r : Request) (k : ℕ) (l : List Event) : Prop :=
  (∃ n, l = .write k r.size r.payload n ::
      (r.told k (if n = r.size.toNat then .sendSuccess else .sendMessageFail) n ++ [.back k])) ∨
    l = r.told k .interfaceInError 0 ++ [.back k]

end Request

/-- The use a running `tx_f` has. -/
def WorkerPc.use (pc : WorkerPc) : Option ℕ := pc.action.bind Action.use

/-- The use, once `tx_f` is past its call of `write_f` or will not call it. -/
def WorkerPc.wrote : WorkerPc → List ℕ
  | .txNotify _ k _ _ | .txFree _ k | .txEnqueue _ k => [k]
  | _ => []

/-- What `tx_f` has still to do for its request then. -/
def WorkerPc.rest (r : Request) : WorkerPc → Option (List Event)
  | .txNotify _ k status n => some (r.told k status (n % 2 ^ 32) ++ [.back k])
  | .txFree _ k | .txEnqueue _ k => some [.back k]
  | _ => none

/-- What the log has about a request whose `tx_f` is at `pc`. -/
def WorkerPc.Stage (pc : WorkerPc) (r : Request) (k : ℕ) (l : List Event) : Prop :=
  match pc.rest r with
  | some rest => r.Done k (l ++ rest)
  | none => l = []

/-- The block whose payload the client is still filling. -/
def TokenPc.filling : TokenPc → Option ℕ
  | .held b | .sendCtx b | .sendFields b => some b
  | _ => none

/-- The block that has all of the request. -/
def TokenPc.sending : TokenPc → Option ℕ
  | .sendPost b | .queued b => some b
  | _ => none

theorem block_of_filling {pc : TokenPc} {b : ℕ} (h : pc.filling = some b) : pc.block = some b := by
  cases pc <;> first | exact h | cases h

theorem block_of_sending {pc : TokenPc} {b : ℕ} (h : pc.sending = some b) : pc.block = some b := by
  cases pc <;> first | exact h | cases h

section Story

variable {k j : ℕ} {log es : List Event}

theorem story_append : story k (log ++ es) = story k log ++ story k es := List.filter_append ..

theorem story_own (h : ∀ e ∈ es, e.use = some k) : story k es = es :=
  List.filter_eq_self.2 fun e he => by simpa using h e he

theorem story_other (h : ∀ e ∈ es, e.use = some k) (hj : j ≠ k) : story j es = [] := by
  refine List.filter_eq_nil_iff.2 fun e he => ?_
  rw [h e he]
  simpa using hj.symm

/-- The events of a use are those of the transmit side. -/
theorem story_tx (log : List Event) : story k (log.filter fun e => e.use.isSome) = story k log := by
  unfold story
  rw [List.filter_filter]
  refine List.filter_congr fun e _ => ?_
  cases e.use <;> simp

theorem writes_tx (log : List Event) :
    (log.filter fun e => e.use.isSome).filterMap Event.writes = log.filterMap Event.writes := by
  rw [List.filterMap_filter]
  refine List.filterMap_congr fun e _ => ?_
  cases e <;> rfl

theorem backs_tx (log : List Event) :
    (log.filter fun e => e.use.isSome).filterMap Event.backs = log.filterMap Event.backs := by
  rw [List.filterMap_filter]
  refine List.filterMap_congr fun e _ => ?_
  cases e <;> rfl

/-- The returns of a use are in its story. -/
theorem count_backs (log : List Event) : (log.filterMap Event.backs).count k = (story k log).count (.back k) := by
  have hstory : (story k log).count (.back k) = log.count (.back k) := List.count_filter (by simp [Event.use])
  rw [hstory, List.count, List.count, List.countP_filterMap]
  refine List.countP_congr fun e _ => ?_
  cases e <;> simp [Event.backs]

end Story

namespace Tx

variable {n k b : ℕ} {pool : Store} {tokens : List Token} {request : ℕ → Request} {t t' : Token}

section Order

variable {v : Tx} {j : Action} {l : List Action}

/-- **No `tx_f` is behind a finisher**, and none is left once the finisher has had its effect. -/
structure Ahead (on : Bool) (line : List Action) : Prop where
  order : line.Pairwise fun a j => a = .finisher .tx → j.use = none
  off : on = false → ∀ a ∈ line, a.use = none

theorem Ahead.post {on : Bool} {line : List Action} (h : Ahead on line) (hj : j.use = none) :
    Ahead on (line ++ [j]) := by
  refine ⟨List.pairwise_append.2 ⟨h.order, List.pairwise_singleton _ _, ?_⟩, ?_⟩
  · intro a _ j' hj' _
    rw [List.mem_singleton.1 hj']
    exact hj
  · intro hoff a ha
    rcases List.mem_append.1 ha with ha | ha
    · exact h.off hoff a ha
    · rw [List.mem_singleton.1 ha]
      exact hj

/-- A send is accepted while no finisher is posted. -/
theorem Ahead.accept {on : Bool} {line : List Action} (h : Ahead on line) (hon : on = true)
    (hno : .finisher .tx ∉ line) : Ahead on (line ++ [j]) := by
  refine ⟨List.pairwise_append.2 ⟨h.order, List.pairwise_singleton _ _, ?_⟩, ?_⟩
  · rintro a ha j' - rfl
    exact absurd ha hno
  · intro hoff
    rw [hon] at hoff
    cases hoff

theorem Ahead.over {on : Bool} (h : Ahead on (j :: l)) : Ahead on l :=
  ⟨(List.pairwise_cons.1 h.order).2, fun hoff a ha => h.off hoff a (List.mem_cons_of_mem _ ha)⟩

/-- The finisher has its effect. -/
theorem Ahead.finish {on : Bool} (h : Ahead on (.finisher .tx :: l)) : Ahead false (.finisher .tx :: l) := by
  refine ⟨h.order, fun _ a ha => ?_⟩
  rcases List.mem_cons.1 ha with rfl | ha
  · rfl
  · exact (List.pairwise_cons.1 h.order).1 a ha rfl

theorem Ahead.ready {on : Bool} {line : List Action} (h : Ahead on line) : Ahead true line :=
  ⟨h.order, nofun⟩

end Order

section Fill

/-- **The block of a use has what the client has set**: its payload before the call, all of the request
once `asyncio_send_buffer` has written it. -/
structure Filled (tokens : List Token) (request : ℕ → Request) : Prop where
  payload : ∀ {k : ℕ} {t : Token} {b : ℕ}, tokens[k]? = some t → t.pc.filling = some b →
    (request b).payload = t.request.payload
  fields : ∀ {k : ℕ} {t : Token} {b : ℕ}, tokens[k]? = some t → t.pc.sending = some b → request b = t.request

/-- A use goes on and may write its block. -/
theorem Filled.write (h : Filled tokens request) (ho : Owned n pool tokens) (hk : tokens[k]? = some t)
    (hb : t.pc.block = some b) (r : Request) (hpay : ∀ b', t'.pc.filling = some b' → b' = b ∧ r.payload = t'.request.payload)
    (hfld : ∀ b', t'.pc.sending = some b' → b' = b ∧ r = t'.request) :
    Filled (tokens.set k t') (Function.update request b r) := by
  -- a block of another use is another block
  have hne : ∀ {j : ℕ} {u : Token} {b' : ℕ}, j ≠ k → tokens[j]? = some u → u.pc.block = some b' → b' ≠ b := by
    rintro j u b' hjk hj hu rfl
    exact hjk (ho.one hj hk hu hb)
  refine ⟨?_, ?_⟩
  · intro j u b' hj hu
    rcases List.get_set hj with ⟨rfl, rfl⟩ | ⟨hjk, hj⟩
    · obtain ⟨rfl, hr⟩ := hpay b' hu
      rw [Function.update_self]
      exact hr
    · rw [Function.update_of_ne (hne hjk hj (block_of_filling hu))]
      exact h.payload hj hu
  · intro j u b' hj hu
    rcases List.get_set hj with ⟨rfl, rfl⟩ | ⟨hjk, hj⟩
    · obtain ⟨rfl, hr⟩ := hfld b' hu
      rw [Function.update_self]
      exact hr
    · rw [Function.update_of_ne (hne hjk hj (block_of_sending hu))]
      exact h.fields hj hu

/-- A use goes on with its block as it is. -/
theorem Filled.keep (h : Filled tokens request)
    (hpay : ∀ b, t'.pc.filling = some b → (request b).payload = t'.request.payload)
    (hfld : ∀ b, t'.pc.sending = some b → request b = t'.request) : Filled (tokens.set k t') request := by
  refine ⟨?_, ?_⟩
  · intro j u b hj hu
    rcases List.get_set hj with ⟨-, rfl⟩ | ⟨-, hj⟩
    · exact hpay b hu
    · exact h.payload hj hu
  · intro j u b hj hu
    rcases List.get_set hj with ⟨-, rfl⟩ | ⟨-, hj⟩
    · exact hfld b hu
    · exact h.fields hj hu

/-- The use goes where its request does not matter. -/
theorem Filled.move (h : Filled tokens request) (hpay : t'.pc.filling = none) (hfld : t'.pc.sending = none) :
    Filled (tokens.set k t') request :=
  h.keep (by simp [hpay]) (by simp [hfld])

/-- A new use has no block. -/
theorem Filled.allocate (h : Filled tokens request) (hpay : t.pc.filling = none) (hfld : t.pc.sending = none) :
    Filled (tokens ++ [t]) request := by
  refine ⟨?_, ?_⟩
  · intro j u b hj hu
    rcases List.get_append_singleton hj with ⟨-, rfl⟩ | hj
    · rw [hpay] at hu
      cases hu
    · exact h.payload hj hu
  · intro j u b hj hu
    rcases List.get_append_singleton hj with ⟨-, rfl⟩ | hj
    · rw [hfld] at hu
      cases hu
    · exact h.fields hj hu

end Fill

section Tell

variable {v : Tx} {done : List ℕ}

/-- **What the log has about each use**: all of it for those whose `tx_f` is over (`done`, in the order of
acceptance), what `pc` says for the one whose `tx_f` runs, nothing for the others. -/
structure Told (done : List ℕ) (v : Tx) : Prop where
  accepted : v.accepted = done ++ v.line.filterMap Action.use
  nodup : v.accepted.Nodup
  gone : ∀ k ∈ done, ∃ t, v.tokens[k]? = some t ∧ t.pc = .gone ∧ t.request.Done k (story k v.log)
  waits : ∀ k, k ∉ done → v.pc.use ≠ some k → story k v.log = []
  runs : ∀ {k : ℕ} {t : Token}, v.pc.use = some k → v.tokens[k]? = some t → v.pc.Stage t.request k (story k v.log)
  writes : (v.log.filterMap Event.writes).Sublist (done ++ v.pc.wrote)

theorem Told.congr {v' : Tx} (h : Told done v) (htok : v'.tokens = v.tokens) (hacc : v'.accepted = v.accepted)
    (hlog : v'.log = v.log) (hpc : v'.pc = v.pc)
    (hline : v'.line.filterMap Action.use = v.line.filterMap Action.use) : Told done v' := by
  refine ⟨by rw [hacc, hline]; exact h.accepted, hacc ▸ h.nodup, ?_, ?_, ?_, ?_⟩
  · rw [htok, hlog]
    exact h.gone
  · rw [hlog, hpc]
    exact h.waits
  · rw [hlog, hpc, htok]
    exact h.runs
  · rw [hlog, hpc]
    exact h.writes

/-- A use goes on that is not over. -/
theorem Told.setToken (h : Told done v) (hk : v.tokens[k]? = some t) (hgone : t.pc ≠ .gone) (t' : Token)
    (hrun : v.pc.use = some k → t'.request = t.request) : Told done { v with tokens := v.tokens.set k t' } := by
  refine ⟨h.accepted, h.nodup, ?_, h.waits, ?_, h.writes⟩
  · intro j hj
    obtain ⟨u, hu, hpc, hd⟩ := h.gone j hj
    have hkj : k ≠ j := by
      rintro rfl
      obtain rfl := Option.some.inj (hk.symm.trans hu)
      exact hgone hpc
    exact ⟨u, by rw [List.getElem?_set_ne hkj]; exact hu, hpc, hd⟩
  · intro j u hj hu
    rcases List.get_set hu with ⟨rfl, rfl⟩ | ⟨-, hu⟩
    · rw [hrun hj]
      exact h.runs hj hk
    · exact h.runs hj hu

theorem Told.allocate (h : Told done v) (hrun : v.pc.use ≠ some v.tokens.length) (t : Token) :
    Told done { v with tokens := v.tokens ++ [t] } := by
  refine ⟨h.accepted, h.nodup, ?_, h.waits, ?_, h.writes⟩
  · intro j hj
    obtain ⟨u, hu, hpc, hd⟩ := h.gone j hj
    have hlt := (List.getElem?_eq_some_iff.1 hu).1
    exact ⟨u, by rw [List.getElem?_append_left hlt]; exact hu, hpc, hd⟩
  · -- the new use is not the one that `tx_f` runs for
    intro j u hj hu
    rcases List.get_append_singleton hu with ⟨rfl, -⟩ | hu
    · exact absurd hj hrun
    · exact h.runs hj hu

/-- The first `tx_f` in the line is not over. -/
theorem Told.not_done (h : Told done v) {l : List Action} (hline : v.line = .txF b k :: l) : k ∉ done := by
  intro hmem
  have hnodup := h.nodup
  rw [h.accepted, hline] at hnodup
  exact (List.nodup_append.1 hnodup).2.2 k hmem k (by simp [Action.use]) rfl

/-- `tx_f` begins. -/
theorem Told.take (h : Told done v) {l : List Action} (hline : v.line = .txF b k :: l) (hpc : v.pc = .idle) :
    Told done { v with pc := .txLoad b k } := by
  have hnone : ∀ j, v.pc.use ≠ some j := by
    intro j
    rw [hpc]
    nofun
  refine ⟨h.accepted, h.nodup, h.gone, fun j hj _ => h.waits j hj (hnone j), ?_, ?_⟩
  · intro j t hj _
    cases hj
    exact h.waits k (h.not_done hline) (hnone k)
  · have hw := h.writes
    rw [hpc] at hw
    exact hw

/-- **`tx_f` goes on**, and has done `es` for its use. -/
theorem Told.goOn (h : Told done v) (hl : Lined v.tokens v.line v.pc) (pc : WorkerPc) (es : List Event)
    (hpc : v.pc.action = some (.txF b k)) (hpc' : pc.action = some (.txF b k)) (hes : ∀ e ∈ es, e.use = some k)
    (hk : v.tokens[k]? = some t) (hstage : pc.Stage t.request k (story k v.log ++ es))
    (hw : (v.pc.wrote ++ es.filterMap Event.writes).Sublist pc.wrote) :
    Told done { v with log := v.log ++ es, pc := pc } := by
  have huse : v.pc.use = some k := by rw [WorkerPc.use, hpc]; rfl
  have huse' : pc.use = some k := by rw [WorkerPc.use, hpc']; rfl
  obtain ⟨l, hline⟩ := hl.run hpc
  have hother : ∀ j, j ≠ k → story j (v.log ++ es) = story j v.log := by
    intro j hj
    rw [story_append, story_other hes hj, List.append_nil]
  refine ⟨h.accepted, h.nodup, ?_, ?_, ?_, ?_⟩
  · intro j hj
    have hjk : j ≠ k := by rintro rfl; exact h.not_done hline hj
    obtain ⟨t, ht, hg, hd⟩ := h.gone j hj
    refine ⟨t, ht, hg, ?_⟩
    dsimp only
    rwa [hother j hjk]
  · intro j hj hne
    have hjk : j ≠ k := by rintro rfl; exact hne huse'
    dsimp only
    rw [hother j hjk]
    exact h.waits j hj (by rw [huse]; simpa using hjk.symm)
  · intro j u hj hu
    obtain rfl : k = j := Option.some.inj (huse'.symm.trans hj)
    obtain rfl : t = u := Option.some.inj (hk.symm.trans hu)
    dsimp only
    rw [story_append, story_own hes]
    exact hstage
  · calc ((v.log ++ es).filterMap Event.writes)
        = v.log.filterMap Event.writes ++ es.filterMap Event.writes := List.filterMap_append ..
      _ |>.Sublist ((done ++ v.pc.wrote) ++ es.filterMap Event.writes) := h.writes.append_right _
      _ |>.Sublist (done ++ pc.wrote) := by
        rw [List.append_assoc]
        exact hw.append_left _

/-- `tx_f` goes on and has done nothing that is in the log. -/
theorem Told.move (h : Told done v) (hl : Lined v.tokens v.line v.pc) (pc : WorkerPc)
    (hpc : v.pc.action = some (.txF b k)) (hpc' : pc.action = some (.txF b k))
    (hk : v.tokens[k]? = some t) (hstage : pc.Stage t.request k (story k v.log))
    (hw : v.pc.wrote.Sublist pc.wrote) : Told done { v with pc := pc } := by
  have hgo := h.goOn hl pc [] hpc hpc' nofun hk (by simpa using hstage) (by simpa using hw)
  simpa using hgo

/-- `tx_f` ends: the block is back. -/
theorem Told.over (h : Told done v) {l : List Action} (hpc : v.pc = .txEnqueue b k) (hline : v.line = .txF b k :: l)
    (hk : v.tokens[k]? = some t) (p : Store) :
    Told (done ++ [k]) { v with
      pool := p
      tokens := v.tokens.set k { t with pc := .gone }
      log := v.log ++ [.back k]
      line := l
      pc := .idle } := by
  have huse : v.pc.use = some k := by rw [hpc]; rfl
  have hown : ∀ e ∈ [Event.back k], e.use = some k := by simp [Event.use]
  have hother : ∀ j, j ≠ k → story j (v.log ++ [.back k]) = story j v.log := by
    intro j hj
    rw [story_append, story_other hown hj, List.append_nil]
  have hself := h.runs huse hk
  rw [hpc] at hself
  change t.request.Done k (story k v.log ++ [.back k]) at hself
  refine ⟨?_, h.nodup, ?_, ?_, nofun, ?_⟩
  · have hacc := h.accepted
    rw [hline] at hacc
    simpa [Action.use] using hacc
  · intro j hj
    by_cases hjk : j = k
    · subst hjk
      refine ⟨_, List.get_set_self hk, rfl, ?_⟩
      dsimp only
      rwa [story_append, story_own hown]
    · obtain ⟨u, hu, hg, hd⟩ := h.gone j (by simpa [hjk] using hj)
      refine ⟨u, by rw [List.getElem?_set_ne fun heq => hjk heq.symm]; exact hu, hg, ?_⟩
      dsimp only
      rwa [hother j hjk]
  · intro j hj _
    simp only [List.mem_append, List.mem_singleton, not_or] at hj
    dsimp only
    rw [hother j hj.2]
    exact h.waits j hj.1 (by rw [huse]; simpa using fun heq : k = j => hj.2 heq.symm)
  · have hw := h.writes
    have hnone : [Event.back k].filterMap Event.writes = [] := rfl
    rw [hpc] at hw
    rw [List.filterMap_append, hnone, List.append_nil]
    simpa [WorkerPc.wrote] using hw

/-- A send is accepted. -/
theorem Told.accept (h : Told done v) (hl : Lined v.tokens v.line v.pc) (hk : v.tokens[k]? = some t)
    (hp : t.pc = .sendPost b) : Told done { v with
      tokens := v.tokens.set k { t with pc := .queued b }
      accepted := v.accepted ++ [k]
      line := v.line ++ [.txF b k] } := by
  have hset := h.setToken hk (by rw [hp]; simp) { t with pc := .queued b } fun _ => rfl
  refine ⟨?_, ?_, hset.gone, hset.waits, hset.runs, hset.writes⟩
  · dsimp only
    rw [h.accepted, List.filterMap_append, List.append_assoc]
    rfl
  · refine List.nodup_append.2 ⟨h.nodup, by simp, ?_⟩
    rintro j hj j' hj' rfl
    obtain rfl := List.mem_singleton.1 hj'
    rw [h.accepted, List.mem_append] at hj
    rcases hj with hj | hj
    · obtain ⟨u, hu, hg, -⟩ := h.gone _ hj
      obtain rfl := Option.some.inj (hk.symm.trans hu)
      rw [hp] at hg
      cases hg
    · obtain ⟨a, ha, hu⟩ := List.mem_filterMap.1 hj
      cases a with
      | txF b' i =>
        cases Option.some.inj hu
        exact hl.not_mem hk (by rw [hp]; simp) ha
      | _ => cases hu

variable {r : Request} {status : SendStatus} {m f : ℕ}

theorem told_none (h : r.fn = none) : r.told k status m = [] := by
  simp [Request.told, h]

theorem told_some (h : r.fn = some f) : r.told k status m = [.notify k f status m r.priv] := by
  simp [Request.told, h]

/-- `tx_f` has done nothing yet. -/
theorem Told.unsaid (h : Told done v) (hk : v.tokens[k]? = some t) (huse : v.pc.use = some k)
    (hrest : v.pc.rest t.request = none) : story k v.log = [] := by
  have hst := h.runs huse hk
  rw [WorkerPc.Stage, hrest] at hst
  exact hst

/-- `tx_f` has its last steps to do. -/
theorem Told.unfinished (h : Told done v) (hk : v.tokens[k]? = some t) (huse : v.pc.use = some k) {es : List Event}
    (hrest : v.pc.rest t.request = some es) : t.request.Done k (story k v.log ++ es) := by
  have hst := h.runs huse hk
  rw [WorkerPc.Stage, hrest] at hst
  exact hst

theorem Told.load (h : Told done v) (hl : Lined v.tokens v.line v.pc) (hk : v.tokens[k]? = some t)
    (hpc : v.pc = .txLoad b k) : Told done { v with pc := .txCheck b k } := by
  have hnil := h.unsaid hk (by rw [hpc]; rfl) (by rw [hpc]; rfl)
  exact h.move hl _ (by rw [hpc]; rfl) rfl hk hnil (by rw [hpc]; exact List.Sublist.refl _)

/-- The request is dropped, but there is nobody to tell. -/
theorem Told.drop (h : Told done v) (hl : Lined v.tokens v.line v.pc) (hk : v.tokens[k]? = some t)
    (hpc : v.pc = .txLoad b k) (hfn : t.request.fn = none) : Told done { v with pc := .txFree b k } := by
  have hnil := h.unsaid hk (by rw [hpc]; rfl) (by rw [hpc]; rfl)
  refine h.move hl _ (by rw [hpc]; rfl) rfl hk ?_ (by rw [hpc]; exact List.nil_sublist _)
  refine .inr ?_
  rw [hnil, told_none hfn]

theorem Told.check (h : Told done v) (hl : Lined v.tokens v.line v.pc) (hk : v.tokens[k]? = some t)
    (hpc : v.pc = .txCheck b k) : Told done { v with pc := .txWrite b k } := by
  have hnil := h.unsaid hk (by rw [hpc]; rfl) (by rw [hpc]; rfl)
  exact h.move hl _ (by rw [hpc]; rfl) rfl hk hnil (by rw [hpc]; exact List.Sublist.refl _)

theorem Told.inError (h : Told done v) (hl : Lined v.tokens v.line v.pc) (hk : v.tokens[k]? = some t)
    (hpc : v.pc = .txCheck b k) : Told done { v with pc := .txNotify b k .interfaceInError 0 } := by
  have hnil := h.unsaid hk (by rw [hpc]; rfl) (by rw [hpc]; rfl)
  refine h.move hl _ (by rw [hpc]; rfl) rfl hk ?_ (by rw [hpc]; exact List.nil_sublist _)
  refine .inr ?_
  rw [hnil]
  rfl

/-- `write_f` is called. -/
theorem Told.write (h : Told done v) (hl : Lined v.tokens v.line v.pc) (hk : v.tokens[k]? = some t)
    (hpc : v.pc = .txWrite b k) (hm : t.request.fn.isSome → m < 2 ^ 32) :
    Told done { v with
      log := v.log ++ [.write k t.request.size t.request.payload m]
      pc := .txNotify b k (if m = t.request.size.toNat then .sendSuccess else .sendMessageFail) m } := by
  have hnil := h.unsaid hk (by rw [hpc]; rfl) (by rw [hpc]; rfl)
  refine h.goOn hl _ _ (by rw [hpc]; rfl) rfl (by simp [Event.use]) hk ?_ (by rw [hpc]; exact List.Sublist.refl _)
  refine .inl ⟨m, ?_⟩
  rw [hnil]
  cases hfn : t.request.fn with
  | none =>
    rw [told_none hfn, told_none hfn]
    rfl
  | some f =>
    rw [Nat.mod_eq_of_lt (hm (by rw [hfn]; rfl))]
    rfl

/-- `fn` is called. -/
theorem Told.notify (h : Told done v) (hl : Lined v.tokens v.line v.pc) (hk : v.tokens[k]? = some t)
    (hpc : v.pc = .txNotify b k status m) (hfn : t.request.fn = some f) :
    Told done { v with
      log := v.log ++ [.notify k f status (m % 2 ^ 32) t.request.priv]
      pc := .txFree b k } := by
  have hdone := h.unfinished hk (by rw [hpc]; rfl) (by rw [hpc]; rfl)
  rw [told_some hfn] at hdone
  refine h.goOn hl _ _ (by rw [hpc]; rfl) rfl (by simp [Event.use]) hk ?_ (by rw [hpc]; exact List.Sublist.refl _)
  change t.request.Done k (story k v.log ++ _ ++ _)
  rw [List.append_assoc]
  exact hdone

theorem Told.silent (h : Told done v) (hl : Lined v.tokens v.line v.pc) (hk : v.tokens[k]? = some t)
    (hpc : v.pc = .txNotify b k status m) (hfn : t.request.fn = none) : Told done { v with pc := .txFree b k } := by
  have hdone := h.unfinished hk (by rw [hpc]; rfl) (by rw [hpc]; rfl)
  rw [told_none hfn] at hdone
  exact h.move hl _ (by rw [hpc]; rfl) rfl hk hdone (by rw [hpc]; exact List.Sublist.refl _)

/-- The block's reference is dropped. -/
theorem Told.free (h : Told done v) (hl : Lined v.tokens v.line v.pc) (hk : v.tokens[k]? = some t)
    (hpc : v.pc = .txFree b k) (hq : t.pc = .queued b) (p : Store) : Told done { v with
      pool := p
      tokens := v.tokens.set k { t with pc := .returning b }
      pc := .txEnqueue b k } := by
  have hdone := h.unfinished hk (by rw [hpc]; rfl) (by rw [hpc]; rfl)
  have hgo := h.move hl (.txEnqueue b k) (by rw [hpc]; rfl) rfl hk hdone (by rw [hpc]; exact List.Sublist.refl _)
  have hset := hgo.setToken hk (by rw [hq]; simp) { t with pc := .returning b } fun _ => rfl
  exact hset.congr rfl rfl rfl rfl rfl

end Tell

end Tx

namespace Stream

variable {c : Config} {s s' : Stream} {a : Act} {n k w b : ℕ} {v : Tx}

/-- `tx_f` finds the stream started, if it has somebody to tell. -/
def LoadsUp (s : Stream) (a : Act) : Prop :=
  match s.stepPc a with
  | .txLoad b _ => (s.request b).fn.isSome → s.initState = .initialized
  | _ => True

/-- `asyncio_send_buffer` posts before `asyncio_stop` posts the finisher. -/
def PostsUp (s : Stream) : Act → Prop
  | .token k =>
    match (s.tokens[k]?).map Token.pc with
    | some (.sendPost _) => s.ctx .tx = .initialized ∨ s.control = .stopPost .tx
    | _ => True
  | _ => True

/-- What `write_f` returns fits into the byte count that `fn` is given. -/
def Counts (s : Stream) : Act → Prop
  | .work w n =>
    match s.pc w with
    | .txWrite b _ => (s.request b).fn.isSome → n < 2 ^ 32
    | _ => True
  | _ => True

/-- The steps that keep the promise of a send. -/
def Prompt (s : Stream) (a : Act) : Prop := Fresh s a ∧ LoadsUp s a ∧ PostsUp s a ∧ Counts s a

instance : Decidable (LoadsUp s a) := by
  unfold LoadsUp
  split <;> infer_instance

instance : Decidable (PostsUp s a) := by
  unfold PostsUp
  split
  · split <;> infer_instance
  · infer_instance

instance : Decidable (Counts s a) := by
  unfold Counts
  split
  · split <;> infer_instance
  · infer_instance

instance : Decidable (Prompt s a) := inferInstanceAs (Decidable (_ ∧ _))

theorem finish_pend {x : Side} {posts : Bool} {st : InitState} {l : List Kind} (h : PendOK x posts st l)
    (hmem : .finish ∈ l) : posts = false ∧ st = .uninitializing := by
  cases h <;> simp_all

/-- A running finisher is pending until it has had its effect. -/
theorem finisher_running {p : WorkerPc} {x : Side} (h : p.action = some (.finisher x)) :
    p.side = some x ∧ (p.kind = some .finish ∨ p.tail.isStop = true) := by
  cases p with
  | finisherCas y =>
    cases h
    exact ⟨rfl, .inl rfl⟩
  | finisherDestroy y | stopLoad y z | stopStore y | stopSend y =>
    cases h
    exact ⟨rfl, .inr rfl⟩
  | _ => cases h

/-- A finisher in the line was posted by the controller in this stop. -/
theorem Cycled.no_finisher (h : Cycled c s) (hw : c.worker .tx = some w)
    (hup : s.ctx .tx = .initialized ∨ s.control = .stopPost .tx) :
    (s.ctx .tx).on = true ∧ .finisher .tx ∉ (s.tx c).line := by
  have hp := h.inv.parts.used .tx (by rw [hw]; rfl)
  have hpart : (s.view c).part .tx = _ := partOf_of_worker hw
  have hctx : (s.ctx .tx).on = true := by
    rcases hup with hst | hst
    · rw [hst]
      rfl
    · rw [← part_ctx (c := c), h.inv.parts.ctx_of_stopPost (x := .tx) hst (by rw [hw]; rfl)]
      rfl
  refine ⟨hctx, fun hmem => ?_⟩
  -- it is pending: one that has had its effect has left the context off
  have hfin : .finish ∈ ((s.view c).part .tx).pend := by
    rw [hpart]
    simp only [tx, hw, jobs, List.mem_filter, List.mem_append, Option.mem_toList] at hmem
    rcases hmem.1 with ha | ha
    · obtain ⟨hside, hk | ht⟩ := finisher_running ha
      · exact List.mem_append_left _ (by simp [hside, hk])
      · have hoff := hp.stop (by rw [hpart]; simpa [tailOf, hside] using ht)
        rw [part_ctx, hctx] at hoff
        cases hoff
    · refine List.mem_append_right _ (List.mem_filterMap.2 ⟨.finisher .tx, ?_, rfl⟩)
      exact List.mem_filter.2 ⟨ha, by simp [Action.side]⟩
  obtain ⟨habout, hst⟩ := finish_pend hp.pend hfin
  rw [part_ctx] at hst
  rcases hup with hup | hup
  · rw [hup] at hst
    cases hst
  · rw [show (s.view c).control = _ from hup] at habout
    cases habout

/-- The transmit side keeps its promises. -/
structure Keeps (v : Tx) : Prop where
  ahead : Tx.Ahead v.on v.line
  filled : Tx.Filled v.tokens v.request
  told : ∃ done, Tx.Told done v

theorem use_cases {p : WorkerPc} (h : p.use = some k) : ∃ b, p.action = some (.txF b k) := by
  obtain ⟨a, ha, hu⟩ := Option.bind_eq_some_iff.1 h
  cases a with
  | txF b j =>
    cases hu
    exact ⟨b, ha⟩
  | _ => cases hu

/-- The request of the running `tx_f`, before it drops its reference. -/
theorem running (hl : Tx.Lined s.tokens (s.tx c).line (s.tx c).pc) (hf : Tx.Filled s.tokens s.request)
    (hact : (s.tx c).pc.action = some (.txF b k)) (hpc : ∀ b k, (s.tx c).pc ≠ .txEnqueue b k) :
    ∃ t, s.tokens[k]? = some t ∧ t.pc = .queued b ∧ s.request b = t.request := by
  obtain ⟨l, hline⟩ := hl.run hact
  obtain ⟨t, hk, hq⟩ := hl.queued (b := b) (k := k) hpc (by rw [hline]; exact List.mem_cons_self)
  exact ⟨t, hk, hq, hf.fields hk (by rw [hq]; rfl)⟩

/-- **One step**, as the transmit side sees it. -/
theorem step_keeps (hcyc : Cycled c s) (htok : c.worker .tx = none → s.tokens = [])
    (ho : Tx.Owned n (s.pool .tx) s.tokens) (hl : Tx.Lined s.tokens (s.tx c).line (s.tx c).pc)
    (h : Keeps (s.tx c)) (hok : Prompt s a) (hst : TxStep c s a v) : Keeps v := by
  obtain ⟨ha, hf, done, ht⟩ := h
  change Tx.Filled s.tokens s.request at hf
  -- a use that is not waiting for its `tx_f` has none
  have hidle : ∀ {k : ℕ} {t : Token}, s.tokens[k]? = some t → (∀ b, t.pc ≠ .queued b ∧ t.pc ≠ .returning b) →
      (s.tx c).pc.use ≠ some k := by
    intro k t hk hp huse
    obtain ⟨b, hact⟩ := use_cases huse
    obtain ⟨l, hline⟩ := hl.run hact
    exact hl.not_mem (b := b) hk hp (by rw [hline]; exact List.mem_cons_self)
  have hset : ∀ {k : ℕ} {t : Token} {p : Store} {r : ℕ → Request} {t' : Token}, s.tokens[k]? = some t →
      (∀ b, t.pc ≠ .queued b ∧ t.pc ≠ .returning b) → t.pc ≠ .gone →
      ∃ done, Tx.Told done { s.tx c with pool := p, request := r, tokens := s.tokens.set k t' } := by
    intro k t p r t' hk hp hgone
    have hset := ht.setToken hk hgone t' fun huse => absurd huse (hidle hk hp)
    exact ⟨done, hset.congr rfl rfl rfl rfl rfl⟩
  cases hst with
  | keep => exact ⟨ha, hf, done, ht⟩
  | post hj => exact ⟨ha.post hj, hf, done, ht.congr rfl rfl rfl rfl (by simp [hj])⟩
  | create | destroy => exact ⟨ha, hf, done, ht.congr rfl rfl rfl rfl rfl⟩
  | ready => exact ⟨ha.ready, hf, done, ht.congr rfl rfl rfl rfl rfl⟩
  | finish hline =>
    rw [hline] at ha
    exact ⟨hline ▸ ha.finish, hf, done, ht.congr rfl rfl rfl rfl rfl⟩
  | «over» hline hj hpc =>
    rw [hline] at ha
    exact ⟨ha.over, hf, done, ht.congr rfl rfl rfl rfl (by simp [hline, hj])⟩
  | take hline hpc => exact ⟨ha, hf, done, ht.take hline hpc⟩
  | load _ _ hpc =>
    obtain ⟨t, hk, -, -⟩ := running hl hf (by rw [hpc]; rfl) (by rw [hpc]; simp)
    exact ⟨ha, hf, done, ht.load hl hk hpc⟩
  | @drop w n b k hw hi hpc =>
    obtain ⟨t, hk, -, hr⟩ := running hl hf (b := b) (k := k) (by rw [hpc]; rfl) (by rw [hpc]; simp)
    have hfn : t.request.fn = none := by
      have hup := hok.2.1
      simp only [LoadsUp, stepPc, hw, hr] at hup
      by_contra hne
      exact hi (hup (Option.isSome_iff_ne_none.2 hne))
    exact ⟨ha, hf, done, ht.drop hl hk hpc hfn⟩
  | check hpc =>
    obtain ⟨t, hk, -, -⟩ := running hl hf (by rw [hpc]; rfl) (by rw [hpc]; simp)
    exact ⟨ha, hf, done, ht.check hl hk hpc⟩
  | inError hpc =>
    obtain ⟨t, hk, -, -⟩ := running hl hf (by rw [hpc]; rfl) (by rw [hpc]; simp)
    exact ⟨ha, hf, done, ht.inError hl hk hpc⟩
  | @write w n b k hw hpc =>
    obtain ⟨t, hk, -, hr⟩ := running hl hf (b := b) (k := k) (by rw [hpc]; rfl) (by rw [hpc]; simp)
    have hcount := hok.2.2.2
    simp only [Counts, hw] at hcount
    rw [hr] at hcount ⊢
    exact ⟨ha, hf, done, ht.write hl hk hpc hcount⟩
  | @notify w n b k m fn status hpc hfn =>
    obtain ⟨t, hk, -, hr⟩ := running hl hf (b := b) (k := k) (by rw [hpc]; rfl) (by rw [hpc]; simp)
    rw [hr] at hfn ⊢
    exact ⟨ha, hf, done, ht.notify hl hk hpc hfn⟩
  | @silent w n b k m status hpc hfn =>
    obtain ⟨t, hk, -, hr⟩ := running hl hf (b := b) (k := k) (by rw [hpc]; rfl) (by rw [hpc]; simp)
    rw [hr] at hfn
    exact ⟨ha, hf, done, ht.silent hl hk hpc hfn⟩
  | @free w n b k hpc h1 =>
    obtain ⟨t, hk, hq, -⟩ := running hl hf (b := b) (k := k) (by rw [hpc]; rfl) (by rw [hpc]; simp)
    rw [List.modify_set _ hk]
    exact ⟨ha, hf.move rfl rfl, done, ht.free hl hk hpc hq _⟩
  | @freeOdd w n b k _ hpc h1 =>
    obtain ⟨t, hk, hq, -⟩ := running hl hf (b := b) (k := k) (by rw [hpc]; rfl) (by rw [hpc]; simp)
    have hcount := (ho.own hk (b := b) (by rw [hq]; rfl)).2.2
    rw [hq] at hcount
    exact absurd hcount h1
  | @enqueue w n b k l hpc hline =>
    obtain ⟨t, hk, -⟩ := hl.returning hpc
    rw [List.modify_set _ hk]
    have ha' := ha
    rw [hline] at ha'
    exact ⟨ha'.over, hf.move rfl rfl, done ++ [k], ht.over hpc hline hk _⟩
  | allocate _ =>
    refine ⟨ha, hf.allocate rfl rfl, done, ht.allocate ?_ _⟩
    intro huse
    obtain ⟨b, hact⟩ := use_cases huse
    obtain ⟨l, hline⟩ := hl.run hact
    obtain ⟨t, hk, -⟩ := hl.pend (b := b) (k := s.tokens.length) (by rw [hline]; exact List.mem_cons_self)
    have hlt := (List.getElem?_eq_some_iff.1 hk).1
    omega
  | alloc hk hp _ =>
    exact ⟨ha, hf.move rfl rfl, hset hk (by rw [hp]; simp) (by rw [hp]; simp)⟩
  | add hk hp =>
    refine ⟨ha, hf.write ho hk (by rw [hp]; rfl) _ ?_ (by simp [TokenPc.sending]),
      hset hk (by rw [hp]; simp) (by rw [hp]; simp)⟩
    rintro b' ⟨⟩
    exact ⟨rfl, rfl⟩
  | @move a k t pc hk hor =>
    rcases hor with ⟨hp, rfl⟩ | ⟨b, hp, rfl | rfl⟩ | ⟨b, hp, rfl | rfl⟩
    case inr.inl.inl | inr.inl.inr =>
      have hpay := hf.payload hk (b := b) (by rw [hp]; rfl)
      refine ⟨ha, hf.keep ?_ (by simp [TokenPc.sending]), hset hk (by rw [hp]; simp) (by rw [hp]; simp)⟩
      rintro b' ⟨⟩
      exact hpay
    all_goals exact ⟨ha, hf.move rfl rfl, hset hk (by rw [hp]; simp) (by rw [hp]; simp)⟩
  | @fill k b t payload hk hp =>
    refine ⟨ha, hf.write ho hk (by rw [hp]; rfl) _ ?_ ?_, hset hk (by rw [hp]; simp) (by rw [hp]; simp)⟩
    · intro b' hb'
      rw [show t.pc = _ from hp] at hb'
      cases hb'
      exact ⟨rfl, rfl⟩
    · intro b' hb'
      rw [show t.pc = _ from hp] at hb'
      cases hb'
  | @send k b priv size fn t hk hp =>
    have hpay := hf.payload hk (b := b) (by rw [hp]; rfl)
    refine ⟨ha, hf.keep ?_ (by simp [TokenPc.sending]), hset hk (by rw [hp]; simp) (by rw [hp]; simp)⟩
    rintro b' ⟨⟩
    exact hpay
  | @fields k b t hk hp =>
    have hpay := hf.payload hk (b := b) (by rw [hp]; rfl)
    refine ⟨ha, hf.write ho hk (by rw [hp]; rfl) _ (by simp [TokenPc.filling]) ?_,
      hset hk (by rw [hp]; simp) (by rw [hp]; simp)⟩
    rintro b' ⟨⟩
    refine ⟨rfl, ?_⟩
    rw [hpay]
  | @accept k b t hk hp =>
    have hw : ∃ w, c.worker .tx = some w := by
      refine Option.ne_none_iff_exists'.1 fun hnone => ?_
      rw [htok hnone] at hk
      cases hk
    obtain ⟨w, hw⟩ := hw
    have hup := hok.2.2.1
    simp only [PostsUp, hk, Option.map_some, hp] at hup
    obtain ⟨hon, hno⟩ := hcyc.no_finisher hw hup
    have hreq := hf.fields hk (b := b) (by rw [hp]; rfl)
    refine ⟨ha.accept hon hno, hf.keep (by simp [TokenPc.filling]) ?_, done, ht.accept hl hk hp⟩
    rintro b' ⟨⟩
    exact hreq
  | release hk hp _ | released hk hp =>
    exact ⟨ha, hf.move rfl rfl, hset hk (by rw [hp]; simp) (by rw [hp]; simp)⟩
  | releaseOdd hk hp h1 =>
    have hcount := (ho.own hk (by rw [hp]; rfl)).2.2
    rw [hp] at hcount
    exact absurd hcount h1

/-- **In every run** whose steps keep the promise. -/
theorem reach_keeps (h : Sys.Reach (system c) Prompt s) : Keeps (s.tx c) := by
  induction h with
  | init h0 =>
    cases h0
    obtain ⟨hline, hpc⟩ := create_tx (c := c)
    refine ⟨by rw [hline]; exact ⟨List.Pairwise.nil, nofun⟩, ⟨nofun, nofun⟩, [], ?_⟩
    exact ⟨by rw [hline]; rfl, List.nodup_nil, nofun, fun _ _ _ => rfl, by rw [hpc]; nofun, List.nil_sublist _⟩
  | step hr hok hs ih =>
    obtain ⟨ho, hl⟩ := reach_owned (fun _ _ hok => hok.1) hr
    exact step_keeps (reach_cycled hr) (reach_tokens hr) ho hl ih hok
      (step_tx (reach_cycled hr) (reach_tokens hr) hs)

/-- A use in the line can still come to all that it should. -/
theorem story_goes_on {done : List ℕ} (hl : Tx.Lined s.tokens (s.tx c).line (s.tx c).pc) (ht : Tx.Told done (s.tx c))
    (hk : k ∈ (s.tx c).line.filterMap Action.use) :
    ∃ t l, s.tokens[k]? = some t ∧ t.request.Done k (story k (s.tx c).log ++ l) := by
  obtain ⟨a, ha, hu⟩ := List.mem_filterMap.1 hk
  cases a with
  | txF b i =>
    cases Option.some.inj hu
    obtain ⟨t, htok, -⟩ := hl.pend ha
    have hnil : story k (s.tx c).log = [] → ∃ t l, s.tokens[k]? = some t ∧ t.request.Done k (story k (s.tx c).log ++ l) :=
      fun hnil => ⟨t, _, htok, .inr (by rw [hnil, List.nil_append])⟩
    by_cases huse : (s.tx c).pc.use = some k
    · have hst := ht.runs huse htok
      unfold WorkerPc.Stage at hst
      split at hst
      · rename_i es _
        exact ⟨t, es, htok, hst⟩
      · exact hnil hst
    · have hnot : k ∉ done := by
        intro hmem
        have hnodup := ht.nodup
        rw [ht.accepted] at hnodup
        exact (List.nodup_append.1 hnodup).2.2 k hmem k hk rfl
      exact hnil (ht.waits k hnot huse)
  | _ => cases hu

theorem wrote_cases (p : WorkerPc) : p.wrote = [] ∨ ∃ b k, p.wrote = [k] ∧ p.action = some (.txF b k) := by
  cases p with
  | txNotify b k | txFree b k | txEnqueue b k => exact .inr ⟨b, k, rfl, rfl⟩
  | _ => exact .inl rfl

/-- The uses whose own block a worker's step has put at the end of the tx pool's free queue. -/
def returns (s : Stream) (a : Act) (s' : Stream) : List ℕ :=
  match a with
  | .work _ _ => (List.range s.tokens.length).filter fun k =>
      ((s.tokens[k]?).bind (·.pc.block)).any fun b => (s'.pool .tx).free == (s.pool .tx).free ++ [b]
  | _ => []

/-- A stream, with the uses whose blocks have come back to the tx pool through a worker, in order. -/
def returned (c : Config) : Sys.System (Stream × List ℕ) Act :=
  (system c).recorded [] fun s a s' r => r ++ s.returns a s'

/-- Nothing comes back where the free queue did not grow at its end. -/
theorem returns_nil (h : ∀ t ∈ s.tokens, ∀ b, t.pc.block = some b → (s'.pool .tx).free ≠ (s.pool .tx).free ++ [b]) :
    s.returns a s' = [] := by
  cases a with
  | work w m =>
    refine List.filter_eq_nil_iff.2 fun k _ hany => ?_
    obtain ⟨b, hb, heq⟩ := (Option.any_eq_true _ _).1 hany
    obtain ⟨t, hk, hblock⟩ := Option.bind_eq_some_iff.1 hb
    exact h t (List.mem_of_getElem? hk) b hblock (beq_iff_eq.1 heq)
  | _ => rfl

/-- A block that comes to the end of the free queue is the one of a single use. -/
theorem returns_own (ho : Tx.Owned n (s.pool .tx) s.tokens) {m : ℕ} {t : Token} (hk : s.tokens[k]? = some t)
    (hb : t.pc.block = some b) (h : (s'.pool .tx).free = (s.pool .tx).free ++ [b]) :
    s.returns (.work w m) s' = [k] := by
  have hlt : k < s.tokens.length := (List.getElem?_eq_some_iff.1 hk).1
  have honly : ∀ j ∈ List.range s.tokens.length,
      (((s.tokens[j]?).bind (·.pc.block)).any fun b => (s'.pool .tx).free == (s.pool .tx).free ++ [b]) = (j == k) := by
    intro j _
    rw [Bool.eq_iff_iff, Option.any_eq_true, beq_iff_eq]
    constructor
    · rintro ⟨b', hb', heq⟩
      obtain ⟨t', hj, hblock⟩ := Option.bind_eq_some_iff.1 hb'
      rw [h, beq_iff_eq, List.append_cancel_left_eq, List.singleton_inj] at heq
      exact ho.one hj hk hblock (heq ▸ hb)
    · rintro rfl
      exact ⟨b, by rw [hk, Option.bind_some, hb], by rw [h, beq_self_eq_true]⟩
  calc s.returns (.work w m) s'
      = (List.range s.tokens.length).filter (· == k) := List.filter_congr honly
    _ = List.replicate 1 k := by
      rw [List.filter_beq, List.count_eq_one_of_mem List.nodup_range (List.mem_range.2 hlt)]

/-- **One step**: the log has a return where a block has come to the end of the free queue. -/
theorem step_returns (ho : Tx.Owned n (s.pool .tx) s.tokens) (hl : Tx.Lined s.tokens (s.tx c).line (s.tx c).pc)
    (hlive : ∀ b k, (s.tx c).pc = .txEnqueue b k → (s.pool .tx).q.isSome = true) (hok : Fresh s a)
    (hst : TxStep c s a v) (hpool : s'.pool .tx = v.pool) :
    v.log.filterMap Event.backs = (s.tx c).log.filterMap Event.backs ++ s.returns a s' := by
  have hsame : v.pool.free = (s.pool .tx).free → s.returns a s' = [] := by
    intro hfree
    refine returns_nil fun t _ b _ heq => ?_
    rw [hpool, hfree] at heq
    simpa using congrArg List.length heq
  cases hst with
  | keep | post | ready | finish | «over» | take | load | drop | check | inError | silent | free | move =>
    rw [hsame rfl, List.append_nil]
  | write | notify =>
    rw [hsame rfl, List.filterMap_append]
    rfl
  | @create w m hpc =>
    -- no use has a block of the old pool
    have hnone : s.returns (.work w m) s' = [] := returns_nil fun t ht b hb => by
      rw [hok hpc t ht] at hb
      cases hb
    rw [hnone, List.append_nil]
  | @destroy w m =>
    have hnone : s.returns (.work w m) s' = [] := returns_nil fun t _ b _ heq => by
      rw [hpool] at heq
      exact List.append_ne_nil_of_right_ne_nil _ (List.cons_ne_nil b []) heq.symm
    rw [hnone, List.append_nil]
  | @freeOdd _ _ b k _ hpc h1 =>
    obtain ⟨l, hline⟩ := hl.run (b := b) (k := k) (by rw [hpc]; rfl)
    obtain ⟨t, hk, hq⟩ := hl.queued (b := b) (k := k) (by rw [hpc]; simp) (by rw [hline]; exact List.mem_cons_self)
    have hcount := (ho.own hk (b := b) (by rw [hq]; rfl)).2.2
    rw [hq] at hcount
    exact absurd hcount h1
  | @enqueue _ _ b k l hpc hline =>
    obtain ⟨t, hk, hr⟩ := hl.returning hpc
    have hblock : t.pc.block = some b := by rw [hr]; rfl
    obtain ⟨hlt, hfree, -⟩ := ho.own hk hblock
    have hback : (s'.pool .tx).free = (s.pool .tx).free ++ [b] := by
      rw [hpool, (ho.free_enqueue hlt hfree).1, if_pos (hlive b k hpc)]
    rw [returns_own ho hk hblock hback, List.filterMap_append]
    rfl
  | releaseOdd hk hp h1 =>
    have hcount := (ho.own hk (by rw [hp]; rfl)).2.2
    rw [hp] at hcount
    exact absurd hcount h1
  | _ => exact (List.append_nil _).symm

/-- `tx_f` puts a block back while the pool has a queue. -/
theorem Keeps.live (hk : Keeps (s.tx c)) (hcyc : Cycled c s) (hl : Tx.Lined s.tokens (s.tx c).line (s.tx c).pc)
    (hpc : (s.tx c).pc = .txEnqueue b k) : (s.pool .tx).q.isSome = true := by
  obtain ⟨l, hline⟩ := hl.run (b := b) (k := k) (by rw [hpc]; rfl)
  obtain ⟨w, hw⟩ : ∃ w, c.worker .tx = some w := by
    refine Option.ne_none_iff_exists'.1 fun hnone => ?_
    simp only [tx, hnone] at hline
    cases hline
  have hon : (s.ctx .tx).on = true := by
    by_contra hne
    have hoff : (s.ctx .tx).on = false := by simpa using hne
    have huse := hk.ahead.off hoff (.txF b k) (by rw [hline]; exact List.mem_cons_self)
    cases huse
  rw [← part_live (c := c), (hcyc.inv.parts.used .tx (by rw [hw]; rfl)).live, part_ctx]
  exact .inl hon

/-- **In every run** the log has a return for each block that has come back to the pool, in that order. -/
theorem reach_returned {r : List ℕ} (h : Sys.Reach (returned c) (Sys.onState Prompt) (s, r)) :
    r = s.log.filterMap Event.backs := by
  refine Sys.Reach.recorded_inv (I := fun s r => r = s.log.filterMap Event.backs) ?_ ?_ h
  · rintro s rfl
    rfl
  · intro s r a s' hr ih hok hs
    obtain ⟨ho, hl⟩ := reach_owned (fun _ _ hok => hok.1) hr
    have hcyc := reach_cycled hr
    have hst := step_returns ho hl (fun b k hpc => (reach_keeps hr).live hcyc hl hpc) hok.1
      (step_tx hcyc (reach_tokens hr) hs) rfl
    rw [ih, ← backs_tx s.log, ← backs_tx s'.log]
    exact hst.symm

/-- What a send leads to has one return, and it comes last. -/
theorem count_done {req : Request} {es l : List Event} (h : req.Done k (es ++ l)) :
    es.count (.back k) = if l = [] then 1 else 0 := by
  have hlast : ∃ pre : List Event, .back k ∉ pre ∧ es ++ l = pre ++ [.back k] := by
    have htold : ∀ (status : SendStatus) (n : ℕ), .back k ∉ req.told k status n := by
      intro status n
      simp [Request.told]
    rcases h with ⟨n, hdone⟩ | hdone
    · exact ⟨.write k req.size req.payload n :: _, by simp [htold], hdone⟩
    · exact ⟨_, htold _ _, hdone⟩
  obtain ⟨pre, hpre, heq⟩ := hlast
  rcases List.eq_nil_or_concat l with rfl | ⟨l', e, rfl⟩
  · rw [List.append_nil] at heq
    rw [heq, List.count_append, List.count_eq_zero_of_not_mem hpre, if_pos rfl]
    simp
  · rw [List.concat_eq_append, ← List.append_assoc] at heq
    obtain ⟨rfl, -⟩ := List.append_inj' heq rfl
    rw [if_neg (by simp)]
    exact List.count_eq_zero_of_not_mem fun hmem => hpre (List.mem_append_left _ hmem)

/-- **Every accepted send is told once**: nothing happens for a use that was not accepted; what has happened
for an accepted one goes on to all that its send should lead to, and is all of it when `asyncio_stop` has
returned; requests are written in the order of acceptance. `r` has the uses whose blocks were put into the tx
pool's free queue: that of an accepted one once it is told all, and not before, and no other. -/
theorem sends_complete {r : List ℕ} (h : Sys.Reach (returned c) (Sys.onState Prompt) (s, r)) :
    (∀ k, k ∉ s.accepted → story k s.log = [] ∧ k ∉ r) ∧
      (∀ k ∈ s.accepted, ∃ t l, s.tokens[k]? = some t ∧ t.request.Done k (story k s.log ++ l) ∧
        (r.count k = if l = [] then 1 else 0) ∧ (s.control = .down → l = [])) ∧
      (s.log.filterMap Event.writes).Sublist s.accepted ∧ s.accepted.Nodup := by
  have hr := reach_returned h
  have hrun : Sys.Reach (system c) Prompt s := h.of_recorded
  obtain ⟨ha, -, done, ht⟩ := reach_keeps hrun
  obtain ⟨ho, hl⟩ := reach_owned (fun _ _ hok => hok.1) hrun
  have hcyc := reach_cycled hrun
  have hacc : s.accepted = done ++ (s.tx c).line.filterMap Action.use := ht.accepted
  have hstory : ∀ k, story k (s.tx c).log = story k s.log := fun k => story_tx s.log
  have hcount : ∀ k, r.count k = (story k s.log).count (.back k) := fun k => by rw [hr, count_backs]
  refine ⟨?_, ?_, ?_, ht.nodup⟩
  · intro k hk
    rw [hacc, List.mem_append, not_or] at hk
    have hnil : story k s.log = [] := by
      rw [← hstory]
      refine ht.waits k hk.1 fun huse => hk.2 ?_
      obtain ⟨b, hact⟩ := use_cases huse
      obtain ⟨l, hline⟩ := hl.run hact
      rw [hline]
      exact Tx.use_of_mem (b := b) List.mem_cons_self
    refine ⟨hnil, List.count_eq_zero.1 ?_⟩
    rw [hcount, hnil]
    rfl
  · intro k hk
    rw [hacc, List.mem_append] at hk
    rcases hk with hk | hk
    · obtain ⟨t, htok, -, hd⟩ := ht.gone k hk
      rw [hstory] at hd
      have hd : t.request.Done k (story k s.log ++ []) := by rwa [List.append_nil]
      exact ⟨t, [], htok, hd, by rw [hcount, count_done hd], fun _ => rfl⟩
    · obtain ⟨t, l, htok, hd⟩ := story_goes_on hl ht hk
      rw [hstory] at hd
      refine ⟨t, l, htok, hd, by rw [hcount, count_done hd], fun hdown => ?_⟩
      -- the tx side is off, and then no `tx_f` is left
      have hoff : (s.ctx .tx).on = false := by
        rw [← part_ctx (c := c), hcyc.inv.parts.off_of_down hdown]
        rfl
      obtain ⟨a, hmem, hu⟩ := List.mem_filterMap.1 hk
      rw [ha.off hoff a hmem] at hu
      cases hu
  · have hw := ht.writes
    rw [show (s.tx c).log.filterMap Event.writes = _ from writes_tx s.log] at hw
    refine hw.trans ?_
    rw [hacc]
    refine List.Sublist.append_left ?_ _
    rcases wrote_cases (s.tx c).pc with hnil | ⟨b, k, hone, hact⟩
    · rw [hnil]
      exact List.nil_sublist _
    · obtain ⟨l, hline⟩ := hl.run hact
      rw [hone, hline]
      exact List.Sublist.cons_cons _ (List.nil_sublist _)

/-- The first token is sent: five bytes, with a callback. -/
def sendFive : List Act :=
  hold ++ [.fill 0 [1, 2, 3, 4, 5], .send 0 5 (some 7) 9, .token 0, .token 0, .token 0]

/-- `tx_f` runs; `write_f` returns 5. -/
def transmit : List Act := List.replicate 4 (.work 1 5) ++ List.replicate 3 (.work 1 0)

/-- The second token is sent: two bytes, without a callback. -/
def sendTwo : List Act :=
  [.allocate, .token 1, .token 1, .fill 1 [6, 7], .send 1 2 none 0, .token 1, .token 1, .token 1] ++
    List.replicate 4 (.work 1 2) ++ List.replicate 3 (.work 1 0)

/-- Two sends and a stop: both are written, the first is told, and both blocks are back. -/
theorem sends_complete_two :
    ∃ s r, Sys.Reach (returned twoWorkers) (Sys.onState Prompt) (s, r) ∧ s.control = .down ∧ s.accepted = [0, 1] ∧
      r.count 0 = 1 ∧ r.count 1 = 1 ∧
      ∃ t, s.tokens[0]? = some t ∧ t.request = ⟨5, some 7, 9, [1, 2, 3, 4, 5]⟩ ∧ t.request.Done 0 (story 0 s.log) := by
  obtain ⟨s, hs, hp⟩ := reach_of_run (c := twoWorkers) Prompt
    (startUp ++ sendFive ++ transmit ++ sendTwo ++ stopDown ++ destroyFirst ++ [.control])
    (fun s => s.control == .down && s.accepted == [0, 1] &&
      (s.tokens[0]?).map Token.request == some ⟨5, some 7, 9, [1, 2, 3, 4, 5]⟩) (by decide +kernel)
  simp only [Bool.and_eq_true, beq_iff_eq] at hp
  obtain ⟨⟨hdown, hacc⟩, hreq⟩ := hp
  obtain ⟨r, hr⟩ := hs.recorded [] fun s a s' r => r ++ s.returns a s'
  have hall := (sends_complete hr).2.1
  obtain ⟨t, l, hk, hd, hcount, hl⟩ := hall 0 (by rw [hacc]; exact List.mem_cons_self)
  obtain ⟨-, l', -, -, hcount', hl'⟩ := hall 1 (by rw [hacc]; exact List.mem_cons_of_mem _ List.mem_cons_self)
  rw [hk, Option.map_some, Option.some.injEq] at hreq
  rw [hl hdown, List.append_nil] at hd
  rw [hl hdown, if_pos rfl] at hcount
  rw [hl' hdown, if_pos rfl] at hcount'
  exact ⟨s, r, hr, hdown, hacc, hcount, hcount', t, hk, hreq, hd⟩

/-- **A send that is queued when `asyncio_stop` is called is dropped**: its block goes back, and `fn` is never
called. -/
theorem queued_send_is_dropped :
    ∃ s, Sys.Reach (system twoWorkers) Sys.Always s ∧ s.control = .down ∧ s.accepted = [0] ∧
      (s.tokens[0]?).map Token.request = some ⟨5, some 7, 9, [1, 2, 3, 4, 5]⟩ ∧ story 0 s.log = [.back 0] := by
  obtain ⟨s, hs, hp⟩ := reach_of_run (c := twoWorkers) Sys.Always
    (startUp ++ sendFive ++ stopDown ++ List.replicate 4 (.work 1 0) ++ destroyFirst ++ [.control])
    (fun s => s.control == .down && s.accepted == [0] &&
      (s.tokens[0]?).map Token.request == some ⟨5, some 7, 9, [1, 2, 3, 4, 5]⟩ &&
      story 0 s.log == [.back 0]) (by decide +kernel)
  simp only [Bool.and_eq_true, beq_iff_eq] at hp
  obtain ⟨⟨⟨hdown, hacc⟩, hreq⟩, hlog⟩ := hp
  exact ⟨s, hs, hdown, hacc, hreq, hlog⟩

end Stream

end Cutils.Asyncio
