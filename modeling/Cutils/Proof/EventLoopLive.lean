import Cutils.Proof.DispatchLive
import Cutils.Proof.EventLoopOrder

/-!
# Liveness of a state event loop

A fair run: no post that has not returned rests for ever, and neither does a worker that is not at rest, whose client
code comes back. A post's variant is where it is, with that of its `dispatch_async_f` call (`postLeft`). The worker's
counts the events to be taken and what is left of the one at hand (`toServe`); posts do not touch it.

* `event_loop_live`: every post returns and has handed its event over, and the worker comes to have done what
  `serveAll` does to the events handed over.
-/

namespace Cutils.EventLoop

variable {W : Type} {c : Config W} {w : W} {e : Event}

inductive Thread
  | call (i : ℕ)
  | worker
  deriving DecidableEq, Repr

/-- The steps of a thread. -/
def Thread.act : Thread → Act
  | .call i => .call i
  | .worker => .work

def Thread.takes (p : Thread) (a : Option Act) : Prop := a = some p.act

/-- The thread has something to do: a post that has not returned, a worker that is not at rest. -/
def Thread.ready : Thread → Loop c → Prop
  | .call i, s => ∃ p, s.posts[i]? = some p ∧ p.pc.inProgress = true
  | .worker, s => ¬ s.Idle

/-- The steps of a post until it returns. -/
def PostPc.left (q : Dispatch.Queue) : PostPc → ℕ
  | .alloc => 10
  | .add _ => 9
  | .copy _ => 8
  | .stamp _ => 7
  | .dispatch _ => 6
  | .wait _ j => q.callLeft j + 1
  | .returned => 0

namespace Loop

variable {s s' : Loop c} {a : Act}

section Posts

variable {i : ℕ} {p : Post} {ev : Event}

/-- Post `i` is under way with the event `ev`. -/
def Posting (i : ℕ) (ev : Event) (s : Loop c) : Prop :=
  ∃ p, s.posts[i]? = some p ∧ p.pc.inProgress = true ∧ p.event c = ev

/-- Post `i` has returned, and `ev` is handed over. -/
def HandedOver (i : ℕ) (ev : Event) (s : Loop c) : Prop :=
  (s.posts[i]?).map Post.pc = some .returned ∧ ev ∈ s.posted

def postLeft (i : ℕ) (s : Loop c) : ℕ := ((s.posts[i]?).map (·.pc.left s.queue)).getD 0

/-- A post stays where it is while others make their steps. -/
theorem step_stays (hh : Held s) (hok : s'.tripped = false) (hp : s.posts[i]? = some p) (hin : p.pc.inProgress = true)
    (ha : a ≠ .call i) (hs : s.step a = some s') :
    s'.posts[i]? = some p ∧ p.pc.left s'.queue = p.pc.left s.queue := by
  have hother : ∀ {i' : ℕ} (p' : Post), Act.call i' ≠ .call i → (s.posts.set i' p')[i]? = some p := by
    intro i' p' hne
    rw [List.getElem?_set_ne (by rintro rfl; exact hne rfl)]
    exact hp
  -- its call in the dispatch queue stays as well
  have hleft : ∀ {b : Dispatch.Act} {q : Dispatch.Queue}, s.queue.step b = some q →
      (∀ b' j, p.pc = .wait b' j → b ≠ .call j) → p.pc.left q = p.pc.left s.queue := by
    intro b q hq hb
    cases hpc : p.pc with
    | wait b' j =>
      obtain ⟨pc, hk, -⟩ := hh.tied.call hp hpc
      have hk' := Dispatch.Queue.step_calls hk (hb b' j hpc) hq
      simp only [PostPc.left, Dispatch.Queue.callLeft, hk, hk']
    | _ => rfl
  have hcall : ∀ {i' b' j' : ℕ} {p' : Post} {q : Dispatch.Queue}, s.posts[i']? = some p' → p'.pc = .wait b' j' →
      Act.call i' ≠ .call i → s.queue.step (.call j') = some q → p.pc.left q = p.pc.left s.queue := by
    intro i' b' j' p' q hp' hpc' hne hq
    refine hleft hq fun b'' j hpc heq => hne ?_
    obtain rfl : j' = j := by cases heq; rfl
    rw [hh.tied.one hp' hp hpc' hpc]
  cases step_trans hs with
  | post category evt byAction =>
    exact ⟨by rw [List.getElem?_append_left (List.getElem?_eq_some_iff.1 hp).1]; exact hp, rfl⟩
  | alloc hp' hpc' | add hp' hpc' | copy hp' hpc' | stamp hp' hpc' => exact ⟨hother _ ha, rfl⟩
  | allocTrips | foreign => cases hok
  | dispatch hp' hpc' hq => exact ⟨hother _ ha, hleft hq fun _ _ _ => nofun⟩
  | pass hp' hpc' hq => exact ⟨hp, hcall hp' hpc' ha hq⟩
  | handOver hp' hpc' hq | refused hp' hpc' hq => exact ⟨hother _ ha, hcall hp' hpc' ha hq⟩
  | @overwrite i' p' evt hp' hpc' =>
    have hne : i' ≠ i := by
      rintro rfl
      rw [Option.some.inj (hp'.symm.trans hp)] at hpc'
      rw [hpc'] at hin
      cases hin
    exact ⟨by rw [List.getElem?_set_ne hne]; exact hp, rfl⟩
  | take hx hq | turn hx hq => exact ⟨hp, hleft hq fun _ _ _ => nofun⟩
  | load | release | enqueue => exact ⟨hp, rfl⟩
  | @run b exec r hr =>
    cases r with
    | none => cases hok
    | some x => exact ⟨hp, rfl⟩
  | @releaseOdd b s' hx h1 =>
    have ho := hh.owned
    rw [hx] at ho
    exact absurd ho.retainCount h1

/-- **What a step does to a post.** -/
theorem step_posting (hh : Held s) (hok : s'.tripped = false) (hroom : Room s a) (h : Posting i ev s)
    (hs : s.step a = some s') : HandedOver i ev s' ∨ Posting i ev s' ∧ (s'.postLeft i < s.postLeft i ∨
      s'.postLeft i ≤ s.postLeft i ∧ a ≠ .call i) := by
  obtain ⟨p, hp, hin, rfl⟩ := h
  by_cases ha : a = .call i
  · subst ha
    have hgo : ∀ pc : PostPc, s'.posts = s.posts.set i { p with pc := pc } → pc.inProgress = true →
        pc.left s'.queue < p.pc.left s.queue → Posting i (p.event c) s' ∧ s'.postLeft i < s.postLeft i := by
      intro pc hposts hin' hlt
      have hself : s'.posts[i]? = some { p with pc := pc } := by rw [hposts, List.get_set_self hp]
      refine ⟨⟨_, hself, hin', rfl⟩, ?_⟩
      unfold postLeft
      rw [hself, hp]
      exact hlt
    cases step_trans hs with
    | alloc hp' hpc' | add hp' hpc' | copy hp' hpc' | stamp hp' hpc' =>
      obtain rfl := Option.some.inj (hp'.symm.trans hp)
      obtain ⟨hpost, hlt⟩ := hgo _ rfl rfl (by rw [hpc']; exact Nat.lt_succ_self _)
      exact .inr ⟨hpost, .inl hlt⟩
    | allocTrips => cases hok
    | @dispatch _ b p' q hp' hpc' hq =>
      obtain rfl := Option.some.inj (hp'.symm.trans hp)
      obtain ⟨hpost, hlt⟩ := hgo (.wait b s.queue.calls.length) rfl rfl (by
        rw [hpc', Dispatch.Queue.step_post hq]
        simp [PostPc.left, Dispatch.Queue.callLeft, Dispatch.CallPc.stepsLeft])
      exact .inr ⟨hpost, .inl hlt⟩
    | @pass _ b j p' q hp' hpc' hq hr =>
      obtain rfl := Option.some.inj (hp'.symm.trans hp)
      obtain ⟨pc, hk, -⟩ := hh.tied.call hp hpc'
      obtain ⟨-, -, -, -, -, -, -, -, htrip, -⟩ := Dispatch.Queue.step_call hh.tied.queue (room_call hroom hp hpc') hq
      obtain ⟨k', hk', hlt⟩ := Dispatch.Queue.call_progress hk hq (htrip.trans hh.tied.sound)
      refine .inr ⟨⟨p', hp, hin, rfl⟩, .inl ?_⟩
      unfold postLeft
      show ((s.posts[i]?).map (·.pc.left q)).getD 0 < _
      rw [hp]
      simp only [Option.map_some, Option.getD_some, hpc', PostPc.left, Dispatch.Queue.callLeft, hk, hk']
      exact Nat.succ_lt_succ hlt
    | handOver hp' hpc' hq hr =>
      obtain rfl := Option.some.inj (hp'.symm.trans hp)
      refine .inl ⟨?_, List.mem_append_right _ (List.mem_singleton_self _)⟩
      show ((s.posts.set i _)[i]?).map Post.pc = _
      rw [List.get_set_self hp]
      rfl
    | refused hp' hpc' hq hr =>
      obtain ⟨k, pc, hk, -, hcalls, hne, -⟩ :=
        Dispatch.Queue.step_call hh.tied.queue (room_call hroom hp' hpc') hq
      rw [hcalls, List.get_set_self hk] at hr
      exact absurd (Option.some.inj hr) hne
  · obtain ⟨hp', hleft⟩ := step_stays hh hok hp hin ha hs
    refine .inr ⟨⟨p, hp', hin, rfl⟩, .inr ⟨le_of_eq ?_, ha⟩⟩
    unfold postLeft
    rw [hp', hp]
    exact hleft

end Posts

section Serve

variable {events : List Event}

/-- The worker's steps until it has taken `n` events, and is done with the last. -/
def toServe (n : ℕ) (s : Loop c) : ℕ :=
  (2 * c.numMachines + 10) * (n - s.queue.executed.length) + Dispatch.Queue.untilNext s.queue.worker + s.exec.left

/-- The events were handed over first, and the worker has not come to their end. -/
structure ToServe (events : List Event) (s : Loop c) : Prop where
  posted : events <+: s.posted
  behind : s.queue.executed.length < events.length ∨ s.queue.executed.length = events.length ∧ s.exec.block ≠ none

/-- The worker has come to the end of the events, and has no other at hand. -/
structure Served (events : List Event) (s : Loop c) : Prop where
  posted : events <+: s.posted
  executed : s.queue.executed.length = events.length
  exec : s.exec.block = none

/-- A worker that has something to do is not at rest. -/
theorem ToServe.not_idle (h : ToServe events s) (hh : Held s) : ¬ Idle s := by
  intro hidle
  have hlen : s.queue.executed.length = s.posted.length := by
    rw [hh.length, (Dispatch.Queue.reach_inv hh.tied.queue).fifo]
    simp [Dispatch.Queue.pending, hidle.worker, hidle.queue]
  have hle := h.posted.length_le
  rcases h.behind with hlt | ⟨-, hb⟩
  · omega
  · exact hb (by rw [hidle.exec]; rfl)

/-- A step outside of the worker. -/
theorem ToServe.frame (h : ToServe events s) (hposted : s.posted <+: s'.posted)
    (hexecuted : s'.queue.executed = s.queue.executed) (hworker : s'.queue.worker = s.queue.worker)
    (hexec : s'.exec = s.exec) : ToServe events s' ∧ s'.toServe events.length ≤ s.toServe events.length := by
  refine ⟨⟨h.posted.trans hposted, by rw [hexecuted, hexec]; exact h.behind⟩, le_of_eq ?_⟩
  unfold toServe
  rw [hexecuted, hworker, hexec]

/-- A step within `state_event_loop_exec_queue_f`. -/
theorem ToServe.inside (h : ToServe events s) (hposted : s'.posted = s.posted) (hqueue : s'.queue = s.queue)
    (hexec : s'.exec.left < s.exec.left) : Served events s' ∨ ToServe events s' ∧
      s'.toServe events.length < s.toServe events.length := by
  have hlt : s'.toServe events.length < s.toServe events.length := by
    unfold toServe
    rw [hqueue]
    exact Nat.add_lt_add_left hexec _
  have hle : events <+: s'.posted := by rw [hposted]; exact h.posted
  rcases h.behind with hb | ⟨heq, -⟩
  · exact .inr ⟨⟨hle, .inl (by rw [hqueue]; exact hb)⟩, hlt⟩
  · by_cases hx : s'.exec.block = none
    · exact .inl ⟨hle, by rw [hqueue]; exact heq, hx⟩
    · exact .inr ⟨⟨hle, .inr ⟨by rw [hqueue]; exact heq, hx⟩⟩, hlt⟩

theorem Runs.left_lt {b : ℕ} {exec : ExecPc c.numMachines} {r : Option (Serving c)} (hr : Runs s b exec r) :
    exec.left < s.exec.left := by
  cases hr with
  | preProc hx =>
    rw [hx, left_machine]
    exact Nat.lt_succ_self _
  | handle hx | notify hx =>
    rw [hx]
    exact Nat.lt_succ_self _
  | @transition i hx =>
    rw [hx, left_machine]
    have hi := i.isLt
    simp only [ExecPc.left]
    omega

/-- **What a step does to a worker that has something to do.** -/
theorem step_toServe (hh : Held s) (hok : s'.tripped = false) (hroom : Room s a) (h : ToServe events s)
    (hs : s.step a = some s') : Served events s' ∨ ToServe events s' ∧
      (s'.toServe events.length < s.toServe events.length ∨
        s'.toServe events.length ≤ s.toServe events.length ∧ a ≠ .work) := by
  have hframe : ∀ {i : ℕ}, a = .call i → s.posted <+: s'.posted → s'.queue.executed = s.queue.executed →
      s'.queue.worker = s.queue.worker → s'.exec = s.exec → Served events s' ∨ ToServe events s' ∧
        (s'.toServe events.length < s.toServe events.length ∨
          s'.toServe events.length ≤ s.toServe events.length ∧ a ≠ .work) := by
    rintro i rfl hposted hexecuted hworker hexec
    obtain ⟨hserve, hle⟩ := h.frame hposted hexecuted hworker hexec
    exact .inr ⟨hserve, .inr ⟨hle, nofun⟩⟩
  have hinside : s'.posted = s.posted → s'.queue = s.queue → s'.exec.left < s.exec.left → Served events s' ∨
      ToServe events s' ∧ (s'.toServe events.length < s.toServe events.length ∨
        s'.toServe events.length ≤ s.toServe events.length ∧ a ≠ .work) :=
    fun hposted hqueue hexec => (h.inside hposted hqueue hexec).imp_right fun ⟨hserve, hlt⟩ => ⟨hserve, .inl hlt⟩
  -- between two events the worker has not taken all of them
  have hbetween : s.exec.block = none → s.queue.executed.length < events.length := by
    intro hx
    exact h.behind.resolve_right fun hb => hb.2 hx
  cases step_trans hs with
  | post category evt byAction => exact .inr ⟨⟨h.posted, h.behind⟩, .inr ⟨Nat.le_refl _, nofun⟩⟩
  | overwrite evt hp hpc => exact .inr ⟨⟨h.posted, h.behind⟩, .inr ⟨Nat.le_refl _, nofun⟩⟩
  | alloc | add | copy | stamp => exact hframe rfl (List.prefix_refl _) rfl rfl rfl
  | allocTrips | foreign => cases hok
  | dispatch hp hpc hq =>
    rw [Dispatch.Queue.step_post hq] at hframe ⊢
    exact hframe rfl (List.prefix_refl _) rfl rfl rfl
  | pass hp hpc hq hr =>
    obtain ⟨k, pc, -, -, -, -, hexec, hworker, -⟩ :=
      Dispatch.Queue.step_call hh.tied.queue (room_call hroom hp hpc) hq
    exact hframe rfl (List.prefix_refl _) hexec hworker rfl
  | handOver hp hpc hq hr =>
    obtain ⟨k, pc, -, -, -, -, hexec, hworker, -⟩ :=
      Dispatch.Queue.step_call hh.tied.queue (room_call hroom hp hpc) hq
    exact hframe rfl (List.prefix_append ..) hexec hworker rfl
  | refused hp hpc hq hr =>
    obtain ⟨k, pc, -, -, -, -, hexec, hworker, -⟩ :=
      Dispatch.Queue.step_call hh.tied.queue (room_call hroom hp hpc) hq
    exact hframe rfl (List.prefix_refl _) hexec hworker rfl
  | @take d q hx hq hw =>
    have hlt := hbetween hx
    obtain ⟨-, hlen, -⟩ := hh.take hx hq hw
    obtain ⟨-, -, -, hrun, -⟩ := Dispatch.Queue.step_worker hq
    refine .inr ⟨⟨h.posted, ?_⟩, .inl ?_⟩
    · rcases Nat.lt_or_eq_of_le hlt with hlt | heq
      · exact .inl (by show q.executed.length < _; omega)
      · exact .inr ⟨by show q.executed.length = _; omega, nofun⟩
    · unfold toServe
      dsimp only
      rw [hlen, (hrun d hw).2, hw]
      obtain ⟨k, hk⟩ := Nat.exists_eq_add_of_lt hlt
      rw [show events.length - s.queue.executed.length = k + 1 by omega,
        show events.length - (s.queue.executed.length + 1) = k by omega, Nat.mul_succ]
      simp only [Dispatch.Queue.untilNext, ExecPc.left]
      omega
  | @turn q hx hq hw =>
    have hlt := hbetween hx
    obtain ⟨hexec, -⟩ := hh.turn hx hq hw
    obtain ⟨hsig, hex⟩ := Dispatch.Queue.reach_working hh.tied.queue
    refine .inr ⟨⟨h.posted, .inl (by show q.executed.length < _; rw [hexec]; exact hlt)⟩, .inl ?_⟩
    have hworker : Dispatch.Queue.untilNext q.worker < Dispatch.Queue.untilNext s.queue.worker := by
      cases Dispatch.Queue.step_trans hq with
      | run b hw' => exact absurd hw' (hw b)
      | takeKill rest hw' hq' =>
        exact absurd (by rw [hq']; exact List.mem_cons_self) (Dispatch.Queue.reach_open hh.tied.queue).queue
      | exit hw' => exact absurd hw' hsig
      | take b rest hw' | finish b hw' | free b hw' =>
        rw [hw']
        exact Nat.lt_succ_self _
    unfold toServe
    dsimp only
    rw [hexec]
    simp only [ExecPc.left]
    omega
  | load hx | release hx | enqueue hx => exact hinside rfl rfl (by rw [hx]; exact Nat.lt_succ_self _)
  | @run b exec r hr =>
    cases r with
    | none => cases hok
    | some x => exact hinside rfl rfl hr.left_lt
  | @releaseOdd b s' hx h1 =>
    have ho := hh.owned
    rw [hx] at ho
    exact absurd ho.retainCount h1

end Serve

/-- **Liveness.** In every fair run, finite or infinite, within `Room`: every post that is under way returns, with its
event handed over; and at any time the worker will have done, all of it and no more, what `serveAll` does to the events
that are handed over by then. -/
theorem event_loop_live (hc : c.OK) (r : Sys.Run (system c w e).resting (Sys.awake Room))
    (hfair : r.Fair Thread.ready Thread.takes) :
    (∀ t i p, (r.state t).posts[i]? = some p → p.pc.inProgress = true →
      ∃ t' ≥ t, HandedOver i (p.event c) (r.state t')) ∧
    ∀ t, ∃ t' ≥ t, ∃ ev, (start c w e).bind (serveAll · (r.state t).posted) =
      some ⟨(r.state t').machines, (r.state t').world, ev, (r.state t').log⟩ := by
  have hreach : ∀ t, Sys.Reach (system c w e) Room (r.state t) := fun t => (r.reach t).of_resting
  have hsound : ∀ {s s' : Loop c} {a : Act}, Sys.Reach (system c w e) Room s → Room s a → s.step a = some s' →
      s'.tripped = false := fun hr hroom hs => (reach_follows hc (hr.step hroom hs)).2.sound
  refine ⟨?_, ?_⟩
  · intro t i p hp hin
    refine r.leads Thread.act hfair (Posting i (p.event c)) (HandedOver i (p.event c)) (postLeft i)
      (fun thread _ => thread = .call i) ?_ ?_ ?_ ⟨p, hp, hin, rfl⟩
    · exact fun s _ _ => ⟨_, rfl⟩
    · rintro s thread - ⟨p', hp', hin', -⟩ rfl
      exact ⟨p', hp', hin'⟩
    · intro s a s' hr hpost hroom hs
      refine (step_posting (reach_follows hc hr).1 (hsound hr hroom hs) hroom hpost hs).imp_right ?_
      rintro ⟨hpost', hm⟩
      refine ⟨hpost', hm.imp_right fun hle => ⟨hle.1, ?_⟩⟩
      rintro thread rfl
      exact ⟨hle.2, rfl⟩
  · intro t
    obtain ⟨hh, -⟩ := reach_follows hc (hreach t)
    suffices hserved : ∃ t' ≥ t, Served (r.state t).posted (r.state t') by
      obtain ⟨t', hle, hs⟩ := hserved
      obtain ⟨ev, hev⟩ := (reach_follows hc (hreach t')).2.rest hs.exec
      refine ⟨t', hle, ev, ?_⟩
      rw [← hev, sequential, hs.executed, ← List.prefix_iff_eq_take.1 hs.posted]
    have hle := hh.executed_le
    by_cases hdone : (r.state t).queue.executed.length = (r.state t).posted.length ∧ (r.state t).exec.block = none
    · exact ⟨t, Nat.le_refl t, List.prefix_refl _, hdone.1, hdone.2⟩
    · have hserve : ToServe (r.state t).posted (r.state t) := by
        refine ⟨List.prefix_refl _, ?_⟩
        rcases Nat.lt_or_eq_of_le hle with hlt | heq
        · exact .inl hlt
        · exact .inr ⟨heq, fun hx => hdone ⟨heq, hx⟩⟩
      refine r.leads Thread.act hfair (ToServe (r.state t).posted) (Served (r.state t).posted)
        (toServe (r.state t).posted.length) (fun thread _ => thread = .worker) ?_ ?_ ?_ hserve
      · exact fun s _ _ => ⟨_, rfl⟩
      · rintro s thread hr h rfl
        exact h.not_idle (reach_follows hc hr).1
      · intro s a s' hr h hroom hs
        refine (step_toServe (reach_follows hc hr).1 (hsound hr hroom hs) hroom h hs).imp_right ?_
        rintro ⟨h', hm⟩
        refine ⟨h', hm.imp_right fun hle => ⟨hle.1, ?_⟩⟩
        rintro thread rfl
        exact ⟨hle.2, rfl⟩

/-- Two threads post, and the run comes to an end. -/
theorem event_loop_live_two : ∃ r : Sys.Run (system twoStates 0 ⟨0, 0, 0, []⟩).resting (Sys.awake Room),
    r.Fair Thread.ready Thread.takes ∧ ∃ t ev, (start twoStates 0 ⟨0, 0, 0, []⟩).bind
      (serveAll · [⟨0, 7, 0, [1, 2]⟩, ⟨0, 7, 0, [1]⟩]) =
        some ⟨(r.state t).machines, (r.state t).world, ev, (r.state t).log⟩ := by
  obtain ⟨x, hx⟩ : ∃ x, start twoStates 0 ⟨0, 0, 0, []⟩ = some x := Option.isSome_iff_exists.1 (by decide)
  have hinit : (system twoStates 0 ⟨0, 0, 0, []⟩).init (create x (fun _ => (0, ⟨0, 0, 0⟩)) fun _ => ⟨0, 0, 0, []⟩) :=
    ⟨x, _, _, hx, rfl⟩
  have htrace : ((start twoStates 0 ⟨0, 0, 0, []⟩).bind fun x =>
      (Sys.exec (system twoStates 0 ⟨0, 0, 0, []⟩) (fun s a => s.roomy a = true)
        (create x (fun _ => (0, ⟨0, 0, 0⟩)) fun _ => ⟨0, 0, 0, []⟩) twoPosts).map fun s =>
      s.posted == [⟨0, 7, 0, [1, 2]⟩, ⟨0, 7, 0, [1]⟩] && s.exec == .idle && s.queue.worker == .dequeue &&
        s.queue.queue == [] && s.posts.all (·.pc == .returned)) = some true := by
    decide +kernel
  rw [hx, Option.bind_some] at htrace
  obtain ⟨s, hs, hend⟩ := (Sys.Reach.init hinit).of_trace htrace
  simp only [Bool.and_eq_true, beq_iff_eq, List.all_eq_true] at hend
  obtain ⟨⟨⟨⟨hposted, hexec⟩, hworker⟩, hqueue⟩, hback⟩ := hend
  obtain ⟨r, t, hr⟩ := (hs.mono room_of_roomy).rest
  have hfair : r.Fair Thread.ready Thread.takes := by
    refine r.fair_of_rest (fun t' ht' => (hr t' ht').1) ?_
    rintro (i | _)
    · rintro ⟨p, hp, hin⟩
      rw [hback p (List.mem_of_getElem? hp)] at hin
      cases hin
    · exact fun hidle => hidle ⟨hexec, hworker, hqueue⟩
  obtain ⟨t', -, ev, hev⟩ := (event_loop_live twoStates_ok r hfair).2 t
  rw [(hr t (Nat.le_refl t)).1, hposted] at hev
  exact ⟨r, hfair, t', ev, hev⟩

end Loop

end Cutils.EventLoop
