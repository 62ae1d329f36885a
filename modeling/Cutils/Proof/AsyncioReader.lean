import Cutils.Proof.AsyncioLifecycle

/-!
# There is one reader

`rx_f` posts itself again without looking at the state, so a stop finds one either in front of its
finisher or behind it, and the next start may find it still queued. The rows of `PendOK` say that it is
the only one, and that it is gone before the next starter posts another.

* `single_reader`: at most one `rx_f` is live; one is while the rx side runs; none reads without a pool.
-/

namespace Cutils.Asyncio

/-- An `rx_f` that has not posted itself again, and has not decided not to. -/
def WorkerPc.reads : WorkerPc → Bool
  | .rxLoad | .rxAlloc | .rxAdd _ | .rxRead _ | .rxCallback _ _ | .rxPost _ | .rxRetry => true
  | _ => false

def Kind.reads : Kind → Bool
  | .read | .reading => true
  | _ => false

/-- The live `rx_f` actions at worker `w`. -/
def Stream.liveRx (s : Stream) (w : ℕ) : ℕ :=
  (s.queue w).count .rxF + if (s.pc w).reads then 1 else 0

theorem countP_restOf (queue : List Action) : (restOf .rx queue).countP Kind.reads = queue.count .rxF := by
  induction queue with
  | nil => rfl
  | cons a queue ih =>
    have hcons : restOf .rx (a :: queue) =
        (if a.side = .rx then a.kind.toList else []) ++ restOf .rx queue := by
      unfold restOf
      by_cases ha : a.side = .rx
      · cases hk : a.kind <;> simp [ha, hk]
      · simp [ha]
    rw [hcons, List.countP_append, ih]
    cases a with
    | rxF => simp [Action.side, Action.kind, Kind.reads, Nat.add_comm]
    | starter x | finisher x => cases x <;> simp [Action.side, Action.kind, Kind.reads]
    | txF b k => simp [Action.side]

section Rows

variable {b : Bool} {st : InitState} {l : List Kind}

theorem PendOK.reads_le (h : PendOK .rx b st l) : l.countP Kind.reads ≤ 1 := by
  cases h <;> decide

theorem PendOK.reads_on (h : PendOK .rx b .initialized l) (hr : .ready ∉ l) : l.countP Kind.reads = 1 := by
  cases h with
  | onReady => simp at hr
  | onRead => decide
  | onReading => decide

theorem PendOK.reading_on (h : PendOK .rx b st l) (hr : .reading ∈ l) : st.on = true := by
  cases h <;> first | rfl | simp at hr

end Rows

namespace Stream

variable {c : Config} {s : Stream} {w : ℕ} {ok : Stream → Act → Prop}

theorem countP_pend (hw : c.worker .rx = some w) : (s.partOf c .rx).pend.countP Kind.reads = s.liveRx w := by
  rw [partOf_of_worker hw]
  simp only [pendOf, List.countP_append, countP_restOf, liveRx]
  rw [Nat.add_comm]
  congr 1
  cases s.pc w with
  | starterCreate x | starterReady x | finisherCas x => cases x <;> rfl
  | startLoad x | startStore x | startSend x | finisherDestroy x | stopLoad x | stopStore x | stopSend x =>
    cases x <;> rfl
  | _ => rfl

/-- The starter that has stored its context but not posted yet. -/
theorem ready_pend (hw : c.worker .rx = some w) (hr : .ready ∈ (s.partOf c .rx).pend) :
    s.pc w = .starterPost := by
  rw [partOf_of_worker hw] at hr
  simp only [pendOf, List.mem_append] at hr
  rcases hr with hr | hr
  · split at hr
    · cases hpc : s.pc w <;> rw [hpc] at hr <;> simp_all [WorkerPc.kind]
    · cases hr
  · simp only [restOf, List.mem_filterMap] at hr
    obtain ⟨a, -, ha⟩ := hr
    cases a <;> cases ha

/-- **There is one reader**, in every run: at most one `rx_f` is live, and it is on the rx worker;
exactly one is from the time the starter has posted it until the rx side is stopped; `read_f` is called
only while the rx pool exists. -/
theorem single_reader (hw : c.worker .rx = some w) (h : Sys.Reach (system c) ok s) :
    s.liveRx w ≤ 1 ∧ (∀ v, v ≠ w → s.liveRx v = 0) ∧
      (s.ctx .rx = .initialized → s.pc w ≠ .starterPost → s.liveRx w = 1) ∧
      ∀ v b, s.pc v = .rxRead b → (s.pool .rx).q.isSome := by
  have hcyc := reach_cycled h
  have hp := hcyc.inv.parts.used .rx (by rw [hw]; rfl)
  have hpend := hp.pend
  have hcount := countP_pend (s := s) hw
  refine ⟨?_, ?_, ?_, ?_⟩
  · rw [← hcount]
    exact hpend.reads_le
  · -- actions of the rx side are at its worker only
    intro v hv
    have hq : .rxF ∉ s.queue v := fun hmem =>
      hv (Option.some.inj ((hcyc.placed.queue v _ hmem).symm.trans hw))
    have hpc : (s.pc v).reads = false := by
      by_contra hne
      have hside : (s.pc v).side = some .rx := by
        cases hpc : s.pc v <;> rw [hpc] at hne <;> first | rfl | exact absurd rfl hne
      exact hv (Option.some.inj ((hcyc.placed.pc v .rx hside).symm.trans hw))
    rw [liveRx, List.count_eq_zero.2 hq, hpc]
    rfl
  · intro hst hne
    rw [part_ctx, hst] at hpend
    rw [← hcount]
    exact hpend.reads_on fun hr => hne (ready_pend hw hr)
  · -- reading is in the row of a started context, and such a side has its pool
    intro v b hpc
    have hv : c.worker .rx = some v := hcyc.placed.pc v .rx (by rw [hpc]; rfl)
    rw [← part_live (c := c), hp.live]
    refine .inl (hpend.reading_on ?_)
    change .reading ∈ (s.partOf c .rx).pend
    rw [partOf_of_worker hv, hpc]
    exact List.mem_append_left _ (by simp [WorkerPc.side, WorkerPc.kind])

/-- After a second start the one `rx_f` is reading into the first buffer. -/
theorem single_reader_two :
    ∃ s, Sys.Reach (system twoWorkers) Sys.Always s ∧ s.starts = 2 ∧ s.pc 0 = .rxRead 0 ∧
      s.liveRx 0 = 1 ∧ (s.pool .rx).q.isSome := by
  obtain ⟨s, hs, hp⟩ := reach_of_run (c := twoWorkers) Sys.Always
    (startUp ++ stopDown ++ destroyFirst ++ .control :: startUp ++ List.replicate 9 (.work 0 0))
    (fun s => s.starts == 2 && s.pc 0 == .rxRead 0 && s.ctx .rx == .initialized) (by decide +kernel)
  simp only [Bool.and_eq_true, beq_iff_eq] at hp
  obtain ⟨⟨h1, h2⟩, h3⟩ := hp
  have hone := single_reader (c := twoWorkers) (w := 0) rfl hs
  exact ⟨s, hs, h1, h2, hone.2.2.1 h3 (by rw [h2]; simp), hone.2.2.2 0 0 h2⟩

end Stream

end Cutils.Asyncio
