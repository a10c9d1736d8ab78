import ConArtist.Job.Waiting

/-!
# Shutting down

`stop(1)` joins the workers, which go on delivering jobs to the completed rings. When
nobody pops, they can only finish if the rings have room for all that is on its way.
The room is needed channel by channel: shutdown makes progress in every continuation
exactly when no channel has a load above its capacity.
-/

namespace ConArtist

namespace Job

open Machine ConArtist.Job.Flow

/-- How much a worker has left to do with the job it holds. -/
def Worker.weight : Worker → ℕ
  | .ready => 1
  | .running _ => 3
  | .done _ => 2
  | _ => 0

namespace JobManager

/-- What the workers can still do on their own. -/
def work (m : JobManager) : ℕ := 4 * m.pending.count + (m.workers.map Worker.weight).sum

variable {m m' : JobManager}

theorem work_lt {i : ℕ} {w w' : Worker} (hworker : m.workers[i]? = some w)
    (hworkers : m'.workers = m.workers.set i w')
    (hless : 4 * m'.pending.count + w'.weight < 4 * m.pending.count + w.weight) :
    m'.work < m.work := by
  have hsum := CondVar.sum_map_set (g := Worker.weight) hworker w'
  rw [work, work, hworkers]
  omega

theorem work_workerMove {i : ℕ} (hmove : m.WorkerMove i m') : m'.work < m.work := by
  cases hmove with
  | waits hworker hnone hrunning => exact work_lt hworker rfl (by simp [Worker.weight])
  | exits hworker hnone hstopping => exact work_lt hworker rfl (by simp [Worker.weight])
  | takes job pending hworker hpop =>
      have hcount := RingBuffer.count_of_pop hpop
      exact work_lt hworker rfl (by simp only [Worker.weight]; omega)
  | runs job hworker => exact work_lt hworker rfl (by simp [Worker.weight])
  | blocks c job ring hworker hchannel hring hfull =>
      exact work_lt hworker rfl (by simp [Worker.weight])
  | delivers c job ring ring' clients wake hworker hchannel hring hpush hsignal =>
      exact work_lt hworker rfl (by simp [Worker.weight])

theorem workerStep_spec {i wake : ℕ} (hrec : m.flow.Recorded)
    (h : m.workerStep i wake = some m') :
    m'.work < m.work ∧ m'.stopping = m.stopping ∧
      ∀ channel, m'.load channel = m.load channel ∧ m'.capacity channel = m.capacity channel := by
  have hmoves := workerStep_moves hrec h
  clear h
  induction hmoves with
  | single hmove =>
      exact ⟨work_workerMove hmove, stopping_workerMove hmove, load_workerMove hmove⟩
  | tail _ hmove ih =>
      obtain ⟨hwork, hstop, hload⟩ := ih
      refine ⟨(work_workerMove hmove).trans hwork, (stopping_workerMove hmove).trans hstop,
        fun channel => ?_⟩
      have hlast := load_workerMove hmove channel
      exact ⟨hlast.1.trans (hload channel).1, hlast.2.trans (hload channel).2⟩

theorem exists_exhausted (hs : Sound m) : ∃ actions n,
    (∀ a ∈ actions, ∃ i wake, a = .worker i wake) ∧ run step m actions = some n ∧ Sound n ∧
      (∀ channel, n.load channel = m.load channel ∧ n.capacity channel = m.capacity channel) ∧
      ∀ i wake, n.workerStep i wake = none := by
  induction hwork : m.work using Nat.strong_induction_on generalizing m with
  | _ k ih =>
      by_cases hstuck : ∀ i wake, m.workerStep i wake = none
      · exact ⟨[], m, by simp, rfl, hs, fun _ => ⟨rfl, rfl⟩, hstuck⟩
      · simp only [not_forall] at hstuck
        obtain ⟨i, wake, hsome⟩ := hstuck
        obtain ⟨m', hm'⟩ := Option.ne_none_iff_exists'.mp hsome
        obtain ⟨hless, -, hload⟩ := workerStep_spec hs.recorded hm'
        have hstep : step m (.worker i wake) = some m' := hm'
        obtain ⟨actions, n, hworkers, hrun, hn, hload', hend⟩ :=
          ih m'.work (hwork ▸ hless) (hs.step hstep) rfl
        refine ⟨.worker i wake :: actions, n, ?_, ?_, hn, fun channel => ?_, hend⟩
        · intro a ha
          rcases List.mem_cons.mp ha with rfl | ha
          · exact ⟨i, wake, rfl⟩
          · exact hworkers a ha
        · exact (run_cons_eq_some step).mpr ⟨m', hstep, hrun⟩
        · exact ⟨(hload' channel).1.trans (hload channel).1,
            (hload' channel).2.trans (hload channel).2⟩

theorem stock_le_capacity (m : JobManager) (channel : ℤ) :
    m.stock channel ≤ m.capacity channel := by
  rw [stock, capacity]
  rcases m.completedRing channel with _ | ring
  · exact le_rfl
  · exact ring.count_le

theorem coming_pos {w : Worker} (hw : w ∈ m.workers) {channel : ℤ}
    (hholds : w.holds channel = true) : 0 < m.coming channel :=
  Nat.add_pos_right _ (List.countP_pos_iff.mpr ⟨w, hw, hholds⟩)

/-- A worker with a finished job can take a step, if the channel is initialised. -/
theorem exists_step_of_done (hs : Sound m) {job : JobRecord}
    (hdone : Worker.done job ∈ m.workers) (hcapacity : 0 < m.capacity job.channel) :
    ∃ i wake m', m.workerStep i wake = some m' := by
  obtain ⟨i, hworker⟩ := List.mem_iff_getElem?.mp hdone
  rw [capacity] at hcapacity
  rcases hring : m.completedRing job.channel with _ | ring
  · rw [hring] at hcapacity
    exact absurd hcapacity (Nat.lt_irrefl 0)
  · obtain ⟨wake, m', hstep, -⟩ := exists_complete hworker (jobFn_ne_of_held hs hworker rfl) hring
    exact ⟨i, wake, m', hstep⟩

end JobManager

/-- All workers have exited, or one of them can take a step. -/
def ShutdownProgress (m : JobManager) : Prop :=
  (∀ w ∈ m.workers, w = .exited) ∨ ∃ i wake m', m.workerStep i wake = some m'

theorem shutdownProgress_of_load {m : JobManager} (hs : Sound m) (hstop : m.stopping = true)
    (hload : ∀ channel, m.load channel ≤ m.capacity channel) : ShutdownProgress m := by
  by_cases hexited : ∀ w ∈ m.workers, w = .exited
  · exact Or.inl hexited
  · refine Or.inr ?_
    simp only [not_forall] at hexited
    obtain ⟨w, hw, hne⟩ := hexited
    obtain ⟨i, hworker⟩ := List.mem_iff_getElem?.mp hw
    cases w with
    | ready =>
        obtain ⟨m', hloop, -⟩ := m.exists_loopHead i
        exact ⟨i, 0, m', by simp only [JobManager.workerStep, hworker, hloop]⟩
    | waitingJobs => exact absurd hw (hs.standing.awake hstop)
    | running job =>
        exact ⟨i, 0, _, JobManager.workerStep_running hworker 0⟩
    | done job =>
        have hpos := JobManager.coming_pos hw (decide_eq_true (rfl : job.channel = job.channel))
        refine JobManager.exists_step_of_done hs hw ?_
        exact hpos.trans_le ((Nat.le_add_right _ _).trans (hload job.channel))
    | waitingRoom job =>
        have hpos := JobManager.coming_pos hw (decide_eq_true (rfl : job.channel = job.channel))
        have hle := hload job.channel
        obtain ⟨c, ring, hchannel, hring, -⟩ := hs.standing.room job hw
        have hget := JobManager.completedRing_eq_some.mpr ⟨c, hchannel, hring⟩
        have hcapacity : m.capacity job.channel = ring.capacity := by
          rw [JobManager.capacity, hget, Option.elim_some]
        rw [JobManager.load, JobManager.stock, hget, Option.elim_some, hcapacity] at hle
        -- the ring is not full, so that another worker is about to deliver there
        obtain ⟨job', hmem, hsame⟩ := hs.standing.exists_done hw hget (by omega)
        refine JobManager.exists_step_of_done hs hmem ?_
        rw [hsame, hcapacity]
        exact ring.capacity_pos
    | exited => exact absurd rfl hne

theorem load_stop (m : JobManager) (client : ℕ) (channel : ℤ) :
    (m.stop client true).load channel = m.load channel ∧
      (m.stop client true).capacity channel = m.capacity channel := by
  rw [JobManager.stop]
  split
  · exact ⟨rfl, rfl⟩
  · refine ⟨congrArg (· + m.stock channel) (JobManager.coming_congr rfl ?_), rfl⟩
    dsimp only
    rw [CondVar.countP_broadcast fun t t' hwait => ?_,
      CondVar.countP_broadcast fun t t' hwait => ?_]
    · rw [Worker.holds, Worker.holds, JobManager.held_onHasJobs t t' hwait]
    · rw [Worker.holds, Worker.holds, JobManager.held_onRoomCompleted _ t t' hwait]

/-- The thread whose action may take a completed job. -/
def Action.popper : Action → Option ℕ
  | .call client (.popCompleted _ _) _ => some client
  | .call client (.popCompletedWait _ _) _ => some client
  | .resume client _ => some client
  | _ => none

/-- Every continuation in which only the thread `client` pops leaves all workers exited
or some worker with a step to take. -/
def NeverStuck (client : ℕ) (m : JobManager) : Prop :=
  ∀ actions n, (∀ a ∈ actions, ∀ k, a.popper = some k → k = client) →
    run step m actions = some n → ShutdownProgress n

/-- After a `stop(1)` from any reachable state, by the only thread that pops, the
workers never get stuck exactly when no channel has more jobs pending, in hand and
completed than its completed capacity, which is none for a channel that is not
initialised. -/
theorem shutdownProgress_iff {m m' : JobManager} {client wake : ℕ} (hm : Reachable m)
    (hstop : step m (.call client (.stop true) wake) = some m') :
    NeverStuck client m' ↔ ∀ channel, m.load channel ≤ m.capacity channel := by
  have hs' := hm.sound.step hstop
  have hm' : m' = m.stop client true := by
    rw [step] at hstop
    split at hstop
    · exact (Option.some.inj hstop).symm
    · cases hstop
  have hstopping : m'.stopping = true := by
    rw [hm', JobManager.stop]
    split
    · assumption
    · rfl
  have hloads : ∀ channel, m'.load channel = m.load channel ∧
      m'.capacity channel = m.capacity channel := hm' ▸ load_stop m client
  constructor
  · intro hprogress channel
    obtain ⟨actions, n, hworkers, hrun, hn, hkeep, hend⟩ := JobManager.exists_exhausted hs'
    have hpoppers : ∀ a ∈ actions, ∀ k, a.popper = some k → k = client := by
      intro a ha k hk
      obtain ⟨i, wake, rfl⟩ := hworkers a ha
      cases hk
    rcases hprogress actions n hpoppers hrun with hexited | ⟨i, wake, m'', hstep⟩
    · have hnone := (JobManager.coming_of_exited hn hexited channel).2
      calc m.load channel = n.load channel := ((hkeep channel).1.trans (hloads channel).1).symm
        _ = n.stock channel := by rw [JobManager.load, hnone, Nat.zero_add]
        _ ≤ n.capacity channel := n.stock_le_capacity channel
        _ = m.capacity channel := (hkeep channel).2.trans (hloads channel).2
    · rw [hend i wake] at hstep
      cases hstep
  · intro hload actions n _ hrun
    obtain ⟨hn, hlight⟩ := JobManager.lighter_run hs' hstopping hrun
    refine shutdownProgress_of_load hn hlight.stopping fun channel => ?_
    calc n.load channel ≤ m'.load channel := hlight.load channel
      _ ≤ m'.capacity channel := by
        rw [(hloads channel).1, (hloads channel).2]
        exact hload channel
      _ ≤ n.capacity channel := hlight.capacity channel

/-- One channel, one worker and no job. -/
def quietManager : JobManager := ((newManager 1 1 4 1).initChannel 1).2

theorem shutdownProgress_quietManager : NeverStuck 0 (quietManager.stop 0 true) := by
  have hm : Reachable quietManager := ⟨1, 1, 4, 1, [.call 0 (.initChannel 1) 0], rfl⟩
  have hstop : step quietManager (.call 0 (.stop true) 0) = some (quietManager.stop 0 true) := rfl
  refine (shutdownProgress_iff hm hstop).mpr fun channel => ?_
  have hcoming : quietManager.coming channel = 0 := rfl
  rw [JobManager.load, hcoming, Nat.zero_add]
  exact quietManager.stock_le_capacity channel

/-- Two jobs for a ring of one slot: the worker finishes both, and waits for room that
the thread in `stop` does not make. -/
theorem shutdown_deadlock : ∃ m m' n,
    run step (newManager 1 1 4 1) [.call 0 (.initChannel 1) 0, .call 0 (.submit 0 1 2 0) 0,
      .call 0 (.submit 0 1 2 0) 0] = some m ∧
    step m (.call 0 (.stop true) 0) = some m' ∧
    run step m' [.worker 0 0, .worker 0 0, .worker 0 0, .worker 0 0, .worker 0 0] = some n ∧
    ¬ ShutdownProgress n := by
  refine ⟨_, _, _, rfl, rfl, rfl, ?_⟩
  rintro (hexited | ⟨i, wake, m', hstep⟩)
  · exact absurd (hexited _ List.mem_cons_self) (by simp)
  · cases i <;> cases hstep

end Job

end ConArtist
