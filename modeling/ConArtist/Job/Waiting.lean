import ConArtist.Job.Load

/-!
# When a waiter gives up

`pop_completed_wait` returns -1 after a stop, when its ring is empty and nothing is
pending. Its exit test does not see the jobs in the hands of the workers. Nothing
more comes on the channel exactly when no worker holds a job of it.
-/

namespace ConArtist

namespace Job

open Machine ConArtist.Job.Flow

namespace JobManager

variable {m m' : JobManager}

theorem stopping_step {a : Action} (hs : Sound m) (hstop : m.stopping = true)
    (h : step m a = some m') : m'.stopping = true :=
  step_invariant (P := fun n => n.stopping = true) (fun _ _ => stopping_transition)
    (fun _ _ _ _ hn _ => hn) hs.recorded hstop h

/-- `n` is stopping, and no channel has a larger load or a smaller capacity than in `m`. -/
structure Lighter (m n : JobManager) : Prop where
  stopping : n.stopping = true
  load : ∀ channel, n.load channel ≤ m.load channel
  capacity : ∀ channel, m.capacity channel ≤ n.capacity channel

theorem Lighter.refl (hstop : m.stopping = true) : Lighter m m :=
  ⟨hstop, fun _ => le_rfl, fun _ => le_rfl⟩

theorem Lighter.transition {n n' : JobManager} (h : Lighter m n) (ht : Transition n n') :
    Lighter m n' where
  stopping := stopping_transition h.stopping ht
  load channel := (load_transition h.stopping ht channel).1.trans (h.load channel)
  capacity channel := (h.capacity channel).trans (load_transition h.stopping ht channel).2

theorem lighter_run {actions : List Action} (hs : Sound m) (hstop : m.stopping = true)
    (h : run step m actions = some m') : Sound m' ∧ Lighter m m' := by
  refine run_invariant step (fun n a n' (hn : Sound n ∧ Lighter m n) hstep => ?_) actions
    ⟨hs, Lighter.refl hstop⟩ h
  refine ⟨hn.1.step hstep, step_invariant (P := Lighter m) (fun _ _ => Lighter.transition)
    (fun _ _ _ _ hlight _ => ⟨hlight.stopping, hlight.load, hlight.capacity⟩)
    hn.1.recorded hn.2 hstep⟩

theorem exists_loopHead (m : JobManager) (i : ℕ) :
    ∃ m', m.loopHead i = some m' ∧ m'.completed = m.completed := by
  rw [loopHead]
  split
  case isTrue => exact ⟨_, rfl, rfl⟩
  case isFalse hpark =>
    split
    case isTrue => exact ⟨_, rfl, rfl⟩
    case isFalse hexit =>
      rcases pop_cases m.pending 0 with ⟨hzero, -⟩ | ⟨job, pending, -, hpop, -⟩
      · rcases hstop : m.stopping with _ | _
        · exact absurd ⟨hzero, by rw [hstop]; exact Bool.false_ne_true⟩ hpark
        · exact absurd ⟨hstop, hzero⟩ hexit
      · rw [hpop]
        exact ⟨_, rfl, rfl⟩

/-- A worker with a finished job can always take its step, and when there is room it
delivers the job. -/
theorem exists_complete {i : ℕ} {job : JobRecord} {ring : Ring}
    (hworker : m.workers[i]? = some (.done job)) (hfn : job.jobFn ≠ 0)
    (hring : m.completedRing job.channel = some ring) :
    ∃ wake m', m.workerStep i wake = some m' ∧ (ring.count ≠ ring.capacity →
      ∃ ring', m'.completedRing job.channel = some ring' ∧ ring'.count = ring.count + 1) := by
  have hstep := workerStep_done hworker
  by_cases hfull : ring.count = ring.capacity
  · refine ⟨0, { m with workers := m.workers.set i (.waitingRoom job) }, ?_,
      fun hroom => absurd hfull hroom⟩
    rw [hstep, complete, hring]
    exact if_pos hfull
  · rcases hpush : RingBuffer.push ring job with _ | ring'
    · exact absurd (RingBuffer.push_eq_none.mp hpush) hfull
    · obtain ⟨wake, clients, hsignal⟩ :=
        CondVar.exists_signal (onHasCompleted (· = job.channel)) m.clients
      obtain ⟨c, hchannel, hc⟩ := completedRing_eq_some.mp hring
      have hcount := RingBuffer.count_of_push hpush
      obtain ⟨m', hloop, hcompleted⟩ := exists_loopHead { m with
        completed := m.completed.set job.channel.toNat ring'
        clients := clients
        workers := m.workers.set i .ready } i
      refine ⟨wake, m', ?_, fun _ => ⟨ring', ?_, hcount⟩⟩
      · rw [hstep, complete, hring, Option.bind_eq_bind, Option.bind_some, if_neg hfull, if_neg hfn,
          Ring.push, hpush, Option.bind_some, hsignal]
        exact hloop
      · rw [hchannel, Int.toNat_natCast] at hcompleted
        rw [completedRing_set hc hcompleted, if_pos hchannel]

theorem holds_eq_true {w : Worker} {channel : ℤ} (h : w.holds channel = true) :
    ∃ job, job.channel = channel ∧ (w = .running job ∨ w = .done job ∨ w = .waitingRoom job) := by
  cases w with
  | running job => exact ⟨job, of_decide_eq_true h, Or.inl rfl⟩
  | done job => exact ⟨job, of_decide_eq_true h, Or.inr (Or.inl rfl)⟩
  | waitingRoom job => exact ⟨job, of_decide_eq_true h, Or.inr (Or.inr rfl)⟩
  | _ => cases h

theorem jobFn_ne_of_held (hs : Sound m) {i : ℕ} {w : Worker} (hworker : m.workers[i]? = some w)
    {job : JobRecord} {called : Bool} (hheld : w.held = some (job, called)) : job.jobFn ≠ 0 := by
  have hget : m.flow.held[i]? = some (some (job, called)) := by
    rw [flow, List.getElem?_map, hworker, Option.map_some, hheld]
  exact hs.recorded.jobFn_ne (hs.recorded.held i job called hget).1

theorem exists_delivery_of_done (hs : Sound m) {job : JobRecord} {ring : Ring}
    (hring : m.completedRing job.channel = some ring) (hempty : ring.count = 0)
    (hdone : Worker.done job ∈ m.workers) :
    ∃ a m' ring', step m a = some m' ∧ m'.completedRing job.channel = some ring' ∧
      ring'.count ≠ 0 := by
  obtain ⟨i, hworker⟩ := List.mem_iff_getElem?.mp hdone
  obtain ⟨wake, m', hstep, hdelivers⟩ :=
    exists_complete hworker (jobFn_ne_of_held hs hworker rfl) hring
  obtain ⟨ring', hring', hcount⟩ := hdelivers (by have := ring.capacity_pos; omega)
  exact ⟨.worker i wake, m', ring', hstep, hring', by omega⟩

/-- As long as a worker holds a job of a channel, something may come there. -/
theorem exists_delivery (hs : Sound m) {channel : ℤ} {ring : Ring}
    (hring : m.completedRing channel = some ring) (hempty : ring.count = 0) {w : Worker}
    (hw : w ∈ m.workers) (hholds : w.holds channel = true) :
    ∃ actions m' ring', run step m actions = some m' ∧
      m'.completedRing channel = some ring' ∧ ring'.count ≠ 0 := by
  obtain ⟨job, rfl, rfl | rfl | rfl⟩ := holds_eq_true hholds
  · obtain ⟨i, hworker⟩ := List.mem_iff_getElem?.mp hw
    have hruns : step m (.worker i 0) = some _ := workerStep_running hworker 0
    have hdone : Worker.done job ∈ m.workers.set i (.done job) :=
      List.mem_of_getElem? (List.getElem?_set_self (List.getElem?_eq_some_iff.mp hworker).1)
    obtain ⟨a, m', ring', hstep, hring', hcount⟩ :=
      exists_delivery_of_done (hs.step hruns) hring hempty hdone
    refine ⟨[.worker i 0, a], m', ring', ?_, hring', hcount⟩
    exact (run_cons_eq_some step).mpr
      ⟨_, hruns, (run_cons_eq_some step).mpr ⟨m', hstep, rfl⟩⟩
  · obtain ⟨a, m', ring', hstep, hring', hcount⟩ := exists_delivery_of_done hs hring hempty hw
    exact ⟨[a], m', ring', (run_cons_eq_some step).mpr ⟨m', hstep, rfl⟩, hring', hcount⟩
  · -- the ring has room, so that another worker is about to deliver there
    have hroom : ring.count < ring.capacity := hempty.symm ▸ ring.capacity_pos
    obtain ⟨job', hmem, hsame⟩ := hs.standing.exists_done hw hring hroom
    rw [← hsame] at hring ⊢
    obtain ⟨a, m', ring', hstep, hring', hcount⟩ := exists_delivery_of_done hs hring hempty hmem
    exact ⟨[a], m', ring', (run_cons_eq_some step).mpr ⟨m', hstep, rfl⟩, hring', hcount⟩

end JobManager

/-- The completed ring of the channel is empty in every continuation. -/
def NoMore (m : JobManager) (channel : ℤ) : Prop :=
  ∀ actions n, run step m actions = some n →
    ∀ ring, n.completedRing channel = some ring → ring.count = 0

/-- A waiter that gives up leaves nothing to come exactly when no worker holds a job of
its channel. -/
theorem noMore_iff {m m' : JobManager} {a : Action} {call : JobManager.WaitCall}
    (hs : Sound m) (hcall : m.waitCall a = some call)
    (hgiveUp : m.popCompletedWait call.client call.channel call.jobData1 call.wake =
      some (some (-1), m')) :
    NoMore m' call.channel ↔ ∀ w ∈ m.workers, w.holds call.channel = false := by
  obtain ⟨hstep, client, hclient, hawake⟩ := JobManager.waitCall_spec hcall
  have hs' : Sound m' := hs.step (by rw [hstep, hgiveUp, Option.map_some])
  rcases JobManager.popCompletedWait_cases hclient hawake hgiveUp with
    ⟨hrc, -⟩ | ⟨-, rfl, hstop, hpending, c, ring, hchannel, hring, hempty⟩ | ⟨hrc, -⟩
  · cases hrc
  · have hget : m.completedRing call.channel = some ring :=
      JobManager.completedRing_eq_some.mpr ⟨c, hchannel, hring⟩
    constructor
    · intro hno w hw
      by_contra hholds
      obtain ⟨actions, n, ring', hrun, hring', hcount⟩ := JobManager.exists_delivery hs' hget hempty
        hw (Bool.eq_true_of_not_eq_false hholds)
      exact hcount (hno actions n hrun ring' hring')
    · intro hnone actions n hrun ring' hring'
      obtain ⟨-, hlight⟩ := JobManager.lighter_run hs' hstop hrun
      have hzero : m.load call.channel = 0 := by
        have hitems : m.pending.items = [] := by
          rwa [← List.length_eq_zero_iff, RingBuffer.length_items]
        have hheld : m.workers.countP (Worker.holds call.channel) = 0 :=
          List.countP_eq_zero.mpr fun w hw => by rw [hnone w hw]; exact Bool.false_ne_true
        rw [JobManager.load, JobManager.coming, hitems, hheld, JobManager.stock, hget,
          List.countP_nil, Option.elim_some, hempty]
      have hle := (hlight.load call.channel).trans hzero.le
      rw [JobManager.load, JobManager.stock, hring', Option.elim_some] at hle
      omega
  · cases hrc

/-- If the step is a `pop_completed_wait` that returns -1, nothing more comes on its
channel. -/
def GivesUpLast (m : JobManager) (a : Action) : Prop :=
  ∀ call m', m.waitCall a = some call →
    m.popCompletedWait call.client call.channel call.jobData1 call.wake = some (some (-1), m') →
      NoMore m' call.channel

/-- If the step is a `pop_completed_wait` that returns -1, no worker holds a job of its
channel. -/
def GivesUpWithNoneHeld (m : JobManager) (a : Action) : Prop :=
  ∀ call m', m.waitCall a = some call →
    m.popCompletedWait call.client call.channel call.jobData1 call.wake = some (some (-1), m') →
      ∀ w ∈ m.workers, w.holds call.channel = false

/-- Over every number of workers and every interleaving, nothing is put into the
completed ring of a channel once `pop_completed_wait` has returned -1 there, exactly
when no worker holds a job of the channel at any of these returns. -/
theorem givesUpLast_iff (maxChannels : ℕ) (nThreads pendingCapacity : ℤ) (nClients : ℕ)
    (actions : List Action) :
    Along step GivesUpLast (newManager maxChannels nThreads pendingCapacity nClients) actions ↔
      Along step GivesUpWithNoneHeld (newManager maxChannels nThreads pendingCapacity nClients)
        actions := by
  refine along_iff_along (fun m m' a _ hs _ hstep => Sound.step hs hstep)
    (fun m m' a _ hs hstep => ?_) (sound_newManager maxChannels nThreads pendingCapacity nClients)
  refine forall_congr' fun call => forall_congr' fun n => ?_
  exact forall_congr' fun hcall => forall_congr' fun hgiveUp => noMore_iff hs hcall hgiveUp

/-- A stop while the worker has the only job in its hands: the waiter gives up, and
then the job is completed. -/
theorem not_givesUpLast_of_held : ¬ Along step GivesUpLast (newManager 1 1 4 2)
    [.call 0 (.initChannel 1) 0, .call 0 (.submit 0 1 2 0) 0, .worker 0 0, .call 1 (.stop true) 0,
      .call 0 (.popCompletedWait 0 0) 0] := by
  intro h
  have hlast := (((((h _ rfl).2 _ rfl).2 _ rfl).2 _ rfl).2 _ rfl).1 ⟨0, 0, 0, 0⟩ _ rfl rfl
  exact absurd (hlast [.worker 0 0, .worker 0 0] _ rfl _ rfl) (by decide)

end Job

end ConArtist
