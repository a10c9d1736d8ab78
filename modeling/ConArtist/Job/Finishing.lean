import ConArtist.Job.Channels
import ConArtist.Job.Draining
import ConArtist.Job.Shutdown

/-!
# Can every job finish

Workers park while there is no job, and while the completed ring of their job is full. One client
that goes on popping is enough to bring all jobs home, in every state that is reached: as long as
a job is left, a worker can take a step or a completed ring has a job to pop. Each of these leaves
less to do, so after finitely many of them each accepted job has been run and popped, once.

The jobs must have come with channels of the manager. Whether others wait for completions, or the
manager is stopping, does not matter.
-/

namespace ConArtist

namespace Job

open Machine ConArtist.Job.Flow

/-- What is left to do with the job of a worker. -/
def Worker.toGo : Worker → ℕ
  | .ready => 1
  | .running _ => 5
  | .done _ => 4
  | .waitingRoom _ => 3
  | _ => 0

namespace JobManager

/-- What is left to do with all jobs. A pop may wake a worker, which is less than what it does
itself. -/
def toGo (m : JobManager) : ℕ :=
  5 * m.pending.count + (m.workers.map Worker.toGo).sum +
    2 * (m.completed.map RingBuffer.count).sum

/-- No job is pending, with a worker or completed. -/
structure Finished (m : JobManager) : Prop where
  pending : m.pending.count = 0
  workers : ∀ w ∈ m.workers, w.held = none
  completed : ∀ ring ∈ m.completed, ring.count = 0

/-- While a job is pending not all workers are parked on `m_has_jobs`. -/
def Attended (m : JobManager) : Prop := m.pending.count ≠ 0 → ∃ w ∈ m.workers, w ≠ .waitingJobs

/-- The accepted jobs have channels of the manager. -/
def AcceptedPlaced (m : JobManager) : Prop :=
  ∀ job ∈ m.accepted, m.initialised job.channel = true

section Attended

variable {m m' : JobManager}

theorem exists_ne_of_set {workers : List Worker} {i : ℕ} {w w' : Worker}
    (hworker : workers[i]? = some w) (hne : w' ≠ .waitingJobs) :
    ∃ v ∈ workers.set i w', v ≠ .waitingJobs :=
  ⟨w', List.mem_set (List.getElem?_eq_some_iff.mp hworker).1 w', hne⟩

theorem exists_ne_of_signal {waiting : Worker → Option Worker} {workers workers' : List Worker}
    {wake : ℕ} (hwakes : ∀ t t', waiting t = some t' → t' ≠ .waitingJobs)
    (h : CondVar.signal waiting workers wake = some workers')
    (hsome : ∃ w ∈ workers, w ≠ .waitingJobs) : ∃ w ∈ workers', w ≠ .waitingJobs := by
  rcases CondVar.signal_cases h with ⟨rfl, -⟩ | ⟨t, t', ht, hwait, rfl⟩
  · exact hsome
  · exact exists_ne_of_set ht (hwakes t t' hwait)

theorem ne_waitingJobs_of_onHasJobs {t t' : Worker} (h : onHasJobs t = some t') :
    t' ≠ .waitingJobs := by
  obtain ⟨-, rfl⟩ := onHasJobs_eq_some h
  exact Worker.noConfusion

theorem ne_waitingJobs_of_onRoomCompleted {p : ℤ → Bool} {t t' : Worker}
    (h : onRoomCompleted p t = some t') : t' ≠ .waitingJobs := by
  obtain ⟨job, -, -, rfl⟩ := onRoomCompleted_eq_some h
  exact Worker.noConfusion

theorem Attended.clientMove (h : m.Attended) (hstanding : m.Standing) (hworkers : m.workers ≠ [])
    (hmove : ClientMove m m') : m'.Attended := by
  cases hmove with
  | opened cap hcap hchannels => exact h
  | accepted job pending workers wake hrunning hfn hdata0 hticket hpush hsignal =>
      intro _
      rcases CondVar.signal_cases hsignal with ⟨rfl, hnone⟩ | ⟨t, t', ht, hwait, rfl⟩
      · -- no worker was parked on `m_has_jobs`
        obtain ⟨w, hw⟩ := List.exists_mem_of_ne_nil _ hworkers
        refine ⟨w, hw, ?_⟩
        rintro rfl
        cases hnone _ hw
      · exact exists_ne_of_set ht (ne_waitingJobs_of_onHasJobs hwait)
  | popped c jobData1 ring ring' job workers wake hring hpop hsignal =>
      exact fun hpending => exists_ne_of_signal
        (fun _ _ => ne_waitingJobs_of_onRoomCompleted) hsignal (h hpending)
  | returned k client hclient hawake => exact h
  | stopped k drain hrunning hclient =>
      have hstanding' : (m.stop k drain).Standing := hstanding.stopped hrunning
      intro _
      obtain ⟨w, hw⟩ := List.exists_mem_of_ne_nil _
        (workers_transition hworkers (.client (.stopped k drain hrunning hclient)))
      refine ⟨w, hw, ?_⟩
      rintro rfl
      refine hstanding'.awake ?_ hw
      rw [stop, if_neg (by rw [hrunning]; exact Bool.false_ne_true)]

theorem Attended.workerMove {i : ℕ} (hmove : m.WorkerMove i m') : m'.Attended := by
  cases hmove with
  | waits hworker hnone hrunning => exact fun hpending => absurd hnone hpending
  | exits hworker hnone hstopping => exact fun hpending => absurd hnone hpending
  | takes job pending hworker hpop =>
      exact fun _ => exists_ne_of_set hworker Worker.noConfusion
  | runs job hworker => exact fun _ => exists_ne_of_set hworker Worker.noConfusion
  | blocks c job ring hworker hchannel hring hfull =>
      exact fun _ => exists_ne_of_set hworker Worker.noConfusion
  | delivers c job ring ring' clients wake hworker hchannel hring hpush hsignal =>
      exact fun _ => exists_ne_of_set hworker Worker.noConfusion

end Attended

end JobManager

/-- What holds of every state that a run of the manager reaches, the parked workers included. -/
structure Alert (m : JobManager) : Prop where
  sound : Sound m
  attended : m.Attended

theorem alert_newManager (maxChannels : ℕ) (nThreads pendingCapacity : ℤ) (nClients : ℕ) :
    Alert (newManager maxChannels nThreads pendingCapacity nClients) :=
  ⟨sound_newManager maxChannels nThreads pendingCapacity nClients, fun hpending => absurd rfl hpending⟩

theorem Alert.step {m m' : JobManager} {a : Action} (h : Alert m)
    (hstep : step m a = some m') : Alert m' := by
  refine ⟨h.sound.step hstep, ?_⟩
  have hkept := JobManager.step_invariant
    (P := fun n => n.Standing ∧ n.workers ≠ [] ∧ n.Attended) ?_ ?_ h.sound.recorded
    ⟨h.sound.standing, h.sound.workers, h.attended⟩ hstep
  · exact hkept.2.2
  · rintro n n' ⟨hstanding, hworkers, hattended⟩ ht
    refine ⟨hstanding.transition ht, JobManager.workers_transition hworkers ht, ?_⟩
    cases ht with
    | client hmove => exact hattended.clientMove hstanding hworkers hmove
    | worker i hmove => exact JobManager.Attended.workerMove hmove
  · rintro n call c ring ⟨hstanding, hworkers, hattended⟩ -
    exact ⟨⟨hstanding.awake, hstanding.exited, hstanding.room⟩, hworkers, hattended⟩

namespace JobManager

/-- A step that helps: a worker's, or a pop by the client. -/
def Helps (client : ℕ) (a : Action) : Prop :=
  (∃ i wake, a = .worker i wake) ∨
    ∃ channel jobData1 wake, a = .call client (.popCompleted channel jobData1) wake

section Progress

variable {m m' : JobManager} {client : ℕ}

theorem toGo_lt {i : ℕ} {w w' : Worker} (hworker : m.workers[i]? = some w)
    (hworkers : m'.workers = m.workers.set i w')
    (hless : 5 * m'.pending.count + w'.toGo + 2 * (m'.completed.map RingBuffer.count).sum <
      5 * m.pending.count + w.toGo + 2 * (m.completed.map RingBuffer.count).sum) :
    m'.toGo < m.toGo := by
  have hsum := CondVar.sum_map_set (g := Worker.toGo) hworker w'
  rw [toGo, toGo, hworkers]
  omega

theorem toGo_workerMove {i : ℕ} (hmove : m.WorkerMove i m') : m'.toGo < m.toGo := by
  cases hmove with
  | waits hworker hnone hrunning => exact toGo_lt hworker rfl (by simp [Worker.toGo])
  | exits hworker hnone hstopping => exact toGo_lt hworker rfl (by simp [Worker.toGo])
  | takes job pending hworker hpop =>
      have hcount := RingBuffer.count_of_pop hpop
      exact toGo_lt hworker rfl (by simp only [Worker.toGo]; omega)
  | runs job hworker => exact toGo_lt hworker rfl (by simp [Worker.toGo])
  | blocks c job ring hworker hchannel hring hfull =>
      exact toGo_lt hworker rfl (by simp [Worker.toGo])
  | delivers c job ring ring' clients wake hworker hchannel hring hpush hsignal =>
      have hcount := RingBuffer.count_of_push hpush
      have hsum := CondVar.sum_map_set (g := RingBuffer.count) hring ring'
      exact toGo_lt hworker rfl (by simp only [Worker.toGo]; omega)

/-- A worker's move leaves the clients that are not parked alone, and accepts nothing. -/
theorem idle_workerMove {i : ℕ} (hmove : m.WorkerMove i m')
    (hclient : m.clients[client]? = some .idle) :
    m'.clients[client]? = some .idle ∧ m'.accepted = m.accepted := by
  cases hmove with
  | delivers c job ring ring' clients wake hworker hchannel hring hpush hsignal =>
      refine ⟨?_, rfl⟩
      rcases CondVar.signal_cases hsignal with ⟨rfl, -⟩ | ⟨t, t', ht, hwait, rfl⟩
      · exact hclient
      · have hne : wake ≠ client := by
          rintro rfl
          rw [hclient] at ht
          cases ht
          cases hwait
        exact (List.getElem?_set_ne hne).trans hclient
  | _ => exact ⟨hclient, rfl⟩

theorem workerStep_helps {i wake : ℕ} (hrec : m.flow.Recorded)
    (hclient : m.clients[client]? = some .idle) (h : m.workerStep i wake = some m') :
    m'.toGo < m.toGo ∧ m'.clients[client]? = some .idle ∧ m'.accepted = m.accepted := by
  have hmoves := workerStep_moves hrec h
  clear h
  induction hmoves with
  | single hmove => exact ⟨toGo_workerMove hmove, idle_workerMove hmove hclient⟩
  | tail _ hmove ih =>
      obtain ⟨hless, hidle, haccepted⟩ := ih
      obtain ⟨hidle', haccepted'⟩ := idle_workerMove hmove hidle
      exact ⟨(toGo_workerMove hmove).trans hless, hidle', haccepted'.trans haccepted⟩

theorem toGo_popped {p : ℤ → Bool} {c wake : ℕ} {ring ring' : Ring} {job : JobRecord}
    {workers : List Worker} (hring : m.completed[c]? = some ring)
    (hpop : RingBuffer.pop ring = some (job, ring'))
    (hsignal : CondVar.signal (onRoomCompleted p) m.workers wake = some workers)
    (hpending : m'.pending = m.pending) (hworkers : m'.workers = workers)
    (hcompleted : m'.completed = m.completed.set c ring') : m'.toGo < m.toGo := by
  have hless := RingBuffer.count_of_pop hpop
  have hsum := CondVar.sum_map_set (g := RingBuffer.count) hring ring'
  have hwoken : (workers.map Worker.toGo).sum ≤ (m.workers.map Worker.toGo).sum + 1 := by
    rcases CondVar.signal_cases hsignal with ⟨rfl, -⟩ | ⟨t, t', ht, hwait, rfl⟩
    · exact Nat.le_succ _
    · obtain ⟨job', rfl, -, rfl⟩ := onRoomCompleted_eq_some hwait
      have hset := CondVar.sum_map_set (g := Worker.toGo) ht (.done job')
      simp only [Worker.toGo] at hset
      omega
  rw [toGo, toGo, hpending, hworkers, hcompleted]
  omega

theorem exists_pop {c : ℕ} {ring : Ring} (hring : m.completed[c]? = some ring)
    (hcount : ring.count ≠ 0) (hclient : m.clients[client]? = some .idle) :
    ∃ wake m', step m (.call client (.popCompleted c 0) wake) = some m' ∧ m'.toGo < m.toGo ∧
      m'.clients[client]? = some .idle ∧ m'.accepted = m.accepted := by
  rcases hpop : RingBuffer.pop ring with _ | ⟨job, ring'⟩
  · exact absurd (RingBuffer.items_eq_nil.mp (RingBuffer.pop_eq_none.mp hpop)) hcount
  · obtain ⟨wake, workers, hsignal⟩ := CondVar.exists_signal
      (onRoomCompleted (· = (c : ℤ))) m.workers
    have hget : m.completedRing c = some ring := completedRing_eq_some.mpr ⟨c, rfl, hring⟩
    refine ⟨wake, { m with
      completed := m.completed.set c ring'
      workers := workers
      pops := m.pops ++ [((c : ℤ), { job with jobData1 := 0 })] }, ?_, ?_, hclient, rfl⟩
    · simp [step, hclient, requestStep, popCompleted, popFrom, hget, Ring.pop, hpop, hsignal]
    · exact toGo_popped hring hpop hsignal rfl rfl rfl

theorem exists_ring_of_held (hs : Sound m) (hplaced : m.AcceptedPlaced) {w : Worker}
    (hw : w ∈ m.workers) {job : JobRecord} {called : Bool} (hheld : w.held = some (job, called)) :
    ∃ ring, m.completedRing job.channel = some ring := by
  obtain ⟨i, hi⟩ := List.mem_iff_getElem?.mp hw
  obtain ⟨⟨a, ha, hchannel, -⟩, -⟩ := hs.recorded.held i job called (by
    rw [flow, List.getElem?_map, hi, Option.map_some, hheld])
  have hinit := hplaced a (List.mem_of_getElem? ha)
  rw [hchannel, initialised, decide_eq_true_eq] at hinit
  obtain ⟨c, hc⟩ := Int.eq_ofNat_of_zero_le hinit.1
  have hlt : c < m.completed.length := by omega
  exact ⟨m.completed[c], completedRing_eq_some.mpr ⟨c, hc, List.getElem?_eq_getElem hlt⟩⟩

/-- With empty completed rings a worker that holds a job, or stands before one, can take a step. -/
theorem exists_workerStep (hs : Sound m) (hplaced : m.AcceptedPlaced)
    (hempty : ∀ ring ∈ m.completed, ring.count = 0) {w : Worker} (hw : w ∈ m.workers)
    (hparked : w ≠ .waitingJobs) (hexited : w ≠ .exited) :
    ∃ i wake m', m.workerStep i wake = some m' := by
  have hdone : ∀ job, Worker.done job ∈ m.workers → ∃ i wake m', m.workerStep i wake = some m' := by
    intro job hmem
    obtain ⟨ring, hring⟩ := exists_ring_of_held hs hplaced hmem rfl
    obtain ⟨i, hworker⟩ := List.mem_iff_getElem?.mp hmem
    obtain ⟨wake, m', hstep, -⟩ := exists_complete hworker (jobFn_ne_of_held hs hworker rfl) hring
    exact ⟨i, wake, m', hstep⟩
  obtain ⟨i, hworker⟩ := List.mem_iff_getElem?.mp hw
  cases w with
  | ready =>
      obtain ⟨m', hloop, -⟩ := m.exists_loopHead i
      exact ⟨i, 0, m', by simp only [workerStep, hworker, hloop]⟩
  | waitingJobs => exact absurd rfl hparked
  | running job => exact ⟨i, 0, _, workerStep_running hworker 0⟩
  | done job => exact hdone job hw
  | waitingRoom job =>
      -- its ring has room, so another worker is about to deliver there
      obtain ⟨c, ring, hchannel, hring, hroom⟩ := hs.standing.room job hw
      have hzero := hempty ring (List.mem_of_getElem? hring)
      have hpos := ring.capacity_pos
      obtain ⟨job', hmem, -⟩ := hs.standing.exists_done hw
        (completedRing_eq_some.mpr ⟨c, hchannel, hring⟩) (by omega)
      exact hdone job' hmem
  | exited => exact absurd rfl hexited

theorem exists_helps (h : Alert m) (hplaced : m.AcceptedPlaced)
    (hclient : m.clients[client]? = some .idle) (hleft : ¬ m.Finished) :
    ∃ a m', Helps client a ∧ step m a = some m' ∧ m'.toGo < m.toGo ∧
      m'.clients[client]? = some .idle ∧ m'.accepted = m.accepted := by
  by_cases hempty : ∀ ring ∈ m.completed, ring.count = 0
  · obtain ⟨w, hw, hparked, hexited⟩ : ∃ w ∈ m.workers, w ≠ .waitingJobs ∧ w ≠ .exited := by
      by_contra hnone
      push Not at hnone
      refine hleft ⟨?_, fun w hw => ?_, hempty⟩
      · by_contra hpending
        obtain ⟨w, hw, hne⟩ := h.attended hpending
        have hexit := h.sound.standing.exited (hnone w hw hne ▸ hw)
        exact hpending hexit.2
      · rcases eq_or_ne w .waitingJobs with rfl | hne
        · rfl
        · rw [hnone w hw hne]
          rfl
    obtain ⟨i, wake, m', hstep⟩ := exists_workerStep h.sound hplaced hempty hw hparked hexited
    exact ⟨.worker i wake, m', .inl ⟨i, wake, rfl⟩, hstep,
      workerStep_helps h.sound.recorded hclient hstep⟩
  · push Not at hempty
    obtain ⟨ring, hring, hcount⟩ := hempty
    obtain ⟨c, hc⟩ := List.mem_iff_getElem?.mp hring
    obtain ⟨wake, m', hstep, hhelps⟩ := exists_pop hc hcount hclient
    exact ⟨_, m', .inr ⟨c, 0, wake, rfl⟩, hstep, hhelps⟩

theorem not_drops_of_helps {a : Action} (h : Helps client a) : ¬ a.Drops := by
  rintro ⟨client', wake, rfl⟩
  rcases h with ⟨i, wake', heq⟩ | ⟨channel, jobData1, wake', heq⟩
  · cases heq
  · cases heq

end Progress

end JobManager

theorem JobsOk.of_finished {m : JobManager} (h : JobsOk m) (hfinished : m.Finished) :
    tickets m.calls = Multiset.range m.accepted.length ∧
      tickets m.popped = Multiset.range m.accepted.length := by
  have hpending : m.flow.pending = [] := RingBuffer.items_eq_nil.mpr hfinished.pending
  have hheld : ∀ x ∈ m.flow.held, x = none := by
    intro x hx
    obtain ⟨w, hw, rfl⟩ := List.mem_map.mp hx
    exact hfinished.workers w hw
  have hcompleted : completedTickets m.flow.completed = 0 := by
    refine List.sum_eq_zero fun x hx => ?_
    obtain ⟨items, hitems, rfl⟩ := List.mem_map.mp hx
    obtain ⟨ring, hring, rfl⟩ := List.mem_map.mp hitems
    rw [RingBuffer.items_eq_nil.mpr (hfinished.completed ring hring), tickets_nil]
  have hshare : heldTickets m.flow.held = 0 := by
    refine List.sum_eq_zero fun x hx => ?_
    obtain ⟨y, hy, rfl⟩ := List.mem_map.mp hx
    rw [hheld y hy]
    rfl
  have hcalled : calledTickets m.flow.held = 0 :=
    Multiset.le_zero.mp (hshare ▸ calledTickets_le m.flow.held)
  have hunion := h.counted.union
  have hcalls := h.counted.called
  rw [hpending, hshare, hcompleted, tickets_nil, zero_add, zero_add, zero_add] at hunion
  rw [hcalled, hcompleted, zero_add, zero_add] at hcalls
  exact ⟨hcalls.trans hunion, hunion⟩

/-- From every state of every run without a `stop(0)`, with the accepted jobs on channels of the
manager and a client that is free: steps of the workers and pops by this client lead to a state in
which each accepted job has been run once and popped once, and nothing is left. -/
theorem all_jobs_can_finish (maxChannels : ℕ) (nThreads pendingCapacity : ℤ) (nClients : ℕ)
    (actions : List Action) (hkeep : ∀ a ∈ actions, ¬ a.Drops) {m : JobManager}
    (hrun : run step (newManager maxChannels nThreads pendingCapacity nClients) actions = some m)
    (hplaced : m.AcceptedPlaced) {client : ℕ} (hclient : m.clients[client]? = some .idle) :
    ∃ more n, (∀ a ∈ more, JobManager.Helps client a) ∧ run step m more = some n ∧
      n.accepted = m.accepted ∧ n.Finished ∧
      tickets n.calls = Multiset.range m.accepted.length ∧
      tickets n.popped = Multiset.range m.accepted.length := by
  have halert : Alert m := run_invariant Job.step (fun _ _ _ hs hstep => hs.step hstep) actions
    (alert_newManager maxChannels nThreads pendingCapacity nClients) hrun
  have hjobs : JobsOk m := run_invariant_of_mem Job.step
    (fun _ a ha _ hok hstep => hok.step (hkeep a ha) hstep)
    (jobsOk_newManager maxChannels nThreads pendingCapacity nClients) hrun
  have hprogress : ∀ n : JobManager, (Alert n ∧ n.AcceptedPlaced ∧
      n.clients[client]? = some .idle ∧ n.accepted = m.accepted) → ¬ n.Finished →
      ∃ a n', JobManager.Helps client a ∧ step n a = some n' ∧ (Alert n' ∧ n'.AcceptedPlaced ∧
        n'.clients[client]? = some .idle ∧ n'.accepted = m.accepted) ∧ n'.toGo < n.toGo := by
    rintro n ⟨hn, hnplaced, hnclient, hnaccepted⟩ hleft
    obtain ⟨a, n', ha, hstep, hless, hidle, haccepted⟩ :=
      JobManager.exists_helps hn hnplaced hnclient hleft
    refine ⟨a, n', ha, hstep, ⟨hn.step hstep, fun job hjob => ?_, hidle,
      haccepted.trans hnaccepted⟩, hless⟩
    rw [haccepted] at hjob
    exact JobManager.initialised_of_length
      (JobManager.length_completed_step hn.sound.recorded hstep) (hnplaced job hjob)
  obtain ⟨more, n, hhelps, hmore, ⟨-, -, -, haccepted⟩, hfinished⟩ :=
    exists_run_of_lowers Job.step JobManager.toGo hprogress ⟨halert, hplaced, hclient, rfl⟩
  have hjobs' : JobsOk n := run_invariant_of_mem Job.step
    (fun _ a ha _ hok hstep => hok.step (JobManager.not_drops_of_helps (hhelps a ha)) hstep)
    hjobs hmore
  obtain ⟨hcalls, hpopped⟩ := hjobs'.of_finished hfinished
  rw [haccepted] at hcalls hpopped
  exact ⟨more, n, hhelps, hmore, haccepted, hfinished, hcalls, hpopped⟩

/-- Two jobs for a ring of one slot. The worker waits for room that the client makes. -/
def twoForOne : List Action :=
  [.call 0 (.initChannel 1) 0, .call 0 (.submit 0 1 2 0) 0, .call 0 (.submit 0 1 3 0) 0,
    .worker 0 0, .worker 0 0, .worker 0 0, .worker 0 0, .worker 0 0]

def twoForOneManager : JobManager :=
  (run step (newManager 1 1 4 1) twoForOne).getD (newManager 1 1 4 1)

theorem all_jobs_can_finish_twoForOne : ∃ more n,
    run step (newManager 1 1 4 1) twoForOne = some twoForOneManager ∧
      run step twoForOneManager more = some n ∧ tickets n.popped = Multiset.range 2 := by
  have hkeep : ∀ a ∈ twoForOne, ¬ a.Drops := by simp [twoForOne, Action.Drops]
  have hrun : run step (newManager 1 1 4 1) twoForOne = some twoForOneManager := rfl
  have haccepted : twoForOneManager.accepted = [⟨0, 1, 2, 0, 0⟩, ⟨0, 1, 3, 0, 1⟩] := rfl
  have hplaced : twoForOneManager.AcceptedPlaced := by
    intro job hjob
    rw [haccepted] at hjob
    rcases List.mem_cons.mp hjob with rfl | hjob
    · rfl
    · rw [List.mem_singleton.mp hjob]
      rfl
  have hclient : twoForOneManager.clients[0]? = some .idle := rfl
  obtain ⟨more, n, -, hmore, -, -, -, hpopped⟩ :=
    all_jobs_can_finish 1 1 4 1 twoForOne hkeep hrun hplaced hclient
  rw [haccepted] at hpopped
  exact ⟨more, n, hrun, hmore, hpopped⟩

end Job

end ConArtist
