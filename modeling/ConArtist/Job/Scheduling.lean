import ConArtist.Job.Finishing

/-!
# Every order of steps finishes the jobs

`all_jobs_can_finish` chooses the steps that bring the jobs home. Here nobody chooses: the workers
take their steps, and the clients pop, in any order. What is left to do gets less with each
worker's step and with each pop that hands a job back, whether `pop_completed` made it or
`pop_completed_wait`. So no such run is longer than what was left to do where it began; and where
it cannot go on, with one client free to call, no job is left.
-/

namespace ConArtist

namespace Job

open Machine ConArtist.Job.Flow

theorem card_tickets (jobs : List JobRecord) : (tickets jobs).card = jobs.length := by
  rw [tickets, Multiset.coe_card, List.length_map]

theorem card_completedTickets (rings : List Ring) :
    (completedTickets (rings.map RingBuffer.items)).card = (rings.map RingBuffer.count).sum := by
  induction rings with
  | nil => rfl
  | cons ring rings ih =>
      rw [completedTickets, List.map_cons, List.map_cons, List.sum_cons, Multiset.card_add,
        card_tickets, RingBuffer.length_items, List.map_cons, List.sum_cons, ← ih]
      rfl

/-- A worker with a job takes at most five more steps for it, and one that looks for a job may
find none. -/
theorem Worker.toGo_le (w : Worker) : w.toGo ≤ 5 * (share w.held).card + 1 := by
  cases w <;> simp [Worker.toGo, Worker.held, share]

theorem sum_toGo_le (workers : List Worker) :
    (workers.map Worker.toGo).sum ≤
      5 * (heldTickets (workers.map Worker.held)).card + workers.length := by
  induction workers with
  | nil => rfl
  | cons w workers ih =>
      have hw := Worker.toGo_le w
      rw [heldTickets, List.map_cons, List.map_cons, List.map_cons, List.sum_cons, List.sum_cons,
        Multiset.card_add, List.length_cons]
      rw [heldTickets] at ih
      omega

namespace JobManager

/-- A step of a worker, or one that hands a job back to a client. -/
def BringsOn (m : JobManager) (a : Action) : Prop :=
  ∃ m', step m a = some m' ∧ ((∃ i wake, a = .worker i wake) ∨ m'.popped ≠ m.popped)

section Pops

variable {m m' : JobManager} {client : ℕ}

/-- A pop that hands a job back leaves less to do, and changes neither clients nor submissions. -/
theorem popFrom_lowers {channel rc : ℤ} {jobData1 wake : ℕ}
    (h : m.popFrom channel jobData1 wake = some (rc, m')) (hpopped : m'.popped ≠ m.popped) :
    m'.toGo < m.toGo ∧ m'.clients = m.clients ∧ m'.accepted = m.accepted := by
  obtain ⟨ring, hring, hpop⟩ := Option.bind_eq_some_iff.mp h
  obtain ⟨c, rfl, hc⟩ := completedRing_eq_some.mp hring
  rcases hout : RingBuffer.pop ring with _ | ⟨job, ring'⟩
  · simp only [Ring.pop, hout, Option.map_none] at hpop
    cases hpop
    exact absurd rfl hpopped
  · simp only [Ring.pop, hout, Option.map_some] at hpop
    obtain ⟨workers, hsignal, hm'⟩ := Option.map_eq_some_iff.mp hpop
    cases hm'
    exact ⟨toGo_popped hc hout hsignal rfl rfl rfl, rfl, rfl⟩

theorem idle_set {clients : List Client} (k : ℕ) (hclient : clients[client]? = some .idle) :
    (clients.set k .idle)[client]? = some .idle := by
  rw [List.getElem?_set]
  split
  case isTrue heq =>
    rw [if_pos]
    rw [heq]
    exact (List.getElem?_eq_some_iff.mp hclient).1
  case isFalse => exact hclient

theorem popCompletedWait_lowers {k : ℕ} {channel : ℤ} {rc : Option ℤ} {jobData1 wake : ℕ}
    (hclient : m.clients[client]? = some .idle)
    (h : m.popCompletedWait k channel jobData1 wake = some (rc, m'))
    (hpopped : m'.popped ≠ m.popped) :
    m'.toGo < m.toGo ∧ m'.clients[client]? = some .idle ∧ m'.accepted = m.accepted := by
  obtain ⟨ring, -, hwait⟩ := Option.bind_eq_some_iff.mp h
  split at hwait
  case isTrue =>
    split at hwait <;> cases hwait <;> exact absurd rfl hpopped
  case isFalse =>
    obtain ⟨⟨rc', n⟩, hpop, hout⟩ := Option.bind_eq_some_iff.mp hwait
    cases hout
    obtain ⟨hless, hclients, haccepted⟩ := popFrom_lowers hpop hpopped
    refine ⟨hless, ?_, haccepted⟩
    dsimp only
    rw [hclients]
    exact idle_set k hclient

theorem popped_submit {channel rc : ℤ} {jobFn jobData0 jobData1 wake : ℕ}
    (h : m.submit channel jobFn jobData0 jobData1 wake = some (rc, m')) :
    m'.popped = m.popped := by
  rw [submit] at h
  split at h
  · cases h
    rfl
  · split at h
    · cases h
      rfl
    · split at h
      · cases h
        rfl
      · obtain ⟨workers, -, hm'⟩ := Option.map_eq_some_iff.mp h
        cases hm'
        rfl

theorem popped_lowers {a : Action} (hclient : m.clients[client]? = some .idle)
    (hworker : ∀ i wake, a ≠ .worker i wake) (h : step m a = some m')
    (hpopped : m'.popped ≠ m.popped) :
    m'.toGo < m.toGo ∧ m'.clients[client]? = some .idle ∧ m'.accepted = m.accepted := by
  cases a with
  | call k request wake =>
      rw [step] at h
      split at h
      case h_1 =>
        cases request with
        | initChannel completedCapacity =>
            cases h
            refine absurd ?_ hpopped
            rw [initChannel]
            split <;> rfl
        | submit channel jobFn jobData0 jobData1 =>
            obtain ⟨⟨rc, n⟩, hsubmit, rfl⟩ := Option.map_eq_some_iff.mp h
            exact absurd (popped_submit hsubmit) hpopped
        | popCompleted channel jobData1 =>
            obtain ⟨⟨rc, n⟩, hpop, rfl⟩ := Option.map_eq_some_iff.mp h
            obtain ⟨hless, hclients, haccepted⟩ := popFrom_lowers hpop hpopped
            exact ⟨hless, hclients ▸ hclient, haccepted⟩
        | popCompletedWait channel jobData1 =>
            obtain ⟨⟨rc, n⟩, hwait, rfl⟩ := Option.map_eq_some_iff.mp h
            exact popCompletedWait_lowers hclient hwait hpopped
        | stop drain =>
            cases h
            refine absurd ?_ hpopped
            rw [stop]
            split <;> rfl
      case h_2 => cases h
  | resume k wake =>
      rw [step] at h
      split at h
      case h_1 =>
        obtain ⟨⟨rc, n⟩, hwait, rfl⟩ := Option.map_eq_some_iff.mp h
        exact popCompletedWait_lowers hclient hwait hpopped
      case h_2 => cases h
  | join k =>
      rw [step] at h
      split at h
      case h_1 =>
        split at h
        · cases h
          exact absurd rfl hpopped
        · cases h
      case h_2 => cases h
  | worker i wake => exact absurd rfl (hworker i wake)

/-- A step that brings the jobs on leaves less to do, keeps the free client free, and accepts
nothing. -/
theorem BringsOn.lowers {a : Action} (hbrings : m.BringsOn a) (hrec : m.flow.Recorded)
    (hclient : m.clients[client]? = some .idle) (h : step m a = some m') :
    m'.toGo < m.toGo ∧ m'.clients[client]? = some .idle ∧ m'.accepted = m.accepted := by
  obtain ⟨n, hn, hkind⟩ := hbrings
  cases h.symm.trans hn
  by_cases hworker : ∃ i wake, a = .worker i wake
  · obtain ⟨i, wake, rfl⟩ := hworker
    exact workerStep_helps hrec hclient h
  · have hpopped := hkind.resolve_left hworker
    exact popped_lowers hclient (fun i wake heq => hworker ⟨i, wake, heq⟩) h hpopped

theorem not_bringsOn_of_toGo (hrec : m.flow.Recorded) (hclient : m.clients[client]? = some .idle)
    (hzero : m.toGo = 0) (a : Action) : ¬ m.BringsOn a := by
  intro hbrings
  obtain ⟨n, hstep, -⟩ := id hbrings
  have hless := (hbrings.lowers hrec hclient hstep).1
  omega

end Pops

/-- What is left to do, by the jobs that were accepted and have not been popped. -/
theorem toGo_add_le {m : JobManager} (h : JobsOk m) :
    m.toGo + 5 * m.popped.length ≤ 5 * m.accepted.length + m.workers.length := by
  have hcard := congrArg Multiset.card h.counted.union
  simp only [Multiset.card_add, Multiset.card_range, card_tickets, flow, card_completedTickets,
    RingBuffer.length_items, Flow.popped] at hcard
  have hworkers := sum_toGo_le m.workers
  rw [toGo, popped]
  omega

theorem finished_of_not_bringsOn {m : JobManager} {client : ℕ} (h : Alert m)
    (hplaced : m.AcceptedPlaced) (hclient : m.clients[client]? = some .idle)
    (hstuck : ∀ a, ¬ m.BringsOn a) : m.Finished := by
  by_contra hleft
  obtain ⟨a, n, ha, hstep, hless, -⟩ := exists_helps h hplaced hclient hleft
  refine hstuck a ⟨n, hstep, ?_⟩
  rcases ha with hworker | ⟨channel, jobData1, wake, rfl⟩
  · exact .inl hworker
  · refine .inr fun hpopped => ?_
    simp only [step, hclient, requestStep, popCompleted] at hstep
    obtain ⟨⟨rc, n'⟩, hpop, rfl⟩ := Option.map_eq_some_iff.mp hstep
    -- a pop that hands nothing back changes nothing
    rcases popFrom_cases hpop with ⟨c, ring, -, -, ⟨-, rfl⟩ | ⟨job, ring', workers, -, -, -, rfl⟩⟩
    · exact lt_irrefl _ hless
    · simp [popped] at hpopped

end JobManager

/-- The states on the way: nothing more has been accepted, and the client is still free. -/
structure Underway (m : JobManager) (client : ℕ) (n : JobManager) : Prop where
  alert : Alert n
  jobs : JobsOk n
  placed : n.AcceptedPlaced
  idle : n.clients[client]? = some .idle
  accepted : n.accepted = m.accepted

theorem not_drops_of_bringsOn {m : JobManager} {a : Action} (h : m.BringsOn a) : ¬ a.Drops := by
  rintro ⟨client, wake, rfl⟩
  obtain ⟨n, hstep, ⟨i, wake', heq⟩ | hpopped⟩ := h
  · cases heq
  · rw [step] at hstep
    split at hstep
    · cases hstep
      refine hpopped ?_
      rw [JobManager.stop]
      split <;> rfl
    · cases hstep

theorem Underway.step {m n n' : JobManager} {client : ℕ} {a : Action} (h : Underway m client n)
    (hbrings : n.BringsOn a) (hstep : step n a = some n') :
    Underway m client n' ∧ n'.toGo < n.toGo := by
  obtain ⟨hless, hidle, haccepted⟩ := hbrings.lowers h.alert.sound.recorded h.idle hstep
  have hlength := JobManager.length_completed_step h.alert.sound.recorded hstep
  refine ⟨⟨h.alert.step hstep, h.jobs.step (not_drops_of_bringsOn hbrings) hstep, ?_, hidle,
    haccepted.trans h.accepted⟩, hless⟩
  intro job hjob
  rw [haccepted] at hjob
  exact JobManager.initialised_of_length hlength (h.placed job hjob)

/-- From every state of every run without a `stop(0)`, with the accepted jobs on channels of the
manager and a client that is free: in whatever order the workers take their steps and the clients
pop, there are at most five steps for each job that has not been popped and one for each worker.
Where they cannot go on, each accepted job has been run once and popped once, and nothing is
left. -/
theorem every_order_finishes (maxChannels : ℕ) (nThreads pendingCapacity : ℤ) (nClients : ℕ)
    (actions : List Action) (hkeep : ∀ a ∈ actions, ¬ a.Drops) {m : JobManager}
    (hrun : run step (newManager maxChannels nThreads pendingCapacity nClients) actions = some m)
    (hplaced : m.AcceptedPlaced) {client : ℕ} (hclient : m.clients[client]? = some .idle)
    {more : List Action} {n : JobManager} (hbrings : Along step JobManager.BringsOn m more)
    (hmore : run step m more = some n) :
    more.length + 5 * m.popped.length ≤ 5 * m.accepted.length + m.workers.length ∧
      n.accepted = m.accepted ∧ ((∀ a, ¬ n.BringsOn a) → n.Finished ∧
        tickets n.calls = Multiset.range m.accepted.length ∧
        tickets n.popped = Multiset.range m.accepted.length) := by
  have halert : Alert m := run_invariant Job.step (fun _ _ _ hs hstep => hs.step hstep) actions
    (alert_newManager maxChannels nThreads pendingCapacity nClients) hrun
  have hjobs : JobsOk m := run_invariant_of_mem Job.step
    (fun _ a ha _ hok hstep => hok.step (hkeep a ha) hstep)
    (jobsOk_newManager maxChannels nThreads pendingCapacity nClients) hrun
  obtain ⟨hn, hlength⟩ := length_add_le_of_along JobManager.toGo
    (fun _ _ _ (h : Underway m client _) hbrings hstep => h.step hbrings hstep)
    ⟨halert, hjobs, hplaced, hclient, rfl⟩ hbrings hmore
  have hbound := JobManager.toGo_add_le hjobs
  refine ⟨by omega, hn.accepted, fun hstuck => ?_⟩
  have hfinished := JobManager.finished_of_not_bringsOn hn.alert hn.placed hn.idle hstuck
  rw [← hn.accepted]
  exact ⟨hfinished, hn.jobs.of_finished hfinished⟩

/-- The client makes room, the worker delivers the second job, and the client pops it. -/
def popTwice : List Action :=
  [.call 0 (.popCompleted 0 0) 0, .worker 0 0, .call 0 (.popCompleted 0 0) 0]

theorem every_order_finishes_popTwice : ∃ n,
    run step (newManager 1 1 4 1) twoForOne = some twoForOneManager ∧
      run step twoForOneManager popTwice = some n ∧ n.Finished ∧
      tickets n.popped = Multiset.range 2 := by
  have hkeep : ∀ a ∈ twoForOne, ¬ a.Drops := by simp [twoForOne, Action.Drops]
  have hrun : run step (newManager 1 1 4 1) twoForOne = some twoForOneManager := rfl
  have haccepted : twoForOneManager.accepted = [⟨0, 1, 2, 0, 0⟩, ⟨0, 1, 3, 0, 1⟩] := rfl
  have hplaced : twoForOneManager.AcceptedPlaced := by
    intro job hjob
    rw [haccepted] at hjob
    rcases List.mem_cons.mp hjob with rfl | hjob
    · rfl
    · rw [List.mem_singleton.mp hjob]
      rfl
  have hclient : twoForOneManager.clients[0]? = some .idle := rfl
  have hbrings : Along step JobManager.BringsOn twoForOneManager popTwice := by
    refine (along_cons_of_eq_some rfl).mpr ⟨⟨_, rfl, .inr fun h => ?_⟩, ?_⟩
    · exact absurd (congrArg List.length h) (by decide)
    refine (along_cons_of_eq_some rfl).mpr ⟨⟨_, rfl, .inl ⟨0, 0, rfl⟩⟩, ?_⟩
    refine (along_cons_of_eq_some rfl).mpr ⟨⟨_, rfl, .inr fun h => ?_⟩, trivial⟩
    exact absurd (congrArg List.length h) (by decide)
  obtain ⟨n, hn, hzero, hidle⟩ : ∃ n, run step twoForOneManager popTwice = some n ∧ n.toGo = 0 ∧
      n.clients[0]? = some .idle := ⟨_, rfl, rfl, rfl⟩
  have halert : Alert n := run_invariant Job.step (fun _ _ _ hs hstep => hs.step hstep)
    (twoForOne ++ popTwice) (alert_newManager 1 1 4 1)
    ((run_append_eq_some Job.step).mpr ⟨_, hrun, hn⟩)
  obtain ⟨-, -, hend⟩ :=
    every_order_finishes 1 1 4 1 twoForOne hkeep hrun hplaced hclient hbrings hn
  obtain ⟨hfinished, -, hpopped⟩ := hend
    (JobManager.not_bringsOn_of_toGo halert.sound.recorded hidle hzero)
  rw [haccepted] at hpopped
  exact ⟨n, hrun, hn, hfinished, hpopped⟩

end Job

end ConArtist
