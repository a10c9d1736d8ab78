import ConArtist.Job.Starving

/-!
# Any manager of two channels can be jammed

With one more job of a channel than workers and room, and nobody to pop it, all workers
come to wait for room on that channel: the first fills the ring and blocks on its second
job, the others block one after the other. A job of the other channel is then never
taken. A manager of a single channel, or one that no thread calls, cannot be brought
there.
-/

namespace ConArtist

namespace Job

open Machine ConArtist.Job.Flow

namespace JobManager

variable {m m' : JobManager}

/-- The sizes that the creation of a manager fixes. -/
structure Sized (m : JobManager) (maxChannels nClients : ℕ) : Prop where
  max : m.maxChannels = maxChannels
  channels : m.completed.length ≤ maxChannels
  clients : m.clients.length = nClients

theorem Sized.transition {maxChannels nClients : ℕ} (h : m.Sized maxChannels nClients)
    (ht : Transition m m') : m'.Sized maxChannels nClients := by
  cases ht with
  | client hmove =>
      cases hmove with
      | opened cap hcap hchannels =>
          refine ⟨h.max, ?_, h.clients⟩
          rw [List.length_append, List.length_singleton, ← h.max]
          exact hchannels
      | popped => exact ⟨h.max, List.length_set.trans_le h.channels, h.clients⟩
      | returned => exact ⟨h.max, h.channels, List.length_set.trans h.clients⟩
      | stopped k drain hrunning hclient =>
          rw [stop, if_neg (by rw [hrunning]; exact Bool.false_ne_true)]
          refine ⟨h.max, h.channels, ?_⟩
          rw [List.length_set, CondVar.length_broadcast]
          exact h.clients
      | _ => exact ⟨h.max, h.channels, h.clients⟩
  | worker i hmove =>
      cases hmove with
      | delivers c job ring ring' clients wake hworker hchannel hring hpush hsignal =>
          exact ⟨h.max, List.length_set.trans_le h.channels,
            (CondVar.length_signal hsignal).trans h.clients⟩
      | _ => exact ⟨h.max, h.channels, h.clients⟩

theorem Sized.step {a : Action} {maxChannels nClients : ℕ} (hrec : m.flow.Recorded)
    (h : m.Sized maxChannels nClients) (hstep : Job.step m a = some m') :
    m'.Sized maxChannels nClients :=
  step_invariant (P := fun n => n.Sized maxChannels nClients) (fun _ _ => Sized.transition)
    (fun _ _ _ _ hn _ => ⟨hn.max, hn.channels, List.length_set.trans hn.clients⟩) hrec h hstep

end JobManager

/-- What the runs of a small manager keep. -/
structure Small (maxChannels nClients : ℕ) (m : JobManager) : Prop where
  sound : Sound m
  waiters : m.WaitersInitialised
  sized : m.Sized maxChannels nClients

theorem Small.step {maxChannels nClients : ℕ} {m m' : JobManager} {a : Action}
    (h : Small maxChannels nClients m) (hstep : step m a = some m') :
    Small maxChannels nClients m' where
  sound := h.sound.step hstep
  waiters := JobManager.WaitersInitialised.step h.sound.recorded h.waiters hstep
  sized := JobManager.Sized.step h.sound.recorded h.sized hstep

theorem Small.noneStarved {maxChannels nClients : ℕ} {m : JobManager}
    (h : Small maxChannels nClients m) (hsmall : maxChannels ≤ 1 ∨ nClients = 0) :
    NoneStarved m := by
  intro channel hstarved
  rcases hsmall with hone | hnone
  · have hinit := h.waiters channel hstarved.waiter
    rw [JobManager.initialised, decide_eq_true_eq] at hinit
    have hlength := h.sized.channels
    obtain ⟨w, hw⟩ := List.exists_mem_of_ne_nil _ h.sound.workers
    obtain ⟨job, rfl, hne⟩ := hstarved.workers w hw
    obtain ⟨c, ring, hchannel, hring, -⟩ := h.sound.standing.room job hw
    have hlt := (List.getElem?_eq_some_iff.mp hring).1
    omega
  · have hnil := List.length_eq_zero_iff.mp (h.sized.clients.trans hnone)
    have hwaiter := hstarved.waiter
    rw [JobManager.parked, hnil] at hwaiter
    exact absurd hwaiter (Nat.lt_irrefl 0)

section Jam

variable {N : ℕ} {m : JobManager} {n : ℕ} {w : Worker} {job : JobRecord} {ring : Ring}

/-- The `N` workers in a line: those before worker `n` wait for room on channel 0, those
after it are at the head of their loop, and worker `n` is at `w`. No job is pending, no
client is busy, channel 0 has the ring `ring` and channel 1 an empty one. -/
structure InLine (N : ℕ) (m : JobManager) (n : ℕ) (w : Worker) (ring : Ring) : Prop where
  length : m.workers.length = N
  running : m.stopping = false
  pending : m.pending.items = []
  clients : ∃ k, m.clients = List.replicate (k + 1) .idle
  first : m.completed[0]? = some ring
  second : ∃ ring' : Ring, m.completed[1]? = some ring' ∧ ring'.count = 0
  worker : m.workers[n]? = some w
  blocked : ∀ i < n, ∃ job, m.workers[i]? = some (.waitingRoom job) ∧ job.channel = 0
  ready : ∀ i w', n < i → m.workers[i]? = some w' → w' = .ready

theorem InLine.idle (h : InLine N m n w ring) : m.clients[0]? = some .idle := by
  obtain ⟨k, hclients⟩ := h.clients
  rw [hclients]
  rfl

theorem InLine.set (h : InLine N m n w ring) {m' : JobManager} {w' : Worker} {ring' : Ring}
    (hrunning : m'.stopping = m.stopping) (hpending : m'.pending.items = [])
    (hclients : m'.clients = m.clients) (hcompleted : m'.completed = m.completed.set 0 ring')
    (hworkers : m'.workers = m.workers.set n w') : InLine N m' n w' ring' := by
  refine ⟨?_, hrunning.trans h.running, hpending, hclients ▸ h.clients, ?_, ?_, ?_, ?_, ?_⟩
  · rw [hworkers, List.length_set]
    exact h.length
  · rw [hcompleted, List.getElem?_set_self (List.getElem?_eq_some_iff.mp h.first).1]
  · rw [hcompleted, List.getElem?_set_ne Nat.zero_ne_one]
    exact h.second
  · rw [hworkers, List.getElem?_set_self (List.getElem?_eq_some_iff.mp h.worker).1]
  · intro i hi
    rw [hworkers, List.getElem?_set_ne hi.ne']
    exact h.blocked i hi
  · intro i w'' hi hw''
    rw [hworkers, List.getElem?_set_ne hi.ne] at hw''
    exact h.ready i w'' hi hw''

theorem InLine.set_same (h : InLine N m n w ring) : m.completed = m.completed.set 0 ring := by
  obtain ⟨hlt, hring⟩ := List.getElem?_eq_some_iff.mp h.first
  rw [← hring, List.set_getElem_self]

theorem InLine.exists_submit (h : InLine N m n w ring) (hw : JobManager.onHasJobs w = none)
    (channel : ℤ) : ∃ (job : JobRecord) (pending : Ring), job.channel = channel ∧
      job.jobFn ≠ 0 ∧ pending.items = [job] ∧
      step m (.call 0 (.submit channel 1 1 0) 0) =
        some { m with pending := pending, accepted := m.accepted ++ [job] } := by
  have hnone : ∀ w ∈ m.workers, JobManager.onHasJobs w = none := by
    intro w' hw'
    obtain ⟨i, hi⟩ := List.mem_iff_getElem?.mp hw'
    rcases Nat.lt_trichotomy i n with hlt | rfl | hgt
    · obtain ⟨job, hjob, -⟩ := h.blocked i hlt
      cases hi.symm.trans hjob
      rfl
    · cases hi.symm.trans h.worker
      exact hw
    · rw [h.ready i w' hgt hi]
      rfl
  rcases hpush : RingBuffer.push m.pending ⟨channel, 1, 1, 0, m.accepted.length⟩ with _ | pending
  · have hfull := RingBuffer.push_eq_none.mp hpush
    have hpos := m.pending.capacity_pos
    rw [RingBuffer.items_eq_nil.mp h.pending] at hfull
    omega
  · refine ⟨⟨channel, 1, 1, 0, m.accepted.length⟩, pending, rfl, Nat.one_ne_zero, ?_, ?_⟩
    · rw [RingBuffer.items_of_push hpush, h.pending, List.nil_append]
    · have hstop : ¬ m.stopping = true := by
        rw [h.running]
        exact Bool.false_ne_true
      simp only [step, h.idle, requestStep, JobManager.submit, Nat.one_ne_zero, or_self, if_false,
        if_neg hstop, Ring.push, hpush, CondVar.signal_of_none hnone, Option.map_some]

theorem exists_take {i : ℕ} (hpending : m.pending.items = [job]) :
    ∃ pending : Ring, pending.items = [] ∧ m.loopHead i = some { m with
      pending := pending
      workers := m.workers.set i (.running { job with jobData1 := 0 }) } := by
  rcases JobManager.pop_cases m.pending 0 with ⟨hzero, -⟩ | ⟨job', pending, hcount, hpop, hitems⟩
  · rw [← RingBuffer.length_items, hpending] at hzero
    cases hzero
  · rw [hpending] at hitems
    obtain ⟨rfl, hnil⟩ := List.cons.inj hitems
    refine ⟨pending, hnil.symm, ?_⟩
    rw [JobManager.loopHead, if_neg (fun hpark => hcount hpark.1),
      if_neg (fun hexit => hcount hexit.2), hpop]
    rfl

/-- Worker `n` takes a job of channel 0. -/
theorem InLine.take (h : InLine N m n .ready ring) : ∃ actions m' job,
    run step m actions = some m' ∧ InLine N m' n (.running job) ring ∧ job.channel = 0 ∧
      job.jobFn ≠ 0 := by
  obtain ⟨job, pending, hchannel, hfn, hitems, hsubmit⟩ := h.exists_submit rfl 0
  obtain ⟨pending', hnil, hloop⟩ := exists_take (m := { m with
    pending := pending, accepted := m.accepted ++ [job] }) (i := n) hitems
  have htakes : step { m with pending := pending, accepted := m.accepted ++ [job] }
      (.worker n 0) = some { m with
        pending := pending'
        accepted := m.accepted ++ [job]
        workers := m.workers.set n (.running { job with jobData1 := 0 }) } := by
    simp only [step, JobManager.workerStep, h.worker, hloop]
  have hrun := (run_cons_eq_some step).mpr
    ⟨_, hsubmit, (run_cons_eq_some step).mpr ⟨_, htakes, run_nil step _⟩⟩
  exact ⟨_, _, { job with jobData1 := 0 }, hrun, h.set rfl hnil rfl h.set_same rfl, hchannel, hfn⟩

theorem InLine.finish (h : InLine N m n (.running job) ring) : ∃ m',
    step m (.worker n 0) = some m' ∧ InLine N m' n (.done job) ring :=
  ⟨_, JobManager.workerStep_running h.worker 0, h.set rfl h.pending rfl h.set_same rfl⟩

theorem InLine.block (h : InLine N m n (.done job) ring) (hchannel : job.channel = 0)
    (hfull : ring.count = ring.capacity) : ∃ m',
    step m (.worker n 0) = some m' ∧ InLine N m' n (.waitingRoom job) ring := by
  have hring : m.completedRing job.channel = some ring :=
    JobManager.completedRing_eq_some.mpr ⟨0, hchannel, h.first⟩
  have hblocks : step m (.worker n 0) =
      some { m with workers := m.workers.set n (.waitingRoom job) } := by
    rw [step, JobManager.workerStep_done h.worker, JobManager.complete, hring]
    exact if_pos hfull
  exact ⟨_, hblocks, h.set rfl h.pending rfl h.set_same rfl⟩

/-- With room in the ring worker `n` delivers its job and takes another one of channel
0. -/
theorem InLine.deliver (h : InLine N m n (.done job) ring) (hchannel : job.channel = 0)
    (hfn : job.jobFn ≠ 0) (hroom : ring.count ≠ ring.capacity) : ∃ actions m' job' ring',
    run step m actions = some m' ∧ InLine N m' n (.running job') ring' ∧ job'.channel = 0 ∧
      ring'.count = ring.count + 1 ∧ ring'.capacity = ring.capacity := by
  obtain ⟨job', pending, hchannel', -, hitems, hsubmit⟩ := h.exists_submit rfl 0
  rcases hpush : RingBuffer.push ring job with _ | ring'
  · exact absurd (RingBuffer.push_eq_none.mp hpush) hroom
  · have hring : m.completedRing job.channel = some ring :=
      JobManager.completedRing_eq_some.mpr ⟨0, hchannel, h.first⟩
    have hnone : ∀ client ∈ m.clients,
        JobManager.onHasCompleted (· = job.channel) client = none := by
      intro client hclient
      obtain ⟨k, hclients⟩ := h.clients
      rw [hclients] at hclient
      rw [List.eq_of_mem_replicate hclient]
      rfl
    obtain ⟨pending', hnil, hloop⟩ := exists_take (m := { m with
      pending := pending
      accepted := m.accepted ++ [job']
      completed := m.completed.set 0 ring'
      workers := m.workers.set n .ready }) (i := n) hitems
    have hdelivers : step { m with pending := pending, accepted := m.accepted ++ [job'] }
        (.worker n 0) = some { m with
          pending := pending'
          accepted := m.accepted ++ [job']
          completed := m.completed.set 0 ring'
          workers := m.workers.set n (.running { job' with jobData1 := 0 }) } := by
      have hsame : JobManager.completedRing { m with
          pending := pending, accepted := m.accepted ++ [job'] } job.channel = some ring := hring
      rw [step, JobManager.workerStep]
      dsimp only
      rw [h.worker]
      dsimp only
      rw [JobManager.complete, hsame, Option.bind_eq_bind, Option.bind_some, if_neg hroom,
        if_neg hfn, Ring.push, hpush, Option.bind_some, CondVar.signal_of_none hnone]
      rw [hchannel]
      rw [List.set_set] at hloop
      exact hloop
    have hcount := RingBuffer.count_of_push hpush
    have hrun := (run_cons_eq_some step).mpr
      ⟨_, hsubmit, (run_cons_eq_some step).mpr ⟨_, hdelivers, run_nil step _⟩⟩
    exact ⟨_, _, { job' with jobData1 := 0 }, ring', hrun, h.set rfl hnil rfl rfl rfl, hchannel',
      hcount, RingBuffer.capacity_of_push hpush⟩

/-- Once worker `n` waits it is the turn of the next one. -/
theorem InLine.next (h : InLine N m n (.waitingRoom job) ring) (hchannel : job.channel = 0)
    (hn : n + 1 < N) : InLine N m (n + 1) .ready ring := by
  have hlt : n + 1 < m.workers.length := h.length ▸ hn
  refine { h with worker := ?_, blocked := fun i hi => ?_, ready := fun i w' hi => ?_ }
  · have hnext := List.getElem?_eq_getElem hlt
    rw [hnext, h.ready (n + 1) _ n.lt_succ_self hnext]
  · rcases Nat.lt_succ_iff_lt_or_eq.mp hi with hi | rfl
    · exact h.blocked i hi
    · exact ⟨job, h.worker, hchannel⟩
  · exact h.ready i w' (n.lt_succ_self.trans hi)

theorem InLine.exists_jam (h : InLine N m n (.waitingRoom job) ring) (hchannel : job.channel = 0)
    (hfull : ring.count = ring.capacity) (d : ℕ) (hd : n + d + 1 = N) :
    ∃ actions m' job', run step m actions = some m' ∧
      InLine N m' (n + d) (.waitingRoom job') ring ∧ job'.channel = 0 := by
  induction d generalizing m n job with
  | zero => exact ⟨[], m, job, rfl, h, hchannel⟩
  | succ d ih =>
      obtain ⟨actions₁, m₁, job₁, hrun₁, h₁, hchannel₁, -⟩ := (h.next hchannel (by omega)).take
      obtain ⟨m₂, hrun₂, h₂⟩ := h₁.finish
      obtain ⟨m₃, hrun₃, h₃⟩ := h₂.block hchannel₁ hfull
      obtain ⟨actions₄, m₄, job₄, hrun₄, h₄, hchannel₄⟩ := ih h₃ hchannel₁ (by omega)
      refine ⟨actions₁ ++ .worker (n + 1) 0 :: .worker (n + 1) 0 :: actions₄, m₄, job₄, ?_, ?_,
        hchannel₄⟩
      · refine (run_append_eq_some step).mpr ⟨m₁, hrun₁, ?_⟩
        exact (run_cons_eq_some step).mpr ⟨m₂, hrun₂,
          (run_cons_eq_some step).mpr ⟨m₃, hrun₃, hrun₄⟩⟩
      · rwa [show n + (d + 1) = n + 1 + d by omega]

/-- The first worker fills the ring of one slot and blocks on its second job. -/
theorem InLine.exists_filled (h : InLine N m 0 .ready ring) (hempty : ring.count = 0)
    (hone : ring.capacity = 1) : ∃ actions m' job ring', run step m actions = some m' ∧
      InLine N m' 0 (.waitingRoom job) ring' ∧ job.channel = 0 ∧
      ring'.count = ring'.capacity := by
  obtain ⟨actions₁, m₁, job₁, hrun₁, h₁, hchannel₁, hfn₁⟩ := h.take
  obtain ⟨m₂, hrun₂, h₂⟩ := h₁.finish
  obtain ⟨actions₃, m₃, job₃, ring', hrun₃, h₃, hchannel₃, hcount, hcapacity⟩ :=
    h₂.deliver hchannel₁ hfn₁ (by omega)
  obtain ⟨m₄, hrun₄, h₄⟩ := h₃.finish
  obtain ⟨m₅, hrun₅, h₅⟩ := h₄.block hchannel₃ (by omega)
  refine ⟨actions₁ ++ .worker 0 0 :: (actions₃ ++ [.worker 0 0, .worker 0 0]), m₅, job₃, ring', ?_,
    h₅, hchannel₃, by omega⟩
  refine (run_append_eq_some step).mpr ⟨m₁, hrun₁, (run_cons_eq_some step).mpr ⟨m₂, hrun₂, ?_⟩⟩
  refine (run_append_eq_some step).mpr ⟨m₃, hrun₃, ?_⟩
  exact (run_cons_eq_some step).mpr ⟨m₄, hrun₄,
    (run_cons_eq_some step).mpr ⟨m₅, hrun₅, run_nil step _⟩⟩

/-- Behind a jam a job of channel 1 and the thread that waits for it starve. -/
theorem InLine.exists_starved (h : InLine N m n (.waitingRoom job) ring)
    (hchannel : job.channel = 0) (hn : n + 1 = N) :
    ∃ actions m', run step m actions = some m' ∧ Starved m' 1 := by
  obtain ⟨job', pending, hchannel', -, hitems, hsubmit⟩ := h.exists_submit rfl 1
  obtain ⟨ring', hring', hempty⟩ := h.second
  have hget : JobManager.completedRing { m with
      pending := pending, accepted := m.accepted ++ [job'] } 1 = some ring' :=
    JobManager.completedRing_eq_some.mpr ⟨1, rfl, hring'⟩
  have hparks : step { m with pending := pending, accepted := m.accepted ++ [job'] }
      (.call 0 (.popCompletedWait 1 0) 0) = some { m with
        pending := pending
        accepted := m.accepted ++ [job']
        clients := m.clients.set 0 (.waitingCompleted 1 0) } := by
    have hmore : ¬ (m.stopping = true ∧ pending.count = 0) := by
      rw [h.running]
      exact fun hstop => absurd hstop.1 Bool.false_ne_true
    simp only [step, h.idle, requestStep, JobManager.popCompletedWait, hget, Option.bind_eq_bind,
      Option.bind_some, if_pos hempty, if_neg hmore, Option.map_some]
  refine ⟨[_, _], _, (run_cons_eq_some step).mpr ⟨_, hsubmit, (run_cons_eq_some step).mpr
    ⟨_, hparks, run_nil step _⟩⟩, h.running, ?_, ⟨job', ?_, hchannel'⟩, fun w hw => ?_⟩
  · refine List.countP_pos_iff.mpr ⟨.waitingCompleted 1 0, ?_, rfl⟩
    exact List.mem_of_getElem?
      (List.getElem?_set_self (List.getElem?_eq_some_iff.mp h.idle).1)
  · rw [hitems]
    exact List.mem_singleton_self job'
  · obtain ⟨i, hi⟩ := List.mem_iff_getElem?.mp hw
    have hlt := (List.getElem?_eq_some_iff.mp hi).1
    rw [h.length] at hlt
    rcases Nat.lt_or_ge i n with hin | hin
    · obtain ⟨job₁, hjob₁, hchannel₁⟩ := h.blocked i hin
      cases hi.symm.trans hjob₁
      exact ⟨job₁, rfl, by rw [hchannel₁]; exact Int.zero_ne_one⟩
    · obtain rfl : i = n := by omega
      cases hi.symm.trans h.worker
      exact ⟨job, rfl, by rw [hchannel]; exact Int.zero_ne_one⟩

theorem exists_inLine {maxChannels : ℕ} (hchannels : 2 ≤ maxChannels)
    (nThreads pendingCapacity : ℤ) (k : ℕ) :
    ∃ N m ring, run step (newManager maxChannels nThreads pendingCapacity (k + 1))
        [.call 0 (.initChannel 1) 0, .call 0 (.initChannel 1) 0] = some m ∧
      InLine (N + 1) m 0 .ready ring ∧ ring.count = 0 ∧ ring.capacity = 1 := by
  have hworkers : ∃ N, (if nThreads ≤ 0 then 1 else nThreads.toNat) = N + 1 := by
    refine Nat.exists_eq_succ_of_ne_zero ?_
    split <;> omega
  obtain ⟨N, hN⟩ := hworkers
  have hnone : ¬ maxChannels ≤ 0 := by omega
  have hone : ¬ maxChannels ≤ 1 := by omega
  refine ⟨N, { newManager maxChannels nThreads pendingCapacity (k + 1) with
    completed := [Ring.init 1 Nat.one_pos, Ring.init 1 Nat.one_pos] }, Ring.init 1 Nat.one_pos,
    ?_, ?_, rfl, rfl⟩
  · simp only [run, step, newManager, List.replicate_succ, List.getElem?_cons_zero, requestStep,
      JobManager.initChannel, List.length_nil, hnone, if_false, Option.bind_some, List.nil_append,
      List.length_cons, hone]
    rfl
  · refine ⟨?_, rfl, RingBuffer.items_empty _ _, ⟨k, rfl⟩, rfl, ⟨_, rfl, rfl⟩, ?_, ?_, ?_⟩
    · exact List.length_replicate.trans hN
    · simp only [newManager, hN, List.replicate_succ, List.getElem?_cons_zero]
    · intro i hi
      exact absurd hi (Nat.not_lt_zero i)
    · intro i w' _ hw'
      exact List.eq_of_mem_replicate (List.mem_of_getElem? hw')

end Jam

/-- Over every interleaving, no waiter of a channel starves behind workers that wait
for room on other channels, if no step takes the last worker that does not wait for
room; and a manager ensures this in all its runs exactly when it has at most one channel
or no thread to call it. -/
theorem noneStarved_iff (maxChannels : ℕ) (nThreads pendingCapacity : ℤ) (nClients : ℕ) :
    (∀ actions, Along step LeavesAWorker
        (newManager maxChannels nThreads pendingCapacity nClients) actions →
      Throughout step NoneStarved (newManager maxChannels nThreads pendingCapacity nClients)
        actions) ∧
    ((∀ actions, Throughout step NoneStarved
        (newManager maxChannels nThreads pendingCapacity nClients) actions) ↔
      maxChannels ≤ 1 ∨ nClients = 0) := by
  have hsound := sound_newManager maxChannels nThreads pendingCapacity nClients
  refine ⟨fun actions => ?_, fun hnone => ?_, fun hsmall actions => ?_⟩
  · obtain ⟨w, hw⟩ := List.exists_mem_of_ne_nil _ hsound.workers
    have hfree : w.waitsRoom = false := by
      rw [List.eq_of_mem_replicate hw]
      rfl
    exact throughout_of_along (fun m => Unjammed.noneStarved)
      (fun m m' a _ hm hleaves hstep => hm.step hleaves hstep) ⟨hsound, Or.inr ⟨w, hw, hfree⟩⟩
  · by_contra hlarge
    rw [not_or] at hlarge
    obtain ⟨k, rfl⟩ := Nat.exists_eq_succ_of_ne_zero hlarge.2
    obtain ⟨N, m, ring, hrun, hline, hempty, hone⟩ :=
      exists_inLine (by omega : 2 ≤ maxChannels) nThreads pendingCapacity k
    obtain ⟨actions₁, m₁, job₁, ring₁, hrun₁, hline₁, hchannel₁, hfull₁⟩ :=
      hline.exists_filled hempty hone
    obtain ⟨actions₂, m₂, job₂, hrun₂, hline₂, hchannel₂⟩ :=
      hline₁.exists_jam hchannel₁ hfull₁ N (by omega)
    obtain ⟨actions₃, m₃, hrun₃, hstarved⟩ := hline₂.exists_starved hchannel₂ (by omega)
    have hall : run step (newManager maxChannels nThreads pendingCapacity (k + 1))
        (_ ++ (actions₁ ++ (actions₂ ++ actions₃))) = some m₃ :=
      (run_append_eq_some step).mpr ⟨m, hrun, (run_append_eq_some step).mpr ⟨m₁, hrun₁,
        (run_append_eq_some step).mpr ⟨m₂, hrun₂, hrun₃⟩⟩⟩
    exact throughout_iff_initial.mp (hnone _) _ m₃ List.prefix_rfl hall 1 hstarved
  · refine throughout_of_step (fun m hm => Small.noneStarved hm hsmall)
      (fun m m' a _ hm hstep => Small.step hm hstep) ⟨hsound,
        waitersInitialised_newManager maxChannels nThreads pendingCapacity nClients, rfl,
        Nat.zero_le _, List.length_replicate⟩

/-- One worker and two channels of one slot: the worker blocks on its second job of
channel 0, and the job and the waiter of channel 1 starve. -/
theorem channel_starves : ¬ Throughout step NoneStarved (newManager 2 1 4 1)
    [.call 0 (.initChannel 1) 0, .call 0 (.initChannel 1) 0, .call 0 (.submit 0 1 2 0) 0,
      .call 0 (.submit 0 1 2 0) 0, .worker 0 0, .worker 0 0, .worker 0 0, .worker 0 0, .worker 0 0,
      .call 0 (.submit 1 1 2 0) 0, .call 0 (.popCompletedWait 1 0) 0] := by
  intro h
  refine throughout_iff_initial.mp h _ _ List.prefix_rfl rfl 1 ⟨rfl, by decide, ?_, fun w hw => ?_⟩
  · exact ⟨⟨1, 1, 2, 0, 2⟩, by decide, rfl⟩
  · exact ⟨⟨0, 1, 2, 0, 1⟩, List.mem_singleton.mp hw, by decide⟩

end Job

end ConArtist
