import ConArtist.Job.Steps

/-!
# Where the workers stand

Three facts about the workers hold in every state of every run. After a stop no
worker waits for jobs. A worker exits only after a stop, with nothing pending. And a
worker that waits for room in a completed ring is never forgotten: for every free
slot of that ring there is another worker about to deliver there, woken for it or
finished since, so that when no such worker is left the ring is full.
-/

namespace ConArtist

namespace Job

open Machine ConArtist.Job.Flow

/-- The worker is before the lock with a finished job of the channel. -/
def Worker.delivers (c : ℕ) : Worker → Bool
  | .done job => job.channel = c
  | _ => false

namespace JobManager

/-- The number of workers about to deliver a job to the channel. -/
def delivering (m : JobManager) (c : ℕ) : ℕ := m.workers.countP (Worker.delivers c)

structure Standing (m : JobManager) : Prop where
  awake : m.stopping = true → Worker.waitingJobs ∉ m.workers
  exited : Worker.exited ∈ m.workers → m.stopping = true ∧ m.pending.count = 0
  room : ∀ job, Worker.waitingRoom job ∈ m.workers → ∃ (c : ℕ) (ring : Ring),
    job.channel = c ∧ m.completed[c]? = some ring ∧
      ring.capacity ≤ ring.count + m.delivering c

variable {m m' : JobManager}

theorem Standing.opened (h : m.Standing) (cap : ℕ) (hcap : 0 < cap) :
    Standing { m with completed := m.completed ++ [Ring.init cap hcap] } where
  awake := h.awake
  exited := h.exited
  room := by
    intro job hjob
    obtain ⟨c, ring, hchannel, hring, hroom⟩ := h.room job hjob
    have hlt := (List.getElem?_eq_some_iff.mp hring).1
    exact ⟨c, ring, hchannel, (List.getElem?_append_left hlt).trans hring, hroom⟩

/-- While a worker waits for room that there is, another one is about to deliver there. -/
theorem Standing.exists_done (h : m.Standing) {job : JobRecord} {ring : Ring}
    (hwaits : Worker.waitingRoom job ∈ m.workers)
    (hring : m.completedRing job.channel = some ring) (hroom : ring.count < ring.capacity) :
    ∃ job', Worker.done job' ∈ m.workers ∧ job'.channel = job.channel := by
  obtain ⟨c, ring', hchannel, hring', hle⟩ := h.room job hwaits
  cases hring.symm.trans (completedRing_eq_some.mpr ⟨c, hchannel, hring'⟩)
  have hpos : 0 < m.delivering c := by omega
  obtain ⟨w, hmem, hdelivers⟩ := List.countP_pos_iff.mp hpos
  cases w with
  | done job' => exact ⟨job', hmem, (of_decide_eq_true hdelivers).trans hchannel.symm⟩
  | _ => cases hdelivers

/-- A worker woken from `m_has_jobs` stands at the head of its loop. -/
theorem onHasJobs_eq_some {t t' : Worker} (h : onHasJobs t = some t') :
    t = .waitingJobs ∧ t' = .ready := by
  cases t <;> cases h
  exact ⟨rfl, rfl⟩

theorem onRoomCompleted_eq_some {p : ℤ → Bool} {t t' : Worker}
    (h : onRoomCompleted p t = some t') :
    ∃ job, t = .waitingRoom job ∧ p job.channel = true ∧ t' = .done job := by
  cases t with
  | waitingRoom job =>
      rw [onRoomCompleted] at h
      split at h
      · cases h
        exact ⟨job, rfl, ‹_›, rfl⟩
      · cases h
  | _ => cases h

theorem delivering_onHasJobs {workers : List Worker} {wake c : ℕ}
    (h : CondVar.signal onHasJobs m.workers wake = some workers) :
    workers.countP (Worker.delivers c) = m.delivering c := by
  refine CondVar.countP_signal (fun t t' hwait => ?_) h
  obtain ⟨rfl, rfl⟩ := onHasJobs_eq_some hwait
  rfl

theorem Standing.accepted (h : m.Standing) {job : JobRecord} {pending : Ring}
    {workers : List Worker} {wake : ℕ} (hrunning : m.stopping = false)
    (hsignal : CondVar.signal onHasJobs m.workers wake = some workers) :
    Standing { m with
      pending := pending, workers := workers, accepted := m.accepted ++ [job] } where
  awake hstop := absurd (hrunning.symm.trans hstop) Bool.false_ne_true
  exited := by
    intro hexited
    rcases CondVar.mem_signal hsignal hexited with hmem | ⟨t, -, hwait⟩
    · exact absurd (hrunning.symm.trans (h.exited hmem).1) Bool.false_ne_true
    · exact absurd (onHasJobs_eq_some hwait).2 (by simp)
  room := by
    intro job' hjob'
    rcases CondVar.mem_signal hsignal hjob' with hmem | ⟨t, -, hwait⟩
    · obtain ⟨c, ring, hchannel, hring, hroom⟩ := h.room job' hmem
      refine ⟨c, ring, hchannel, hring, ?_⟩
      rwa [delivering, delivering_onHasJobs hsignal]
    · exact absurd (onHasJobs_eq_some hwait).2 (by simp)

theorem Standing.popped (h : m.Standing) {c jobData1 : ℕ} {ring ring' : Ring} {job : JobRecord}
    {workers : List Worker} {wake : ℕ} (hring : m.completed[c]? = some ring)
    (hpop : RingBuffer.pop ring = some (job, ring'))
    (hsignal : CondVar.signal (onRoomCompleted (· = (c : ℤ))) m.workers wake = some workers) :
    Standing { m with
      completed := m.completed.set c ring'
      workers := workers
      pops := m.pops ++ [((c : ℤ), { job with jobData1 := jobData1 })] } where
  awake := by
    intro hstop hwaiting
    rcases CondVar.mem_signal hsignal hwaiting with hmem | ⟨t, -, hwait⟩
    · exact h.awake hstop hmem
    · obtain ⟨job', -, -, hdone⟩ := onRoomCompleted_eq_some hwait
      exact absurd hdone (by simp)
  exited := by
    intro hexited
    rcases CondVar.mem_signal hsignal hexited with hmem | ⟨t, -, hwait⟩
    · exact h.exited hmem
    · obtain ⟨job', -, -, hdone⟩ := onRoomCompleted_eq_some hwait
      exact absurd hdone (by simp)
  room := by
    intro job' hjob'
    have hmem : Worker.waitingRoom job' ∈ m.workers := by
      rcases CondVar.mem_signal hsignal hjob' with hmem | ⟨t, -, hwait⟩
      · exact hmem
      · obtain ⟨job'', -, -, hdone⟩ := onRoomCompleted_eq_some hwait
        exact absurd hdone (by simp)
    obtain ⟨c', ring₀, hchannel, hring₀, hroom⟩ := h.room job' hmem
    by_cases hc : c = c'
    · subst hc
      cases hring.symm.trans hring₀
      refine ⟨c, ring', hchannel, List.getElem?_set_self (List.getElem?_eq_some_iff.mp hring).1, ?_⟩
      have hcount := RingBuffer.count_of_pop hpop
      rcases CondVar.signal_cases hsignal with ⟨-, hnone⟩ | ⟨t, t', ht, hwait, rfl⟩
      · have hwaits := hnone _ hmem
        rw [onRoomCompleted, if_pos (decide_eq_true hchannel)] at hwaits
        cases hwaits
      · obtain ⟨job'', rfl, hp, rfl⟩ := onRoomCompleted_eq_some hwait
        have hgain := CondVar.countP_set_gain (p := Worker.delivers c) ht (.done job'') rfl hp
        rw [RingBuffer.capacity_of_pop hpop]
        rw [delivering] at hroom ⊢
        rw [hgain]
        omega
    · refine ⟨c', ring₀, hchannel, (List.getElem?_set_ne hc).trans hring₀, ?_⟩
      have hkeep : workers.countP (Worker.delivers c') = m.delivering c' := by
        refine CondVar.countP_signal (fun t t' hwait => ?_) hsignal
        obtain ⟨job'', rfl, hp, rfl⟩ := onRoomCompleted_eq_some hwait
        rw [decide_eq_true_eq] at hp
        exact decide_eq_false (by rw [hp]; exact_mod_cast hc)
      rwa [delivering, hkeep]

theorem mem_workers_stop {w : Worker} {k : ℕ} {drain : Bool} (hrunning : m.stopping = false)
    (h : w ∈ (m.stop k drain).workers) :
    w = .ready ∨ (∃ job, w = .done job) ∨
      (w ∈ m.workers ∧ w ≠ .waitingJobs ∧
        ∀ job, w = .waitingRoom job → m.initialised job.channel = false) := by
  rw [stop, if_neg (by rw [hrunning]; exact Bool.false_ne_true)] at h
  obtain ⟨t, ht, hroom | ⟨hroom, rfl⟩⟩ := CondVar.mem_broadcast h
  · obtain ⟨job, -, -, rfl⟩ := onRoomCompleted_eq_some hroom
    exact Or.inr (Or.inl ⟨job, rfl⟩)
  · obtain ⟨t, ht, hjobs | ⟨hjobs, rfl⟩⟩ := CondVar.mem_broadcast ht
    · exact Or.inl (onHasJobs_eq_some hjobs).2
    · refine Or.inr (Or.inr ⟨ht, ?_, ?_⟩)
      · rintro rfl
        cases hjobs
      · rintro job rfl
        rw [onRoomCompleted] at hroom
        split at hroom
        · cases hroom
        · exact Bool.eq_false_of_not_eq_true ‹_›

theorem initialised_of_ring {channel : ℤ} {c : ℕ} {ring : Ring} (hchannel : channel = c)
    (hring : m.completed[c]? = some ring) : m.initialised channel = true := by
  have hlt := (List.getElem?_eq_some_iff.mp hring).1
  rw [initialised, decide_eq_true_eq, hchannel]
  omega

theorem Standing.stopped (h : m.Standing) {k : ℕ} {drain : Bool} (hrunning : m.stopping = false) :
    (m.stop k drain).Standing where
  awake := by
    intro _ hwaiting
    rcases mem_workers_stop hrunning hwaiting with hready | ⟨job, hdone⟩ | ⟨-, hne, -⟩
    · cases hready
    · cases hdone
    · exact hne rfl
  exited := by
    intro hexited
    rcases mem_workers_stop hrunning hexited with hready | ⟨job, hdone⟩ | ⟨hmem, -, -⟩
    · cases hready
    · cases hdone
    · exact absurd (hrunning.symm.trans (h.exited hmem).1) Bool.false_ne_true
  room := by
    intro job hjob
    rcases mem_workers_stop hrunning hjob with hready | ⟨job', hdone⟩ | ⟨hmem, -, hout⟩
    · cases hready
    · cases hdone
    · obtain ⟨c, ring, hchannel, hring, -⟩ := h.room job hmem
      exact absurd ((hout job rfl).symm.trans (initialised_of_ring hchannel hring))
        Bool.false_ne_true

/-- The room that the waiters of a channel are promised. -/
def RoomKept (m : JobManager) (c : ℕ) : Prop :=
  ∃ ring : Ring, m.completed[c]? = some ring ∧ ring.capacity ≤ ring.count + m.delivering c

theorem Standing.worker (h : m.Standing) {i : ℕ} {w : Worker}
    (hworkers : m'.workers = m.workers.set i w) (hstopping : m'.stopping = m.stopping)
    (hpending : m.pending.count = 0 → m'.pending.count = 0)
    (hwaits : w = .waitingJobs → m.stopping = false)
    (hexits : w = .exited → m.stopping = true ∧ m'.pending.count = 0)
    (hblocks : ∀ job, w = .waitingRoom job → ∃ c : ℕ, job.channel = c ∧ m'.RoomKept c)
    (hroom : ∀ c, m.RoomKept c → m'.RoomKept c) : m'.Standing where
  awake := by
    intro hstop hwaiting
    rw [hstopping] at hstop
    rw [hworkers] at hwaiting
    rcases List.mem_or_eq_of_mem_set hwaiting with hmem | hw
    · exact h.awake hstop hmem
    · exact absurd ((hwaits hw.symm).symm.trans hstop) Bool.false_ne_true
  exited := by
    intro hexited
    rw [hworkers] at hexited
    rw [hstopping]
    rcases List.mem_or_eq_of_mem_set hexited with hmem | hw
    · exact (h.exited hmem).imp_right hpending
    · exact hexits hw.symm
  room := by
    intro job hjob
    rw [hworkers] at hjob
    rcases List.mem_or_eq_of_mem_set hjob with hmem | hw
    · obtain ⟨c, ring, hchannel, hring, hle⟩ := h.room job hmem
      obtain ⟨ring', hring', hle'⟩ := hroom c ⟨ring, hring, hle⟩
      exact ⟨c, ring', hchannel, hring', hle'⟩
    · obtain ⟨c, hchannel, ring, hring, hle⟩ := hblocks job hw.symm
      exact ⟨c, ring, hchannel, hring, hle⟩

/-- A worker that neither finishes nor delivers a job of the channel changes nothing
there. -/
theorem roomKept_of_worker {i c : ℕ} {w w' : Worker} (hworker : m.workers[i]? = some w)
    (hworkers : m'.workers = m.workers.set i w') (hcompleted : m'.completed = m.completed)
    (hw : w'.delivers c = w.delivers c) (h : m.RoomKept c) : m'.RoomKept c := by
  obtain ⟨ring, hring, hle⟩ := h
  have hkeep : m'.delivering c = m.delivering c := by
    rw [delivering, hworkers]
    exact CondVar.countP_set_of_eq hworker hw
  exact ⟨ring, by rw [hcompleted, hring], by rwa [hkeep]⟩

theorem roomKept_delivers {i c c' : ℕ} {job : JobRecord} {ring ring' : Ring}
    {clients : List Client} (hworker : m.workers[i]? = some (.done job))
    (hchannel : job.channel = c) (hring : m.completed[c]? = some ring)
    (hpush : RingBuffer.push ring job = some ring') (h : m.RoomKept c') :
    RoomKept { m with
      completed := m.completed.set c ring'
      clients := clients
      workers := m.workers.set i .ready } c' := by
  obtain ⟨ring₀, hring₀, hle⟩ := h
  by_cases hc : c = c'
  · subst hc
    cases hring.symm.trans hring₀
    have hloss := CondVar.countP_set_loss (p := Worker.delivers c) hworker .ready
      (decide_eq_true hchannel) rfl
    have hcount := RingBuffer.count_of_push hpush
    refine ⟨ring', List.getElem?_set_self (List.getElem?_eq_some_iff.mp hring).1, ?_⟩
    rw [RingBuffer.capacity_of_push hpush]
    rw [delivering] at hle ⊢
    dsimp only
    omega
  · have hkeep : (m.workers.set i .ready).countP (Worker.delivers c') = m.delivering c' :=
      CondVar.countP_set_of_eq hworker
        (decide_eq_false (by rw [hchannel]; exact_mod_cast hc)).symm
    refine ⟨ring₀, (List.getElem?_set_ne hc).trans hring₀, ?_⟩
    rw [delivering]
    dsimp only
    rwa [hkeep]

theorem Standing.workerMove {i : ℕ} (h : m.Standing) (hmove : m.WorkerMove i m') :
    m'.Standing := by
  cases hmove with
  | waits hworker hnone hrunning =>
      refine h.worker rfl rfl id (fun _ => hrunning) (by simp) (by simp) fun c => ?_
      exact roomKept_of_worker hworker rfl rfl rfl
  | exits hworker hnone hstopping =>
      refine h.worker rfl rfl id (by simp) (fun _ => ⟨hstopping, hnone⟩) (by simp) fun c => ?_
      exact roomKept_of_worker hworker rfl rfl rfl
  | takes job pending hworker hpop =>
      have hsome : m.pending.count ≠ 0 := by
        rw [RingBuffer.count_of_pop hpop]
        exact Nat.succ_ne_zero _
      refine h.worker rfl rfl (fun hnone => absurd hnone hsome) (by simp) (by simp) (by simp)
        fun c => ?_
      exact roomKept_of_worker hworker rfl rfl rfl
  | runs job hworker =>
      refine h.worker rfl rfl id (by simp) (by simp) (by simp) fun c hkept => ?_
      by_cases hc : job.channel = c
      · obtain ⟨ring, hring, hle⟩ := hkept
        have hgain := CondVar.countP_set_gain (p := Worker.delivers c) hworker (.done job) rfl
          (decide_eq_true hc)
        refine ⟨ring, hring, hle.trans (Nat.add_le_add_left ?_ _)⟩
        exact Nat.le_of_succ_le hgain.ge
      · exact roomKept_of_worker hworker rfl rfl (decide_eq_false hc) hkept
  | blocks c job ring hworker hchannel hring hfull =>
      have hkept : RoomKept { m with workers := m.workers.set i (.waitingRoom job) } c :=
        ⟨ring, hring, hfull.ge.trans (Nat.le_add_right _ _)⟩
      refine h.worker rfl rfl id (by simp) (by simp) ?_ fun c' hroom => ?_
      · rintro job' hjob'
        cases hjob'
        exact ⟨c, hchannel, hkept⟩
      · by_cases hc : c = c'
        · exact hc ▸ hkept
        · refine roomKept_of_worker hworker rfl rfl ?_ hroom
          exact (decide_eq_false (by rw [hchannel]; exact_mod_cast hc)).symm
  | delivers c job ring ring' clients wake hworker hchannel hring hpush hsignal =>
      refine h.worker rfl rfl id (by simp) (by simp) (by simp) fun c' => ?_
      exact roomKept_delivers hworker hchannel hring hpush

theorem Standing.transition (h : m.Standing) (ht : Transition m m') : m'.Standing := by
  cases ht with
  | client hmove =>
      cases hmove with
      | opened cap hcap hchannels => exact h.opened cap hcap
      | accepted job pending workers wake hrunning hfn hdata0 hticket hpush hsignal =>
          exact h.accepted hrunning hsignal
      | popped c jobData1 ring ring' job workers wake hring hpop hsignal =>
          exact h.popped hring hpop hsignal
      | returned k client hclient hawake => exact ⟨h.awake, h.exited, h.room⟩
      | stopped k drain hrunning hclient => exact h.stopped hrunning
  | worker i hmove => exact h.workerMove hmove

theorem workers_transition (h : m.workers ≠ []) (ht : Transition m m') : m'.workers ≠ [] := by
  rw [ne_eq, ← List.length_eq_zero_iff] at h ⊢
  cases ht with
  | client hmove =>
      cases hmove with
      | accepted job pending workers wake hrunning hfn hdata0 hticket hpush hsignal =>
          rwa [← CondVar.length_signal hsignal] at h
      | popped c jobData1 ring ring' job workers wake hring hpop hsignal =>
          rwa [← CondVar.length_signal hsignal] at h
      | stopped k drain hrunning hclient =>
          rw [stop, if_neg (by rw [hrunning]; exact Bool.false_ne_true)]
          rwa [CondVar.length_broadcast, CondVar.length_broadcast]
      | _ => exact h
  | worker i hmove =>
      cases hmove with
      | _ => rwa [List.length_set]

theorem Standing.step {a : Action} (hrec : m.flow.Recorded) (h : m.Standing)
    (hstep : Job.step m a = some m') : m'.Standing :=
  step_invariant (fun _ _ => Standing.transition) (fun _ _ _ _ h _ => ⟨h.awake, h.exited, h.room⟩)
    hrec h hstep

end JobManager

/-- What holds of every state that a run of the manager reaches. -/
structure Sound (m : JobManager) : Prop where
  recorded : m.flow.Recorded
  standing : m.Standing
  workers : m.workers ≠ []

theorem sound_newManager (maxChannels : ℕ) (nThreads pendingCapacity : ℤ) (nClients : ℕ) :
    Sound (newManager maxChannels nThreads pendingCapacity nClients) where
  recorded := (jobsOk_newManager maxChannels nThreads pendingCapacity nClients).recorded
  standing := {
    awake := fun hstop => absurd hstop Bool.false_ne_true
    exited := fun hexited => absurd (List.eq_of_mem_replicate hexited) (by simp)
    room := fun job hjob => absurd (List.eq_of_mem_replicate hjob) (by simp) }
  workers := by
    rw [newManager, ne_eq, List.replicate_eq_nil_iff]
    split <;> omega

theorem Sound.step {m m' : JobManager} {a : Action} (h : Sound m) (hstep : step m a = some m') :
    Sound m' where
  recorded := recorded_step h.recorded hstep
  standing := h.standing.step h.recorded hstep
  workers := JobManager.step_invariant (P := fun n => n.workers ≠ [])
    (fun _ _ hn ht => JobManager.workers_transition hn ht) (fun _ _ _ _ hn _ => hn) h.recorded
    h.workers hstep

/-- The states that the runs of a new manager reach. -/
def Reachable (m : JobManager) : Prop :=
  ∃ maxChannels nThreads pendingCapacity nClients actions,
    run step (newManager maxChannels nThreads pendingCapacity nClients) actions = some m

theorem Reachable.sound {m : JobManager} (h : Reachable m) : Sound m := by
  obtain ⟨maxChannels, nThreads, pendingCapacity, nClients, actions, hrun⟩ := h
  exact run_invariant Job.step (fun _ _ _ hs => hs.step) actions
    (sound_newManager maxChannels nThreads pendingCapacity nClients) hrun

end Job

end ConArtist
