import ConArtist.Job.Waiting

/-!
# Channels and their common workers

Each channel has its own completed ring, but a worker that finds a ring full waits in
its loop for room there, and works for no other channel meanwhile. The waiters of a
channel are safe as long as some worker is not waiting for room. A manager for more
than one channel has no way to ensure this: whatever its number of workers, jobs of one
channel that nobody pops stop the jobs of another.
-/

namespace ConArtist

namespace Job

open Machine ConArtist.Job.Flow

/-- The worker is parked, waiting for room in a completed ring. -/
def Worker.waitsRoom : Worker → Bool
  | .waitingRoom _ => true
  | _ => false

/-- A running state in which a thread waits for a channel, and a job of the channel for
a worker, while all workers wait for room in the completed rings of other channels. -/
structure Starved (m : JobManager) (channel : ℤ) : Prop where
  running : m.stopping = false
  waiter : 0 < m.parked channel
  job : ∃ job ∈ m.pending.items, job.channel = channel
  workers : ∀ w ∈ m.workers, ∃ job, w = .waitingRoom job ∧ job.channel ≠ channel

def NoneStarved (m : JobManager) : Prop := ∀ channel, ¬ Starved m channel

/-- If the step is that of a worker that finds the ring of its job full, another worker
is not waiting for room. -/
def LeavesAWorker (m : JobManager) (a : Action) : Prop :=
  ∀ i wake job ring, a = .worker i wake → m.workers[i]? = some (.done job) →
    m.completedRing job.channel = some ring → ring.count = ring.capacity →
      ∃ (j : ℕ) (w : Worker), j ≠ i ∧ m.workers[j]? = some w ∧ w.waitsRoom = false

namespace JobManager

variable {m m' : JobManager}

/-- Some worker is not waiting for room. -/
def HasFreeWorker (m : JobManager) : Prop := ∃ w ∈ m.workers, w.waitsRoom = false

theorem hasFreeWorker_of_signal {waiting : Worker → Option Worker} {wake : ℕ}
    {workers workers' : List Worker} (hwaiting : ∀ t t', waiting t = some t' → t'.waitsRoom = false)
    (hsignal : CondVar.signal waiting workers wake = some workers')
    (h : ∃ w ∈ workers, w.waitsRoom = false) : ∃ w ∈ workers', w.waitsRoom = false := by
  rcases CondVar.signal_cases hsignal with ⟨rfl, -⟩ | ⟨t, t', ht, hwait, rfl⟩
  · exact h
  · refine ⟨t', List.mem_of_getElem? (List.getElem?_set_self ?_), hwaiting t t' hwait⟩
    exact (List.getElem?_eq_some_iff.mp ht).1

theorem HasFreeWorker.clientMove (h : m.HasFreeWorker) (hmove : ClientMove m m') :
    m'.stopping = true ∨ m'.HasFreeWorker := by
  cases hmove with
  | opened cap hcap hchannels => exact Or.inr h
  | accepted job pending workers wake hrunning hfn hdata0 hticket hpush hsignal =>
      refine Or.inr (hasFreeWorker_of_signal (fun t t' hwait => ?_) hsignal h)
      rw [(onHasJobs_eq_some hwait).2]
      rfl
  | popped c jobData1 ring ring' job workers wake hring hpop hsignal =>
      refine Or.inr (hasFreeWorker_of_signal (fun t t' hwait => ?_) hsignal h)
      obtain ⟨job', -, -, rfl⟩ := onRoomCompleted_eq_some hwait
      rfl
  | returned k client hclient hawake => exact Or.inr h
  | stopped k drain hrunning hclient =>
      refine Or.inl ?_
      rw [stop, if_neg (by rw [hrunning]; exact Bool.false_ne_true)]

theorem hasFreeWorker_of_loopHead {i : ℕ} (hworker : m.workers[i]? = some .ready)
    (h : m.loopHead i = some m') : m'.HasFreeWorker := by
  have hlt := (List.getElem?_eq_some_iff.mp hworker).1
  cases loopHead_move hworker h with
  | waits => exact ⟨_, List.mem_of_getElem? (List.getElem?_set_self hlt), rfl⟩
  | exits => exact ⟨_, List.mem_of_getElem? (List.getElem?_set_self hlt), rfl⟩
  | takes => exact ⟨_, List.mem_of_getElem? (List.getElem?_set_self hlt), rfl⟩
  | runs job hrunning => exact absurd (hworker.symm.trans hrunning) (by simp)
  | blocks c job ring hdone => exact absurd (hworker.symm.trans hdone) (by simp)
  | delivers c job ring ring' clients wake hdone =>
      exact absurd (hworker.symm.trans hdone) (by simp)

theorem hasFreeWorker_workerStep {i wake : ℕ} (hs : Sound m)
    (hleaves : LeavesAWorker m (.worker i wake)) (h : m.workerStep i wake = some m') :
    m'.HasFreeWorker := by
  rw [workerStep] at h
  split at h
  case h_1 hworker => exact hasFreeWorker_of_loopHead hworker h
  case h_2 job hworker =>
    cases h
    refine ⟨.done job, List.mem_of_getElem? (List.getElem?_set_self ?_), rfl⟩
    exact (List.getElem?_eq_some_iff.mp hworker).1
  case h_3 job hworker =>
    obtain ⟨ring, hring, hrest⟩ := Option.bind_eq_some_iff.mp h
    by_cases hfull : ring.count = ring.capacity
    · rw [if_pos hfull] at hrest
      cases hrest
      obtain ⟨j, w, hne, hw, hfree⟩ := hleaves i wake job ring rfl hworker hring hfull
      exact ⟨w, List.mem_of_getElem? ((List.getElem?_set_ne hne.symm).trans hw), hfree⟩
    · rw [if_neg hfull, if_neg (jobFn_ne_of_held hs hworker rfl)] at hrest
      obtain ⟨ring', -, hrest⟩ := Option.bind_eq_some_iff.mp hrest
      obtain ⟨clients, -, hloop⟩ := Option.bind_eq_some_iff.mp hrest
      refine hasFreeWorker_of_loopHead ?_ hloop
      exact List.getElem?_set_self (List.getElem?_eq_some_iff.mp hworker).1
  case h_4 => cases h

end JobManager

/-- What a run keeps whose steps leave a worker. -/
structure Unjammed (m : JobManager) : Prop where
  sound : Sound m
  free : m.stopping = true ∨ m.HasFreeWorker

theorem Unjammed.noneStarved {m : JobManager} (h : Unjammed m) : NoneStarved m := by
  intro channel hstarved
  rcases h.free with hstop | ⟨w, hw, hfree⟩
  · exact absurd (hstarved.running.symm.trans hstop) Bool.false_ne_true
  · obtain ⟨job, rfl, -⟩ := hstarved.workers w hw
    cases hfree

theorem Unjammed.step {m m' : JobManager} {a : Action} (h : Unjammed m)
    (hleaves : LeavesAWorker m a) (hstep : step m a = some m') : Unjammed m' := by
  refine ⟨h.sound.step hstep, ?_⟩
  rcases h.free with hstop | hfree
  · exact Or.inl (JobManager.stopping_step h.sound hstop hstep)
  · by_cases hworker : ∃ i wake, a = .worker i wake
    · obtain ⟨i, wake, rfl⟩ := hworker
      exact Or.inr (JobManager.hasFreeWorker_workerStep h.sound hleaves hstep)
    · have ha : ∀ i wake, a ≠ .worker i wake := fun i wake heq => hworker ⟨i, wake, heq⟩
      rcases JobManager.clientStep_cases ha hstep with ⟨call, c, ring, -, -, rfl⟩ | hmoves
      · exact Or.inr hfree
      · clear hstep
        induction hmoves with
        | refl => exact Or.inr hfree
        | tail _ hlast ih =>
            rcases ih with hstop | hfree
            · exact Or.inl (JobManager.stopping_transition hstop (.client hlast))
            · exact hfree.clientMove hlast

end Job

end ConArtist
