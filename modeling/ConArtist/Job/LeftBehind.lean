import ConArtist.Job.Waiting

/-!
# Waiters after a stop

`stop` wakes all waiters once. A waiter that finds other jobs still pending parks
again, and is woken by the completion of a job of its own channel or not at all. No
waiter is left behind by the workers exactly when each thread that parks after the
stop has a job of its channel of its own to wait for.
-/

namespace ConArtist

namespace Job

open Machine ConArtist.Job.Flow

namespace JobManager

variable {m m' : JobManager}

/-- After a stop there is a job to come for each waiter that is still parked. -/
def Covered (m : JobManager) : Prop :=
  m.stopping = true → ∀ channel, m.parked channel ≤ m.coming channel

/-- After a stop, more waiters are parked on some channel than jobs will come. -/
def Forsaken (m : JobManager) : Prop :=
  m.stopping = true ∧ ∃ channel, m.coming channel < m.parked channel

theorem Covered.transition (h : m.Covered) (hwaiters : m.WaitersInitialised)
    (ht : Transition m m') : m'.Covered := by
  intro hstop channel
  cases ht with
  | client hmove =>
      cases hmove with
      | opened cap hcap hchannels => exact h hstop channel
      | accepted job pending workers wake hrunning hfn hdata0 hticket hpush hsignal =>
          exact absurd (hrunning.symm.trans hstop) Bool.false_ne_true
      | popped c jobData1 ring ring' job workers wake hring hpop hsignal =>
          exact (h hstop channel).trans_eq (coming_popped hsignal _ _ channel).symm
      | returned k client hclient hawake =>
          exact (parked_returned hclient hawake channel).trans_le (h hstop channel)
      | stopped k drain hrunning hclient =>
          exact (parked_stop hrunning (hwaiters channel)).trans_le (Nat.zero_le _)
  | worker i hmove =>
      have hcovered := h ((stopping_workerMove hmove).symm.trans hstop) channel
      rcases channel_workerMove hmove channel with
        ⟨hcoming, -, hparked⟩ | ⟨hcoming, hparked, -⟩ <;> omega

theorem Forsaken.transition (h : m.Forsaken) (ht : Transition m m') : m'.Forsaken := by
  obtain ⟨hstop, channel, hlt⟩ := h
  refine ⟨stopping_transition hstop ht, channel, ?_⟩
  cases ht with
  | client hmove =>
      cases hmove with
      | opened cap hcap hchannels => exact hlt
      | accepted job pending workers wake hrunning hfn hdata0 hticket hpush hsignal =>
          exact absurd (hrunning.symm.trans hstop) Bool.false_ne_true
      | popped c jobData1 ring ring' job workers wake hring hpop hsignal =>
          exact (coming_popped hsignal _ _ channel).trans_lt hlt
      | returned k client hclient hawake =>
          exact hlt.trans_eq (parked_returned hclient hawake channel).symm
      | stopped k drain hrunning hclient =>
          exact absurd (hrunning.symm.trans hstop) Bool.false_ne_true
  | worker i hmove =>
      rcases channel_workerMove hmove channel with
        ⟨hcoming, -, hparked⟩ | ⟨hcoming, hparked, -⟩ <;> omega

theorem Forsaken.step {a : Action} (hrec : m.flow.Recorded) (h : m.Forsaken)
    (hstep : Job.step m a = some m') : m'.Forsaken := by
  rcases step_cases hrec hstep with ⟨call, c, ring, hcall, hpark, rfl⟩ | hsteps
  · obtain ⟨hstop, channel, hlt⟩ := h
    obtain ⟨-, client, hclient, hawake⟩ := waitCall_spec hcall
    refine ⟨hstop, channel, ?_⟩
    rw [parked_park hclient hawake]
    exact hlt.trans_le (Nat.le_add_right _ _)
  · clear hstep
    induction hsteps with
    | refl => exact h
    | tail _ hlast ih => exact ih.transition hlast

end JobManager

/-- If a thread parks in the step after a stop, fewer threads were parked on its channel
than jobs of the channel were pending or held by a worker. -/
def ParksForMore (m : JobManager) (a : Action) : Prop :=
  m.stopping = true → ∀ call c ring, m.waitCall a = some call → m.Parks call c ring →
    m.parked call.channel < m.coming call.channel

/-- Not all workers have exited, or no thread is parked in `pop_completed_wait`. -/
def NoneLeftBehind (m : JobManager) : Prop :=
  (∀ w ∈ m.workers, w = .exited) → ∀ client ∈ m.clients, client.awake

/-- What a run keeps whose threads park for more. -/
structure Watched (m : JobManager) : Prop where
  sound : Sound m
  waiters : m.WaitersInitialised
  covered : m.Covered

variable {m m' : JobManager}

theorem Watched.noneLeftBehind (h : Watched m) : NoneLeftBehind m := by
  intro hexited client hclient
  cases client with
  | waitingCompleted channel jobData1 =>
      obtain ⟨hstop, hcoming⟩ := JobManager.coming_of_exited h.sound hexited channel
      have hle := h.covered hstop channel
      have hpos : 0 < m.parked channel :=
        List.countP_pos_iff.mpr ⟨_, hclient, decide_eq_true rfl⟩
      omega
  | _ => rfl

theorem Watched.step {a : Action} (h : Watched m) (hparks : ParksForMore m a)
    (hstep : step m a = some m') : Watched m' := by
  refine ⟨h.sound.step hstep,
    JobManager.WaitersInitialised.step h.sound.recorded h.waiters hstep, ?_⟩
  rcases JobManager.step_cases h.sound.recorded hstep with
    ⟨call, c, ring, hcall, hpark, rfl⟩ | hsteps
  · obtain ⟨-, client, hclient, hawake⟩ := JobManager.waitCall_spec hcall
    intro hstop channel
    rw [JobManager.parked_park hclient hawake]
    by_cases hchannel : call.channel = channel
    · have hmore := hparks hstop call c ring hcall hpark
      rw [hchannel] at hmore
      rw [if_pos hchannel]
      exact hmore
    · rw [if_neg hchannel]
      exact h.covered hstop channel
  · have hboth : m'.WaitersInitialised ∧ m'.Covered := by
      clear hstep
      induction hsteps with
      | refl => exact ⟨h.waiters, h.covered⟩
      | tail _ hlast ih => exact ⟨ih.1.transition hlast, ih.2.transition ih.1 hlast⟩
    exact hboth.2

theorem forsaken_of_not_parksForMore {a : Action} (h : ¬ ParksForMore m a)
    (hstep : step m a = some m') : m'.Forsaken := by
  simp only [ParksForMore, not_forall, not_lt] at h
  obtain ⟨hstop, call, c, ring, hcall, hpark, hle⟩ := h
  obtain ⟨hwait, client, hclient, hawake⟩ := JobManager.waitCall_spec hcall
  have hm' : m' = m.park call := by
    rw [hwait, JobManager.popCompletedWait_of_parks hpark] at hstep
    exact (Option.some.inj hstep).symm
  subst hm'
  refine ⟨hstop, call.channel, ?_⟩
  rw [JobManager.parked_park hclient hawake, if_pos rfl]
  exact Nat.lt_succ_of_le hle

theorem watched_newManager (maxChannels : ℕ) (nThreads pendingCapacity : ℤ) (nClients : ℕ) :
    Watched (newManager maxChannels nThreads pendingCapacity nClients) where
  sound := sound_newManager maxChannels nThreads pendingCapacity nClients
  waiters := waitersInitialised_newManager maxChannels nThreads pendingCapacity nClients
  covered := fun hstop => absurd hstop Bool.false_ne_true

/-- Over every interleaving, no thread is left parked in `pop_completed_wait` when all
workers have exited, if each thread that parks after the stop has a job of its channel
to wait for beside those of the threads already parked there; and a run that ends with
all workers exited leaves nobody behind only so. -/
theorem noneLeftBehind_iff (maxChannels : ℕ) (nThreads pendingCapacity : ℤ) (nClients : ℕ)
    (actions : List Action) :
    (Along step ParksForMore (newManager maxChannels nThreads pendingCapacity nClients) actions →
      Throughout step NoneLeftBehind
        (newManager maxChannels nThreads pendingCapacity nClients) actions) ∧
    ∀ m, run step (newManager maxChannels nThreads pendingCapacity nClients) actions = some m →
      (∀ w ∈ m.workers, w = .exited) →
        (NoneLeftBehind m ↔
          Along step ParksForMore (newManager maxChannels nThreads pendingCapacity nClients)
            actions) := by
  have hnew := watched_newManager maxChannels nThreads pendingCapacity nClients
  have hsafe : Along step ParksForMore (newManager maxChannels nThreads pendingCapacity nClients)
      actions → Throughout step NoneLeftBehind
        (newManager maxChannels nThreads pendingCapacity nClients) actions :=
    throughout_of_along (fun m => Watched.noneLeftBehind)
      (fun m m' a _ hm hparks hstep => hm.step hparks hstep) hnew
  refine ⟨hsafe, fun m hrun hexited => ⟨fun hnone => ?_, fun hparks => ?_⟩⟩
  · refine along_of_run (fun m a m' hm hparks hstep => Watched.step hm hparks hstep)
      (B := fun m => Sound m ∧ m.Forsaken) ?_ ?_ hnew hrun ?_
    · intro m a m' hm hnot hstep
      exact ⟨hm.sound.step hstep, forsaken_of_not_parksForMore hnot hstep⟩
    · rintro m a m' ⟨hs, hforsaken⟩ hstep
      exact ⟨hs.step hstep, JobManager.Forsaken.step hs.recorded hforsaken hstep⟩
    · rintro ⟨-, -, channel, hlt⟩
      obtain ⟨client, hclient, hparked⟩ := List.countP_pos_iff.mp (Nat.zero_lt_of_lt hlt)
      have hawake := hnone hexited client hclient
      cases client <;> first | cases hparked | cases hawake
  · exact throughout_iff_initial.mp (hsafe hparks) actions m List.prefix_rfl hrun

/-- A waiter on channel 1 is woken by the stop while a job of channel 0 is pending. It
parks again, the worker finishes that job and exits, and nobody wakes the waiter. -/
theorem waiter_left_behind : ¬ Throughout step NoneLeftBehind (newManager 2 1 4 2)
    [.call 0 (.initChannel 1) 0, .call 0 (.initChannel 1) 0, .call 1 (.submit 0 1 2 0) 0,
      .call 0 (.popCompletedWait 1 0) 0, .call 1 (.stop true) 0, .resume 0 0, .worker 0 0,
      .worker 0 0, .worker 0 0] := by
  intro h
  have hlast := throughout_iff_initial.mp h _ _ List.prefix_rfl rfl
  have hexited := hlast (by intro w hw; exact List.mem_singleton.mp hw)
  exact absurd (hexited (.waitingCompleted 1 0) List.mem_cons_self) (by decide)

end Job

end ConArtist
