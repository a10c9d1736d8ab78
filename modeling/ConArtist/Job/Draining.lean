import ConArtist.Job.Waiting

/-!
# A draining stop

When the first stop of a run is a `stop(1)`, nothing is ever dropped: a later
`stop(0)` finds the manager stopping. Once all workers have exited the pending ring is
empty, and every accepted job has been run once and is completed or popped. From the
stop on no submission is accepted.
-/

namespace ConArtist

namespace Job

open Machine ConArtist.Job.Flow

/-- The action is a call of `stop`. -/
def Action.stops : Action → Bool
  | .call _ (.stop _) _ => true
  | _ => false

theorem Action.stops_of_drops {a : Action} (h : a.Drops) : a.stops = true := by
  obtain ⟨client, wake, rfl⟩ := h
  rfl

variable {m m' : JobManager}

/-- A `stop(0)` drops nothing when the manager is stopping already. -/
theorem dropped_notMem_events_of_stopping {a : Action} (h : a.Drops → m.stopping = true) :
    Event.dropped ∉ m.events a := by
  by_cases hdrops : a.Drops
  · have hstop := h hdrops
    obtain ⟨client, wake, rfl⟩ := hdrops
    rw [JobManager.events, JobManager.requestEvents, if_pos (Or.inl hstop)]
    exact List.not_mem_nil
  · exact dropped_notMem_events hdrops

/-- What a draining run keeps. -/
structure Drained (m : JobManager) : Prop where
  jobs : JobsOk m
  sound : Sound m

theorem Drained.step {a : Action} (h : Drained m) (hkeep : a.Drops → m.stopping = true)
    (hstep : step m a = some m') : Drained m' where
  jobs := {
    counted := counted_run h.jobs.counted h.jobs.recorded (dropped_notMem_events_of_stopping hkeep)
      (JobManager.flow_step h.jobs.recorded hstep)
    recorded := recorded_step h.jobs.recorded hstep }
  sound := h.sound.step hstep

theorem stopping_of_stops {a : Action} (hstops : a.stops = true) (hstep : step m a = some m') :
    m'.stopping = true := by
  cases a with
  | call client request wake =>
      cases request with
      | stop drain =>
          rw [step] at hstep
          split at hstep
          · cases hstep
            rw [JobManager.stop]
            split
            · assumption
            · rfl
          · cases hstep
      | _ => cases hstops
  | _ => cases hstops

/-- A run whose first stop drains keeps the jobs, and is stopping once it has met a
stop. -/
theorem drained_run {actions : List Action} (h : Drained m)
    (hfirst : m.stopping = true ∨ ∀ a, actions.find? Action.stops = some a → ¬ a.Drops)
    (hrun : run step m actions = some m') :
    Drained m' ∧ ((m.stopping = true ∨ ∃ a ∈ actions, a.stops) → m'.stopping = true) := by
  induction actions generalizing m with
  | nil =>
      cases hrun
      exact ⟨h, fun hstop => hstop.elim id fun ⟨a, ha, _⟩ => absurd ha List.not_mem_nil⟩
  | cons a actions ih =>
      obtain ⟨n, hstep, hrest⟩ := (run_cons_eq_some step).mp hrun
      have hkeep : a.Drops → m.stopping = true := by
        intro hdrops
        refine hfirst.resolve_right fun hdrain => hdrain a ?_ hdrops
        rw [List.find?_cons_of_pos (Action.stops_of_drops hdrops)]
      have hn := h.step hkeep hstep
      by_cases hstop : m.stopping = true ∨ a.stops = true
      · have hstopping : n.stopping = true :=
          hstop.elim (fun hm => JobManager.stopping_step h.sound hm hstep)
            fun ha => stopping_of_stops ha hstep
        obtain ⟨hdrained, hstays⟩ := ih hn (Or.inl hstopping) hrest
        exact ⟨hdrained, fun _ => hstays (Or.inl hstopping)⟩
      · rw [not_or] at hstop
        have hfind : ∀ b, actions.find? Action.stops = some b → ¬ b.Drops := by
          intro b hb
          refine (hfirst.resolve_left hstop.1) b ?_
          rwa [List.find?_cons_of_neg hstop.2]
        obtain ⟨hdrained, hstays⟩ := ih hn (Or.inr hfind) hrest
        refine ⟨hdrained, fun hmet => hstays (Or.inr ?_)⟩
        obtain ⟨b, hb, hstops⟩ := hmet.resolve_left hstop.1
        rcases List.mem_cons.mp hb with rfl | hb
        · exact absurd hstops hstop.2
        · exact ⟨b, hb, hstops⟩

/-- The job accepted under the ticket has been run, once and with its own function, and
stands in the completed ring of its channel or was popped. -/
structure Delivered (m : JobManager) (ticket : ℕ) (accepted : JobRecord) : Prop where
  once : (m.calls.map JobRecord.ticket).count ticket = 1
  own_fn : ∀ call ∈ m.calls, call.ticket = ticket → call.jobFn = accepted.jobFn
  place : (∃ ring, m.completedRing accepted.channel = some ring ∧
    ∃ job ∈ ring.items, job.ticket = ticket) ∨ ∃ job ∈ m.popped, job.ticket = ticket

theorem mem_tickets {jobs : List JobRecord} {ticket : ℕ} :
    ticket ∈ tickets jobs ↔ ∃ job ∈ jobs, job.ticket = ticket := by
  rw [tickets, Multiset.mem_coe, List.mem_map]

theorem mem_completedTickets {completed : List (List JobRecord)} {ticket : ℕ} :
    ticket ∈ completedTickets completed ↔ ∃ items ∈ completed, ticket ∈ tickets items := by
  induction completed with
  | nil => simp [completedTickets]
  | cons items completed ih =>
      rw [completedTickets, List.map_cons, List.sum_cons, Multiset.mem_add, ← completedTickets, ih]
      simp

/-- With nothing pending and nothing in hand every accepted job is delivered. -/
theorem Drained.delivered (h : Drained m) (hexited : ∀ w ∈ m.workers, w = .exited) {ticket : ℕ}
    {a : JobRecord} (ha : m.accepted[ticket]? = some a) : Delivered m ticket a := by
  have hconserved := h.jobs.conserved
  obtain ⟨w, hw⟩ := List.exists_mem_of_ne_nil _ h.sound.workers
  obtain ⟨-, hnone⟩ := h.sound.standing.exited (hexited w hw ▸ hw)
  have hpending : m.pending.items = [] := RingBuffer.items_eq_nil.mpr hnone
  have hheld : ∀ share : Option (JobRecord × Bool) → Multiset ℕ, share none = 0 →
      ((m.workers.map Worker.held).map share).sum = 0 := by
    intro share hshare
    refine List.sum_eq_zero fun x hx => ?_
    obtain ⟨y, hy, rfl⟩ := List.mem_map.mp hx
    obtain ⟨w, hw, rfl⟩ := List.mem_map.mp hy
    rw [hexited w hw]
    exact hshare
  have hunion := hconserved.union
  rw [hpending, tickets_nil, heldTickets, hheld share rfl, add_zero, zero_add] at hunion
  have hmem : ticket ∈ completedTickets (m.completed.map RingBuffer.items) + tickets m.popped := by
    rw [hunion, Multiset.mem_range]
    exact (List.getElem?_eq_some_iff.mp ha).1
  rw [Multiset.mem_add] at hmem
  refine ⟨?_, fun call hcall hticket => ?_, ?_⟩
  · have hcalled := (hconserved.run_before ticket).mpr (Or.inr hmem)
    rw [← Multiset.coe_count]
    exact Multiset.count_eq_one_of_mem hconserved.run_once hcalled
  · obtain ⟨a', ha', hfn⟩ := hconserved.run_fn call hcall
    rw [hticket, ha] at ha'
    cases ha'
    exact hfn.symm
  · rcases hmem with hcompleted | hpopped
    · obtain ⟨items, hitems, hticket⟩ := mem_completedTickets.mp hcompleted
      obtain ⟨ring, hring, rfl⟩ := List.mem_map.mp hitems
      obtain ⟨job, hjob, rfl⟩ := mem_tickets.mp hticket
      obtain ⟨c, hc⟩ := List.mem_iff_getElem?.mp hring
      obtain ⟨a', ha', hchannel⟩ := hconserved.own_channel c ring hc job hjob
      rw [ha] at ha'
      cases ha'
      exact Or.inl ⟨ring, JobManager.completedRing_eq_some.mpr ⟨c, hchannel, hc⟩, job, hjob, rfl⟩
    · exact Or.inr (mem_tickets.mp hpopped)

theorem submit_of_stopping (hstop : m.stopping = true) (channel : ℤ)
    (jobFn jobData0 jobData1 wake : ℕ) :
    m.submit channel jobFn jobData0 jobData1 wake = some (-1, m) := by
  rw [JobManager.submit, if_pos hstop, ite_self]

/-- For every number of workers and every interleaving whose first stop, if there is
one, is a `stop(1)`: in a state with all workers exited the pending ring is empty and
every job whose submission returned 0 has been run once and is in its channel's
completed ring or was popped; and after the stop no submission is accepted. -/
theorem drain_complete (maxChannels : ℕ) (nThreads pendingCapacity : ℤ) (nClients : ℕ)
    (actions : List Action) (hfirst : ∀ a, actions.find? Action.stops = some a → ¬ a.Drops)
    {m : JobManager}
    (hrun : run step (newManager maxChannels nThreads pendingCapacity nClients) actions = some m) :
    ((∀ w ∈ m.workers, w = .exited) → m.pending.count = 0 ∧
      ∀ (ticket : ℕ) a, m.accepted[ticket]? = some a → Delivered m ticket a) ∧
    ((∃ a ∈ actions, a.stops) → ∀ channel jobFn jobData0 jobData1 wake,
      m.submit channel jobFn jobData0 jobData1 wake = some (-1, m)) := by
  have hnew : Drained (newManager maxChannels nThreads pendingCapacity nClients) :=
    ⟨jobsOk_newManager maxChannels nThreads pendingCapacity nClients,
      sound_newManager maxChannels nThreads pendingCapacity nClients⟩
  obtain ⟨hdrained, hstays⟩ := drained_run hnew (Or.inr hfirst) hrun
  constructor
  · intro hexited
    obtain ⟨w, hw⟩ := List.exists_mem_of_ne_nil _ hdrained.sound.workers
    exact ⟨(hdrained.sound.standing.exited (hexited w hw ▸ hw)).2,
      fun ticket a ha => hdrained.delivered hexited ha⟩
  · intro hmet
    exact submit_of_stopping (hstays (Or.inr hmet))

/-- One job through one worker, which exits after a `stop(1)`. -/
def drainOne : List Action :=
  [.call 0 (.initChannel 1) 0, .call 0 (.submit 0 1 2 0) 0, .call 1 (.stop true) 0, .worker 0 0,
    .worker 0 0, .worker 0 0]

theorem drain_complete_drainOne : ∃ m, run step (newManager 1 1 4 2) drainOne = some m ∧
    m.pending.count = 0 ∧ Delivered m 0 ⟨0, 1, 2, 0, 0⟩ ∧
      m.submit 0 1 2 0 0 = some (-1, m) := by
  have hfirst : ∀ a, drainOne.find? Action.stops = some a → ¬ a.Drops := by
    intro a ha
    cases ha
    rintro ⟨client, wake, hstop⟩
    cases hstop
  obtain ⟨hdone, hrefused⟩ := drain_complete 1 1 4 2 drainOne hfirst rfl
  obtain ⟨hpending, hdelivered⟩ := hdone (fun w hw => List.mem_singleton.mp hw)
  exact ⟨_, rfl, hpending, hdelivered 0 _ rfl, hrefused ⟨.call 1 (.stop true) 0, by simp [drainOne],
    rfl⟩ 0 1 2 0 0⟩

end Job

end ConArtist
