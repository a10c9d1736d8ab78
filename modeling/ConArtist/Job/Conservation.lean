import ConArtist.Job.Simulation

/-!
# Job conservation

Over every interleaving of the workers and of the threads that call the manager,
without a `stop(0)`, the accepted jobs are the jobs in the places of the manager,
each in one place, and each is run once, before it enters a completed ring. The
invariant is that of the flow; the manager has it because its steps make moves of
the flow.
-/

namespace ConArtist

namespace Job

open Machine ConArtist.Job.Flow

/-- The jobs whose submission returned 0, by their tickets, are those in the
pending ring, those a worker holds, those in the completed rings and those popped.
Their functions run once, no later than they are completed, and they are completed
on their own channel and popped once. -/
structure JobsConserved (m : JobManager) : Prop where
  union : tickets m.pending.items + heldTickets (m.workers.map Worker.held) +
    completedTickets (m.completed.map RingBuffer.items) + tickets m.popped =
      Multiset.range m.accepted.length
  run_once : (tickets m.calls).Nodup
  run_before : ∀ ticket, ticket ∈ tickets m.calls ↔
    ticket ∈ calledTickets (m.workers.map Worker.held) ∨
      ticket ∈ completedTickets (m.completed.map RingBuffer.items) ∨ ticket ∈ tickets m.popped
  run_fn : ∀ call ∈ m.calls, ∃ a, m.accepted[call.ticket]? = some a ∧ a.jobFn = call.jobFn
  own_channel : ∀ (c : ℕ) (ring : Ring), m.completed[c]? = some ring → ∀ job ∈ ring.items,
    ∃ a, m.accepted[job.ticket]? = some a ∧ a.channel = c
  popped_once : (tickets m.popped).Nodup

/-- What every step but `stop(0)` keeps. -/
structure JobsOk (m : JobManager) : Prop where
  counted : m.flow.Counted
  recorded : m.flow.Recorded

theorem calledTickets_le (held : List (Option (JobRecord × Bool))) :
    calledTickets held ≤ heldTickets held := by
  induction held with
  | nil => exact le_rfl
  | cons x held ih =>
      have hshare : calledShare x ≤ share x := by
        rcases x with _ | ⟨job, _ | _⟩
        · exact le_rfl
        · exact Multiset.zero_le _
        · exact le_rfl
      exact add_le_add hshare ih

theorem JobsOk.conserved {m : JobManager} (h : JobsOk m) : JobsConserved m := by
  obtain ⟨hcounted, hrecorded⟩ := h
  have hnodup := Multiset.nodup_range m.flow.accepted.length
  rw [← hcounted.union] at hnodup
  have hpopped : (tickets m.popped).Nodup :=
    Multiset.nodup_of_le (Multiset.le_add_left _ _) hnodup
  refine ⟨hcounted.union, ?_, fun ticket => ?_, fun call hcall => ?_, ?_, hpopped⟩
  · refine Multiset.nodup_of_le ?_ hnodup
    calc tickets m.flow.calls
        = calledTickets m.flow.held + completedTickets m.flow.completed +
            tickets m.flow.popped := hcounted.called
      _ ≤ heldTickets m.flow.held + completedTickets m.flow.completed + tickets m.flow.popped :=
          add_le_add (add_le_add (calledTickets_le _) le_rfl) le_rfl
      _ ≤ tickets m.flow.pending + (heldTickets m.flow.held +
            completedTickets m.flow.completed + tickets m.flow.popped) :=
          Multiset.le_add_left _ _
      _ = tickets m.flow.pending + heldTickets m.flow.held +
            completedTickets m.flow.completed + tickets m.flow.popped := by
          abel
  · change ticket ∈ tickets m.flow.calls ↔ _
    rw [hcounted.called, Multiset.mem_add, Multiset.mem_add, or_assoc]
    rfl
  · obtain ⟨a, ha, -, hfn, -⟩ := hrecorded.calls call hcall
    exact ⟨a, ha, hfn⟩
  · intro c ring hring job hjob
    have hitems : m.flow.completed[c]? = some ring.items := by
      rw [JobManager.flow, List.getElem?_map, hring, Option.map_some]
    obtain ⟨⟨a, ha, hchannel, -⟩, hc⟩ := hrecorded.completed c _ hitems job hjob
    exact ⟨a, ha, hchannel.trans hc⟩

theorem recorded_step {m m' : JobManager} {a : Action} (h : m.flow.Recorded)
    (hstep : step m a = some m') : m'.flow.Recorded :=
  run_invariant Flow.step (fun _ _ _ hrec hmove => hrec.moves (moves_of_step hmove)) _ h
    (JobManager.flow_step h hstep)

theorem counted_run {f f' : Flow} {es : List Event} (hcounted : f.Counted) (hrec : f.Recorded)
    (hdrop : Event.dropped ∉ es) (h : run Flow.step f es = some f') : f'.Counted := by
  induction es generalizing f with
  | nil =>
      cases h
      exact hcounted
  | cons e es ih =>
      obtain ⟨g, hstep, hrest⟩ := (run_cons_eq_some Flow.step).mp h
      rw [List.mem_cons, not_or] at hdrop
      have hmove := moves_of_step hstep
      exact ih (hcounted.moves hrec (Ne.symm hdrop.1) hmove) (hrec.moves hmove) hdrop.2 hrest

theorem JobsOk.step {m m' : JobManager} {a : Action} (h : JobsOk m) (hkeep : ¬ a.Drops)
    (hstep : step m a = some m') : JobsOk m' where
  counted := counted_run h.counted h.recorded (dropped_notMem_events hkeep)
    (JobManager.flow_step h.recorded hstep)
  recorded := recorded_step h.recorded hstep

def idleFlow (nWorkers : ℕ) : Flow := ⟨[], List.replicate nWorkers none, [], [], [], []⟩

theorem flow_newManager (maxChannels : ℕ) (nThreads pendingCapacity : ℤ) (nClients : ℕ) :
    ∃ nWorkers, (newManager maxChannels nThreads pendingCapacity nClients).flow =
      idleFlow nWorkers := by
  refine ⟨if nThreads ≤ 0 then 1 else nThreads.toNat, ?_⟩
  simp only [newManager, JobManager.flow, Ring.init, RingBuffer.items_empty, List.map_replicate,
    Worker.held, List.map_nil, idleFlow]

theorem counted_idleFlow (nWorkers : ℕ) : (idleFlow nWorkers).Counted where
  union := by simp [popped, idleFlow, heldTickets, completedTickets, share]
  called := by simp [popped, idleFlow, calledTickets, completedTickets, calledShare]

theorem recorded_idleFlow (nWorkers : ℕ) : (idleFlow nWorkers).Recorded where
  accepted_fn := fun a ha => absurd ha List.not_mem_nil
  pending := fun job hjob => absurd hjob List.not_mem_nil
  held := fun i job called hheld => by
    have hnone := List.eq_of_mem_replicate (List.mem_of_getElem? hheld)
    cases hnone
  completed := fun c items hitems => by cases hitems
  popped := fun job hjob => absurd hjob List.not_mem_nil
  calls := fun job hjob => absurd hjob List.not_mem_nil

theorem jobsOk_newManager (maxChannels : ℕ) (nThreads pendingCapacity : ℤ) (nClients : ℕ) :
    JobsOk (newManager maxChannels nThreads pendingCapacity nClients) := by
  obtain ⟨nWorkers, hflow⟩ := flow_newManager maxChannels nThreads pendingCapacity nClients
  exact ⟨hflow ▸ counted_idleFlow nWorkers, hflow ▸ recorded_idleFlow nWorkers⟩

/-- For every number of workers and every interleaving of calls and worker steps
without a `stop(0)`, jobs are conserved in every state reached. -/
theorem jobs_conserved (maxChannels : ℕ) (nThreads pendingCapacity : ℤ) (nClients : ℕ)
    (actions : List Action) (hkeep : ∀ a ∈ actions, ¬ a.Drops) :
    Throughout step JobsConserved (newManager maxChannels nThreads pendingCapacity nClients)
      actions :=
  throughout_of_step (fun _ => JobsOk.conserved)
    (fun _ _ a ha hok hstep => hok.step (hkeep a ha) hstep)
    (jobsOk_newManager maxChannels nThreads pendingCapacity nClients)

def oneJob (jobData1 back : ℕ) : List Action :=
  [.call 0 (.initChannel 1) 0, .call 0 (.submit 0 1 2 jobData1) 0, .worker 0 0, .worker 0 0,
    .worker 0 0, .call 0 (.popCompleted 0 back) 0]

theorem jobs_conserved_oneJob :
    ∃ m, run step (newManager 1 1 4 1) (oneJob 0 0) = some m ∧ m.popped = [⟨0, 1, 2, 0, 0⟩] ∧
      JobsConserved m := by
  refine ⟨_, rfl, rfl, ?_⟩
  have hkeep : ∀ a ∈ oneJob 0 0, ¬ a.Drops := by
    simp [oneJob, Action.Drops]
  exact throughout_iff_initial.mp (jobs_conserved 1 1 4 1 (oneJob 0 0) hkeep) _ _
    List.prefix_rfl rfl

end Job

end ConArtist
