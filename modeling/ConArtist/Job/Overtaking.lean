import ConArtist.Job.Conservation

/-!
# Jobs are called nearly in turn

Workers take the jobs in the order of their submission, but they call them when they come to it. So
a job can be called before one that was accepted earlier, if that one is in the hands of another
worker. There are only so many workers: what was taken is an initial part of what was accepted, and
the job that is called after `j` others was accepted after fewer than `j + n` others, where `n` is
the number of workers. With one worker this is the order of the submissions.
-/

namespace ConArtist

namespace Job

open Machine ConArtist.Job.Flow

/-- The job of a worker, if its function is still to be called. -/
def uncalledShare : Option (JobRecord × Bool) → Multiset ℕ
  | some (job, false) => {job.ticket}
  | _ => 0

/-- The tickets of the jobs in hand that are still to be called. -/
def uncalledTickets (held : List (Option (JobRecord × Bool))) : Multiset ℕ :=
  (held.map uncalledShare).sum

theorem card_uncalledTickets_le (held : List (Option (JobRecord × Bool))) :
    (uncalledTickets held).card ≤ held.length := by
  induction held with
  | nil => exact le_rfl
  | cons x held ih =>
      have hshare : (uncalledShare x).card ≤ 1 := by
        rcases x with _ | ⟨job, _ | _⟩
        · exact Nat.zero_le _
        · exact le_rfl
        · exact Nat.zero_le _
      rw [uncalledTickets, List.map_cons, List.sum_cons, Multiset.card_add, List.length_cons,
        Nat.add_comm held.length]
      exact Nat.add_le_add hshare ih

/-- `k` jobs were taken, the first that were accepted, and the rest is pending in its order. -/
structure Turns (f : Flow) (n k : ℕ) : Prop where
  workers : f.held.length = n
  taken : tickets f.calls + uncalledTickets f.held = Multiset.range k
  pending : f.pending.map JobRecord.ticket = List.range' k f.pending.length
  all : k + f.pending.length = f.accepted.length
  early : ∀ (j : ℕ) call, f.calls[j]? = some call → call.ticket < j + n

section Moves

variable {f f' : Flow} {e : Event} {n k : ℕ}

theorem uncalledTickets_ran {held : List (Option (JobRecord × Bool))} {i : ℕ} {job : JobRecord}
    (hheld : held[i]? = some (some (job, false))) :
    uncalledTickets (held.set i (some (job, true))) + {job.ticket} = uncalledTickets held :=
  CondVar.sum_map_set_loss hheld (zero_add _).symm

theorem Turns.ticket_lt (h : Turns f n k) {i : ℕ} {job : JobRecord}
    (hheld : f.held[i]? = some (some (job, false))) : job.ticket < f.calls.length + n := by
  have hmem : job.ticket ∈ uncalledTickets f.held := by
    rw [← uncalledTickets_ran hheld]
    exact Multiset.mem_add.mpr (.inr (Multiset.mem_singleton_self _))
  have hlt : job.ticket < k := by
    rw [← Multiset.mem_range, ← h.taken]
    exact Multiset.mem_add.mpr (.inr hmem)
  have hcard := congrArg Multiset.card h.taken
  rw [Multiset.card_add, Multiset.card_range, tickets, Multiset.coe_card, List.length_map] at hcard
  have hworkers := card_uncalledTickets_le f.held
  rw [h.workers] at hworkers
  omega

/-- Every move but a drop keeps the turns. -/
theorem Turns.moves (h : Turns f n k) (hrec : f.Recorded) (hdrop : e ≠ .dropped)
    (hmove : Moves f e f') : ∃ k', Turns f' n k' := by
  obtain ⟨hworkers, htaken, hpending, hall, hearly⟩ := h
  cases hmove with
  | opened => exact ⟨k, hworkers, htaken, hpending, hall, hearly⟩
  | accepted channel jobFn jobData0 jobData1 hfn =>
      refine ⟨k, hworkers, htaken, ?_, ?_, hearly⟩
      · rw [List.map_append, hpending, List.length_append, List.length_singleton,
          List.range'_concat, ← hall, Nat.one_mul]
        rfl
      · rw [List.length_append, List.length_append, ← Nat.add_assoc, hall]
  | taken i job pending hjobs hheld =>
      rw [hjobs, List.map_cons, List.length_cons, List.range'_succ] at hpending
      obtain ⟨hticket, hrest⟩ := List.cons.inj hpending
      rw [hjobs, List.length_cons] at hall
      have hshare : uncalledTickets (f.held.set i (some ({ job with jobData1 := 0 }, false))) =
          uncalledTickets f.held + {job.ticket} :=
        CondVar.sum_map_set_gain hheld (zero_add _).symm
      have hall' : k + 1 + pending.length = f.accepted.length := by omega
      refine ⟨k + 1, by rw [List.length_set, hworkers], ?_, hrest, hall', hearly⟩
      rw [hshare, ← add_assoc, htaken, hticket, Multiset.range_succ, ← Multiset.singleton_add,
        add_comm]
  | ran i job hheld =>
      have hfn := hrec.jobFn_ne (hrec.held i job false hheld).1
      have hlt := Turns.ticket_lt ⟨hworkers, htaken, hpending, hall, hearly⟩ hheld
      refine ⟨k, by rw [List.length_set, hworkers], ?_, hpending, hall, fun j call hcall => ?_⟩
      · rw [if_neg hfn, tickets_append, tickets_cons, tickets_nil, add_zero, ← htaken,
          ← uncalledTickets_ran hheld]
        abel
      · rw [if_neg hfn] at hcall
        rcases Nat.lt_or_ge j f.calls.length with hold | hnew
        · rw [List.getElem?_append_left hold] at hcall
          exact hearly j call hcall
        · rw [List.getElem?_append_right hnew] at hcall
          obtain rfl : job = call := List.mem_singleton.mp (List.mem_of_getElem? hcall) |>.symm
          exact Nat.lt_of_lt_of_le hlt (Nat.add_le_add_right hnew n)
  | completed i job c items hheld hchannel hitems =>
      have hshare : uncalledTickets (f.held.set i none) = uncalledTickets f.held + 0 :=
        CondVar.sum_map_set_gain hheld (zero_add _).symm
      refine ⟨k, by rw [List.length_set, hworkers], ?_, hpending, hall, hearly⟩
      rw [hshare, add_zero, htaken]
  | handed c jobData1 job items hitems => exact ⟨k, hworkers, htaken, hpending, hall, hearly⟩
  | dropped => exact absurd rfl hdrop

theorem turns_run {es : List Event} (h : Turns f n k) (hrec : f.Recorded)
    (hdrop : Event.dropped ∉ es) (hrun : run Flow.step f es = some f') : ∃ k', Turns f' n k' := by
  induction es generalizing f k with
  | nil =>
      cases hrun
      exact ⟨k, h⟩
  | cons e es ih =>
      obtain ⟨g, hstep, hrest⟩ := (run_cons_eq_some Flow.step).mp hrun
      rw [List.mem_cons, not_or] at hdrop
      have hmove := moves_of_step hstep
      obtain ⟨k', hg⟩ := h.moves hrec (Ne.symm hdrop.1) hmove
      exact ih hg (hrec.moves hmove) hdrop.2 hrest

end Moves

/-- The jobs that were taken are the first that were accepted, those that were called and those in
hand that are still to be called. A job is called before it is overtaken by more jobs than there
are other workers. -/
structure InTurn (m : JobManager) : Prop where
  taken : ∃ k, k + m.pending.items.length = m.accepted.length ∧
    tickets m.calls + uncalledTickets (m.workers.map Worker.held) = Multiset.range k
  early : ∀ (j : ℕ) call, m.calls[j]? = some call → call.ticket < j + m.workers.length

/-- What the runs of a manager keep. -/
structure TurnsOk (m : JobManager) : Prop where
  recorded : m.flow.Recorded
  turns : ∃ k, Turns m.flow m.workers.length k

theorem TurnsOk.inTurn {m : JobManager} (h : TurnsOk m) : InTurn m := by
  obtain ⟨k, hturns⟩ := h.turns
  exact ⟨⟨k, hturns.all, hturns.taken⟩, hturns.early⟩

theorem TurnsOk.step {m m' : JobManager} {a : Action} (h : TurnsOk m) (hkeep : ¬ a.Drops)
    (hstep : step m a = some m') : TurnsOk m' := by
  obtain ⟨k, hturns⟩ := h.turns
  obtain ⟨k', hturns'⟩ := turns_run hturns h.recorded (dropped_notMem_events hkeep)
    (JobManager.flow_step h.recorded hstep)
  have hworkers : m'.workers.length = m.workers.length := by
    rw [← hturns'.workers]
    exact (List.length_map _).symm
  exact ⟨recorded_step h.recorded hstep, k', hworkers ▸ hturns'⟩

theorem turnsOk_newManager (maxChannels : ℕ) (nThreads pendingCapacity : ℤ) (nClients : ℕ) :
    TurnsOk (newManager maxChannels nThreads pendingCapacity nClients) := by
  refine ⟨(jobsOk_newManager maxChannels nThreads pendingCapacity nClients).recorded, 0, ?_⟩
  obtain ⟨nWorkers, hflow⟩ := flow_newManager maxChannels nThreads pendingCapacity nClients
  have hworkers : (newManager maxChannels nThreads pendingCapacity nClients).workers.length =
      nWorkers := by
    have hheld := congrArg (fun f => f.held.length) hflow
    simpa [JobManager.flow, idleFlow] using hheld
  rw [hflow, hworkers]
  refine ⟨List.length_replicate, ?_, rfl, rfl, fun j call hcall => by cases hcall⟩
  simp [idleFlow, uncalledTickets, uncalledShare]

/-- For every number of workers and every interleaving without a `stop(0)`, jobs are taken in the
order in which they were accepted, and the job that is called after `j` others has a ticket below
`j + n`. -/
theorem jobs_in_turn (maxChannels : ℕ) (nThreads pendingCapacity : ℤ) (nClients : ℕ)
    (actions : List Action) (hkeep : ∀ a ∈ actions, ¬ a.Drops) :
    Throughout step InTurn (newManager maxChannels nThreads pendingCapacity nClients) actions :=
  throughout_of_step (fun _ => TurnsOk.inTurn)
    (fun _ _ a ha hm hstep => hm.step (hkeep a ha) hstep)
    (turnsOk_newManager maxChannels nThreads pendingCapacity nClients)

/-- Two jobs through two workers. The second is called first. -/
def secondFirst : List Action :=
  [.call 0 (.initChannel 2) 0, .call 0 (.submit 0 1 2 0) 0, .call 0 (.submit 0 1 3 0) 0,
    .worker 0 0, .worker 1 0, .worker 1 0]

theorem jobs_in_turn_secondFirst : ∃ m, run step (newManager 1 2 4 1) secondFirst = some m ∧
    m.calls.map JobRecord.ticket = [1] ∧ InTurn m := by
  refine ⟨_, rfl, rfl, ?_⟩
  have hkeep : ∀ a ∈ secondFirst, ¬ a.Drops := by
    simp [secondFirst, Action.Drops]
  exact throughout_iff_initial.mp (jobs_in_turn 1 2 4 1 secondFirst hkeep) _ _
    List.prefix_rfl rfl

end Job

end ConArtist
