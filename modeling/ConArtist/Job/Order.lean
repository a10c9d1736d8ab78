import ConArtist.Job.Conservation

/-!
# One worker keeps the order

With one worker a job manager is a chain of queues. Its jobs are called in the order of
their submission, and channel by channel the popped, the completed, the one in hand and
the pending jobs, in this order, are the accepted ones. The invariant is that of the
flow, for a single place in hand.
-/

namespace ConArtist

namespace Job

open Machine ConArtist.Job.Flow

/-- The first pointers of the jobs of a channel, in their order. -/
def dataOn (channel : ℤ) (jobs : List JobRecord) : List ℕ :=
  (jobs.filter fun job => job.channel = channel).map JobRecord.jobData0

@[simp] theorem dataOn_nil (channel : ℤ) : dataOn channel [] = [] := rfl

@[simp] theorem dataOn_append (channel : ℤ) (jobs jobs' : List JobRecord) :
    dataOn channel (jobs ++ jobs') = dataOn channel jobs ++ dataOn channel jobs' := by
  rw [dataOn, List.filter_append, List.map_append]
  rfl

theorem dataOn_cons (channel : ℤ) (job : JobRecord) (jobs : List JobRecord) :
    dataOn channel (job :: jobs) = dataOn channel [job] ++ dataOn channel jobs :=
  dataOn_append channel [job] jobs

theorem dataOn_singleton (channel : ℤ) (job : JobRecord) :
    dataOn channel [job] = if job.channel = channel then [job.jobData0] else [] := by
  rw [dataOn, List.filter_singleton]
  by_cases hchannel : job.channel = channel
  · rw [if_pos hchannel, decide_eq_true hchannel]
    rfl
  · rw [if_neg hchannel, decide_eq_false hchannel]
    rfl

/-- The first pointers that were popped from a channel, in their order. -/
def dataFrom (channel : ℤ) (pops : List (ℤ × JobRecord)) : List ℕ :=
  (pops.filter fun pop => pop.1 = channel).map fun pop => pop.2.jobData0

@[simp] theorem dataFrom_nil (channel : ℤ) : dataFrom channel [] = [] := rfl

theorem dataFrom_concat (channel c : ℤ) (pops : List (ℤ × JobRecord)) (job : JobRecord) :
    dataFrom channel (pops ++ [(c, job)]) =
      dataFrom channel pops ++ if c = channel then [job.jobData0] else [] := by
  rw [dataFrom, List.filter_append, List.map_append, List.filter_singleton]
  by_cases hchannel : c = channel
  · rw [if_pos hchannel, decide_eq_true hchannel]
    rfl
  · rw [if_neg hchannel, decide_eq_false hchannel]
    rfl

/-- The job in hand, if its function is still to be called. -/
def uncalled : Option (JobRecord × Bool) → List JobRecord
  | some (job, false) => [job]
  | _ => []

def inHand (held : Option (JobRecord × Bool)) : List JobRecord := (held.map Prod.fst).toList

def queueOf (completed : List (List JobRecord)) (channel : ℤ) : List JobRecord :=
  if 0 ≤ channel then completed[channel.toNat]?.getD [] else []

/-- A flow through one pair of hands keeps the order of the submissions. -/
structure Ordered (f : Flow) (held : Option (JobRecord × Bool)) : Prop where
  single : f.held = [held]
  calls : f.calls.map JobRecord.ticket ++ (uncalled held).map JobRecord.ticket ++
    f.pending.map JobRecord.ticket = List.range f.accepted.length
  channel : ∀ channel : ℤ,
    dataFrom channel f.pops ++ dataOn channel (queueOf f.completed channel) ++
      dataOn channel (inHand held) ++ dataOn channel f.pending = dataOn channel f.accepted

theorem queueOf_natCast {completed : List (List JobRecord)} {c : ℕ} {items : List JobRecord}
    (hitems : completed[c]? = some items) : queueOf completed c = items := by
  rw [queueOf, if_pos (Int.natCast_nonneg c), Int.toNat_natCast, hitems, Option.getD_some]

theorem queueOf_set {completed : List (List JobRecord)} {c : ℕ} {items : List JobRecord}
    (hitems : completed[c]? = some items) (items' : List JobRecord) (channel : ℤ) :
    queueOf (completed.set c items') channel =
      if channel = c then items' else queueOf completed channel := by
  by_cases hc : channel = c
  · rw [hc, if_pos rfl]
    exact queueOf_natCast (List.getElem?_set_self (List.getElem?_eq_some_iff.mp hitems).1)
  · rw [if_neg hc, queueOf, queueOf]
    by_cases hnonneg : 0 ≤ channel
    · rw [if_pos hnonneg, if_pos hnonneg, List.getElem?_set_ne (by omega)]
    · rw [if_neg hnonneg, if_neg hnonneg]

theorem queueOf_append (completed : List (List JobRecord)) (channel : ℤ) :
    queueOf (completed ++ [[]]) channel = queueOf completed channel := by
  rw [queueOf, queueOf]
  refine if_congr Iff.rfl ?_ rfl
  rcases Nat.lt_trichotomy channel.toNat completed.length with hlt | heq | hgt
  · rw [List.getElem?_append_left hlt]
  · rw [heq, List.getElem?_concat_length, List.getElem?_eq_none le_rfl]
    rfl
  · rw [List.getElem?_eq_none (by simp; omega), List.getElem?_eq_none hgt.le]

/-- Every move but a drop keeps the order. -/
theorem Ordered.moves {f f' : Flow} {held : Option (JobRecord × Bool)} {e : Event}
    (h : Ordered f held) (hrec : f.Recorded) (hdrop : e ≠ .dropped) (hmove : Moves f e f') :
    ∃ held', Ordered f' held' := by
  have hheld : ∀ {i : ℕ} {x : Option (JobRecord × Bool)}, f.held[i]? = some x →
      i = 0 ∧ x = held := by
    intro i x hx
    rw [h.single] at hx
    cases i with
    | zero => exact ⟨rfl, (Option.some.inj hx).symm⟩
    | succ i => cases hx
  cases hmove with
  | opened =>
      refine ⟨held, h.single, h.calls, fun channel => ?_⟩
      rw [queueOf_append]
      exact h.channel channel
  | accepted channel jobFn jobData0 jobData1 hfn =>
      refine ⟨held, h.single, ?_, fun channel => ?_⟩
      · rw [List.map_append, ← List.append_assoc, h.calls, List.length_append,
          List.length_singleton, List.range_succ]
        rfl
      · rw [dataOn_append, ← List.append_assoc, dataOn_append]
        exact congrArg (· ++ _) (h.channel channel)
  | taken i job pending hpending hnone =>
      obtain ⟨rfl, rfl⟩ := hheld hnone
      refine ⟨some ({ job with jobData1 := 0 }, false), ?_, ?_, fun channel => ?_⟩
      · rw [h.single]
        rfl
      · have hcalls := h.calls
        rw [hpending] at hcalls
        simpa [uncalled] using hcalls
      · have hchannel := h.channel channel
        rw [hpending, dataOn_cons] at hchannel
        simpa [inHand, dataOn_singleton] using hchannel
  | ran i job hjob =>
      obtain ⟨rfl, rfl⟩ := hheld hjob
      have hfn := hrec.jobFn_ne (hrec.held 0 job false hjob).1
      refine ⟨some (job, true), ?_, ?_, h.channel⟩
      · rw [h.single]
        rfl
      · have hcalls := h.calls
        rw [if_neg hfn]
        simpa [uncalled] using hcalls
  | completed i job c items hjob hchannel hitems =>
      obtain ⟨rfl, rfl⟩ := hheld hjob
      refine ⟨none, ?_, h.calls, fun channel => ?_⟩
      · rw [h.single]
        rfl
      · have hold := h.channel channel
        rw [queueOf_set hitems]
        by_cases hc : channel = c
        · rw [hc, queueOf_natCast hitems] at hold
          rw [if_pos hc, hc, dataOn_append]
          simpa [inHand] using hold
        · have hother : dataOn channel [job] = [] := by
            rw [dataOn_singleton, hchannel, if_neg (Ne.symm hc)]
          rw [if_neg hc]
          simpa [inHand, hother] using hold
  | handed c jobData1 job items hitems =>
      refine ⟨held, h.single, h.calls, fun channel => ?_⟩
      have hold := h.channel channel
      have hown := (hrec.completed c _ hitems job List.mem_cons_self).2
      rw [queueOf_set hitems]
      by_cases hc : channel = c
      · rw [hc, queueOf_natCast hitems, dataOn_cons, dataOn_singleton, if_pos hown] at hold
        rw [if_pos hc, hc, dataFrom_concat, if_pos rfl]
        simpa using hold
      · rw [if_neg hc, dataFrom_concat, if_neg (Ne.symm hc), List.append_nil]
        exact hold
  | dropped => exact absurd rfl hdrop

theorem ordered_run {f f' : Flow} {es : List Event} {held : Option (JobRecord × Bool)}
    (h : Ordered f held) (hrec : f.Recorded) (hdrop : Event.dropped ∉ es)
    (hrun : run Flow.step f es = some f') : ∃ held', Ordered f' held' := by
  induction es generalizing f held with
  | nil =>
      cases hrun
      exact ⟨held, h⟩
  | cons e es ih =>
      obtain ⟨g, hstep, hrest⟩ := (run_cons_eq_some Flow.step).mp hrun
      rw [List.mem_cons, not_or] at hdrop
      have hmove := moves_of_step hstep
      obtain ⟨held', hg⟩ := h.moves hrec (Ne.symm hdrop.1) hmove
      exact ih hg (hrec.moves hmove) hdrop.2 hrest

/-- Jobs are called in the order of their submission, each with what was submitted, and
each channel gives back what was submitted to it in the same order. -/
structure InOrder (m : JobManager) : Prop where
  calls : m.calls.map JobRecord.ticket <+: List.range m.accepted.length
  called : ∀ call ∈ m.calls, ∃ a, m.accepted[call.ticket]? = some a ∧ a.channel = call.channel ∧
    a.jobFn = call.jobFn ∧ a.jobData0 = call.jobData0
  popped : ∀ channel, dataFrom channel m.pops <+: dataOn channel m.accepted

/-- What the runs of a manager with one worker keep. -/
structure OneWorker (m : JobManager) : Prop where
  recorded : m.flow.Recorded
  ordered : ∃ held, Ordered m.flow held

theorem OneWorker.inOrder {m : JobManager} (h : OneWorker m) : InOrder m := by
  obtain ⟨held, hordered⟩ := h.ordered
  refine ⟨?_, h.recorded.calls, fun channel => ?_⟩
  · have hcalls := hordered.calls
    rw [List.append_assoc] at hcalls
    exact ⟨_, hcalls⟩
  · have hchannel := hordered.channel channel
    rw [List.append_assoc, List.append_assoc] at hchannel
    exact ⟨_, hchannel⟩

theorem OneWorker.step {m m' : JobManager} {a : Action} (h : OneWorker m) (hkeep : ¬ a.Drops)
    (hstep : step m a = some m') : OneWorker m' := by
  obtain ⟨held, hordered⟩ := h.ordered
  exact ⟨recorded_step h.recorded hstep, ordered_run hordered h.recorded
    (dropped_notMem_events hkeep) (JobManager.flow_step h.recorded hstep)⟩

theorem oneWorker_newManager (maxChannels : ℕ) {nThreads : ℤ} (hone : nThreads ≤ 1)
    (pendingCapacity : ℤ) (nClients : ℕ) :
    OneWorker (newManager maxChannels nThreads pendingCapacity nClients) := by
  refine ⟨(jobsOk_newManager maxChannels nThreads pendingCapacity nClients).recorded, none, ?_⟩
  have hworkers : (if nThreads ≤ 0 then 1 else nThreads.toNat) = 1 := by
    split <;> omega
  have hflow : (newManager maxChannels nThreads pendingCapacity nClients).flow = idleFlow 1 := by
    simp only [newManager, JobManager.flow, Ring.init, RingBuffer.items_empty, hworkers,
      List.map_replicate, Worker.held, List.map_nil, idleFlow]
  rw [hflow]
  exact ⟨rfl, rfl, fun channel => by simp [idleFlow, queueOf, inHand]⟩

/-- For a manager with one worker and every interleaving without a `stop(0)`, in every
state reached jobs were run in the order in which they were accepted, and what was
popped from a channel is an initial part of what was submitted to it. -/
theorem oneWorker_inOrder (maxChannels : ℕ) (nThreads pendingCapacity : ℤ) (nClients : ℕ)
    (hone : nThreads ≤ 1) (actions : List Action) (hkeep : ∀ a ∈ actions, ¬ a.Drops) :
    Throughout step InOrder (newManager maxChannels nThreads pendingCapacity nClients) actions :=
  throughout_of_step (fun _ => OneWorker.inOrder)
    (fun _ _ a ha hm hstep => hm.step (hkeep a ha) hstep)
    (oneWorker_newManager maxChannels hone pendingCapacity nClients)

/-- Two jobs through one worker, to two channels. -/
def twoJobs : List Action :=
  [.call 0 (.initChannel 1) 0, .call 0 (.initChannel 1) 0, .call 0 (.submit 1 1 2 0) 0,
    .call 0 (.submit 0 1 3 0) 0, .worker 0 0, .worker 0 0, .worker 0 0, .worker 0 0, .worker 0 0,
    .call 0 (.popCompleted 0 0) 0]

theorem oneWorker_inOrder_twoJobs : ∃ m, run step (newManager 2 1 4 1) twoJobs = some m ∧
    m.calls.map JobRecord.ticket = [0, 1] ∧ dataFrom 0 m.pops = [3] ∧ InOrder m := by
  refine ⟨_, rfl, rfl, rfl, ?_⟩
  have hkeep : ∀ a ∈ twoJobs, ¬ a.Drops := by
    simp [twoJobs, Action.Drops]
  exact throughout_iff_initial.mp (oneWorker_inOrder 2 1 4 1 le_rfl twoJobs hkeep) _ _
    List.prefix_rfl rfl

end Job

end ConArtist
