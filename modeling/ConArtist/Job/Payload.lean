import ConArtist.Job.Conservation

/-!
# The data a job carries

The ring is meant to be a bounded queue of whole records, so that a job runs on
the two pointers it was submitted with and both are handed back. `ring_t::pop`
leaves its `job_data1` argument as it is: a worker calls the function with the NULL
its variable starts with, and a caller of `pop_job` finds in its variable what it
put there. The queue and the jobs keep their data exactly when these values happen
to be the right ones.
-/

namespace ConArtist

namespace Job

open Machine ConArtist.Job.Flow

section RingRuns

/-- The calls on a ring; `jobData1` is the variable a pop is given. -/
inductive RingOp where
  | push (job : JobRecord)
  | pop (jobData1 : ℕ)

inductive RingAnswer where
  | pushed (ok : Bool)
  | popped (job : Option JobRecord)
  deriving DecidableEq

/-- The answers of a ring. -/
def ringRun : Ring → List RingOp → List RingAnswer
  | _, [] => []
  | r, .push job :: ops =>
      match r.push job.channel job.jobFn job.jobData0 job.jobData1 job.ticket with
      | none => .pushed false :: ringRun r ops
      | some r' => .pushed true :: ringRun r' ops
  | r, .pop jobData1 :: ops =>
      match r.pop jobData1 with
      | none => .popped none :: ringRun r ops
      | some (job, r') => .popped (some job) :: ringRun r' ops

/-- The answers of a bounded queue of records. -/
def fifoRun : BoundedFifo JobRecord → List RingOp → List RingAnswer
  | _, [] => []
  | q, .push job :: ops =>
      match q.push job with
      | none => .pushed false :: fifoRun q ops
      | some q' => .pushed true :: fifoRun q' ops
  | q, .pop _ :: ops =>
      match q.pop with
      | none => .popped none :: fifoRun q ops
      | some (job, q') => .popped (some job) :: fifoRun q' ops

/-- Every pop that finds a record is given a variable that already holds the
record's second pointer. -/
def PopsHoldData : BoundedFifo JobRecord → List RingOp → Prop
  | _, [] => True
  | q, .push job :: ops =>
      match q.push job with
      | none => PopsHoldData q ops
      | some q' => PopsHoldData q' ops
  | q, .pop jobData1 :: ops =>
      match q.pop with
      | none => PopsHoldData q ops
      | some (job, q') => job.jobData1 = jobData1 ∧ PopsHoldData q' ops

theorem ringRun_eq_fifoRun_iff (r : Ring) (ops : List RingOp) :
    ringRun r ops = fifoRun r.toFifo ops ↔ PopsHoldData r.toFifo ops := by
  induction ops generalizing r with
  | nil => exact iff_of_true rfl trivial
  | cons op ops ih =>
      cases op with
      | push job =>
          have hmap := RingBuffer.map_toFifo_push r job
          have hpush : r.push job.channel job.jobFn job.jobData0 job.jobData1 job.ticket =
              RingBuffer.push r job := rfl
          rcases hr : RingBuffer.push r job with _ | r'
          · rw [hr, Option.map_none] at hmap
            simp only [ringRun, fifoRun, PopsHoldData, hpush, hr, ← hmap, List.cons.injEq,
              true_and]
            exact ih r
          · rw [hr, Option.map_some] at hmap
            simp only [ringRun, fifoRun, PopsHoldData, hpush, hr, ← hmap, List.cons.injEq,
              true_and]
            exact ih r'
      | pop jobData1 =>
          have hmap := RingBuffer.map_toFifo_pop r
          rcases hr : RingBuffer.pop r with _ | ⟨job, r'⟩
          · rw [hr, Option.map_none] at hmap
            simp only [ringRun, fifoRun, PopsHoldData, Ring.pop, hr, Option.map_none, ← hmap,
              List.cons.injEq, true_and]
            exact ih r
          · rw [hr, Option.map_some, Prod.map_apply] at hmap
            simp only [ringRun, fifoRun, PopsHoldData, Ring.pop, hr, Option.map_some, ← hmap,
              List.cons.injEq, RingAnswer.popped.injEq, Option.some.injEq, ih r', id_eq]
            refine and_congr_left fun _ => ?_
            obtain ⟨channel, jobFn, jobData0, jobData1', ticket⟩ := job
            simp only [JobRecord.mk.injEq, true_and, and_true]
            exact eq_comm

end RingRuns

/-- Functions are called with the pointers of the submission, and pops hand them
back. -/
structure CarriesData (f : Flow) : Prop where
  called : ∀ call ∈ f.calls, ∃ a, f.accepted[call.ticket]? = some a ∧ call.jobFn = a.jobFn ∧
    call.jobData0 = a.jobData0 ∧ call.jobData1 = a.jobData1
  handed : ∀ job ∈ f.popped, ∃ a, f.accepted[job.ticket]? = some a ∧
    job.jobData0 = a.jobData0 ∧ job.jobData1 = a.jobData1

/-- The event loses no pointer: the function that is run was submitted with a NULL
second pointer, and the variable of the pop holds the second pointer of the job. -/
def KeepsData (f : Flow) : Event → Prop
  | .ran i => ∀ job called, f.held[i]? = some (some (job, called)) →
      ∀ a, f.accepted[job.ticket]? = some a → a.jobData1 = 0
  | .handed c jobData1 => ∀ job items, f.completed[c]? = some (job :: items) →
      ∀ a, f.accepted[job.ticket]? = some a → a.jobData1 = jobData1
  | _ => True

theorem CarriesData.congr {f f' : Flow} (h : CarriesData f) (haccepted : f.accepted <+: f'.accepted)
    (hcalls : f'.calls = f.calls) (hpopped : f'.popped = f.popped) : CarriesData f' := by
  obtain ⟨more, hmore⟩ := haccepted
  have hget : ∀ (i : ℕ) a, f.accepted[i]? = some a → f'.accepted[i]? = some a := by
    intro i a ha
    rw [← hmore, List.getElem?_append_left (List.getElem?_eq_some_iff.mp ha).1, ha]
  constructor
  · intro call hcall
    obtain ⟨a, ha, hfields⟩ := h.called call (hcalls ▸ hcall)
    exact ⟨a, hget _ a ha, hfields⟩
  · intro job hjob
    obtain ⟨a, ha, hfields⟩ := h.handed job (hpopped ▸ hjob)
    exact ⟨a, hget _ a ha, hfields⟩

/-- An event keeps the data exactly when it loses no pointer. -/
theorem carriesData_step {f f' : Flow} {e : Event} (hrec : f.Recorded) (h : CarriesData f)
    (hstep : f.step e = some f') : CarriesData f' ↔ KeepsData f e := by
  cases moves_of_step hstep with
  | opened => exact iff_of_true (h.congr List.prefix_rfl rfl rfl) trivial
  | accepted => exact iff_of_true (h.congr (List.prefix_append _ _) rfl rfl) trivial
  | taken => exact iff_of_true (h.congr List.prefix_rfl rfl rfl) trivial
  | completed => exact iff_of_true (h.congr List.prefix_rfl rfl rfl) trivial
  | dropped => exact iff_of_true (h.congr List.prefix_rfl rfl rfl) trivial
  | ran i job hheld =>
      obtain ⟨⟨a, ha, hchannel, hfn, hdata0⟩, hnull⟩ := hrec.held i job false hheld
      rw [if_neg (hrec.jobFn_ne ⟨a, ha, hchannel, hfn, hdata0⟩)]
      constructor
      · intro hcarries job' called hheld' a' ha'
        cases hheld.symm.trans hheld'
        obtain ⟨a'', ha'', -, -, hdata1⟩ := hcarries.called job (by simp)
        cases ha'.symm.trans ha''
        exact hdata1.symm.trans hnull
      · intro hkeeps
        refine ⟨fun call hcall => ?_, h.handed⟩
        rcases List.mem_append.mp hcall with hcall | hcall
        · exact h.called call hcall
        · cases List.mem_singleton.mp hcall
          exact ⟨a, ha, hfn.symm, hdata0.symm, hnull.trans (hkeeps job false hheld a ha).symm⟩
  | handed c jobData1 job items hitems =>
      obtain ⟨⟨a, ha, -, -, hdata0⟩, -⟩ := hrec.completed c _ hitems job List.mem_cons_self
      constructor
      · intro hcarries job' items' hitems' a' ha'
        cases hitems.symm.trans hitems'
        obtain ⟨a'', ha'', -, hdata1⟩ := hcarries.handed { job with jobData1 := jobData1 }
          (by simp [popped])
        cases ha'.symm.trans ha''
        exact hdata1.symm
      · intro hkeeps
        refine ⟨h.called, fun job' hjob' => ?_⟩
        rw [popped_append rfl] at hjob'
        rcases List.mem_append.mp hjob' with hjob' | hjob'
        · exact h.handed job' hjob'
        · cases List.mem_singleton.mp hjob'
          exact ⟨a, ha, hdata0.symm, (hkeeps job items hitems a ha).symm⟩

theorem events_cases (m : JobManager) (a : Action) :
    m.events a = [] ∨ (∃ e, m.events a = [e]) ∨ ∃ i, m.events a = [.completed i, .taken i] := by
  have hloop : ∀ i, m.loopEvents i = [] ∨ m.loopEvents i = [.taken i] := by
    intro i
    rw [JobManager.loopEvents]
    split
    · exact Or.inl rfl
    · exact Or.inr rfl
  have hpop : ∀ channel jobData1, m.popEvents channel jobData1 = [] ∨
      ∃ e, m.popEvents channel jobData1 = [e] := by
    intro channel jobData1
    rw [JobManager.popEvents]
    split
    · split
      · exact Or.inl rfl
      · exact Or.inr ⟨_, rfl⟩
    · exact Or.inl rfl
  have hone : ∀ es : List Event, (es = [] ∨ ∃ e, es = [e]) →
      es = [] ∨ (∃ e, es = [e]) ∨ ∃ i, es = [.completed i, .taken i] :=
    fun es h => h.elim Or.inl fun h => Or.inr (Or.inl h)
  cases a with
  | call client request wake =>
      refine hone _ ?_
      cases request with
      | popCompleted channel jobData1 => exact hpop channel jobData1
      | popCompletedWait channel jobData1 => exact hpop channel jobData1
      | _ =>
          simp only [JobManager.events, JobManager.requestEvents]
          split
          · exact Or.inl rfl
          · exact Or.inr ⟨_, rfl⟩
  | resume client wake =>
      refine hone _ ?_
      simp only [JobManager.events]
      split
      · exact hpop _ _
      · exact Or.inl rfl
  | join client => exact Or.inl rfl
  | worker i wake =>
      simp only [JobManager.events]
      split
      case h_1 w hw =>
        cases w with
        | ready => exact hone _ ((hloop i).imp_right fun h => ⟨_, h⟩)
        | running job => exact Or.inr (Or.inl ⟨_, rfl⟩)
        | done job =>
            simp only [JobManager.workerEvents]
            split
            · split
              · exact Or.inl rfl
              · rcases hloop i with h | h
                · exact Or.inr (Or.inl ⟨_, by rw [h]⟩)
                · exact Or.inr (Or.inr ⟨i, by rw [h]⟩)
            · exact Or.inl rfl
        | _ => exact Or.inl rfl
      case h_2 => exact Or.inl rfl

/-- The step loses no pointer of a job. -/
def StepKeepsData (m : JobManager) (a : Action) : Prop := ∀ e ∈ m.events a, KeepsData m.flow e

theorem carriesData_flow_iff {m m' : JobManager} {a : Action} (hrec : m.flow.Recorded)
    (h : CarriesData m.flow) (hstep : step m a = some m') :
    CarriesData m'.flow ↔ StepKeepsData m a := by
  have hflow := JobManager.flow_step hrec hstep
  rw [StepKeepsData]
  rcases events_cases m a with hes | ⟨e, hes⟩ | ⟨i, hes⟩ <;> rw [hes] at hflow ⊢
  · rw [run_nil, Option.some.injEq] at hflow
    exact iff_of_true (hflow ▸ h) (by simp)
  · obtain ⟨f, hf, hnil⟩ := (run_cons_eq_some Flow.step).mp hflow
    cases hnil
    simpa using carriesData_step hrec h hf
  · obtain ⟨f, hf, hrest⟩ := (run_cons_eq_some Flow.step).mp hflow
    obtain ⟨g, hg, hnil⟩ := (run_cons_eq_some Flow.step).mp hrest
    cases hnil
    have hrecf := hrec.moves (moves_of_step hf)
    refine iff_of_true ?_ (by simp [KeepsData])
    exact (carriesData_step hrecf ((carriesData_step hrec h hf).mpr trivial) hg).mpr trivial

structure DataOk (m : JobManager) : Prop where
  recorded : m.flow.Recorded
  carries : CarriesData m.flow

/-- For every ring and sequence of calls, the ring answers as the queue of its
records exactly when every successful pop is given a variable that already holds
the record's second pointer; and over every interleaving of the manager, functions
are called with the pointers of the submission and pops hand them back, in every
state reached, exactly when every function run was submitted with a NULL second
pointer and every variable of a successful pop already holds it. -/
theorem jobs_carryData_iff (r : Ring) (ops : List RingOp) (maxChannels : ℕ)
    (nThreads pendingCapacity : ℤ) (nClients : ℕ) (actions : List Action) :
    (ringRun r ops = fifoRun r.toFifo ops ↔ PopsHoldData r.toFifo ops) ∧
      (Throughout step (fun m => CarriesData m.flow)
          (newManager maxChannels nThreads pendingCapacity nClients) actions ↔
        Along step StepKeepsData (newManager maxChannels nThreads pendingCapacity nClients)
          actions) := by
  refine ⟨ringRun_eq_fifoRun_iff r ops, ?_⟩
  obtain ⟨nWorkers, hflow⟩ := flow_newManager maxChannels nThreads pendingCapacity nClients
  have hnew : CarriesData (idleFlow nWorkers) :=
    ⟨fun call hcall => absurd hcall List.not_mem_nil, fun job hjob => absurd hjob List.not_mem_nil⟩
  have hkeep : ∀ m m', ∀ a ∈ actions, DataOk m → StepKeepsData m a → step m a = some m' →
      DataOk m' := by
    intro m m' a _ hm hkeeps hstep
    exact ⟨recorded_step hm.recorded hstep,
      (carriesData_flow_iff hm.recorded hm.carries hstep).mpr hkeeps⟩
  have hbreak : ∀ m m', ∀ a ∈ actions, DataOk m → ¬ StepKeepsData m a → step m a = some m' →
      ¬ CarriesData m'.flow := by
    intro m m' a _ hm hloses hstep hcarries
    exact hloses ((carriesData_flow_iff hm.recorded hm.carries hstep).mp hcarries)
  exact throughout_iff_along (fun m hm => hm.carries) hkeep hbreak
    ⟨hflow ▸ recorded_idleFlow nWorkers, hflow ▸ hnew⟩

/-- A job submitted with the pointers 2 and 3 is called with 2 and NULL, and handed
back as 2 and whatever the caller's variable held; and a ring that stored such a
record gives it back without the second pointer. -/
theorem job_loses_second_pointer :
    (∃ m, run step (newManager 1 1 4 1) (oneJob 3 0) = some m ∧
      m.accepted = [⟨0, 1, 2, 3, 0⟩] ∧ m.calls = [⟨0, 1, 2, 0, 0⟩] ∧
      m.popped = [⟨0, 1, 2, 0, 0⟩] ∧ ¬ CarriesData m.flow) ∧
    ringRun (Ring.init 1 Nat.one_pos) [.push ⟨0, 1, 2, 3, 0⟩, .pop 0] =
      [.pushed true, .popped (some ⟨0, 1, 2, 0, 0⟩)] := by
  refine ⟨⟨_, rfl, rfl, rfl, rfl, fun hcarries => ?_⟩, rfl⟩
  obtain ⟨a, ha, -, hdata1⟩ := hcarries.handed ⟨0, 1, 2, 0, 0⟩ List.mem_cons_self
  cases ha
  cases hdata1

end Job

end ConArtist
