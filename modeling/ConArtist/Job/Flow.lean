import Mathlib.Algebra.Order.Group.Multiset
import Mathlib.Data.Multiset.Range
import Mathlib.Tactic.Abel
import ConArtist.Job.Manager

/-!
# The flow of jobs

What the job manager is for: a submitted job goes from the pending queue to a
worker, is run there, goes on to the completed queue of its channel and is handed
back. A `Flow` is a state of this process, without threads, locks and rings, and an
`Event` moves one job on; the last one drops all that are pending. Two things are
kept on the way. `Counted`: each accepted job is in one place, and those that are past
their worker have been called once, as long as none is dropped. `Recorded`: a record
still tells the channel, the function and the first argument it was submitted with.

The manager's own state is mapped to a flow by `JobManager.flow`.
-/

namespace ConArtist

namespace Job

/-- The places a job can be in. A worker holds at most one job; the flag tells
whether its function has been called. -/
structure Flow where
  pending : List JobRecord
  held : List (Option (JobRecord × Bool))
  completed : List (List JobRecord)
  accepted : List JobRecord
  calls : List JobRecord
  /-- The jobs that were handed back, each with the queue it came from. -/
  pops : List (ℤ × JobRecord)

inductive Event where
  | opened
  | accepted (channel : ℤ) (jobFn jobData0 jobData1 : ℕ)
  | taken (i : ℕ)
  | ran (i : ℕ)
  | completed (i : ℕ)
  | handed (c jobData1 : ℕ)
  | dropped

namespace Flow

def popped (f : Flow) : List JobRecord := f.pops.map Prod.snd

theorem popped_append {f f' : Flow} {pop : ℤ × JobRecord} (h : f'.pops = f.pops ++ [pop]) :
    f'.popped = f.popped ++ [pop.2] := by
  rw [popped, h, List.map_append]
  rfl

/-- The move of an event. The second pointer of a job is lost when a worker takes
the job, and again when it is handed back. -/
def step (f : Flow) : Event → Option Flow
  | .opened => some { f with completed := f.completed ++ [[]] }
  | .accepted channel jobFn jobData0 jobData1 =>
      if jobFn = 0 then none
      else
        let job : JobRecord := ⟨channel, jobFn, jobData0, jobData1, f.accepted.length⟩
        some { f with pending := f.pending ++ [job], accepted := f.accepted ++ [job] }
  | .taken i =>
      match f.pending, f.held[i]? with
      | job :: pending, some none => some { f with
          pending := pending
          held := f.held.set i (some ({ job with jobData1 := 0 }, false)) }
      | _, _ => none
  | .ran i =>
      match f.held[i]? with
      | some (some (job, false)) => some { f with
          calls := if job.jobFn = 0 then f.calls else f.calls ++ [job]
          held := f.held.set i (some (job, true)) }
      | _ => none
  | .completed i =>
      match f.held[i]? with
      | some (some (job, true)) =>
          if 0 ≤ job.channel then
            f.completed[job.channel.toNat]?.map fun items => { f with
              held := f.held.set i none
              completed := f.completed.set job.channel.toNat (items ++ [job]) }
          else none
      | _ => none
  | .handed c jobData1 =>
      match f.completed[c]? with
      | some (job :: items) => some { f with
          completed := f.completed.set c items
          pops := f.pops ++ [((c : ℤ), { job with jobData1 := jobData1 })] }
      | _ => none
  | .dropped => some { f with pending := [] }

/-- The job of a worker, as a set of tickets. -/
def share : Option (JobRecord × Bool) → Multiset ℕ
  | some (job, _) => {job.ticket}
  | none => 0

/-- The same, if the function has been called. -/
def calledShare : Option (JobRecord × Bool) → Multiset ℕ
  | some (job, true) => {job.ticket}
  | _ => 0

def tickets (jobs : List JobRecord) : Multiset ℕ := (jobs.map JobRecord.ticket : List ℕ)

@[simp] theorem tickets_nil : tickets [] = 0 := rfl

@[simp] theorem tickets_cons (job : JobRecord) (jobs : List JobRecord) :
    tickets (job :: jobs) = {job.ticket} + tickets jobs := rfl

@[simp] theorem tickets_append (jobs jobs' : List JobRecord) :
    tickets (jobs ++ jobs') = tickets jobs + tickets jobs' := by
  rw [tickets, List.map_append, ← Multiset.coe_add]
  rfl

/-- The tickets of the jobs the workers hold. -/
def heldTickets (held : List (Option (JobRecord × Bool))) : Multiset ℕ := (held.map share).sum

/-- The tickets of those among them whose function has been called. -/
def calledTickets (held : List (Option (JobRecord × Bool))) : Multiset ℕ :=
  (held.map calledShare).sum

def completedTickets (completed : List (List JobRecord)) : Multiset ℕ :=
  (completed.map tickets).sum

/-- The record carries what the submission of its ticket gave, except for the
second pointer. -/
def Origin (accepted : List JobRecord) (job : JobRecord) : Prop :=
  ∃ a, accepted[job.ticket]? = some a ∧ a.channel = job.channel ∧ a.jobFn = job.jobFn ∧
    a.jobData0 = job.jobData0

theorem Origin.append {accepted : List JobRecord} {job : JobRecord} (h : Origin accepted job)
    (more : List JobRecord) : Origin (accepted ++ more) job := by
  obtain ⟨a, ha, hfields⟩ := h
  exact ⟨a, by rw [List.getElem?_append_left (List.getElem?_eq_some_iff.mp ha).1, ha], hfields⟩

/-- Jobs are neither lost nor doubled. -/
structure Counted (f : Flow) : Prop where
  union : tickets f.pending + heldTickets f.held + completedTickets f.completed +
    tickets f.popped = Multiset.range f.accepted.length
  called : tickets f.calls =
    calledTickets f.held + completedTickets f.completed + tickets f.popped

/-- Records keep what they were submitted with, and stand in their own channel. -/
structure Recorded (f : Flow) : Prop where
  accepted_fn : ∀ a ∈ f.accepted, a.jobFn ≠ 0
  pending : ∀ job ∈ f.pending, Origin f.accepted job
  held : ∀ (i : ℕ) job called, f.held[i]? = some (some (job, called)) →
    Origin f.accepted job ∧ job.jobData1 = 0
  completed : ∀ (c : ℕ) items, f.completed[c]? = some items → ∀ job ∈ items,
    Origin f.accepted job ∧ job.channel = c
  popped : ∀ job ∈ f.popped, Origin f.accepted job
  calls : ∀ job ∈ f.calls, Origin f.accepted job

theorem Recorded.jobFn_ne {f : Flow} (h : f.Recorded) {job : JobRecord}
    (horigin : Origin f.accepted job) : job.jobFn ≠ 0 := by
  obtain ⟨a, ha, -, hfn, -⟩ := horigin
  exact hfn ▸ h.accepted_fn a (List.mem_of_getElem? ha)

/-- What an event does to the places of a flow. -/
inductive Moves (f : Flow) : Event → Flow → Prop where
  | opened : Moves f .opened { f with completed := f.completed ++ [[]] }
  | accepted (channel : ℤ) (jobFn jobData0 jobData1 : ℕ) (hfn : jobFn ≠ 0) :
      Moves f (.accepted channel jobFn jobData0 jobData1) { f with
        pending := f.pending ++ [⟨channel, jobFn, jobData0, jobData1, f.accepted.length⟩]
        accepted := f.accepted ++ [⟨channel, jobFn, jobData0, jobData1, f.accepted.length⟩] }
  | taken (i : ℕ) (job : JobRecord) (pending : List JobRecord)
      (hpending : f.pending = job :: pending)
      (hheld : f.held[i]? = some none) :
      Moves f (.taken i) { f with
        pending := pending
        held := f.held.set i (some ({ job with jobData1 := 0 }, false)) }
  | ran (i : ℕ) (job : JobRecord) (hheld : f.held[i]? = some (some (job, false))) :
      Moves f (.ran i) { f with
        calls := if job.jobFn = 0 then f.calls else f.calls ++ [job]
        held := f.held.set i (some (job, true)) }
  | completed (i : ℕ) (job : JobRecord) (c : ℕ) (items : List JobRecord)
      (hheld : f.held[i]? = some (some (job, true))) (hchannel : job.channel = c)
      (hitems : f.completed[c]? = some items) :
      Moves f (.completed i) { f with
        held := f.held.set i none
        completed := f.completed.set c (items ++ [job]) }
  | handed (c jobData1 : ℕ) (job : JobRecord) (items : List JobRecord)
      (hitems : f.completed[c]? = some (job :: items)) :
      Moves f (.handed c jobData1) { f with
        completed := f.completed.set c items
        pops := f.pops ++ [((c : ℤ), { job with jobData1 := jobData1 })] }
  | dropped : Moves f .dropped { f with pending := [] }

theorem moves_of_step {f f' : Flow} {e : Event} (h : f.step e = some f') : Moves f e f' := by
  cases e with
  | opened =>
      cases h
      exact Moves.opened
  | accepted channel jobFn jobData0 jobData1 =>
      rw [step] at h
      split at h
      · cases h
      · cases h
        exact Moves.accepted channel jobFn jobData0 jobData1 ‹_›
  | taken i =>
      rw [step] at h
      split at h
      · cases h
        exact Moves.taken i _ _ ‹_› ‹_›
      · cases h
  | ran i =>
      rw [step] at h
      split at h
      · cases h
        exact Moves.ran i _ ‹_›
      · cases h
  | completed i =>
      rw [step] at h
      split at h
      · split at h
        · obtain ⟨items, hitems, rfl⟩ := Option.map_eq_some_iff.mp h
          exact Moves.completed i _ _ items ‹_› (Int.toNat_of_nonneg ‹_›).symm hitems
        · cases h
      · cases h
  | handed c jobData1 =>
      rw [step] at h
      split at h
      · cases h
        exact Moves.handed c jobData1 _ _ ‹_›
      · cases h
  | dropped =>
      cases h
      exact Moves.dropped

theorem step_of_moves {f f' : Flow} {e : Event} (h : Moves f e f') : f.step e = some f' := by
  cases h with
  | opened => rfl
  | accepted channel jobFn jobData0 jobData1 hfn => exact if_neg hfn
  | taken i job pending hpending hheld => simp only [step, hpending, hheld]
  | ran i job hheld => simp only [step, hheld]
  | completed i job c items hheld hchannel hitems =>
      simp only [step, hheld, hchannel, Int.natCast_nonneg, if_true, Int.toNat_natCast, hitems,
        Option.map_some]
  | handed c jobData1 job items hitems => simp only [step, hitems]
  | dropped => rfl

section Counting

variable {f f' : Flow} {e : Event}

theorem Counted.moves (h : f.Counted) (hrec : f.Recorded) (hdrop : e ≠ .dropped)
    (hmove : Moves f e f') : f'.Counted := by
  obtain ⟨hunion, hcalled⟩ := h
  cases hmove with
  | opened =>
      have hcompleted : completedTickets (f.completed ++ [[]]) = completedTickets f.completed := by
        simp [completedTickets]
      exact ⟨by rwa [hcompleted], by rwa [hcompleted]⟩
  | accepted channel jobFn jobData0 jobData1 hfn =>
      refine ⟨?_, hcalled⟩
      rw [List.length_append, List.length_singleton, Multiset.range_succ, ← hunion,
        ← Multiset.singleton_add, tickets_append, tickets_cons, tickets_nil, add_zero]
      abel
  | taken i job pending hpending hheld =>
      have hshare : heldTickets (f.held.set i (some ({ job with jobData1 := 0 }, false))) =
          heldTickets f.held + {job.ticket} :=
        CondVar.sum_map_set_gain hheld (zero_add _).symm
      have hcalledShare : calledTickets (f.held.set i (some ({ job with jobData1 := 0 }, false))) =
          calledTickets f.held + 0 :=
        CondVar.sum_map_set_gain hheld (zero_add _).symm
      rw [hpending, tickets_cons] at hunion
      refine ⟨?_, by rwa [hcalledShare, add_zero]⟩
      rw [hshare, ← hunion]
      abel
  | ran i job hheld =>
      have hshare : heldTickets (f.held.set i (some (job, true))) = heldTickets f.held + 0 :=
        CondVar.sum_map_set_gain hheld (add_zero _).symm
      have hcalledShare : calledTickets (f.held.set i (some (job, true))) =
          calledTickets f.held + {job.ticket} :=
        CondVar.sum_map_set_gain hheld (zero_add _).symm
      have hfn := hrec.jobFn_ne (hrec.held i job false hheld).1
      refine ⟨by rwa [hshare, add_zero], ?_⟩
      rw [if_neg hfn, hcalledShare, tickets_append, tickets_cons, tickets_nil, add_zero, hcalled]
      simp only [popped]
      abel
  | completed i job c items hheld hchannel hitems =>
      have hshare : heldTickets (f.held.set i none) + {job.ticket} = heldTickets f.held :=
        CondVar.sum_map_set_loss hheld (zero_add _).symm
      have hcalledShare : calledTickets (f.held.set i none) + {job.ticket} =
          calledTickets f.held :=
        CondVar.sum_map_set_loss hheld (zero_add _).symm
      have hcompleted : completedTickets (f.completed.set c (items ++ [job])) =
          completedTickets f.completed + {job.ticket} :=
        CondVar.sum_map_set_gain hitems (tickets_append items [job])
      constructor
      · rw [hcompleted, ← hunion, ← hshare]
        abel
      · rw [hcompleted, hcalled, ← hcalledShare]
        abel
  | handed c jobData1 job items hitems =>
      have hcompleted : completedTickets (f.completed.set c items) + {job.ticket} =
          completedTickets f.completed :=
        CondVar.sum_map_set_loss hitems ((tickets_cons job items).trans (add_comm _ _))
      have hpopped : tickets ((f.pops ++ [((c : ℤ), { job with jobData1 := jobData1 })]).map
          Prod.snd) = tickets (f.pops.map Prod.snd) + {job.ticket} := by
        rw [List.map_append, tickets_append]
        rfl
      rw [← hcompleted] at hunion hcalled
      simp only [popped] at hunion hcalled
      constructor
      · simp only [popped]
        rw [hpopped, ← hunion]
        abel
      · simp only [popped]
        rw [hcalled, hpopped]
        abel
  | dropped => exact absurd rfl hdrop

theorem Recorded.moves (h : f.Recorded) (hmove : Moves f e f') : f'.Recorded := by
  cases hmove with
  | opened =>
      refine { h with completed := fun c items hitems job hjob => ?_ }
      rcases Nat.lt_or_ge c f.completed.length with hlt | hge
      · exact h.completed c items (by rwa [List.getElem?_append_left hlt] at hitems) job hjob
      · rw [List.getElem?_append_right hge] at hitems
        have hnil := List.mem_singleton.mp (List.mem_of_getElem? hitems)
        exact absurd (hnil ▸ hjob) List.not_mem_nil
  | accepted channel jobFn jobData0 jobData1 hfn =>
      exact {
        accepted_fn := by
          intro a ha
          rcases List.mem_append.mp ha with ha | ha
          · exact h.accepted_fn a ha
          · rw [List.mem_singleton.mp ha]
            exact hfn
        pending := by
          intro job hjob
          rcases List.mem_append.mp hjob with hjob | hjob
          · exact (h.pending job hjob).append _
          · rw [List.mem_singleton.mp hjob]
            exact ⟨_, List.getElem?_concat_length, rfl, rfl, rfl⟩
        held := fun i job called hheld =>
          ⟨(h.held i job called hheld).1.append _, (h.held i job called hheld).2⟩
        completed := fun c items hitems job hjob =>
          ⟨(h.completed c items hitems job hjob).1.append _,
            (h.completed c items hitems job hjob).2⟩
        popped := fun job hjob => (h.popped job hjob).append _
        calls := fun job hjob => (h.calls job hjob).append _ }
  | taken i job pending hpending hheld =>
      have horigin := h.pending job (by rw [hpending]; exact List.mem_cons_self)
      refine { h with
        pending := fun job' hjob' =>
          h.pending job' (by rw [hpending]; exact List.mem_cons_of_mem _ hjob')
        held := fun i' job' called hheld' => ?_ }
      rcases CondVar.getElem?_set_cases hheld' with ⟨-, hjob⟩ | ⟨-, hheld'⟩
      · cases hjob
        exact ⟨horigin, rfl⟩
      · exact h.held i' job' called hheld'
  | ran i job hheld =>
      obtain ⟨horigin, hnull⟩ := h.held i job false hheld
      refine { h with
        held := fun i' job' called hheld' => ?_
        calls := fun job' hjob' => ?_ }
      · rcases CondVar.getElem?_set_cases hheld' with ⟨-, hjob⟩ | ⟨-, hheld'⟩
        · cases hjob
          exact ⟨horigin, hnull⟩
        · exact h.held i' job' called hheld'
      · rw [if_neg (h.jobFn_ne horigin)] at hjob'
        rcases List.mem_append.mp hjob' with hjob' | hjob'
        · exact h.calls job' hjob'
        · rw [List.mem_singleton.mp hjob']
          exact horigin
  | completed i job c items hheld hchannel hitems =>
      obtain ⟨horigin, -⟩ := h.held i job true hheld
      refine { h with
        held := fun i' job' called hheld' => ?_
        completed := fun c' items' hitems' job' hjob' => ?_ }
      · rcases CondVar.getElem?_set_cases hheld' with ⟨-, hjob⟩ | ⟨-, hheld'⟩
        · cases hjob
        · exact h.held i' job' called hheld'
      · rcases CondVar.getElem?_set_cases hitems' with ⟨rfl, rfl⟩ | ⟨-, hitems'⟩
        · rcases List.mem_append.mp hjob' with hjob' | hjob'
          · exact h.completed c items hitems job' hjob'
          · rw [List.mem_singleton.mp hjob']
            exact ⟨horigin, hchannel⟩
        · exact h.completed c' items' hitems' job' hjob'
  | handed c jobData1 job items hitems =>
      refine { h with
        completed := fun c' items' hitems' job' hjob' => ?_
        popped := fun job' hjob' => ?_ }
      · rcases CondVar.getElem?_set_cases hitems' with ⟨rfl, rfl⟩ | ⟨-, hitems'⟩
        · exact h.completed c _ hitems job' (List.mem_cons_of_mem _ hjob')
        · exact h.completed c' items' hitems' job' hjob'
      · rw [popped_append rfl] at hjob'
        rcases List.mem_append.mp hjob' with hjob' | hjob'
        · exact h.popped job' hjob'
        · rw [List.mem_singleton.mp hjob']
          exact (h.completed c _ hitems job List.mem_cons_self).1
  | dropped => exact { h with pending := fun job hjob => absurd hjob List.not_mem_nil }

end Counting

end Flow

end Job

end ConArtist
