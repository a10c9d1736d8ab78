import ConArtist.Job.Channels
import ConArtist.Job.Draining

/-!
# What a stop(0) drops

A `stop(0)` empties the pending ring. The jobs that stand in it then are lost: none of them is
ever run or popped. All other accepted jobs stay, and a worker that holds one still brings it
home. The workers and the calls that follow cannot tell the dropped jobs from jobs that are
pending and that nobody takes, so that the books of the manager balance with the old pending
ring put back.
-/

namespace ConArtist

namespace Job

open Machine ConArtist.Job.Flow

namespace Flow

/-- The flow with the given jobs pending. -/
def withPending (f : Flow) (jobs : List JobRecord) : Flow := { f with pending := jobs }

/-- Nothing is pending, and with the dropped jobs put back all jobs are accounted for. -/
structure Missing (dropped accepted : List JobRecord) (f : Flow) : Prop where
  pending : f.pending = []
  accepted : f.accepted = accepted
  counted : (f.withPending dropped).Counted
  recorded : (f.withPending dropped).Recorded

section Missing

variable {dropped accepted : List JobRecord} {f f' : Flow} {e : Event}

theorem Missing.of_moves (h : Missing dropped accepted f) (hpending : f'.pending = [])
    (haccepted : f'.accepted = f.accepted) (hdrop : e ≠ .dropped)
    (hmove : Moves (f.withPending dropped) e (f'.withPending dropped)) :
    Missing dropped accepted f' where
  pending := hpending
  accepted := haccepted.trans h.accepted
  counted := h.counted.moves h.recorded hdrop hmove
  recorded := h.recorded.moves hmove

theorem Missing.moves (h : Missing dropped accepted f)
    (hnew : ∀ channel jobFn jobData0 jobData1, e ≠ .accepted channel jobFn jobData0 jobData1)
    (hmove : Moves f e f') : Missing dropped accepted f' := by
  cases hmove with
  | opened => exact h.of_moves h.pending rfl Event.noConfusion .opened
  | accepted channel jobFn jobData0 jobData1 hfn => exact absurd rfl (hnew _ _ _ _)
  | taken i job pending hpending hheld =>
      rw [h.pending] at hpending
      cases hpending
  | ran i job hheld => exact h.of_moves h.pending rfl Event.noConfusion (.ran i job hheld)
  | completed i job c items hheld hchannel hitems =>
      exact h.of_moves h.pending rfl Event.noConfusion
        (.completed i job c items hheld hchannel hitems)
  | handed c jobData1 job items hitems =>
      exact h.of_moves h.pending rfl Event.noConfusion (.handed c jobData1 job items hitems)
  | dropped => exact ⟨rfl, h.accepted, h.counted, h.recorded⟩

end Missing

end Flow

variable {m m' n : JobManager}

theorem not_stops_of_run {actions : List Action} (hs : Sound m)
    (hrun : run step m actions = some m') (hrunning : m'.stopping = false) :
    ∀ a ∈ actions, a.stops = false := by
  induction actions generalizing m with
  | nil => exact fun a ha => absurd ha List.not_mem_nil
  | cons a actions ih =>
      obtain ⟨u, hstep, hrest⟩ := (run_cons_eq_some step).mp hrun
      intro b hb
      rcases List.mem_cons.mp hb with rfl | hb
      · refine Bool.eq_false_of_not_eq_true fun hstops => ?_
        have hlight := (JobManager.lighter_run (hs.step hstep) (stopping_of_stops hstops hstep)
          hrest).2
        exact absurd hlight.stopping (by rw [hrunning]; exact Bool.false_ne_true)
      · exact ih (hs.step hstep) hrest b hb

/-- After the stop the manager is stopping, and its books balance with the old pending ring. -/
structure AfterDrop (m n : JobManager) : Prop where
  sound : Sound n
  stopping : n.stopping = true
  missing : n.flow.Missing m.pending.items m.accepted

theorem AfterDrop.step {u : JobManager} {a : Action} (h : AfterDrop m n)
    (hstep : Job.step n a = some u) : AfterDrop m u where
  sound := h.sound.step hstep
  stopping := JobManager.stopping_step h.sound h.stopping hstep
  missing := by
    refine run_invariant_of_mem Flow.step (fun f e he f' hf hmove => ?_) h.missing
      (JobManager.flow_step h.sound.recorded hstep)
    refine hf.moves (fun channel jobFn jobData0 jobData1 hnew => ?_) (moves_of_step hmove)
    obtain ⟨-, -, -, haccepts⟩ := JobManager.mem_events_accepted (hnew ▸ he)
    exact haccepts (Or.inr (Or.inr (Or.inl h.stopping)))

theorem afterDrop_of_stop {client wake : ℕ} (hs : Sound m) (hjobs : JobsOk m)
    (hrunning : m.stopping = false)
    (hstop : Job.step m (.call client (.stop false) wake) = some m') : AfterDrop m m' where
  sound := hs.step hstop
  stopping := stopping_of_stops rfl hstop
  missing := by
    have hflow := JobManager.flow_step hs.recorded hstop
    rw [JobManager.events, JobManager.requestEvents, hrunning, if_neg (by simp)] at hflow
    obtain ⟨f, hdrop, hrest⟩ := (run_cons_eq_some Flow.step).mp hflow
    cases hdrop
    rw [run_nil, Option.some.injEq] at hrest
    rw [← hrest]
    exact ⟨rfl, rfl, hjobs.counted, hjobs.recorded⟩

/-- What is left of the jobs of `m` in `n`, after a `stop(0)`. -/
structure PendingLost (m n : JobManager) : Prop where
  accepted : n.accepted = m.accepted
  none_pending : n.pending.count = 0
  /-- With the old pending ring every accepted job is in one place, and is run at most once. -/
  rest_conserved : JobsConserved { n with pending := m.pending }
  never_run : ∀ job ∈ m.pending.items, job.ticket ∉ tickets n.calls
  never_popped : ∀ job ∈ m.pending.items, job.ticket ∉ tickets n.popped
  /-- Only workers that held a job at the stop have called a function since. -/
  last_calls : ∀ ticket ∈ tickets n.calls,
    ticket ∈ tickets m.calls ∨ ticket ∈ heldTickets (m.workers.map Worker.held)
  /-- In the end all but the dropped jobs are delivered. -/
  rest_delivered : (∀ w ∈ n.workers, w = .exited) → ∀ (ticket : ℕ) a,
    m.accepted[ticket]? = some a → (Delivered n ticket a ↔ ticket ∉ tickets m.pending.items)

/-- With no job in hand the delivered jobs are those of the completed rings and those popped. -/
theorem delivered_iff_of_conserved (h : JobsConserved { n with pending := m.pending })
    (haccepted : n.accepted = m.accepted) (hexited : ∀ w ∈ n.workers, w = .exited) {ticket : ℕ}
    {a : JobRecord} (ha : m.accepted[ticket]? = some a) :
    Delivered n ticket a ↔ ticket ∉ tickets m.pending.items := by
  have hheld : heldTickets (n.workers.map Worker.held) = 0 := by
    refine List.sum_eq_zero fun x hx => ?_
    obtain ⟨y, hy, rfl⟩ := List.mem_map.mp hx
    obtain ⟨w, hw, rfl⟩ := List.mem_map.mp hy
    rw [hexited w hw]
    rfl
  have hunion : tickets m.pending.items + (completedTickets (n.completed.map RingBuffer.items) +
      tickets n.popped) = Multiset.range m.accepted.length := by
    rw [← haccepted, ← h.union, hheld, add_zero, add_assoc]
    rfl
  have hdisjoint := (Multiset.nodup_add.mp (hunion ▸ Multiset.nodup_range _)).2.2
  have hmem : ticket ∈ Multiset.range m.accepted.length :=
    Multiset.mem_range.mpr (List.getElem?_eq_some_iff.mp ha).1
  rw [← hunion, Multiset.mem_add] at hmem
  constructor
  · intro hdelivered hpending
    refine Multiset.disjoint_left.mp hdisjoint hpending ?_
    rcases hdelivered.place with ⟨ring, hring, job, hjob, rfl⟩ | ⟨job, hjob, rfl⟩
    · obtain ⟨c, -, hc⟩ := JobManager.completedRing_eq_some.mp hring
      exact Multiset.mem_add.mpr (Or.inl (mem_completedTickets.mpr ⟨ring.items,
        List.mem_map_of_mem (List.mem_of_getElem? hc), mem_tickets.mpr ⟨job, hjob, rfl⟩⟩))
    · exact Multiset.mem_add.mpr (Or.inr (mem_tickets.mpr ⟨job, hjob, rfl⟩))
  · intro hkept
    have hplace := Multiset.mem_add.mp (hmem.resolve_left hkept)
    refine ⟨?_, fun call hcall hticket => ?_, ?_⟩
    · have hcalled := (h.run_before ticket).mpr (Or.inr hplace)
      rw [← Multiset.coe_count]
      exact Multiset.count_eq_one_of_mem h.run_once hcalled
    · obtain ⟨a', ha', hfn⟩ := h.run_fn call hcall
      rw [hticket, haccepted, ha] at ha'
      cases ha'
      exact hfn.symm
    · rcases hplace with hcompleted | hpopped
      · obtain ⟨items, hitems, hticket⟩ := mem_completedTickets.mp hcompleted
        obtain ⟨ring, hring, rfl⟩ := List.mem_map.mp hitems
        obtain ⟨job, hjob, rfl⟩ := mem_tickets.mp hticket
        obtain ⟨c, hc⟩ := List.mem_iff_getElem?.mp hring
        obtain ⟨a', ha', hchannel⟩ := h.own_channel c ring hc job hjob
        rw [haccepted, ha] at ha'
        cases ha'
        exact Or.inl
          ⟨ring, JobManager.completedRing_eq_some.mpr ⟨c, hchannel, hc⟩, job, hjob, rfl⟩
      · exact Or.inr (mem_tickets.mp hpopped)

theorem AfterDrop.pendingLost (h : AfterDrop m n) (hm : JobsConserved m) : PendingLost m n := by
  have hrest : JobsConserved { n with pending := m.pending } :=
    JobsOk.conserved ⟨h.missing.counted, h.missing.recorded⟩
  have haccepted : n.accepted = m.accepted := h.missing.accepted
  have hunion := hrest.union
  rw [add_assoc, add_assoc] at hunion
  have hnodup : (tickets m.pending.items + (heldTickets (n.workers.map Worker.held) +
      (completedTickets (n.completed.map RingBuffer.items) + tickets n.popped))).Nodup :=
    hunion ▸ Multiset.nodup_range _
  have hdisjoint := (Multiset.nodup_add.mp hnodup).2.2
  -- the jobs in hand, completed and popped are the same as at the stop
  have hsame : heldTickets (n.workers.map Worker.held) +
      (completedTickets (n.completed.map RingBuffer.items) + tickets n.popped) =
        heldTickets (m.workers.map Worker.held) +
          (completedTickets (m.completed.map RingBuffer.items) + tickets m.popped) := by
    have hbefore := hm.union
    rw [← haccepted, ← hunion, add_assoc, add_assoc] at hbefore
    exact (add_left_cancel hbefore).symm
  have hplaced : ∀ ticket ∈ tickets n.calls, ticket ∈ heldTickets (n.workers.map Worker.held) +
      (completedTickets (n.completed.map RingBuffer.items) + tickets n.popped) := by
    intro ticket hticket
    rw [Multiset.mem_add, Multiset.mem_add]
    exact ((hrest.run_before ticket).mp hticket).imp_left
      fun hcalled => Multiset.mem_of_le (calledTickets_le _) hcalled
  refine ⟨haccepted, RingBuffer.items_eq_nil.mp h.missing.pending, hrest, ?_, ?_, ?_, ?_⟩
  · intro job hjob hcalled
    exact Multiset.disjoint_left.mp hdisjoint (mem_tickets.mpr ⟨job, hjob, rfl⟩)
      (hplaced _ hcalled)
  · intro job hjob hpopped
    refine Multiset.disjoint_left.mp hdisjoint (mem_tickets.mpr ⟨job, hjob, rfl⟩) ?_
    exact Multiset.mem_add.mpr (Or.inr (Multiset.mem_add.mpr (Or.inr hpopped)))
  · intro ticket hticket
    have hmem := hplaced ticket hticket
    rw [hsame, Multiset.mem_add, Multiset.mem_add] at hmem
    rcases hmem with hheld | hdone
    · exact Or.inr hheld
    · exact Or.inl ((hm.run_before ticket).mpr (Or.inr hdone))
  · exact fun hexited ticket a ha => delivered_iff_of_conserved hrest haccepted hexited ha

/-- A `stop(0)` of a manager that is not stopping yet, in any interleaving: in every state that
follows the jobs that were pending are lost, and only those. -/
theorem stop_drops_pending (maxChannels : ℕ) (nThreads pendingCapacity : ℤ) (nClients : ℕ)
    (before after : List Action)
    (hbefore : run step (newManager maxChannels nThreads pendingCapacity nClients) before = some m)
    (hrunning : m.stopping = false) (client wake : ℕ)
    (hstop : step m (.call client (.stop false) wake) = some m')
    (hafter : run step m' after = some n) : PendingLost m n := by
  have hnew := sound_newManager maxChannels nThreads pendingCapacity nClients
  have hnone := not_stops_of_run hnew hbefore hrunning
  have hm : Sound m := run_invariant step (fun _ _ _ hs => hs.step) before hnew hbefore
  have hjobs : JobsOk m := by
    refine run_invariant_of_mem step (fun u a ha u' hu hstep => hu.step ?_ hstep)
      (jobsOk_newManager maxChannels nThreads pendingCapacity nClients) hbefore
    intro hdrops
    exact absurd (Action.stops_of_drops hdrops) (by rw [hnone a ha]; exact Bool.false_ne_true)
  have hn : AfterDrop m n := run_invariant step (fun _ _ _ hu => hu.step) after
    (afterDrop_of_stop hm hjobs hrunning hstop) hafter
  exact hn.pendingLost hjobs.conserved

/-- Two jobs, one of which a worker has taken. -/
def halfTaken : List Action :=
  [.call 0 (.initChannel 2) 0, .call 0 (.submit 0 1 2 0) 0, .call 0 (.submit 0 3 4 0) 0,
    .worker 0 0]

def halfTakenManager : JobManager :=
  (run step (newManager 1 1 4 1) halfTaken).getD (newManager 1 1 4 1)

/-- The worker goes on after the stop, and exits. -/
def woundUp : JobManager :=
  (run step (halfTakenManager.stop 0 false) [.worker 0 0, .worker 0 0]).getD halfTakenManager

theorem stop_drops_pending_halfTaken :
    Delivered woundUp 0 ⟨0, 1, 2, 0, 0⟩ ∧ ¬ Delivered woundUp 1 ⟨0, 3, 4, 0, 1⟩ := by
  have hlost : PendingLost halfTakenManager woundUp :=
    stop_drops_pending 1 1 4 1 halfTaken [.worker 0 0, .worker 0 0] rfl rfl 0 0 rfl rfl
  have hexited : ∀ w ∈ woundUp.workers, w = .exited := fun w hw => List.mem_singleton.mp hw
  constructor
  · exact (hlost.rest_delivered hexited 0 _ rfl).mpr (by decide)
  · exact fun hdelivered => (hlost.rest_delivered hexited 1 _ rfl).mp hdelivered (by decide)

end Job

end ConArtist
