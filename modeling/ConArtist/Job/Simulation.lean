import ConArtist.Job.Flow

/-!
# The manager moves jobs along the flow

`JobManager.events` tells, from the state before a step, which moves of the flow
the step makes: most make none or one, and a worker that delivers a job goes on to
take the next one under the same lock. `flow_step` is the refinement: the step and
its moves lead to the same flow.
-/

namespace ConArtist

namespace Job

open Machine

/-- The job a worker holds, and whether its function has been called. -/
def Worker.held : Worker → Option (JobRecord × Bool)
  | .running job => some (job, false)
  | .done job => some (job, true)
  | .waitingRoom job => some (job, true)
  | _ => none

namespace JobManager

def flow (m : JobManager) : Flow where
  pending := m.pending.items
  held := m.workers.map Worker.held
  completed := m.completed.map RingBuffer.items
  accepted := m.accepted
  calls := m.calls
  pops := m.pops

/-- The moves of a worker at the head of its loop. -/
def loopEvents (m : JobManager) (i : ℕ) : List Event :=
  if m.pending.count = 0 then [] else [.taken i]

def popEvents (m : JobManager) (channel : ℤ) (jobData1 : ℕ) : List Event :=
  match m.completedRing channel with
  | some ring => if ring.count = 0 then [] else [.handed channel.toNat jobData1]
  | none => []

def requestEvents (m : JobManager) : Request → List Event
  | .initChannel _ => if m.maxChannels ≤ m.completed.length then [] else [.opened]
  | .submit channel jobFn jobData0 jobData1 =>
      if jobFn = 0 ∨ jobData0 = 0 ∨ m.stopping ∨ m.pending.count = m.pending.capacity then []
      else [.accepted channel jobFn jobData0 jobData1]
  | .popCompleted channel jobData1 => m.popEvents channel jobData1
  | .popCompletedWait channel jobData1 => m.popEvents channel jobData1
  | .stop drain => if m.stopping ∨ drain then [] else [.dropped]

def workerEvents (m : JobManager) (i : ℕ) : Worker → List Event
  | .ready => m.loopEvents i
  | .running _ => [.ran i]
  | .done job =>
      match m.completedRing job.channel with
      | some ring => if ring.count = ring.capacity then [] else .completed i :: m.loopEvents i
      | none => []
  | _ => []

def events (m : JobManager) : Action → List Event
  | .call _ request _ => m.requestEvents request
  | .resume client _ =>
      match m.clients[client]? with
      | some (.woken channel jobData1) => m.popEvents channel jobData1
      | _ => []
  | .join _ => []
  | .worker i _ =>
      match m.workers[i]? with
      | some w => m.workerEvents i w
      | none => []

end JobManager

namespace JobManager

variable {m m' : JobManager}

theorem held_onHasJobs (t t' : Worker) (h : onHasJobs t = some t') : t'.held = t.held := by
  cases t <;> cases h
  rfl

theorem held_onRoomCompleted (p : ℤ → Bool) (t t' : Worker) (h : onRoomCompleted p t = some t') :
    t'.held = t.held := by
  cases t with
  | waitingRoom job =>
      rw [onRoomCompleted] at h
      split at h
      · cases h
        rfl
      · cases h
  | _ => cases h

theorem pop_cases (r : Ring) (jobData1 : ℕ) :
    (r.count = 0 ∧ r.pop jobData1 = none) ∨
      ∃ job r', r.count ≠ 0 ∧ r.pop jobData1 = some ({ job with jobData1 := jobData1 }, r') ∧
        r.items = job :: r'.items := by
  rcases hpop : RingBuffer.pop r with _ | ⟨job, r'⟩
  · have hzero := RingBuffer.items_eq_nil.mp (RingBuffer.pop_eq_none.mp hpop)
    exact Or.inl ⟨hzero, by rw [Ring.pop, hpop]; rfl⟩
  · refine Or.inr ⟨job, r', ?_, by rw [Ring.pop, hpop]; rfl, RingBuffer.items_of_pop hpop⟩
    rw [RingBuffer.count_of_pop hpop]
    exact Nat.succ_ne_zero _

theorem loopHead_flow {i : ℕ} {w : Worker} (hw : m.workers[i]? = some w) (hfree : w.held = none)
    (h : m.loopHead i = some m') : run Flow.step m.flow (m.loopEvents i) = some m'.flow := by
  rw [loopHead] at h
  by_cases hcount : m.pending.count = 0
  · have hidle : ∀ w' : Worker, w'.held = none →
        ({ m with workers := m.workers.set i w' } : JobManager).flow = m.flow := by
      intro w' hw'
      simp only [flow, CondVar.map_set_of_eq hw (hw'.trans hfree.symm)]
    rw [loopEvents, if_pos hcount, run_nil, Option.some.injEq]
    split at h
    · cases h
      exact (hidle _ rfl).symm
    · split at h
      · cases h
        exact (hidle _ rfl).symm
      · simp_all
  · rw [if_neg (fun hpark => hcount hpark.1), if_neg (fun hexit => hcount hexit.2)] at h
    rcases pop_cases m.pending 0 with ⟨hzero, -⟩ | ⟨job, r', -, hpop, hitems⟩
    · exact absurd hzero hcount
    · rw [hpop] at h
      cases h
      rw [loopEvents, if_neg hcount]
      refine (run_cons_eq_some Flow.step).mpr
        ⟨_, Flow.step_of_moves (.taken i job r'.items hitems ?_), ?_⟩
      · rw [flow, List.getElem?_map, hw, Option.map_some, hfree]
      · rw [run_nil, Option.some.injEq]
        simp only [flow, List.map_set]
        rfl

theorem completedRing_eq_some {channel : ℤ} {ring : Ring} :
    m.completedRing channel = some ring ↔
      ∃ c : ℕ, channel = c ∧ m.completed[c]? = some ring := by
  rw [completedRing]
  constructor
  · intro h
    split at h
    · exact ⟨channel.toNat, (Int.toNat_of_nonneg ‹_›).symm, h⟩
    · cases h
  · rintro ⟨c, rfl, hring⟩
    rw [if_pos (Int.natCast_nonneg c), Int.toNat_natCast, hring]

theorem popFrom_cases {channel : ℤ} {jobData1 wake : ℕ} {rc : ℤ}
    (h : m.popFrom channel jobData1 wake = some (rc, m')) :
    ∃ (c : ℕ) (ring : Ring), channel = c ∧ m.completed[c]? = some ring ∧
      ((ring.count = 0 ∧ m' = m) ∨
        ∃ job ring' workers, ring.count ≠ 0 ∧ ring.items = job :: ring'.items ∧
          workers.map Worker.held = m.workers.map Worker.held ∧
          m' = { m with
            completed := m.completed.set c ring'
            workers := workers
            pops := m.pops ++ [((c : ℤ), { job with jobData1 := jobData1 })] }) := by
  obtain ⟨ring, hring, hpop⟩ := Option.bind_eq_some_iff.mp h
  obtain ⟨c, rfl, hc⟩ := completedRing_eq_some.mp hring
  refine ⟨c, ring, rfl, hc, ?_⟩
  rcases pop_cases ring jobData1 with
    ⟨hzero, hnone⟩ | ⟨job, ring', hcount, hsome, hitems⟩
  · simp only [hnone] at hpop
    cases hpop
    exact Or.inl ⟨hzero, rfl⟩
  · simp only [hsome] at hpop
    obtain ⟨workers, hsignal, hm'⟩ := Option.map_eq_some_iff.mp hpop
    cases hm'
    exact Or.inr ⟨job, ring', workers, hcount, hitems,
      CondVar.map_signal (held_onRoomCompleted _) hsignal, rfl⟩

theorem popEvents_of_ring {c jobData1 : ℕ} {ring : Ring} (hring : m.completed[c]? = some ring) :
    m.popEvents c jobData1 = if ring.count = 0 then [] else [.handed c jobData1] := by
  simp only [popEvents, completedRing_eq_some.mpr ⟨c, rfl, hring⟩, Int.toNat_natCast]

theorem popFrom_flow {channel : ℤ} {jobData1 wake : ℕ} {rc : ℤ}
    (h : m.popFrom channel jobData1 wake = some (rc, m')) :
    run Flow.step m.flow (m.popEvents channel jobData1) = some m'.flow := by
  obtain ⟨c, ring, rfl, hring, ⟨hzero, rfl⟩ | ⟨job, ring', workers, hcount, hitems, hheld, rfl⟩⟩ :=
    popFrom_cases h
  · rw [popEvents_of_ring hring, if_pos hzero, run_nil]
  · rw [popEvents_of_ring hring, if_neg hcount]
    refine (run_cons_eq_some Flow.step).mpr
      ⟨_, Flow.step_of_moves (.handed c jobData1 job ring'.items ?_), ?_⟩
    · rw [flow, List.getElem?_map, hring, Option.map_some, hitems]
    · rw [run_nil, Option.some.injEq]
      simp only [flow, List.map_set, hheld]

theorem popCompletedWait_flow {client : ℕ} {channel : ℤ} {jobData1 wake : ℕ} {rc : Option ℤ}
    (h : m.popCompletedWait client channel jobData1 wake = some (rc, m')) :
    run Flow.step m.flow (m.popEvents channel jobData1) = some m'.flow := by
  obtain ⟨ring, hring, hwait⟩ := Option.bind_eq_some_iff.mp h
  split at hwait
  case isTrue hzero =>
    obtain ⟨c, rfl, hc⟩ := completedRing_eq_some.mp hring
    rw [popEvents_of_ring hc, if_pos hzero, run_nil]
    split at hwait <;> cases hwait <;> rfl
  case isFalse =>
    obtain ⟨⟨rc', n⟩, hpop, hout⟩ := Option.bind_eq_some_iff.mp hwait
    cases hout
    exact (popFrom_flow hpop).trans rfl

theorem submit_flow {channel : ℤ} {jobFn jobData0 jobData1 wake : ℕ} {rc : ℤ}
    (h : m.submit channel jobFn jobData0 jobData1 wake = some (rc, m')) :
    run Flow.step m.flow (m.requestEvents (.submit channel jobFn jobData0 jobData1)) =
      some m'.flow := by
  rw [submit] at h
  split at h
  case isTrue hnull =>
    cases h
    rw [requestEvents, if_pos (by tauto), run_nil]
  case isFalse hnull =>
    rw [not_or] at hnull
    split at h
    case isTrue hstop =>
      cases h
      rw [requestEvents, if_pos (by tauto), run_nil]
    case isFalse hstop =>
      split at h
      case h_1 hpush =>
        cases h
        rw [requestEvents, if_pos (by have := RingBuffer.push_eq_none.mp hpush; tauto), run_nil]
      case h_2 pending hpush =>
        obtain ⟨workers, hsignal, hm'⟩ := Option.map_eq_some_iff.mp h
        cases hm'
        have hroom : m.pending.count ≠ m.pending.capacity := by
          intro hfull
          rw [Ring.push, RingBuffer.push_eq_none.mpr hfull] at hpush
          cases hpush
        rw [requestEvents, if_neg (by tauto)]
        refine (run_cons_eq_some Flow.step).mpr
          ⟨_, Flow.step_of_moves (.accepted channel jobFn jobData0 jobData1 hnull.1), ?_⟩
        rw [run_nil, Option.some.injEq]
        simp only [flow, RingBuffer.items_of_push hpush,
          CondVar.map_signal held_onHasJobs hsignal]

theorem initChannel_flow (m : JobManager) (completedCapacity : ℤ) :
    run Flow.step m.flow (m.requestEvents (.initChannel completedCapacity)) =
      some (m.initChannel completedCapacity).2.flow := by
  rw [requestEvents, initChannel]
  split
  · rfl
  · refine (run_cons_eq_some Flow.step).mpr ⟨_, Flow.step_of_moves .opened, ?_⟩
    rw [run_nil, Option.some.injEq]
    simp only [flow, List.map_append, List.map_cons, List.map_nil, Ring.init,
      RingBuffer.items_empty]

theorem stop_flow (m : JobManager) (client : ℕ) (drain : Bool) :
    run Flow.step m.flow (m.requestEvents (.stop drain)) = some (m.stop client drain).flow := by
  rw [stop, requestEvents]
  by_cases hstop : m.stopping
  · rw [if_pos (Or.inl hstop), if_pos hstop, run_nil]
  · rw [if_neg hstop]
    cases drain with
    | true =>
        rw [if_pos (Or.inr rfl), run_nil, Option.some.injEq]
        simp only [flow, if_true, CondVar.map_broadcast (held_onRoomCompleted _),
          CondVar.map_broadcast held_onHasJobs]
    | false =>
        rw [if_neg (by simp [hstop])]
        refine (run_cons_eq_some Flow.step).mpr ⟨_, Flow.step_of_moves .dropped, ?_⟩
        rw [run_nil, Option.some.injEq]
        have hnil : (RingBuffer.empty m.pending.buf m.pending.capacity_pos).items = [] :=
          RingBuffer.items_empty _ _
        simp only [flow, Bool.false_eq_true, if_false, hnil,
          CondVar.map_broadcast (held_onRoomCompleted _), CondVar.map_broadcast held_onHasJobs]

/-- A worker with a finished job delivers it and goes on to the next, unless the
ring is full. -/
theorem complete_flow {i wake : ℕ} {job : JobRecord} (hw : m.workers[i]? = some (.done job))
    (hfn : job.jobFn ≠ 0) (h : m.complete i job wake = some m') :
    run Flow.step m.flow (m.workerEvents i (.done job)) = some m'.flow := by
  obtain ⟨ring, hring, hrest⟩ := Option.bind_eq_some_iff.mp h
  simp only [workerEvents, hring]
  by_cases hfull : ring.count = ring.capacity
  · rw [if_pos hfull] at hrest
    cases hrest
    rw [if_pos hfull, run_nil, Option.some.injEq]
    simp only [flow, CondVar.map_set_of_eq hw (show (Worker.waitingRoom job).held = _ from rfl)]
  · rw [if_neg hfull, if_neg hfn] at hrest
    obtain ⟨ring', hpush, hrest⟩ := Option.bind_eq_some_iff.mp hrest
    obtain ⟨clients, -, hloop⟩ := Option.bind_eq_some_iff.mp hrest
    obtain ⟨c, hc, hcring⟩ := completedRing_eq_some.mp hring
    have hready : (m.workers.set i .ready)[i]? = some .ready :=
      List.getElem?_set_self (List.getElem?_eq_some_iff.mp hw).1
    have hnext := loopHead_flow hready rfl hloop
    rw [if_neg hfull]
    refine (run_cons_eq_some Flow.step).mpr
      ⟨_, Flow.step_of_moves (.completed i job c ring.items ?_ hc ?_), ?_⟩
    · rw [flow, List.getElem?_map, hw]
      rfl
    · rw [flow, List.getElem?_map, hcring]
      rfl
    · rw [loopEvents] at hnext ⊢
      convert hnext using 2
      simp only [flow, List.map_set, hc, Int.toNat_natCast, RingBuffer.items_of_push hpush]
      rw [← hc]
      rfl

theorem flow_step {a : Action} (hrec : m.flow.Recorded) (h : step m a = some m') :
    run Flow.step m.flow (m.events a) = some m'.flow := by
  cases a with
  | call client request wake =>
      rw [step] at h
      split at h
      · cases request with
        | initChannel completedCapacity =>
            cases h
            exact initChannel_flow m completedCapacity
        | submit channel jobFn jobData0 jobData1 =>
            obtain ⟨⟨rc, n⟩, hsubmit, rfl⟩ := Option.map_eq_some_iff.mp h
            exact submit_flow hsubmit
        | popCompleted channel jobData1 =>
            obtain ⟨⟨rc, n⟩, hpop, rfl⟩ := Option.map_eq_some_iff.mp h
            exact popFrom_flow hpop
        | popCompletedWait channel jobData1 =>
            obtain ⟨⟨rc, n⟩, hpop, rfl⟩ := Option.map_eq_some_iff.mp h
            exact popCompletedWait_flow hpop
        | stop drain =>
            cases h
            exact stop_flow m client drain
      · cases h
  | resume client wake =>
      rw [step] at h
      split at h
      case h_1 channel jobData1 hclient =>
        obtain ⟨⟨rc, n⟩, hpop, rfl⟩ := Option.map_eq_some_iff.mp h
        simp only [events, hclient]
        exact popCompletedWait_flow hpop
      case h_2 => cases h
  | join client =>
      rw [step] at h
      split at h
      · split at h <;> cases h
        rfl
      · cases h
  | worker i wake =>
      rw [step, workerStep] at h
      split at h
      case h_1 hw =>
        simp only [events, hw]
        exact loopHead_flow hw rfl h
      case h_2 job hw =>
        cases h
        simp only [events, hw, workerEvents]
        refine (run_cons_eq_some Flow.step).mpr ⟨_, Flow.step_of_moves (.ran i job ?_), ?_⟩
        · rw [flow, List.getElem?_map, hw]
          rfl
        · rw [run_nil, Option.some.injEq]
          simp only [flow, List.map_set]
          rfl
      case h_3 job hw =>
        simp only [events, hw]
        have hheld : m.flow.held[i]? = some (some (job, true)) := by
          rw [flow, List.getElem?_map, hw]
          rfl
        exact complete_flow hw (hrec.jobFn_ne (hrec.held i job true hheld).1) h
      case h_4 => cases h

end JobManager

/-- The action is a `stop(0)`. -/
def Action.Drops (a : Action) : Prop := ∃ client wake, a = .call client (.stop false) wake

/-- Jobs are dropped by `stop(0)` only. -/
theorem dropped_notMem_events {m : JobManager} {a : Action} (h : ¬ a.Drops) :
    Event.dropped ∉ m.events a := by
  have hloop : ∀ i, Event.dropped ∉ m.loopEvents i := by
    intro i
    rw [JobManager.loopEvents]
    split <;> simp
  have hpop : ∀ channel jobData1, Event.dropped ∉ m.popEvents channel jobData1 := by
    intro channel jobData1
    rw [JobManager.popEvents]
    split
    · split <;> simp
    · simp
  cases a with
  | call client request wake =>
      cases request with
      | initChannel completedCapacity =>
          rw [JobManager.events, JobManager.requestEvents]
          split <;> simp
      | submit channel jobFn jobData0 jobData1 =>
          rw [JobManager.events, JobManager.requestEvents]
          split <;> simp
      | popCompleted channel jobData1 => exact hpop channel jobData1
      | popCompletedWait channel jobData1 => exact hpop channel jobData1
      | stop drain =>
          cases drain with
          | true => simp [JobManager.events, JobManager.requestEvents]
          | false => exact absurd ⟨client, wake, rfl⟩ h
  | resume client wake =>
      rw [JobManager.events]
      split
      · exact hpop _ _
      · simp
  | join client => simp [JobManager.events]
  | worker i wake =>
      rw [JobManager.events]
      split
      case h_1 w hw =>
        cases w with
        | ready => exact hloop i
        | done job =>
            rw [JobManager.workerEvents]
            split
            · split
              · simp
              · simpa using hloop i
            · simp
        | _ => simp [JobManager.workerEvents]
      case h_2 => simp

end Job

end ConArtist
