import ConArtist.Job.Load

/-!
# The handles of channels

`init_channel` returns -1 when the manager has all its channels, and nobody looks: `submit`
stores any channel, the worker that runs the job uses it as an index, and so do the pops. A
session keeps the values that `init_channel` returned, and its clients pass no others. Then
every index is below `m_n_channels` exactly when nobody pops with the failed handle and every
job that comes with it is refused for another reason.
-/

namespace ConArtist

namespace Job

open Machine ConArtist.Job.Flow

/-- The channel that a client passes to the manager. -/
def Action.channel : Action → Option ℤ
  | .call _ (.submit channel _ _ _) _ => some channel
  | .call _ (.popCompleted channel _) _ => some channel
  | .call _ (.popCompletedWait channel _) _ => some channel
  | _ => none

def Client.channel : Client → Option ℤ
  | .waitingCompleted channel _ => some channel
  | .woken channel _ => some channel
  | _ => none

namespace JobManager

/-- The channel with which a step indexes `m_completed`, and `m_has_completed` and
`m_room_completed` after that. The indices of `init_channel` and `stop` are in bounds by the
loops and tests around them. -/
def indexed (m : JobManager) : Action → Option ℤ
  | .call client (.popCompleted channel _) _ =>
      match m.clients[client]? with
      | some .idle => some channel
      | _ => none
  | .call client (.popCompletedWait channel _) _ =>
      match m.clients[client]? with
      | some .idle => some channel
      | _ => none
  | .resume client _ =>
      match m.clients[client]? with
      | some (.woken channel _) => some channel
      | _ => none
  | .worker i _ =>
      match m.workers[i]? with
      | some (.done job) => some job.channel
      | _ => none
  | _ => none

/-- The jobs that are pending or with a worker have channels of the manager. -/
structure Placed (m : JobManager) : Prop where
  pending : ∀ job ∈ m.pending.items, m.initialised job.channel = true
  held : ∀ w ∈ m.workers, ∀ job called, w.held = some (job, called) →
    m.initialised job.channel = true

/-- The clients that wait have channels of the manager. -/
def Awaited (m : JobManager) : Prop :=
  ∀ channel, some channel ∈ m.clients.map Client.channel → m.initialised channel = true

section Awaited

variable {m m' : JobManager}

theorem channel_onHasCompleted (p : ℤ → Bool) (t t' : Client) (h : onHasCompleted p t = some t') :
    t'.channel = t.channel := by
  cases t with
  | waitingCompleted channel jobData1 =>
      rw [onHasCompleted] at h
      split at h
      · cases h
        rfl
      · cases h
  | _ => cases h

theorem mem_channels_of_set {clients : List Client} {k : ℕ} {client : Client} {channel : ℤ}
    (h : some channel ∈ (clients.set k client).map Client.channel) :
    some channel ∈ clients.map Client.channel ∨ client.channel = some channel := by
  obtain ⟨u, hu, hchannel⟩ := List.mem_map.mp h
  rcases List.mem_or_eq_of_mem_set hu with hmem | rfl
  · exact Or.inl (List.mem_map.mpr ⟨u, hmem, hchannel⟩)
  · exact Or.inr hchannel

theorem Awaited.of_clients (h : m.Awaited) (hlength : m.completed.length ≤ m'.completed.length)
    (hclients : ∀ channel, some channel ∈ m'.clients.map Client.channel →
      some channel ∈ m.clients.map Client.channel) : m'.Awaited :=
  fun channel hmem => initialised_of_length hlength (h channel (hclients channel hmem))

theorem Awaited.transition (h : m.Awaited) (ht : Transition m m') : m'.Awaited := by
  refine h.of_clients (length_completed_transition ht) fun channel hmem => ?_
  cases ht with
  | client hmove =>
      cases hmove with
      | returned k client hclient hawake =>
          exact (mem_channels_of_set hmem).resolve_right (Option.some_ne_none channel).symm
      | stopped k drain hrunning hclient =>
          rw [stop, if_neg (by rw [hrunning]; exact Bool.false_ne_true)] at hmem
          have hset := (mem_channels_of_set hmem).resolve_right (Option.some_ne_none channel).symm
          rwa [CondVar.map_broadcast (channel_onHasCompleted _)] at hset
      | _ => exact hmem
  | worker i hmove =>
      cases hmove with
      | delivers c job ring ring' clients wake hworker hchannel hring hpush hsignal =>
          rwa [← CondVar.map_signal (channel_onHasCompleted _) hsignal]
      | _ => exact hmem

theorem Awaited.step {a : Action} (hrec : m.flow.Recorded) (h : m.Awaited)
    (hstep : Job.step m a = some m') : m'.Awaited := by
  refine step_invariant (P := Awaited) (fun _ _ hn ht => hn.transition ht) ?_ hrec h hstep
  intro n call c ring hn hparks channel hmem
  rcases mem_channels_of_set hmem with hmem | hchannel
  · exact hn channel hmem
  · cases hchannel
    exact initialised_of_ring hparks.channel hparks.initialised

theorem length_completed_step {a : Action} (hrec : m.flow.Recorded)
    (hstep : Job.step m a = some m') : m.completed.length ≤ m'.completed.length :=
  step_invariant (P := fun n => m.completed.length ≤ n.completed.length)
    (fun _ _ hn ht => hn.trans (length_completed_transition ht)) (fun _ _ _ _ hn _ => hn) hrec
    le_rfl hstep

end Awaited

section Accepted

variable {m m' : JobManager}

/-- The accepted jobs after a flow are those before, and those that it accepts. -/
theorem mem_accepted_of_run {f f' : Flow} {es : List Event} (h : run Flow.step f es = some f')
    {job : JobRecord} (hjob : job ∈ f'.accepted) : job ∈ f.accepted ∨
      Event.accepted job.channel job.jobFn job.jobData0 job.jobData1 ∈ es := by
  induction es generalizing f with
  | nil =>
      cases h
      exact Or.inl hjob
  | cons e es ih =>
      obtain ⟨f₁, hstep, hrest⟩ := (run_cons_eq_some Flow.step).mp h
      rcases ih hrest with hmem | hmem
      · cases moves_of_step hstep with
        | accepted channel jobFn jobData0 jobData1 hfn =>
            rcases List.mem_append.mp hmem with hold | hnew
            · exact Or.inl hold
            · rw [List.mem_singleton.mp hnew]
              exact Or.inr List.mem_cons_self
        | _ => exact Or.inl hmem
      · exact Or.inr (List.mem_cons_of_mem _ hmem)

/-- The submissions that `submit` refuses, whatever their channel. -/
def Refuses (m : JobManager) (jobFn jobData0 : ℕ) : Prop :=
  jobFn = 0 ∨ jobData0 = 0 ∨ m.stopping = true ∨ m.pending.count = m.pending.capacity

theorem mem_events_accepted {a : Action} {channel : ℤ} {jobFn jobData0 jobData1 : ℕ}
    (h : Event.accepted channel jobFn jobData0 jobData1 ∈ m.events a) :
    ∃ client wake, a = .call client (.submit channel jobFn jobData0 jobData1) wake ∧
      ¬ m.Refuses jobFn jobData0 := by
  have hloop : ∀ i, Event.accepted channel jobFn jobData0 jobData1 ∉ m.loopEvents i := by
    intro i
    rw [loopEvents]
    split <;> simp
  have hpop : ∀ c jobData1', Event.accepted channel jobFn jobData0 jobData1 ∉
      m.popEvents c jobData1' := by
    intro c jobData1'
    rw [popEvents]
    split
    · split <;> simp
    · simp
  cases a with
  | call client request wake =>
      cases request with
      | initChannel completedCapacity =>
          rw [events, requestEvents] at h
          split at h <;> simp at h
      | submit channel' jobFn' jobData0' jobData1' =>
          rw [events, requestEvents] at h
          split at h
          case isTrue => cases h
          case isFalse hrefuses =>
            cases List.mem_singleton.mp h
            exact ⟨client, wake, rfl, hrefuses⟩
      | popCompleted c jobData1' => exact absurd h (hpop c jobData1')
      | popCompletedWait c jobData1' => exact absurd h (hpop c jobData1')
      | stop drain =>
          rw [events, requestEvents] at h
          split at h <;> simp at h
  | resume client wake =>
      rw [events] at h
      split at h
      · exact absurd h (hpop _ _)
      · cases h
  | join client => cases h
  | worker i wake =>
      rw [events] at h
      split at h
      case h_1 w hw =>
        cases w with
        | ready => exact absurd h (hloop i)
        | running job => cases List.mem_singleton.mp h
        | done job =>
            rw [workerEvents] at h
            split at h
            · split at h
              · cases h
              · rcases List.mem_cons.mp h with heq | hmem
                · cases heq
                · exact absurd hmem (hloop i)
            · cases h
        | _ => cases h
      case h_2 => cases h

/-- `submit` returns -1 for the jobs that it refuses, and leaves the manager alone. -/
theorem submit_refuses_iff {channel : ℤ} {jobFn jobData0 jobData1 wake : ℕ} :
    m.submit channel jobFn jobData0 jobData1 wake = some (-1, m) ↔ m.Refuses jobFn jobData0 := by
  rw [submit, Refuses]
  split
  case isTrue hnull => exact iff_of_true rfl (hnull.elim Or.inl fun h => Or.inr (Or.inl h))
  case isFalse hnull =>
    rw [not_or] at hnull
    split
    case isTrue hstop => exact iff_of_true rfl (Or.inr (Or.inr (Or.inl hstop)))
    case isFalse hstop =>
      dsimp only
      split
      case h_1 hpush =>
        exact iff_of_true rfl (Or.inr (Or.inr (Or.inr (RingBuffer.push_eq_none.mp hpush))))
      case h_2 pending hpush =>
        refine iff_of_false (fun h => ?_) ?_
        · obtain ⟨workers, -, heq⟩ := Option.map_eq_some_iff.mp h
          cases heq
        · rintro (hfn | hdata | hstop' | hfull)
          · exact hnull.1 hfn
          · exact hnull.2 hdata
          · exact hstop hstop'
          · rw [Ring.push, RingBuffer.push_eq_none.mpr hfull] at hpush
            cases hpush

end Accepted

/-- The value of `init_channel`, if the action calls it. -/
def returned (m : JobManager) : Action → List ℤ
  | .call _ (.initChannel completedCapacity) _ => [(m.initChannel completedCapacity).1]
  | _ => []

end JobManager

/-- A manager whose clients keep the values that `init_channel` returned. -/
structure Session where
  manager : JobManager
  handles : List ℤ

namespace Session

/-- The client passes a value that `init_channel` returned. -/
def Knows (s : Session) (a : Action) : Prop := ∀ channel ∈ a.channel, channel ∈ s.handles

instance (s : Session) (a : Action) : Decidable (s.Knows a) :=
  inferInstanceAs (Decidable (∀ channel ∈ a.channel, channel ∈ s.handles))

def step (s : Session) (a : Action) : Option Session :=
  if s.Knows a then
    (Job.step s.manager a).map fun m => ⟨m, s.handles ++ s.manager.returned a⟩
  else none

/-- The step stays inside the arrays, and a job with the failed handle is refused. -/
structure Safe (s : Session) (a : Action) : Prop where
  indexed : ∀ channel, s.manager.indexed a = some channel → s.manager.initialised channel = true
  refused : ∀ client jobFn jobData0 jobData1 wake,
    a = .call client (.submit (-1) jobFn jobData0 jobData1) wake →
      s.manager.clients[client]? = some .idle →
        s.manager.submit (-1) jobFn jobData0 jobData1 wake = some (-1, s.manager)

/-- Nobody pops with the failed handle, and a job that comes with it is refused for another
reason. -/
def Avoids (s : Session) : Action → Prop
  | .call client (.submit channel jobFn jobData0 _) _ =>
      s.manager.clients[client]? = some .idle → channel = -1 → s.manager.Refuses jobFn jobData0
  | .call client (.popCompleted channel _) _ =>
      s.manager.clients[client]? = some .idle → channel ≠ -1
  | .call client (.popCompletedWait channel _) _ =>
      s.manager.clients[client]? = some .idle → channel ≠ -1
  | _ => True

/-- What a session keeps whose clients avoid the failed handle. -/
structure Bounded (s : Session) : Prop where
  recorded : s.manager.flow.Recorded
  accepted : ∀ job ∈ s.manager.accepted, s.manager.initialised job.channel = true
  awaited : s.manager.Awaited
  handles : ∀ channel ∈ s.handles, channel = -1 ∨ s.manager.initialised channel = true

section Bounded

variable {s s' : Session} {a : Action}

theorem Bounded.of_origin (h : s.Bounded) {job : JobRecord}
    (horigin : Origin s.manager.accepted job) : s.manager.initialised job.channel = true := by
  obtain ⟨a, ha, hchannel, -⟩ := horigin
  exact hchannel ▸ h.accepted a (List.mem_of_getElem? ha)

theorem Bounded.of_held (h : s.Bounded) {w : Worker} (hw : w ∈ s.manager.workers) {job : JobRecord}
    {called : Bool} (hheld : w.held = some (job, called)) :
    s.manager.initialised job.channel = true := by
  obtain ⟨i, hi⟩ := List.mem_iff_getElem?.mp hw
  refine h.of_origin (h.recorded.held i job called ?_).1
  rw [JobManager.flow, List.getElem?_map, hi, Option.map_some, hheld]

theorem Bounded.placed (h : s.Bounded) : s.manager.Placed :=
  ⟨fun job hjob => h.of_origin (h.recorded.pending job hjob),
    fun _ hw _ _ hheld => h.of_held hw hheld⟩

theorem Bounded.of_knows (h : s.Bounded) (hknows : s.Knows a) {channel : ℤ}
    (hchannel : a.channel = some channel) (hne : channel ≠ -1) :
    s.manager.initialised channel = true :=
  (h.handles channel (hknows channel hchannel)).resolve_left hne

theorem initialised_returned (m : JobManager) {completedCapacity channel : ℤ}
    (h : channel = (m.initChannel completedCapacity).1) :
    channel = -1 ∨ (m.initChannel completedCapacity).2.initialised channel = true := by
  subst h
  rw [JobManager.initChannel]
  split
  case isTrue => exact Or.inl rfl
  case isFalse =>
    refine Or.inr ?_
    rw [JobManager.initialised, decide_eq_true_eq, List.length_append]
    simp

theorem Bounded.of_accepted (h : s.Bounded) (hknows : s.Knows a) (havoids : s.Avoids a)
    {m : JobManager} (hstep : Job.step s.manager a = some m) {channel : ℤ}
    {jobFn jobData0 jobData1 : ℕ}
    (hevent : Event.accepted channel jobFn jobData0 jobData1 ∈ s.manager.events a) :
    s.manager.initialised channel = true := by
  obtain ⟨client, wake, rfl, hrefuses⟩ := JobManager.mem_events_accepted hevent
  refine h.of_knows hknows rfl fun hfailed => hrefuses (havoids ?_ hfailed)
  rw [Job.step] at hstep
  split at hstep
  case h_1 hclient => exact hclient
  case h_2 => cases hstep

/-- A session that avoids the failed handle goes on to have its indices in bounds. -/
theorem Bounded.step (h : s.Bounded) (havoids : s.Knows a → s.Avoids a)
    (hstep : s.step a = some s') : s'.Bounded := by
  rw [Session.step] at hstep
  split at hstep
  case isFalse => cases hstep
  case isTrue hknows =>
    obtain ⟨m, hm, rfl⟩ := Option.map_eq_some_iff.mp hstep
    have hlength := JobManager.length_completed_step h.recorded hm
    refine ⟨recorded_step h.recorded hm, fun job hjob => ?_, h.awaited.step h.recorded hm,
      fun channel hmem => ?_⟩
    · refine JobManager.initialised_of_length hlength ?_
      rcases JobManager.mem_accepted_of_run (JobManager.flow_step h.recorded hm) hjob with
        hold | hnew
      · exact h.accepted job hold
      · exact h.of_accepted hknows (havoids hknows) hm hnew
    · rcases List.mem_append.mp hmem with hold | hnew
      · exact (h.handles channel hold).imp_right (JobManager.initialised_of_length hlength)
      · cases a with
        | call client request wake =>
            cases request with
            | initChannel completedCapacity =>
                rw [Job.step] at hm
                split at hm
                case h_1 =>
                  cases hm
                  exact initialised_returned s.manager (List.mem_singleton.mp hnew)
                case h_2 => cases hm
            | _ => cases hnew
        | _ => cases hnew

/-- An index that comes from a worker or from a waiting client is in bounds. -/
theorem Bounded.indexed (h : s.Bounded) {channel : ℤ}
    (hindexed : s.manager.indexed a = some channel) :
    s.manager.initialised channel = true ∨ a.channel = some channel := by
  cases a with
  | call client request wake =>
      cases request with
      | popCompleted channel' jobData1 =>
          rw [JobManager.indexed] at hindexed
          split at hindexed
          case h_1 => exact Or.inr hindexed
          case h_2 => cases hindexed
      | popCompletedWait channel' jobData1 =>
          rw [JobManager.indexed] at hindexed
          split at hindexed
          case h_1 => exact Or.inr hindexed
          case h_2 => cases hindexed
      | _ => cases hindexed
  | resume client wake =>
      rw [JobManager.indexed] at hindexed
      split at hindexed
      case h_1 jobData1 hclient =>
        cases hindexed
        exact Or.inl (h.awaited channel
          (List.mem_map.mpr ⟨_, List.mem_of_getElem? hclient, rfl⟩))
      case h_2 => cases hindexed
  | join client => cases hindexed
  | worker i wake =>
      rw [JobManager.indexed] at hindexed
      split at hindexed
      case h_1 job hworker =>
        cases hindexed
        exact Or.inl (h.of_held (List.mem_of_getElem? hworker) rfl)
      case h_2 => cases hindexed

theorem not_initialised_failed (m : JobManager) : m.initialised (-1) ≠ true := by
  rw [JobManager.initialised, ne_eq, decide_eq_true_eq]
  omega

theorem Bounded.pops_iff (h : s.Bounded) (hknows : s.Knows a) {client : ℕ} {channel : ℤ}
    (hchannel : a.channel = some channel)
    (hindexed : s.manager.indexed a =
      match s.manager.clients[client]? with
      | some .idle => some channel
      | _ => none)
    (hpops : ∀ k jobFn jobData0 jobData1 wake,
      a ≠ .call k (.submit (-1) jobFn jobData0 jobData1) wake) :
    s.Safe a ↔ (s.manager.clients[client]? = some .idle → channel ≠ -1) := by
  constructor
  · rintro hsafe hclient rfl
    rw [hclient] at hindexed
    exact not_initialised_failed s.manager (hsafe.indexed (-1) hindexed)
  · intro hne
    refine ⟨fun c hc => ?_, fun k jobFn jobData0 jobData1 wake heq =>
      absurd heq (hpops k jobFn jobData0 jobData1 wake)⟩
    rw [hindexed] at hc
    split at hc
    case h_1 hclient =>
      cases hc
      exact h.of_knows hknows hchannel (hne hclient)
    case h_2 => cases hc

theorem Bounded.safe_iff (h : s.Bounded) (hknows : s.Knows a) : s.Safe a ↔ s.Avoids a := by
  have hrest : a.channel = none → s.Safe a := by
    intro hnone
    refine ⟨fun channel hindexed => ?_, ?_⟩
    · exact (h.indexed hindexed).resolve_right (by rw [hnone]; exact (Option.some_ne_none _).symm)
    · rintro client jobFn jobData0 jobData1 wake rfl
      cases hnone
  cases a with
  | call client request wake =>
      cases request with
      | submit channel jobFn jobData0 jobData1 =>
          constructor
          · rintro hsafe hclient rfl
            exact JobManager.submit_refuses_iff.mp
              (hsafe.refused client jobFn jobData0 jobData1 wake rfl hclient)
          · intro havoids
            refine ⟨fun c hc => (nomatch hc), ?_⟩
            intro client' jobFn' jobData0' jobData1' wake' heq hclient
            cases heq
            exact JobManager.submit_refuses_iff.mpr (havoids hclient rfl)
      | popCompleted channel jobData1 =>
          exact h.pops_iff hknows rfl rfl fun _ _ _ _ _ heq => nomatch heq
      | popCompletedWait channel jobData1 =>
          exact h.pops_iff hknows rfl rfl fun _ _ _ _ _ heq => nomatch heq
      | _ => exact iff_of_true (hrest rfl) trivial
  | _ => exact iff_of_true (hrest rfl) trivial

end Bounded

/-- The session of a new manager. -/
def start (maxChannels nThreads pendingCapacity : ℤ) (nClients : ℕ) : Session :=
  ⟨newManager maxChannels.toNat nThreads pendingCapacity nClients, []⟩

theorem bounded_start (maxChannels nThreads pendingCapacity : ℤ) (nClients : ℕ) :
    (start maxChannels nThreads pendingCapacity nClients).Bounded := by
  refine ⟨?_, fun _ hjob => absurd hjob List.not_mem_nil, ?_,
    fun _ hmem => absurd hmem List.not_mem_nil⟩
  · exact (jobsOk_newManager maxChannels.toNat nThreads pendingCapacity nClients).recorded
  · intro channel hmem
    obtain ⟨client, hclient, hchannel⟩ := List.mem_map.mp hmem
    rw [List.eq_of_mem_replicate hclient] at hchannel
    cases hchannel

/-- Over every interleaving with the workers, indices stay below `m_n_channels` and no job
with a failed handle gets to a worker, exactly when the failed handle is avoided. -/
theorem handles_safe_iff (maxChannels nThreads pendingCapacity : ℤ) (nClients : ℕ)
    (actions : List Action) :
    Throughout step (fun s => s.manager.Placed)
          (start maxChannels nThreads pendingCapacity nClients) actions ∧
        Attempts step (fun s a => s.Knows a → s.Safe a)
          (start maxChannels nThreads pendingCapacity nClients) actions ↔
      Attempts step (fun s a => s.Knows a → s.Avoids a)
        (start maxChannels nThreads pendingCapacity nClients) actions := by
  have hstart := bounded_start maxChannels nThreads pendingCapacity nClients
  rw [throughout_and_attempts_iff, and_iff_right hstart.placed]
  refine attempts_iff_attempts (I := Bounded) (fun s a t hs hC ht => hs.step hC ht)
    (fun s a hs => ⟨fun hQ hknows => (hs.safe_iff hknows).mp (hQ.1 hknows), fun hC => ?_⟩) hstart
  exact ⟨fun hknows => (hs.safe_iff hknows).mpr (hC hknows), fun t ht => (hs.step hC ht).placed⟩

/-- Two channels of which the manager has one, and a job for the second. -/
def failedActions : List Action :=
  [.call 0 (.initChannel 1) 0, .call 0 (.initChannel 1) 0, .call 0 (.submit (-1) 5 7 0) 0,
    .worker 0 0, .worker 0 0]

/-- The job with the failed handle is accepted, and its worker comes to index with -1. -/
theorem failedHandle_indexed :
    (∃ s, run step (start 1 1 4 1) failedActions = some s ∧
        s.manager.indexed (.worker 0 0) = some (-1)) ∧
      ¬ (Throughout step (fun s => s.manager.Placed) (start 1 1 4 1) failedActions ∧
        Attempts step (fun s a => s.Knows a → s.Safe a) (start 1 1 4 1) failedActions) := by
  refine ⟨⟨_, rfl, rfl⟩, fun hsafe => ?_⟩
  have hfails := (hsafe.2.2 _ rfl).2 _ rfl
  have hrefused := (hfails.1 (by decide)).refused 0 5 7 0 0 rfl rfl
  cases hrefused

end Session

end Job

end ConArtist
