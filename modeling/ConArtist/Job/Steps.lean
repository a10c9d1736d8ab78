import Mathlib.Logic.Relation
import ConArtist.Job.Conservation

/-!
# What a step of the manager can do

`Transition` lists the effects of the sections that hold the mutex, with what each
of them needs. A worker that delivers a job goes on to the head of its loop under
the same lock, so that its step is two transitions. The one effect left out is that
of a client that parks in `pop_completed_wait`, where the results about waiters look
at the state before: `step_cases` says that a step makes transitions or parks its
client. What every transition keeps is kept by the manager in all its runs.
-/

namespace ConArtist

namespace Job

open Machine ConArtist.Job.Flow

/-- A client that is not parked in `pop_completed_wait`. -/
def Client.awake : Client → Bool
  | .waitingCompleted _ _ => false
  | _ => true

namespace JobManager

/-- The channels whose condition variables `stop` broadcasts to. -/
def initialised (m : JobManager) (channel : ℤ) : Bool :=
  0 ≤ channel ∧ channel < m.completed.length

/-- The moves of worker `i`. -/
inductive WorkerMove (m : JobManager) (i : ℕ) : JobManager → Prop where
  | waits (hworker : m.workers[i]? = some .ready) (hnone : m.pending.count = 0)
      (hrunning : m.stopping = false) :
      WorkerMove m i { m with workers := m.workers.set i .waitingJobs }
  | exits (hworker : m.workers[i]? = some .ready) (hnone : m.pending.count = 0)
      (hstopping : m.stopping = true) :
      WorkerMove m i { m with workers := m.workers.set i .exited }
  | takes (job : JobRecord) (pending : Ring) (hworker : m.workers[i]? = some .ready)
      (hpop : RingBuffer.pop m.pending = some (job, pending)) :
      WorkerMove m i { m with
        pending := pending
        workers := m.workers.set i (.running { job with jobData1 := 0 }) }
  | runs (job : JobRecord) (hworker : m.workers[i]? = some (.running job)) :
      WorkerMove m i { m with
        calls := if job.jobFn = 0 then m.calls else m.calls ++ [job]
        workers := m.workers.set i (.done job) }
  | blocks (c : ℕ) (job : JobRecord) (ring : Ring)
      (hworker : m.workers[i]? = some (.done job)) (hchannel : job.channel = c)
      (hring : m.completed[c]? = some ring) (hfull : ring.count = ring.capacity) :
      WorkerMove m i { m with workers := m.workers.set i (.waitingRoom job) }
  | delivers (c : ℕ) (job : JobRecord) (ring ring' : Ring) (clients : List Client) (wake : ℕ)
      (hworker : m.workers[i]? = some (.done job)) (hchannel : job.channel = c)
      (hring : m.completed[c]? = some ring) (hpush : RingBuffer.push ring job = some ring')
      (hsignal : CondVar.signal (onHasCompleted (· = (c : ℤ))) m.clients wake = some clients) :
      WorkerMove m i { m with
        completed := m.completed.set c ring'
        clients := clients
        workers := m.workers.set i .ready }

/-- What the calls of clients do, apart from parking. -/
inductive ClientMove (m : JobManager) : JobManager → Prop where
  | opened (cap : ℕ) (hcap : 0 < cap) (hchannels : m.completed.length < m.maxChannels) :
      ClientMove m { m with completed := m.completed ++ [Ring.init cap hcap] }
  | accepted (job : JobRecord) (pending : Ring) (workers : List Worker) (wake : ℕ)
      (hrunning : m.stopping = false) (hfn : job.jobFn ≠ 0) (hdata0 : job.jobData0 ≠ 0)
      (hticket : job.ticket = m.accepted.length)
      (hpush : RingBuffer.push m.pending job = some pending)
      (hsignal : CondVar.signal onHasJobs m.workers wake = some workers) :
      ClientMove m { m with
        pending := pending, workers := workers, accepted := m.accepted ++ [job] }
  | popped (c jobData1 : ℕ) (ring ring' : Ring) (job : JobRecord) (workers : List Worker)
      (wake : ℕ) (hring : m.completed[c]? = some ring)
      (hpop : RingBuffer.pop ring = some (job, ring'))
      (hsignal : CondVar.signal (onRoomCompleted (· = (c : ℤ))) m.workers wake = some workers) :
      ClientMove m { m with
        completed := m.completed.set c ring'
        workers := workers
        pops := m.pops ++ [((c : ℤ), { job with jobData1 := jobData1 })] }
  | returned (k : ℕ) (client : Client) (hclient : m.clients[k]? = some client)
      (hawake : client.awake) : ClientMove m { m with clients := m.clients.set k .idle }
  | stopped (k : ℕ) (drain : Bool) (hrunning : m.stopping = false)
      (hclient : m.clients[k]? = some .idle) : ClientMove m (m.stop k drain)

/-- The effects of the sections that hold the mutex. -/
inductive Transition (m m' : JobManager) : Prop where
  | client (hmove : ClientMove m m')
  | worker (i : ℕ) (hmove : WorkerMove m i m')

/-- A call of `pop_completed_wait`, at its beginning or after a wake-up. -/
structure WaitCall where
  client : ℕ
  channel : ℤ
  jobData1 : ℕ
  wake : ℕ

/-- The call of `pop_completed_wait` that an action goes on with. -/
def waitCall (m : JobManager) : Action → Option WaitCall
  | .call client (.popCompletedWait channel jobData1) wake =>
      match m.clients[client]? with
      | some .idle => some ⟨client, channel, jobData1, wake⟩
      | _ => none
  | .resume client wake =>
      match m.clients[client]? with
      | some (.woken channel jobData1) => some ⟨client, channel, jobData1, wake⟩
      | _ => none
  | _ => none

/-- The thread of the call finds its ring empty, with more to come, and parks. -/
structure Parks (m : JobManager) (call : WaitCall) (c : ℕ) (ring : Ring) : Prop where
  channel : call.channel = c
  initialised : m.completed[c]? = some ring
  empty : ring.count = 0
  more : m.stopping = true → m.pending.count ≠ 0

/-- The manager after the thread of the call has parked. -/
def park (m : JobManager) (call : WaitCall) : JobManager :=
  { m with clients := m.clients.set call.client (.waitingCompleted call.channel call.jobData1) }

variable {m m' : JobManager}

theorem waitCall_spec {a : Action} {call : WaitCall} (h : m.waitCall a = some call) :
    step m a = (m.popCompletedWait call.client call.channel call.jobData1 call.wake).map
        Prod.snd ∧
      ∃ client, m.clients[call.client]? = some client ∧ client.awake := by
  cases a with
  | call client request wake =>
      cases request with
      | popCompletedWait channel jobData1 =>
          rw [waitCall] at h
          split at h
          case h_1 hclient =>
            cases h
            exact ⟨by rw [step, hclient, requestStep], .idle, hclient, rfl⟩
          case h_2 => cases h
      | _ => cases h
  | resume client wake =>
      rw [waitCall] at h
      split at h
      case h_1 channel jobData1 hclient =>
        cases h
        exact ⟨by rw [step, hclient], .woken channel jobData1, hclient, rfl⟩
      case h_2 => cases h
  | _ => cases h

theorem popFrom_move {channel : ℤ} {jobData1 wake : ℕ} {rc : ℤ}
    (h : m.popFrom channel jobData1 wake = some (rc, m')) :
    (m' = m ∧ ∃ ring, m.completedRing channel = some ring ∧ ring.count = 0) ∨
      (rc = 0 ∧ m'.clients = m.clients ∧ ClientMove m m') := by
  obtain ⟨ring, hring, hpop⟩ := Option.bind_eq_some_iff.mp h
  obtain ⟨c, rfl, hc⟩ := completedRing_eq_some.mp hring
  rcases hout : RingBuffer.pop ring with _ | ⟨job, ring'⟩
  · simp only [Ring.pop, hout, Option.map_none] at hpop
    cases hpop
    have hzero := RingBuffer.items_eq_nil.mp (RingBuffer.pop_eq_none.mp hout)
    exact Or.inl ⟨rfl, ring, hring, hzero⟩
  · simp only [Ring.pop, hout, Option.map_some] at hpop
    obtain ⟨workers, hsignal, hm'⟩ := Option.map_eq_some_iff.mp hpop
    cases hm'
    exact Or.inr ⟨rfl, rfl, .popped c jobData1 ring ring' job workers wake hc hout hsignal⟩

/-- A call of `pop_completed_wait` parks, gives up with nothing pending after a
stop, or takes a job. -/
theorem popCompletedWait_cases {call : WaitCall} {client : Client} {rc : Option ℤ}
    (hclient : m.clients[call.client]? = some client) (hawake : client.awake)
    (h : m.popCompletedWait call.client call.channel call.jobData1 call.wake = some (rc, m')) :
    (rc = none ∧ m' = m.park call ∧ ∃ c ring, m.Parks call c ring) ∨
      (rc = some (-1) ∧ m' = { m with clients := m.clients.set call.client .idle } ∧
        m.stopping = true ∧ m.pending.count = 0 ∧
        ∃ (c : ℕ) (ring : Ring), call.channel = c ∧ m.completed[c]? = some ring ∧
          ring.count = 0) ∨
      (rc = some 0 ∧ Relation.ReflTransGen ClientMove m m') := by
  obtain ⟨ring, hring, hwait⟩ := Option.bind_eq_some_iff.mp h
  obtain ⟨c, hchannel, hc⟩ := completedRing_eq_some.mp hring
  split at hwait
  case isTrue hempty =>
    split at hwait
    case isTrue hstop =>
      cases hwait
      exact Or.inr (Or.inl ⟨rfl, rfl, hstop.1, hstop.2, c, ring, hchannel, hc, hempty⟩)
    case isFalse hmore =>
      cases hwait
      exact Or.inl ⟨rfl, rfl, c, ring, hchannel, hc, hempty, fun hs hp => hmore ⟨hs, hp⟩⟩
  case isFalse hcount =>
    obtain ⟨⟨rc', n⟩, hpop, hout⟩ := Option.bind_eq_some_iff.mp hwait
    cases hout
    rcases popFrom_move hpop with ⟨-, ring', hring', hzero⟩ | ⟨rfl, hclients, hmove⟩
    · cases hring.symm.trans hring'
      exact absurd hzero hcount
    · refine Or.inr (Or.inr ⟨rfl, .tail (.single hmove) ?_⟩)
      exact .returned call.client client (hclients ▸ hclient) hawake

theorem popCompletedWait_of_parks {call : WaitCall} {c : ℕ} {ring : Ring}
    (h : m.Parks call c ring) :
    m.popCompletedWait call.client call.channel call.jobData1 call.wake =
      some (none, m.park call) := by
  have hring : m.completedRing call.channel = some ring :=
    completedRing_eq_some.mpr ⟨c, h.channel, h.initialised⟩
  have hmore : ¬ (m.stopping = true ∧ m.pending.count = 0) := fun hlast => h.more hlast.1 hlast.2
  rw [popCompletedWait, hring, Option.bind_eq_bind, Option.bind_some, if_pos h.empty,
    if_neg hmore]
  rfl

theorem submit_move {channel : ℤ} {jobFn jobData0 jobData1 wake : ℕ} {rc : ℤ}
    (h : m.submit channel jobFn jobData0 jobData1 wake = some (rc, m')) :
    m' = m ∨ ClientMove m m' := by
  rw [submit] at h
  split at h
  case isTrue hnull =>
    cases h
    exact Or.inl rfl
  case isFalse hnull =>
    rw [not_or] at hnull
    split at h
    case isTrue hstop =>
      cases h
      exact Or.inl rfl
    case isFalse hstop =>
      split at h
      case h_1 hpush =>
        cases h
        exact Or.inl rfl
      case h_2 pending hpush =>
        obtain ⟨workers, hsignal, hm'⟩ := Option.map_eq_some_iff.mp h
        cases hm'
        exact Or.inr (.accepted _ pending workers wake (Bool.eq_false_of_not_eq_true hstop)
          hnull.1 hnull.2 rfl hpush hsignal)

theorem loopHead_move {i : ℕ} (hworker : m.workers[i]? = some .ready)
    (h : m.loopHead i = some m') : m.WorkerMove i m' := by
  rw [loopHead] at h
  split at h
  case isTrue hpark =>
    cases h
    exact .waits hworker hpark.1 (Bool.eq_false_of_not_eq_true hpark.2)
  case isFalse =>
    split at h
    case isTrue hexit =>
      cases h
      exact .exits hworker hexit.2 hexit.1
    case isFalse =>
      obtain ⟨⟨job, pending⟩, hpop, rfl⟩ := Option.map_eq_some_iff.mp h
      obtain ⟨⟨job, pending⟩, hout, hjob⟩ := Option.map_eq_some_iff.mp hpop
      cases hjob
      exact .takes job pending hworker hout

theorem complete_moves {i wake : ℕ} {job : JobRecord}
    (hworker : m.workers[i]? = some (.done job)) (hfn : job.jobFn ≠ 0)
    (h : m.complete i job wake = some m') :
    Relation.TransGen (fun n n' : JobManager => n.WorkerMove i n') m m' := by
  obtain ⟨ring, hring, hrest⟩ := Option.bind_eq_some_iff.mp h
  obtain ⟨c, hchannel, hc⟩ := completedRing_eq_some.mp hring
  by_cases hfull : ring.count = ring.capacity
  · rw [if_pos hfull] at hrest
    cases hrest
    exact .single (.blocks c job ring hworker hchannel hc hfull)
  · rw [if_neg hfull, if_neg hfn] at hrest
    obtain ⟨ring', hpush, hrest⟩ := Option.bind_eq_some_iff.mp hrest
    obtain ⟨clients, hsignal, hloop⟩ := Option.bind_eq_some_iff.mp hrest
    rw [hchannel] at hsignal
    simp only [hchannel, Int.toNat_natCast] at hloop
    have hready : (m.workers.set i .ready)[i]? = some .ready :=
      List.getElem?_set_self (List.getElem?_eq_some_iff.mp hworker).1
    have hdelivers := WorkerMove.delivers c job ring ring' clients wake hworker hchannel hc
      hpush hsignal
    exact .tail (.single hdelivers) (loopHead_move hready hloop)

theorem workerStep_running {i : ℕ} {job : JobRecord} (hworker : m.workers[i]? = some (.running job))
    (wake : ℕ) : m.workerStep i wake = some { m with
      calls := if job.jobFn = 0 then m.calls else m.calls ++ [job]
      workers := m.workers.set i (.done job) } := by
  simp only [workerStep, hworker]

theorem workerStep_done {i : ℕ} {job : JobRecord} (hworker : m.workers[i]? = some (.done job))
    (wake : ℕ) : m.workerStep i wake = m.complete i job wake := by
  simp only [workerStep, hworker]

theorem workerStep_moves {i wake : ℕ} (hrec : m.flow.Recorded)
    (h : m.workerStep i wake = some m') :
    Relation.TransGen (fun n n' : JobManager => n.WorkerMove i n') m m' := by
  rw [workerStep] at h
  split at h
  case h_1 hworker => exact .single (loopHead_move hworker h)
  case h_2 job hworker =>
    cases h
    exact .single (.runs job hworker)
  case h_3 job hworker =>
    have hheld : m.flow.held[i]? = some (some (job, true)) := by
      rw [flow, List.getElem?_map, hworker]
      rfl
    exact complete_moves hworker (hrec.jobFn_ne (hrec.held i job true hheld).1) h
  case h_4 => cases h

theorem initChannel_moves (m : JobManager) (completedCapacity : ℤ) :
    Relation.ReflTransGen ClientMove m (m.initChannel completedCapacity).2 := by
  rw [initChannel]
  split
  case isTrue => exact .refl
  case isFalse hchannels => exact .single (.opened _ _ (Nat.lt_of_not_le hchannels))

/-- A client's step parks the client in `pop_completed_wait`, or makes moves. -/
theorem clientStep_cases {a : Action} (ha : ∀ i wake, a ≠ .worker i wake)
    (h : step m a = some m') :
    (∃ call c ring, m.waitCall a = some call ∧ m.Parks call c ring ∧ m' = m.park call) ∨
      Relation.ReflTransGen ClientMove m m' := by
  rcases hwait : m.waitCall a with _ | call
  · refine Or.inr ?_
    cases a with
    | call client request wake =>
        rw [step] at h
        split at h
        case h_1 hclient =>
          cases request with
          | initChannel completedCapacity =>
              cases h
              exact initChannel_moves m completedCapacity
          | submit channel jobFn jobData0 jobData1 =>
              obtain ⟨⟨rc, n⟩, hsubmit, rfl⟩ := Option.map_eq_some_iff.mp h
              rcases submit_move hsubmit with rfl | hmove
              · exact .refl
              · exact .single hmove
          | popCompleted channel jobData1 =>
              obtain ⟨⟨rc, n⟩, hpop, rfl⟩ := Option.map_eq_some_iff.mp h
              rcases popFrom_move hpop with ⟨rfl, -⟩ | ⟨-, -, hmove⟩
              · exact .refl
              · exact .single hmove
          | popCompletedWait channel jobData1 => simp [waitCall, hclient] at hwait
          | stop drain =>
              cases h
              rcases hstop : m.stopping with _ | _
              · exact .single (.stopped client drain hstop hclient)
              · rw [stop, if_pos hstop]
        case h_2 => cases h
    | resume client wake =>
        rw [step] at h
        split at h
        case h_1 channel jobData1 hclient => simp [waitCall, hclient] at hwait
        case h_2 => cases h
    | join client =>
        rw [step] at h
        split at h
        case h_1 hclient =>
          split at h
          · cases h
            exact .single (.returned client .joining hclient rfl)
          · cases h
        case h_2 => cases h
    | worker i wake => exact absurd rfl (ha i wake)
  · obtain ⟨hstep, client, hclient, hawake⟩ := waitCall_spec hwait
    rw [hstep] at h
    obtain ⟨⟨rc, n⟩, hcall, rfl⟩ := Option.map_eq_some_iff.mp h
    rcases popCompletedWait_cases hclient hawake hcall with
      ⟨-, rfl, c, ring, hparks⟩ | ⟨-, rfl, -⟩ | ⟨-, hmoves⟩
    · exact Or.inl ⟨call, c, ring, rfl, hparks, rfl⟩
    · exact Or.inr (.single (.returned call.client client hclient hawake))
    · exact Or.inr hmoves

/-- A step parks its client in `pop_completed_wait`, or makes transitions. -/
theorem step_cases {a : Action} (hrec : m.flow.Recorded) (h : step m a = some m') :
    (∃ call c ring, m.waitCall a = some call ∧ m.Parks call c ring ∧ m' = m.park call) ∨
      Relation.ReflTransGen Transition m m' := by
  by_cases hworker : ∃ i wake, a = .worker i wake
  · obtain ⟨i, wake, rfl⟩ := hworker
    have hmoves := (workerStep_moves hrec h).to_reflTransGen
    exact Or.inr (hmoves.lift id fun _ _ hmove => .worker i hmove)
  · have ha : ∀ i wake, a ≠ .worker i wake := fun i wake heq => hworker ⟨i, wake, heq⟩
    refine (clientStep_cases ha h).imp_right fun hmoves => ?_
    exact hmoves.lift id fun _ _ hmove => .client hmove

/-- What the transitions keep, and the parking of clients keeps, a step keeps. -/
theorem step_invariant {P : JobManager → Prop}
    (htransition : ∀ n n', P n → Transition n n' → P n')
    (hpark : ∀ n (call : WaitCall) c ring, P n → n.Parks call c ring → P (n.park call))
    {a : Action} (hrec : m.flow.Recorded) (hinv : P m) (h : step m a = some m') : P m' := by
  rcases step_cases hrec h with ⟨call, c, ring, -, hparks, rfl⟩ | hsteps
  · exact hpark m call c ring hinv hparks
  · clear h
    induction hsteps with
    | refl => exact hinv
    | tail _ hlast ih => exact htransition _ _ ih hlast

end JobManager

end Job

end ConArtist
