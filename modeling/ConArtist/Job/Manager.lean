import ConArtist.Foundation.CondVar
import ConArtist.Foundation.RingBuffer
import ConArtist.Foundation.Run

/-!
# The job manager

The model of `job_manager.cpp`. Every section that holds the mutex is one step,
and so is the call of a job function, which a worker makes outside it. A step that
leaves the model, by an access outside an array, has no result, and neither has a
step of a thread that is parked or has exited.

Pointers are natural numbers, `0` for a null pointer. The ticket of a job, its
place in the order of the accepted submissions, and the three logs at the end of
`JobManager` are not part of the source: no step depends on them.
-/

namespace ConArtist

namespace Job

/-- `job_t`. -/
structure JobRecord where
  channel : ℤ
  jobFn : ℕ
  jobData0 : ℕ
  jobData1 : ℕ
  ticket : ℕ
  deriving DecidableEq

/-- `ring_t`. -/
abbrev Ring := RingBuffer JobRecord

namespace Ring

/-- `ring_t::init` with a positive capacity. The slots are not initialised, and
none is read before it is written. -/
def init (cap : ℕ) (h : 0 < cap) : Ring :=
  RingBuffer.empty (List.replicate cap ⟨0, 0, 0, 0, 0⟩) (by rwa [List.length_replicate])

/-- `ring_t::push` stores the four fields. -/
def push (r : Ring) (channel : ℤ) (jobFn jobData0 jobData1 ticket : ℕ) : Option Ring :=
  RingBuffer.push r ⟨channel, jobFn, jobData0, jobData1, ticket⟩

/-- `ring_t::pop` reads three fields of the record. The caller's variable for the
fourth, `job_data1`, keeps the value it had. -/
def pop (r : Ring) (jobData1 : ℕ) : Option (JobRecord × Ring) :=
  (RingBuffer.pop r).map fun out => ({ out.1 with jobData1 := jobData1 }, out.2)

end Ring

/-- Where a worker stands in `worker_loop`. -/
inductive Worker where
  /-- Before the lock at the head of the loop. -/
  | ready
  /-- Parked on `m_has_jobs`. -/
  | waitingJobs
  /-- The lock is released and the job function is to be called. -/
  | running (job : JobRecord)
  /-- The job function has returned; before the lock that follows. -/
  | done (job : JobRecord)
  /-- Parked on `m_room_completed` of the job's channel. -/
  | waitingRoom (job : JobRecord)
  | exited

/-- A thread that calls the manager. `jobData1` is the variable it passes for
`job_data1`. -/
inductive Client where
  | idle
  /-- Parked on `m_has_completed[channel]`. -/
  | waitingCompleted (channel : ℤ) (jobData1 : ℕ)
  /-- Woken from there, before it takes the lock again. -/
  | woken (channel : ℤ) (jobData1 : ℕ)
  /-- In `stop`, joining the workers. -/
  | joining

/-- `job_manager_t`. The initialised channels are the entries of `completed`,
so that `m_n_channels` is its length. -/
structure JobManager where
  maxChannels : ℕ
  stopping : Bool
  drainMode : Bool
  pending : Ring
  completed : List Ring
  workers : List Worker
  clients : List Client
  /-- The submissions that returned 0. -/
  accepted : List JobRecord
  /-- The calls of job functions, with their arguments. -/
  calls : List JobRecord
  /-- What the successful pops handed back, each with the channel it was popped from. -/
  pops : List (ℤ × JobRecord)

namespace JobManager

/-- What the successful pops handed back. -/
def popped (m : JobManager) : List JobRecord := m.pops.map Prod.snd

/-- `m_completed[channel]`. -/
def completedRing (m : JobManager) (channel : ℤ) : Option Ring :=
  if 0 ≤ channel then m.completed[channel.toNat]? else none

/-- The waiters of `m_has_jobs`. -/
def onHasJobs : Worker → Option Worker
  | .waitingJobs => some .ready
  | _ => none

/-- The waiters of `m_room_completed` of the channels that satisfy `p`. -/
def onRoomCompleted (p : ℤ → Bool) : Worker → Option Worker
  | .waitingRoom job => if p job.channel then some (.done job) else none
  | _ => none

/-- The waiters of `m_has_completed` of the channels that satisfy `p`. -/
def onHasCompleted (p : ℤ → Bool) : Client → Option Client
  | .waitingCompleted channel jobData1 =>
      if p channel then some (.woken channel jobData1) else none
  | _ => none

/-- `submit`, with its return code. -/
def submit (m : JobManager) (channel : ℤ) (jobFn jobData0 jobData1 wake : ℕ) :
    Option (ℤ × JobManager) :=
  if jobFn = 0 ∨ jobData0 = 0 then some (-1, m)
  else if m.stopping then some (-1, m)
  else
    let job : JobRecord := ⟨channel, jobFn, jobData0, jobData1, m.accepted.length⟩
    match m.pending.push channel jobFn jobData0 jobData1 m.accepted.length with
    | none => some (-1, m)
    | some pending =>
        (CondVar.signal onHasJobs m.workers wake).map fun workers =>
          (0, { m with pending := pending, workers := workers, accepted := m.accepted ++ [job] })

/-- The pop of `pop_completed` and `pop_completed_wait`, with the lock held. -/
def popFrom (m : JobManager) (channel : ℤ) (jobData1 wake : ℕ) : Option (ℤ × JobManager) := do
  let ring ← m.completedRing channel
  match ring.pop jobData1 with
  | none => some (-1, m)
  | some (job, ring) =>
      (CondVar.signal (onRoomCompleted (· = channel)) m.workers wake).map fun workers =>
        (0, { m with
          completed := m.completed.set channel.toNat ring
          workers := workers
          pops := m.pops ++ [(channel, job)] })

/-- `pop_completed`. -/
def popCompleted (m : JobManager) (channel : ℤ) (jobData1 wake : ℕ) : Option (ℤ × JobManager) :=
  m.popFrom channel jobData1 wake

/-- `pop_completed_wait` by the thread `client`, from the head of its loop. There
is no return code when the thread parks. -/
def popCompletedWait (m : JobManager) (client : ℕ) (channel : ℤ) (jobData1 wake : ℕ) :
    Option (Option ℤ × JobManager) := do
  let ring ← m.completedRing channel
  if ring.count = 0 then
    if m.stopping ∧ m.pending.count = 0 then
      some (some (-1), { m with clients := m.clients.set client .idle })
    else
      some (none, { m with clients := m.clients.set client (.waitingCompleted channel jobData1) })
  else
    let out ← m.popFrom channel jobData1 wake
    some (some out.1, { out.2 with clients := out.2.clients.set client .idle })

/-- `init_channel`, with the channel it returns. It takes no lock; here it is a
step like the others. -/
def initChannel (m : JobManager) (completedCapacity : ℤ) : ℤ × JobManager :=
  if m.maxChannels ≤ m.completed.length then (-1, m)
  else
    let cap := if completedCapacity ≤ 0 then 1 else completedCapacity.toNat
    (m.completed.length,
      { m with completed := m.completed ++ [Ring.init cap (by grind)] })

/-- `stop` by the thread `client`, up to the joins. -/
def stop (m : JobManager) (client : ℕ) (drain : Bool) : JobManager :=
  if m.stopping then m
  else
    let initialised : ℤ → Bool := fun channel => 0 ≤ channel ∧ channel < m.completed.length
    { m with
      stopping := true
      drainMode := drain
      pending :=
        if drain then m.pending
        else RingBuffer.empty m.pending.buf m.pending.capacity_pos
      workers := CondVar.broadcast (onRoomCompleted initialised)
        (CondVar.broadcast onHasJobs m.workers)
      clients := (CondVar.broadcast (onHasCompleted initialised) m.clients).set client .joining }

/-- `worker_loop` of worker `i` from the head of its loop, with the lock held. -/
def loopHead (m : JobManager) (i : ℕ) : Option JobManager :=
  if m.pending.count = 0 ∧ ¬ m.stopping then
    some { m with workers := m.workers.set i .waitingJobs }
  else if m.stopping ∧ m.pending.count = 0 then
    some { m with workers := m.workers.set i .exited }
  else
    -- `job_data1` is initialised with NULL
    (m.pending.pop 0).map fun out =>
      { m with pending := out.2, workers := m.workers.set i (.running out.1) }

/-- The push of worker `i` into the completed ring, from the lock that follows the
call, and on to the head of the loop. -/
def complete (m : JobManager) (i : ℕ) (job : JobRecord) (wake : ℕ) : Option JobManager := do
  let ring ← m.completedRing job.channel
  if ring.count = ring.capacity then
    some { m with workers := m.workers.set i (.waitingRoom job) }
  else if job.jobFn = 0 then m.loopHead i
  else
    let ring ← ring.push job.channel job.jobFn job.jobData0 job.jobData1 job.ticket
    let clients ← CondVar.signal (onHasCompleted (· = job.channel)) m.clients wake
    { m with
      completed := m.completed.set job.channel.toNat ring
      clients := clients
      workers := m.workers.set i .ready }.loopHead i

/-- A step of worker `i`. -/
def workerStep (m : JobManager) (i wake : ℕ) : Option JobManager :=
  match m.workers[i]? with
  | some .ready => m.loopHead i
  | some (.running job) =>
      some { m with
        calls := if job.jobFn = 0 then m.calls else m.calls ++ [job]
        workers := m.workers.set i (.done job) }
  | some (.done job) => m.complete i job wake
  | _ => none

end JobManager

/-- What a client asks of the manager. -/
inductive Request where
  | initChannel (completedCapacity : ℤ)
  | submit (channel : ℤ) (jobFn jobData0 jobData1 : ℕ)
  | popCompleted (channel : ℤ) (jobData1 : ℕ)
  | popCompletedWait (channel : ℤ) (jobData1 : ℕ)
  | stop (drain : Bool)

/-- The steps of the system. `wake` names the thread a signal wakes. -/
inductive Action where
  /-- A client calls the manager. -/
  | call (client : ℕ) (request : Request) (wake : ℕ)
  /-- A woken client goes on in `pop_completed_wait`. -/
  | resume (client wake : ℕ)
  /-- A client has joined all workers. -/
  | join (client : ℕ)
  | worker (i wake : ℕ)

/-- A call of an idle client. -/
def requestStep (m : JobManager) (client wake : ℕ) : Request → Option JobManager
  | .initChannel completedCapacity => some (m.initChannel completedCapacity).2
  | .submit channel jobFn jobData0 jobData1 =>
      (m.submit channel jobFn jobData0 jobData1 wake).map Prod.snd
  | .popCompleted channel jobData1 => (m.popCompleted channel jobData1 wake).map Prod.snd
  | .popCompletedWait channel jobData1 =>
      (m.popCompletedWait client channel jobData1 wake).map Prod.snd
  | .stop drain => some (m.stop client drain)

def step (m : JobManager) : Action → Option JobManager
  | .call client request wake =>
      match m.clients[client]? with
      | some .idle => requestStep m client wake request
      | _ => none
  | .resume client wake =>
      match m.clients[client]? with
      | some (.woken channel jobData1) =>
          (m.popCompletedWait client channel jobData1 wake).map Prod.snd
      | _ => none
  | .join client =>
      match m.clients[client]? with
      | some .joining =>
          if m.workers.all fun w => w matches .exited then
            some { m with clients := m.clients.set client .idle }
          else none
      | _ => none
  | .worker i wake => m.workerStep i wake

/-- `intialize`, with `nClients` threads to call the manager. -/
def newManager (maxChannels : ℕ) (nThreads pendingCapacity : ℤ) (nClients : ℕ) : JobManager where
  maxChannels := maxChannels
  stopping := false
  drainMode := true
  pending := Ring.init (if pendingCapacity ≤ 0 then 1 else pendingCapacity.toNat) (by grind)
  completed := []
  workers := List.replicate (if nThreads ≤ 0 then 1 else nThreads.toNat) .ready
  clients := List.replicate nClients .idle
  accepted := []
  calls := []
  pops := []

end Job

end ConArtist
