import ConArtist.Foundation.KeyedTable
import ConArtist.StreamRequest.Mappings
import ConArtist.StreamRequest.Submission

/-!
# The jobs of the stream requests

A manager together with its jobs. The job manager accepts a job or refuses it; an accepted
job waits until a worker executes it, and can be collected once the worker has completed
it. The model has the two job functions as the workers run them. What they see of the file
system comes with the action, and the parser of the lines is a parameter.

Jobs are handed back with their two pointers as they were pushed. The update takes the
first pointer of a request job for its request, and the second of a mappings job for its
table, which is how they would come back exchanged. The model has both ways.
-/

namespace ConArtist

namespace StreamRequest

open Machine

/-- The lines of a mappings file, as `read_line`, `selectLeftAndRightOf` and `parse_mac`
take them apart. -/
abbrev Parser := List UInt8 → List (UInt64 × List UInt8)

/-- What a job sees of the mappings file once it is open: `st_mtime`, if `stat` succeeds,
and the contents. -/
structure FileView where
  mtime : Option ℤ
  content : List UInt8

namespace StreamMappings

/-- The loop over the lines. A name is cut to 63 bytes and ends with a zero. -/
def addLines (t : StreamMappings) : List (UInt64 × List UInt8) → Option StreamMappings
  | [] => some t
  | (userId, right) :: lines => do
      let name ← t.mappingNames[t.mappingsSize]?
      let rlen := min right.length (dMappingNameMaxlen - 1)
      if t.mappingsSize < t.mappingIds.length then
        addLines { t with
          mappingIds := t.mappingIds.set t.mappingsSize userId
          mappingNames := t.mappingNames.set t.mappingsSize
            (right.take rlen ++ 0 :: name.drop (rlen + 1))
          mappingsSize := t.mappingsSize + 1 } lines
      else none

/-- `update_mappings_job_fn`, with what it sees when it opens the file. -/
def updateMappingsJobFn (parse : Parser) (t : StreamMappings) (file : Option FileView) :
    Option StreamMappings :=
  match file with
  | none => some t
  | some view =>
      match view.mtime with
      | none => some t
      | some mtime =>
          if mtime ≠ t.fileMtime ∧ view.content.length ≤ t.fileContentCapacity then do
            let loaded ← addLines { t with
              fileContent := view.content ++ t.fileContent.drop view.content.length
              fileContentSize := view.content.length
              mappingsSize := 0 } (parse view.content)
            some { loaded with version := loaded.version + 1, fileMtime := mtime }
          else some t

/-- What `%s` prints of the name at an index: all up to the first zero, and nothing when
there is none before the end of the array. -/
def nameAt (t : StreamMappings) (mappingIndex : ℤ) : Option (List UInt8) :=
  if 0 ≤ mappingIndex ∧ mappingIndex < t.mappingNames.length then
    let behind := (t.mappingNames.drop mappingIndex.toNat).flatten
    if 0 ∈ behind then some (behind.takeWhile (· ≠ 0)) else none
  else none

end StreamMappings

namespace StreamRequestManager

/-- The path that `stream_request_fn` prints for a name, into a buffer of `MAXPATHLEN` bytes. -/
def filepath (m : StreamRequestManager) (name : List UInt8) : List UInt8 :=
  (m.streamsBasepath ++ "/".toUTF8.data.toList ++ name ++ ".rwstream".toUTF8.data.toList).take
    (m.maxPathLen - 1)

/-- `stream_request_fn`, for the request of a slot. `created` is what `create_rw` leaves in the
pointer to the file when it succeeds. -/
def streamRequestFn (m : StreamRequestManager) (i : ℕ) (created : Option (Option ℕ)) :
    Option (StreamRequestManager × List UInt8) := do
  let req ← m.requests[i]?
  let mappings ← m.buffers[m.mappings]?
  let name ← mappings.nameAt req.mappingIndex
  match created with
  | some mmfile =>
      some ({ m with requests := m.requests.set i { req with mmfile := mmfile } }, m.filepath name)
  | none => some (m, m.filepath name)

end StreamRequestManager

/-- The job that an update pushes for a request. -/
def StreamRequestManager.requestJob (m : StreamRequestManager) (i : ℕ) : PushedJob :=
  ⟨m.streamRequestChannel, .streamRequestFn, .manager, .request i⟩

section Submit

variable {nsort : Nsort} {m m' : StreamRequestManager}

namespace StreamRequestManager

/-- The files and the user ids of the requests are the same. -/
structure SameRequests (m m' : StreamRequestManager) : Prop where
  mmfile : m'.requests.map Request.mmfile = m.requests.map Request.mmfile
  userId : m'.requests.map Request.userId = m.requests.map Request.userId

theorem SameRequests.of_eq (h : m'.requests = m.requests) : SameRequests m m' :=
  ⟨by rw [h], by rw [h]⟩

theorem SameRequests.trans {m'' : StreamRequestManager} (h : SameRequests m m')
    (h' : SameRequests m' m'') : SameRequests m m'' :=
  ⟨h'.mmfile.trans h.mmfile, h'.userId.trans h.userId⟩

theorem SameRequests.mmfile_getElem? (h : SameRequests m m') (i : ℕ) :
    (m'.requests[i]?).map Request.mmfile = (m.requests[i]?).map Request.mmfile := by
  rw [← List.getElem?_map, h.mmfile, List.getElem?_map]

theorem processRequest_requests {i : ℕ} {jobs : List PushedJob}
    (h : m.processRequest i = some (m', jobs)) : SameRequests m m' := by
  rcases processRequest_eq_some h with
    ⟨rfl, -⟩ | ⟨req, mappings, mappingIndex, hreq, -, -, -, -, rfl, -⟩
  · exact .of_eq rfl
  · exact ⟨KeyedTable.map_set_of_eq hreq rfl, KeyedTable.map_set_of_eq hreq rfl⟩

theorem processRequests_pushed {is : List ℕ} {jobs : List PushedJob}
    (h : m.processRequests is = some (m', jobs)) : SameRequests m m' ∧
      ∃ slots : List ℕ, slots.Sublist is ∧ jobs = slots.map m.requestJob ∧
        ∀ i ∈ slots, (m.requests[i]?).map Request.mmfile = some none := by
  induction is generalizing m jobs with
  | nil =>
      cases h
      exact ⟨.of_eq rfl, [], .refl _, rfl, fun i hi => absurd hi List.not_mem_nil⟩
  | cons i is ih =>
      rw [processRequests] at h
      obtain ⟨⟨n, jobs₁⟩, hone, h⟩ := Option.bind_eq_some_iff.mp h
      obtain ⟨⟨n', jobs₂⟩, hrest, h⟩ := Option.bind_eq_some_iff.mp h
      cases h
      have hsame := processRequest_requests hone
      obtain ⟨hsame', slots, hslots, hjobs, hnone⟩ := ih hrest
      refine ⟨hsame.trans hsame', ?_⟩
      have hnone' : ∀ j ∈ slots, (m.requests[j]?).map Request.mmfile = some none :=
        fun j hj => (hsame.mmfile_getElem? j).symm.trans (hnone j hj)
      rcases processRequest_eq_some hone with
        ⟨rfl, rfl⟩ | ⟨req, mappings, mappingIndex, hreq, hfile, -, -, -, rfl, rfl⟩
      · exact ⟨slots, hslots.cons i, hjobs, hnone'⟩
      · refine ⟨i :: slots, hslots.cons_cons i, ?_, fun j hj => ?_⟩
        · rw [hjobs]
          rfl
        · rcases List.mem_cons.mp hj with rfl | hj
          · rw [hreq, Option.map_some, hfile]
          · exact hnone' j hj

/-- What an update pushes: a job for the mappings file, perhaps, and jobs for active requests
without a file. -/
theorem update_pushed {now : Binary64} {mappingsJobs requestJobs : List (JobData × JobData)}
    {jobs : List PushedJob} (h : m.update nsort now mappingsJobs requestJobs = some (m', jobs)) :
    SameRequests m m' ∧ ∃ slots : List ℕ, slots.Sublist m.activeRequests.items ∧
      jobs = (m.checkMappingsFile now).2 ++ slots.map m.requestJob ∧
        ∀ i ∈ slots, (m.requests[i]?).map Request.mmfile = some none := by
  obtain ⟨n, n', jobs', hmappings, hrequests, hactive, rfl⟩ := StreamRequestManager.update_eq_some h
  -- what the two loops over finished jobs leave alone
  have hcheck : (m.checkMappingsFile now).1.requests = m.requests ∧
      SameShape m (m.checkMappingsFile now).1 := by
    refine ⟨?_, m.checkMappingsFile_shape now⟩
    rcases m.checkMappingsFile_cases now with heq | ⟨k, -, heq⟩ <;> rw [heq]
  have hn : n.requests = m.requests ∧ SameShape m n := by
    refine run_invariant (I := fun n => n.requests = m.requests ∧ SameShape m n) _
      (fun u job u' hu hcollect => ?_) _ hcheck hmappings
    refine ⟨?_, hu.2.trans (collectMappings_shape hcollect)⟩
    obtain ⟨k, loaded, mappings, merged, -, -, -, -, rfl⟩ := collectMappings_eq_some hcollect
    exact hu.1
  have hn' : n'.requests = m.requests ∧ n'.activeRequests = m.activeRequests ∧
      n'.streamRequestChannel = m.streamRequestChannel := by
    refine run_invariant (I := fun n => n.requests = m.requests ∧
      n.activeRequests = m.activeRequests ∧ n.streamRequestChannel = m.streamRequestChannel) _
      (fun u job u' hu hcollect => ?_) _ ⟨hn.1, hn.2.active, hn.2.streamRequestChannel⟩ hrequests
    obtain ⟨i, done, -, -, rfl⟩ := collectRequest_eq_some hcollect
    exact hu
  obtain ⟨hsame, slots, hslots, rfl, hnone⟩ := processRequests_pushed hactive
  refine ⟨(SameRequests.of_eq hn'.1).trans hsame, slots, hn'.2.1 ▸ hslots, ?_, ?_⟩
  · refine congrArg _ (List.map_congr_left fun i _ => ?_)
    rw [requestJob, requestJob, hn'.2.2]
  · intro i hi
    rw [← hn'.1]
    exact hnone i hi

end StreamRequestManager

end Submit

/-- A job that was accepted. What it was submitted for is remembered: the user id of its
request. -/
structure Job extends PushedJob where
  userId : Option UInt64

def PushedJob.slot (job : PushedJob) : Option ℕ :=
  match job.jobData1 with
  | .request i => some i
  | _ => none

/-- The pointers of a job as `pop_job` hands them back. -/
def PushedJob.handBack (exchanged : Bool) (job : PushedJob) : JobData × JobData :=
  if exchanged then (job.jobData1, job.jobData0) else (job.jobData0, job.jobData1)

/-- A manager and its jobs: those that wait, those whose function has run, those that are
completed. Two lists keep the slots of all request jobs accepted so far, and of those whose
file was created. -/
structure System where
  manager : StreamRequestManager
  waiting : List Job
  executed : List Job
  completed : List Job
  submitted : List ℕ
  created : List ℕ

namespace System

/-- A manager without jobs. -/
def idle (m : StreamRequestManager) : System where
  manager := m
  waiting := []
  executed := []
  completed := []
  submitted := []
  created := []

/-- The jobs that were accepted and not collected yet. -/
def jobs (s : System) : List Job := s.waiting ++ s.executed ++ s.completed

/-- The jobs of the calls of `push_job` that succeed. -/
def accepted : (ℕ → Bool) → List PushedJob → List PushedJob
  | _, [] => []
  | accepts, job :: jobs =>
      if accepts 0 then job :: accepted (fun n => accepts (n + 1)) jobs
      else accepted (fun n => accepts (n + 1)) jobs

/-- A job with the user id of its request. -/
def record (m : StreamRequestManager) (job : PushedJob) : Job :=
  { job with userId := job.slot.bind fun i => (m.requests[i]?).map Request.userId }

/-- The completed jobs of a channel. -/
def onChannel (channel : ℤ) (jobs : List Job) : List Job :=
  jobs.filter fun job => job.channel = channel

/-- The completed jobs of the other channels. -/
def offChannel (channel : ℤ) (jobs : List Job) : List Job :=
  jobs.filter fun job => job.channel ≠ channel

/-- The mappings jobs that an update collects. -/
def mappingsJobs (s : System) : List Job := onChannel s.manager.mappingsChannel s.completed

/-- The jobs that are left for the second loop of an update. -/
def otherJobs (s : System) : List Job := offChannel s.manager.mappingsChannel s.completed

/-- The request jobs that an update collects. -/
def requestJobs (s : System) : List Job := onChannel s.manager.streamRequestChannel s.otherJobs

/-- A call of `update_stream_requests`; `accepts` tells which of its calls of `push_job`
succeed. -/
def update (nsort : Nsort) (exchanged : Bool) (s : System) (now : Binary64) (accepts : ℕ → Bool) :
    Option System := do
  let (m, pushed) ← s.manager.update nsort now
    (s.mappingsJobs.map fun job => job.handBack exchanged)
    (s.requestJobs.map fun job => job.handBack exchanged)
  let jobs := accepted accepts pushed
  some { s with
    manager := m
    waiting := s.waiting ++ jobs.map (record m)
    completed := offChannel s.manager.streamRequestChannel s.otherJobs
    submitted := s.submitted ++ jobs.filterMap PushedJob.slot }

/-- A worker runs the function of a job. -/
def call (parse : Parser) (s : System) (job : PushedJob) (file : Option FileView)
    (created : Option (Option ℕ)) : Option System :=
  match job.jobFn, job.jobData0, job.jobData1 with
  | .updateMappingsJobFn, .mappings k, _ => do
      let mappings ← s.manager.buffers[k]?
      let loaded ← mappings.updateMappingsJobFn parse file
      some { s with manager := { s.manager with buffers := s.manager.buffers.set k loaded } }
  | .streamRequestFn, .manager, .request i => do
      let (m, _) ← s.manager.streamRequestFn i created
      some { s with
        manager := m
        created := if created.isSome then s.created ++ [i] else s.created }
  | _, _, _ => none

/-- A worker executes the waiting job at a place. -/
def execute (parse : Parser) (s : System) (k : ℕ) (file : Option FileView)
    (created : Option (Option ℕ)) : Option System := do
  let job ← s.waiting[k]?
  let t ← s.call parse job.toPushedJob file created
  some { t with waiting := s.waiting.eraseIdx k, executed := s.executed ++ [job] }

/-- A worker completes an executed job. -/
def complete (s : System) (k : ℕ) : Option System := do
  let job ← s.executed[k]?
  some { s with executed := s.executed.eraseIdx k, completed := s.completed ++ [job] }

/-- What the main loop and the workers do. -/
inductive Action where
  | push (userId : UInt64) (streamId : UInt32) (mmfileSize : UInt64) (mmfile : Option ℕ)
  | pop
  | update (now : Binary64) (accepts : ℕ → Bool)
  | execute (k : ℕ) (file : Option FileView) (created : Option (Option ℕ))
  | complete (k : ℕ)

def step (nsort : Nsort) (parse : Parser) (exchanged : Bool) (s : System) :
    Action → Option System
  | .push userId streamId mmfileSize mmfile =>
      (s.manager.push userId streamId mmfileSize mmfile).map fun m => { s with manager := m }
  | .pop => s.manager.pop.map fun r => { s with manager := r.2 }
  | .update now accepts => s.update nsort exchanged now accepts
  | .execute k file created => s.execute parse k file created
  | .complete k => s.complete k

variable {nsort : Nsort} {parse : Parser} {exchanged : Bool} {s t : System}

theorem accepted_sublist (accepts : ℕ → Bool) (jobs : List PushedJob) :
    (accepted accepts jobs).Sublist jobs := by
  induction jobs generalizing accepts with
  | nil => exact .refl []
  | cons job jobs ih =>
      rw [accepted]
      split
      · exact (ih _).cons_cons job
      · exact (ih _).cons job

theorem update_of_manager {now : Binary64} {accepts : ℕ → Bool} {m : StreamRequestManager}
    {pushed : List PushedJob}
    (h : s.manager.update nsort now (s.mappingsJobs.map fun job => job.handBack exchanged)
      (s.requestJobs.map fun job => job.handBack exchanged) = some (m, pushed)) :
    s.update nsort exchanged now accepts = some { s with
      manager := m
      waiting := s.waiting ++ (accepted accepts pushed).map (record m)
      completed := offChannel s.manager.streamRequestChannel s.otherJobs
      submitted := s.submitted ++ (accepted accepts pushed).filterMap PushedJob.slot } := by
  rw [update, h]
  rfl

theorem update_eq_some {now : Binary64} {accepts : ℕ → Bool}
    (h : s.update nsort exchanged now accepts = some t) :
    ∃ pushed, s.manager.update nsort now (s.mappingsJobs.map fun job => job.handBack exchanged)
        (s.requestJobs.map fun job => job.handBack exchanged) = some (t.manager, pushed) ∧
      t.waiting = s.waiting ++ (accepted accepts pushed).map (record t.manager) ∧
      t.executed = s.executed ∧
      t.completed = offChannel s.manager.streamRequestChannel s.otherJobs ∧
      t.submitted = s.submitted ++ (accepted accepts pushed).filterMap PushedJob.slot ∧
      t.created = s.created := by
  obtain ⟨⟨m, pushed⟩, hupdate, h⟩ := Option.bind_eq_some_iff.mp h
  cases h
  exact ⟨pushed, hupdate, rfl, rfl, rfl, rfl, rfl⟩

theorem update_eq_none {now : Binary64} {accepts : ℕ → Bool}
    (h : s.manager.update nsort now (s.mappingsJobs.map fun job => job.handBack exchanged)
      (s.requestJobs.map fun job => job.handBack exchanged) = none) :
    s.update nsort exchanged now accepts = none := by
  rw [update, h]
  rfl

theorem call_eq_some {job : PushedJob} {file : Option FileView} {created : Option (Option ℕ)}
    (h : s.call parse job file created = some t) :
    (∃ k mappings loaded, job.jobFn = .updateMappingsJobFn ∧ job.jobData0 = .mappings k ∧
        s.manager.buffers[k]? = some mappings ∧
        mappings.updateMappingsJobFn parse file = some loaded ∧
        t = { s with manager := { s.manager with buffers := s.manager.buffers.set k loaded } }) ∨
      ∃ i m filepath, job.jobFn = .streamRequestFn ∧ job.jobData1 = .request i ∧
        s.manager.streamRequestFn i created = some (m, filepath) ∧
        t = { s with
          manager := m
          created := if created.isSome then s.created ++ [i] else s.created } := by
  rw [call] at h
  split at h
  case h_1 _ k hfn hdata =>
    obtain ⟨mappings, hmappings, h⟩ := Option.bind_eq_some_iff.mp h
    obtain ⟨loaded, hloaded, h⟩ := Option.bind_eq_some_iff.mp h
    exact Or.inl ⟨k, mappings, loaded, hfn, hdata, hmappings, hloaded, (Option.some.inj h).symm⟩
  case h_2 i hfn _ hdata =>
    obtain ⟨⟨m, filepath⟩, hrun, h⟩ := Option.bind_eq_some_iff.mp h
    exact Or.inr ⟨i, m, filepath, hfn, hdata, hrun, (Option.some.inj h).symm⟩
  case h_3 => cases h

theorem streamRequestFn_eq_some {m m' : StreamRequestManager} {i : ℕ}
    {created : Option (Option ℕ)} {filepath : List UInt8}
    (h : m.streamRequestFn i created = some (m', filepath)) :
    ∃ req mappings name, m.requests[i]? = some req ∧ m.buffers[m.mappings]? = some mappings ∧
      mappings.nameAt req.mappingIndex = some name ∧
      (created = none ∧ m' = m ∨ ∃ mmfile, created = some mmfile ∧
        m' = { m with requests := m.requests.set i { req with mmfile := mmfile } }) := by
  obtain ⟨req, hreq, h⟩ := Option.bind_eq_some_iff.mp h
  obtain ⟨mappings, hmappings, h⟩ := Option.bind_eq_some_iff.mp h
  obtain ⟨name, hname, h⟩ := Option.bind_eq_some_iff.mp h
  refine ⟨req, mappings, name, hreq, hmappings, hname, ?_⟩
  cases created with
  | some mmfile =>
      cases h
      exact Or.inr ⟨mmfile, rfl, rfl⟩
  | none =>
      cases h
      exact Or.inl ⟨rfl, rfl⟩

theorem execute_eq_some {k : ℕ} {file : Option FileView} {created : Option (Option ℕ)}
    (h : s.execute parse k file created = some t) :
    ∃ job u, s.waiting[k]? = some job ∧ s.call parse job.toPushedJob file created = some u ∧
      t = { u with waiting := s.waiting.eraseIdx k, executed := s.executed ++ [job] } := by
  obtain ⟨job, hjob, h⟩ := Option.bind_eq_some_iff.mp h
  obtain ⟨u, hu, h⟩ := Option.bind_eq_some_iff.mp h
  exact ⟨job, u, hjob, hu, (Option.some.inj h).symm⟩

theorem complete_eq_some {k : ℕ} (h : s.complete k = some t) :
    ∃ job, s.executed[k]? = some job ∧
      t = { s with executed := s.executed.eraseIdx k, completed := s.completed ++ [job] } := by
  obtain ⟨job, hjob, h⟩ := Option.bind_eq_some_iff.mp h
  exact ⟨job, hjob, (Option.some.inj h).symm⟩

theorem call_frame {job : PushedJob} {file : Option FileView} {created : Option (Option ℕ)}
    (h : s.call parse job file created = some t) : s.manager.SameFrame t.manager ∧
      s.manager.SameSlots t.manager ∧ t.manager.loadedMappings = s.manager.loadedMappings := by
  rcases call_eq_some h with
    ⟨k, mappings, loaded, -, -, -, -, rfl⟩ | ⟨i, m, filepath, -, -, hrun, rfl⟩
  · exact ⟨⟨rfl, rfl, rfl, rfl, List.length_set, rfl, rfl⟩, ⟨rfl, rfl, rfl⟩, rfl⟩
  · obtain ⟨req, mappings, name, -, -, -, ⟨-, rfl⟩ | ⟨mmfile, -, rfl⟩⟩ :=
      streamRequestFn_eq_some hrun
    · exact ⟨.refl _, ⟨rfl, rfl, rfl⟩, rfl⟩
    · exact ⟨⟨rfl, rfl, rfl, rfl, rfl, List.length_set, rfl⟩, ⟨rfl, rfl, rfl⟩, rfl⟩

theorem call_jobs {job : PushedJob} {file : Option FileView} {created : Option (Option ℕ)}
    (h : s.call parse job file created = some t) : t.waiting = s.waiting ∧
      t.executed = s.executed ∧ t.completed = s.completed ∧ t.submitted = s.submitted := by
  rcases call_eq_some h with
    ⟨k, mappings, loaded, -, -, -, -, rfl⟩ | ⟨i, m, filepath, -, -, -, rfl⟩ <;>
  exact ⟨rfl, rfl, rfl, rfl⟩

theorem step_frame {a : Action} (h : step nsort parse exchanged s a = some t) :
    s.manager.SameFrame t.manager := by
  cases a with
  | push userId streamId mmfileSize mmfile =>
      obtain ⟨m, hpush, rfl⟩ := Option.map_eq_some_iff.mp h
      exact StreamRequestManager.push_frame hpush
  | pop =>
      obtain ⟨⟨result, m⟩, hpop, rfl⟩ := Option.map_eq_some_iff.mp h
      exact StreamRequestManager.pop_frame hpop
  | update now accepts =>
      obtain ⟨pushed, hupdate, -⟩ := update_eq_some h
      exact StreamRequestManager.update_frame hupdate
  | execute k file created =>
      obtain ⟨job, u, -, hcall, rfl⟩ := execute_eq_some h
      exact (call_frame hcall).1
  | complete k =>
      obtain ⟨job, -, rfl⟩ := complete_eq_some h
      exact .refl _

theorem perm_move {α : Type*} {xs ys : List α} {k : ℕ} {x : α} (hx : xs[k]? = some x) :
    (xs.eraseIdx k ++ (ys ++ [x])).Perm (xs ++ ys) := by
  obtain ⟨hlt, rfl⟩ := List.getElem?_eq_some_iff.mp hx
  rw [← List.append_assoc]
  refine (List.perm_append_singleton _ _).trans ?_
  exact (List.getElem_cons_eraseIdx_perm hlt).append_right ys

theorem execute_jobs {k : ℕ} {file : Option FileView} {created : Option (Option ℕ)}
    (h : s.execute parse k file created = some t) : t.jobs.Perm s.jobs := by
  obtain ⟨job, u, hjob, hcall, rfl⟩ := execute_eq_some h
  rw [jobs, jobs, (call_jobs hcall).2.2.1]
  exact (perm_move hjob).append_right _

theorem complete_jobs {k : ℕ} (h : s.complete k = some t) : t.jobs.Perm s.jobs := by
  obtain ⟨job, hjob, rfl⟩ := complete_eq_some h
  rw [jobs, jobs, List.append_assoc, List.append_assoc]
  exact (perm_move hjob).append_left _

theorem split_channel (channel : ℤ) (jobs : List Job) :
    jobs.Perm (onChannel channel jobs ++ offChannel channel jobs) := by
  rw [onChannel, offChannel]
  simp only [ne_eq, decide_not]
  exact (List.filter_append_perm _ _).symm

/-- The jobs after an update: those that it did not collect, and the new ones. -/
theorem update_jobs {now : Binary64} {accepts : ℕ → Bool}
    (h : s.update nsort exchanged now accepts = some t) :
    ∃ pushed, s.manager.update nsort now (s.mappingsJobs.map fun job => job.handBack exchanged)
        (s.requestJobs.map fun job => job.handBack exchanged) = some (t.manager, pushed) ∧
      t.jobs.Perm ((accepted accepts pushed).map (record t.manager) ++ (s.waiting ++ s.executed ++
        offChannel s.manager.streamRequestChannel s.otherJobs)) := by
  obtain ⟨pushed, hupdate, hwaiting, hexecuted, hcompleted, -, -⟩ := update_eq_some h
  refine ⟨pushed, hupdate, ?_⟩
  rw [jobs, hwaiting, hexecuted, hcompleted, ← List.append_assoc, ← List.append_assoc]
  exact (List.perm_append_comm.append_right _).append_right _

/-- The jobs as an update makes them. -/
inductive Formed (m : StreamRequestManager) : PushedJob → Prop
  | mappings (k : ℕ) : Formed m ⟨m.mappingsChannel, .updateMappingsJobFn, .mappings k, .null⟩
  | request (i : ℕ) : Formed m (m.requestJob i)

theorem Formed.same {m m' : StreamRequestManager} {job : PushedJob} (h : Formed m job)
    (hsame : m.SameFrame m') : Formed m' job := by
  cases h with
  | mappings k =>
      rw [← hsame.mappingsChannel]
      exact .mappings k
  | request i =>
      rw [StreamRequestManager.requestJob, ← hsame.streamRequestChannel]
      exact .request i

/-- All jobs were made by an update. -/
def WellFormed (s : System) : Prop := ∀ job ∈ s.jobs, Formed s.manager job.toPushedJob

theorem formed_pushed {m m' : StreamRequestManager} {now : Binary64}
    {mappingsJobs requestJobs : List (JobData × JobData)} {pushed : List PushedJob}
    (h : m.update nsort now mappingsJobs requestJobs = some (m', pushed)) :
    ∀ job ∈ pushed, Formed m job := by
  obtain ⟨-, slots, -, rfl, -⟩ := StreamRequestManager.update_pushed h
  intro job hjob
  rcases List.mem_append.mp hjob with hjob | hjob
  · rcases m.checkMappingsFile_cases now with heq | ⟨k, -, heq⟩ <;> rw [heq] at hjob
    · exact absurd hjob List.not_mem_nil
    · rw [List.mem_singleton.mp hjob]
      exact .mappings k
  · obtain ⟨i, -, rfl⟩ := List.mem_map.mp hjob
    exact .request i

theorem WellFormed.step {a : Action} (h : s.WellFormed)
    (hstep : System.step nsort parse exchanged s a = some t) : t.WellFormed := by
  intro job hjob
  have hsame := step_frame hstep
  refine Formed.same ?_ hsame
  cases a with
  | push userId streamId mmfileSize mmfile =>
      obtain ⟨m, -, rfl⟩ := Option.map_eq_some_iff.mp hstep
      exact h job hjob
  | pop =>
      obtain ⟨r, -, rfl⟩ := Option.map_eq_some_iff.mp hstep
      exact h job hjob
  | update now accepts =>
      obtain ⟨pushed, hupdate, hperm⟩ := update_jobs hstep
      rcases List.mem_append.mp (hperm.mem_iff.mp hjob) with hnew | hold
      · obtain ⟨job, hmem, rfl⟩ := List.mem_map.mp hnew
        exact formed_pushed hupdate job ((accepted_sublist accepts pushed).subset hmem)
      · refine h job (List.mem_append.mpr ((List.mem_append.mp hold).imp_right fun hmem => ?_))
        exact List.mem_of_mem_filter (List.mem_of_mem_filter hmem)
  | execute k file created => exact h job ((execute_jobs hstep).mem_iff.mp hjob)
  | complete k => exact h job ((complete_jobs hstep).mem_iff.mp hjob)

theorem wellFormed_idle (m : StreamRequestManager) : (idle m).WellFormed :=
  fun _ hjob => absurd hjob List.not_mem_nil

end System

end StreamRequest

end ConArtist
