import ConArtist.StreamRequest.Resubmission

/-!
# Does a request get a usable handle

`m_mmfile` is the handle that a request is pushed with, and while it is null the request
counts as not yet created. The update loop submits requests whose pointer is null, and the
job passes that pointer on to `create_rw`. So a request with a handle is not submitted, and
one that is submitted has none.
-/

namespace ConArtist

namespace StreamRequest

open Machine StreamRequestManager

/-- The pointer that `stream_request_fn` passes to `create_rw` for a request. -/
def StreamRequestManager.createRwHandle (m : StreamRequestManager) (i : ℕ) : Option (Option ℕ) :=
  (m.requests[i]?).map Request.mmfile

namespace System

/-- A job of the request that runs passes a handle to `create_rw`. -/
def GetsHandle (i : ℕ) (s : System) : Action → Prop
  | .execute k _ _ => ∀ job, s.waiting[k]? = some job → job.slot = some i →
      ∃ handle, s.manager.createRwHandle i = some (some handle)
  | _ => True

/-- When the file of the request was created, a pop that takes the request returns the user id
and the handle. -/
def HandsOut (i : ℕ) (userId : Option UInt64) (s : System) : Action → Prop
  | .pop => i ∈ s.created → s.manager.doneRequests.items.getLast? = some i →
      ∃ user handle m', userId = some user ∧ s.manager.createRwHandle i = some (some handle) ∧
        s.manager.pop = some (some (user, some handle), m')
  | _ => True

/-- The request is active, its user is in the mappings, and there is no job for it. -/
structure Awaiting (s : System) (i : ℕ) : Prop where
  partitioned : s.manager.Partitioned
  active : i ∈ s.manager.activeRequests.items
  mapped : ∃ req mappings found, s.manager.requests[i]? = some req ∧
    s.manager.buffers[s.manager.mappings]? = some mappings ∧
    mappings.findMapping req.userId = some found ∧ 0 ≤ found
  noJob : ∀ job ∈ s.jobs, job.slot ≠ some i

/-- What becomes of a request, when an update calls `push_job` for the given jobs: one of them
is that of the request, which gets a handle whenever it runs, and a pop hands it out. -/
structure Processed (nsort : Nsort) (parse : Parser) (exchanged : Bool) (s : System) (i : ℕ)
    (now : Binary64) (jobs : List PushedJob) : Prop where
  pushed : s.manager.requestJob i ∈ jobs
  getsHandle : ∀ accepts actions, (∀ action ∈ actions, UpdateOrWork action) →
    Attempts (step nsort parse exchanged) (GetsHandle i) s (.update now accepts :: actions)
  handsOut : ∀ accepts actions, (∀ action ∈ actions, UpdateOrWork action) →
    Attempts (step nsort parse exchanged)
      (HandsOut i ((s.manager.requests[i]?).map Request.userId)) s
      (.update now accepts :: actions ++ [.pop])

section Pushed

variable {nsort : Nsort} {parse : Parser} {exchanged : Bool} {s : System} {i : ℕ} {now : Binary64}
  {m m' : StreamRequestManager} {jobs : List PushedJob}

theorem handle_of_pushed {mappingsJobs requestJobs : List (JobData × JobData)}
    (h : m.update nsort now mappingsJobs requestJobs = some (m', jobs))
    (hi : m.requestJob i ∈ jobs) :
    m.createRwHandle i = some none ∧ m'.createRwHandle i = some none := by
  obtain ⟨hsame, slots, -, rfl, hnone⟩ := StreamRequestManager.update_pushed h
  have hmem : i ∈ slots := by
    rcases List.mem_append.mp hi with hcheck | hslot
    · -- the other job that an update may push is that of the mappings file
      rcases m.checkMappingsFile_cases now with heq | ⟨k, -, heq⟩
      · rw [heq] at hcheck
        exact absurd hcheck List.not_mem_nil
      · rw [heq, List.mem_singleton] at hcheck
        exact nomatch congrArg PushedJob.jobFn hcheck
    · obtain ⟨j, hj, heq⟩ := List.mem_map.mp hslot
      have hdata : JobData.request j = .request i := congrArg PushedJob.jobData1 heq
      exact JobData.request.inj hdata ▸ hj
  refine ⟨hnone i hmem, ?_⟩
  rw [createRwHandle, hsame.mmfile_getElem? i]
  exact hnone i hmem

theorem accepted_all (jobs : List PushedJob) : accepted (fun _ => true) jobs = jobs := by
  induction jobs with
  | nil => rfl
  | cons job jobs ih => rw [accepted, if_pos rfl, ih]

theorem exists_update_all (h : s.manager.update nsort now
      (s.mappingsJobs.map fun job => job.handBack exchanged)
      (s.requestJobs.map fun job => job.handBack exchanged) = some (m', jobs)) :
    ∃ t, s.update nsort exchanged now (fun _ => true) = some t ∧ t.manager = m' ∧
      t.waiting = s.waiting ++ jobs.map (record m') := by
  have hsome : ∃ t, s.update nsort exchanged now (fun _ => true) = some t := by
    rw [System.update, h]
    exact ⟨_, rfl⟩
  obtain ⟨t, ht⟩ := hsome
  obtain ⟨pushed, hm, hwaiting, -⟩ := System.update_eq_some ht
  obtain ⟨rfl, rfl⟩ := Prod.mk.inj (Option.some.inj (h.symm.trans hm))
  rw [accepted_all] at hwaiting
  exact ⟨t, ht, rfl, hwaiting⟩

/-- A job that an update pushes runs without a handle, when it is accepted and runs at
once. -/
theorem runs_without_handle (h : s.manager.update nsort now
      (s.mappingsJobs.map fun job => job.handBack exchanged)
      (s.requestJobs.map fun job => job.handBack exchanged) = some (m', jobs))
    (hi : s.manager.requestJob i ∈ jobs) :
    ∃ actions, (∀ action ∈ actions, UpdateOrWork action) ∧
      ¬ Attempts (step nsort parse exchanged) (GetsHandle i) s
        (.update now (fun _ => true) :: actions) := by
  obtain ⟨t, ht, rfl, hwaiting⟩ := exists_update_all h
  have hmem : record t.manager (s.manager.requestJob i) ∈ t.waiting := by
    rw [hwaiting]
    exact List.mem_append_right _ (List.mem_map_of_mem hi)
  obtain ⟨k, hk⟩ := List.mem_iff_getElem?.mp hmem
  refine ⟨[.execute k none none], fun action haction => ?_, fun hall => ?_⟩
  · rw [List.mem_singleton.mp haction]
    exact trivial
  · obtain ⟨handle, hhandle⟩ := (hall.2 t ht).1 _ hk rfl
    rw [(handle_of_pushed h hi).2] at hhandle
    cases hhandle

/-- Whatever the request, its pointer, and the state of the manager and of its jobs: no update
that completes processes the request with a handle. -/
theorem not_processed (h : s.manager.update nsort now
      (s.mappingsJobs.map fun job => job.handBack exchanged)
      (s.requestJobs.map fun job => job.handBack exchanged) = some (m', jobs)) :
    ¬ Processed nsort parse exchanged s i now jobs := by
  intro hprocessed
  obtain ⟨actions, hactions, hnot⟩ := runs_without_handle h hprocessed.pushed
  exact hnot (hprocessed.getsHandle _ _ hactions)

/-- The request of the user 5, pushed without a handle or with the handle 3. -/
def pushedWith (mmfile : Option ℕ) : StreamRequestManager :=
  { requestOfFive (-1) (-1) with
    requests := [⟨-1, -1, 1, 5, 4096, mmfile⟩, ⟨0, 0, 0, 0, 0, none⟩] }

theorem awaiting_pushedWith (mmfile : Option ℕ) : (idle (pushedWith mmfile)).Awaiting 0 where
  partitioned := ⟨rfl, Nat.one_lt_two, ⟨_, rfl, rfl⟩, ⟨_, rfl, rfl⟩, rfl, rfl, rfl, .swap 0 1 []⟩
  active := List.mem_cons_self
  mapped := ⟨_, _, 0, rfl, rfl, findMapping_five, le_rfl⟩
  noJob := fun _ hjob => absurd hjob List.not_mem_nil

theorem not_processed_pushedWith :
    ¬ Processed (fun _ indices => some indices) (fun _ => []) true (idle (pushedWith none)) 0 1
      [(requestOfFive 0 0).requestJob 0] :=
  not_processed (requestOfFive_pushed _ (-1) (-1))

theorem update_pushedWith_some (nsort : Nsort) :
    (pushedWith (some 3)).update nsort 1 [] [] = some (pushedWith (some 3), []) := by
  have hcheck : (pushedWith (some 3)).checkMappingsFile 1 = (pushedWith (some 3), []) :=
    StreamRequestManager.checkMappingsFile_of_not_due not_due_one
  rw [StreamRequestManager.update, hcheck]
  rfl

/-- The request waits for its file, an update completes, and the request is not processed. -/
structure Overlooked (mmfile : Option ℕ) : Prop where
  awaiting : (idle (pushedWith mmfile)).Awaiting 0
  update : ∃ m' jobs,
    (pushedWith mmfile).update (fun _ indices => some indices) 1 [] [] = some (m', jobs) ∧
      ∀ parse exchanged, ¬ Processed (fun _ indices => some indices) parse exchanged
        (idle (pushedWith mmfile)) 0 1 jobs

/-- The update pushes a job without a handle for the one, and none for the other. -/
theorem handle_unusable : Overlooked none ∧ Overlooked (some 3) := by
  constructor
  · refine ⟨awaiting_pushedWith none, _, _, requestOfFive_pushed _ (-1) (-1), ?_⟩
    intro parse exchanged hprocessed
    obtain ⟨actions, hactions, hnot⟩ := runs_without_handle (s := idle (pushedWith none))
      (requestOfFive_pushed _ (-1) (-1)) hprocessed.pushed
    exact hnot (hprocessed.getsHandle _ _ hactions)
  · refine ⟨awaiting_pushedWith (some 3), _, _, update_pushedWith_some _, ?_⟩
    intro parse exchanged hprocessed
    exact absurd hprocessed.pushed List.not_mem_nil

end Pushed

end System

end StreamRequest

end ConArtist
