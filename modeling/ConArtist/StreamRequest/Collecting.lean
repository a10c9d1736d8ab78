import ConArtist.StreamRequest.Resubmission

/-!
# What the collected jobs carry

A mappings job is pushed with its table as the first pointer and a null pointer as the
second, and a request job with the manager as the first pointer and its request as the
second. The update that collects them takes the other pointer of each. When the pointers
come back as they were pushed, no finished job is collected, so that updates treat their
finished jobs rightly exactly when they find none.
-/

namespace ConArtist

namespace StreamRequest

open Machine StreamRequestManager

/-- The loaded table is the one that the job was submitted with, and its entries were merged. -/
def CollectsTable (nsort : Nsort) (m : StreamRequestManager) (job : PushedJob)
    (m' : StreamRequestManager) : Prop :=
  ∃ k loaded mappings merged, job.jobData0 = .mappings k ∧ m'.loadedMappings = some k ∧
    m.buffers[k]? = some loaded ∧ m.buffers[m.mappings]? = some mappings ∧
    mappings.mergeLoaded nsort loaded = some merged ∧
    m'.buffers = m.buffers.set m.mappings merged

/-- The number of the request that the job was submitted for is appended to the done list. -/
def CollectsSlot (m : StreamRequestManager) (job : PushedJob) (m' : StreamRequestManager) : Prop :=
  ∃ i < m.requestsCapacity, job.jobData1 = .request i ∧
    m'.doneRequests.items = m.doneRequests.items ++ [i]

namespace System

variable {nsort : Nsort} {parse : Parser} {exchanged : Bool} {s : System}

/-- Every finished job that an update finds is collected rightly. -/
def CollectsRightly (nsort : Nsort) (s : System) : Action → Prop
  | .update now _ =>
      Attempts (fun m (job : Job) => m.collectMappings nsort (job.handBack false))
          (fun m job => ∃ m', m.collectMappings nsort (job.handBack false) = some m' ∧
            CollectsTable nsort m job.toPushedJob m')
          (s.manager.checkMappingsFile now).1 s.mappingsJobs ∧
        ∀ n, run (fun m (job : Job) => m.collectMappings nsort (job.handBack false))
            (s.manager.checkMappingsFile now).1 s.mappingsJobs = some n →
          Attempts (fun m (job : Job) => m.collectRequest (job.handBack false))
            (fun m job => ∃ m', m.collectRequest (job.handBack false) = some m' ∧
              CollectsSlot m job.toPushedJob m') n s.requestJobs
  | _ => True

/-- An update finds no finished job. -/
def FindsNone (s : System) : Action → Prop
  | .update _ _ => s.mappingsJobs = [] ∧ s.requestJobs = []
  | _ => True

theorem Formed.collectMappings_eq_none {m₀ : StreamRequestManager} {job : PushedJob}
    (h : Formed m₀ job) (m : StreamRequestManager) :
    m.collectMappings nsort (job.handBack false) = none := by
  cases h <;> rfl

theorem Formed.collectRequest_eq_none {m₀ : StreamRequestManager} {job : PushedJob}
    (h : Formed m₀ job) (m : StreamRequestManager) :
    m.collectRequest (job.handBack false) = none := by
  cases h <;> rfl

theorem WellFormed.collectsRightly_step (h : s.WellFormed) (a : Action) :
    CollectsRightly nsort s a ↔ FindsNone s a := by
  cases a with
  | update now accepts =>
      have hmappings : ∀ job ∈ s.mappingsJobs, Formed s.manager job.toPushedJob :=
        fun job hjob => h job (List.mem_append_right _ (List.mem_of_mem_filter hjob))
      have hrequests : ∀ job ∈ s.requestJobs, Formed s.manager job.toPushedJob :=
        fun job hjob => h job (List.mem_append_right _
          (List.mem_of_mem_filter (List.mem_of_mem_filter hjob)))
      rw [CollectsRightly, FindsNone]
      constructor
      · rintro ⟨hfirst, hsecond⟩
        -- the first job that is found is not collected
        have hnone : s.mappingsJobs = [] := by
          cases hjobs : s.mappingsJobs with
          | nil => rfl
          | cons job jobs =>
              rw [hjobs] at hfirst hmappings
              obtain ⟨m', hm', -⟩ := hfirst.1
              rw [(hmappings job List.mem_cons_self).collectMappings_eq_none] at hm'
              cases hm'
        refine ⟨hnone, ?_⟩
        rw [hnone] at hsecond
        have hsecond := hsecond _ rfl
        cases hjobs : s.requestJobs with
        | nil => rfl
        | cons job jobs =>
            rw [hjobs] at hsecond hrequests
            obtain ⟨m', hm', -⟩ := hsecond.1
            rw [(hrequests job List.mem_cons_self).collectRequest_eq_none] at hm'
            cases hm'
      · rintro ⟨hfirst, hsecond⟩
        rw [hfirst, hsecond]
        refine ⟨trivial, fun _ _ => trivial⟩
  | _ => exact Iff.rfl

/-- In every run in which the jobs come back with the pointers as they were pushed, the updates
collect all finished jobs rightly if and only if they find none. -/
theorem collectsRightly_iff {as : List Action} (h : s.WellFormed) :
    Attempts (System.step nsort parse false) (CollectsRightly nsort) s as ↔
      Attempts (System.step nsort parse false) FindsNone s as :=
  attempts_iff_attempts (I := WellFormed) (fun _ _ _ hs _ hstep => hs.step hstep)
    (fun _ a hs => hs.collectsRightly_step a) h

/-- A new manager, before any job is finished. -/
theorem collectsRightly_newManager :
    Attempts (System.step (fun _ indices => some indices) (fun _ => []) false)
      (CollectsRightly fun _ indices => some indices) (idle newManager)
      [.update 11 fun _ => true] :=
  (collectsRightly_iff (wellFormed_idle _)).mpr ⟨⟨rfl, rfl⟩, fun _ _ => trivial⟩

/-- The system in which the first mappings job is completed. -/
def reloadCompleted : System :=
  { idle givenAway with completed := [firstReload] }

theorem run_reloadCompleted :
    run (System.step (fun _ indices => some indices) (fun _ => []) false) (idle newManager)
      [.update 11 fun _ => true, .execute 0 none none, .complete 0] = some reloadCompleted :=
  (run_cons_eq_some _).mpr
    ⟨_, update_newManager (fun _ indices => some indices) false fun _ => true, rfl⟩

/-- The system in which the job of the request is completed. -/
def requestCompleted : System :=
  ⟨fileOfFive, [], [], [jobOfFive], [0], [0]⟩

theorem run_requestCompleted :
    run (System.step (fun _ indices => some indices) (fun _ => []) false)
      (idle (requestOfFive (-1) (-1))) [.update 1 fun _ => true, .execute 0 none (some (some 3)),
        .complete 0] = some requestCompleted :=
  (run_cons_eq_some _).mpr
    ⟨_, update_requestOfFive (fun _ indices => some indices) false (-1) (-1) [] [] [],
      (run_cons_eq_some _).mpr ⟨_, execute_jobOfFive [] [0] [], rfl⟩⟩

/-- An update that finds the first mappings job has no result, and neither has one that finds
the job of a request. -/
theorem update_finds_job :
    (run (System.step (fun _ indices => some indices) (fun _ => []) false) (idle newManager)
        [.update 11 fun _ => true, .execute 0 none none, .complete 0] = some reloadCompleted ∧
      reloadCompleted.update (fun _ indices => some indices) false 12 (fun _ => true) = none ∧
      ¬ Attempts (System.step (fun _ indices => some indices) (fun _ => []) false)
        (CollectsRightly fun _ indices => some indices) (idle newManager)
        [.update 11 fun _ => true, .execute 0 none none, .complete 0, .update 12 fun _ => true]) ∧
    run (System.step (fun _ indices => some indices) (fun _ => []) false)
        (idle (requestOfFive (-1) (-1))) [.update 1 fun _ => true,
          .execute 0 none (some (some 3)), .complete 0] = some requestCompleted ∧
      requestCompleted.update (fun _ indices => some indices) false 1 (fun _ => true) = none ∧
      ¬ Attempts (System.step (fun _ indices => some indices) (fun _ => []) false)
        (CollectsRightly fun _ indices => some indices) (idle (requestOfFive (-1) (-1)))
        [.update 1 fun _ => true, .execute 0 none (some (some 3)), .complete 0,
          .update 1 fun _ => true] := by
  have hcheck : fileOfFive.checkMappingsFile 1 = (fileOfFive, []) :=
    StreamRequestManager.checkMappingsFile_of_not_due not_due_one
  refine ⟨⟨run_reloadCompleted, rfl, ?_⟩, run_requestCompleted, ?_, ?_⟩
  · refine not_attempts_append run_reloadCompleted fun h => ?_
    obtain ⟨m', hm', -⟩ := h.1.1
    cases hm'
  · have hm : fileOfFive.update (fun _ indices => some indices) 1 []
        [(.manager, .request 0)] = none := by
      rw [StreamRequestManager.update, hcheck]
      rfl
    exact update_eq_none hm
  · refine not_attempts_append run_requestCompleted fun h => ?_
    obtain ⟨m', hm', -⟩ := (h.2 _ rfl).1
    cases hm'

end System

end StreamRequest

end ConArtist
