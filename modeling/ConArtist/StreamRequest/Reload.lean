import ConArtist.StreamRequest.Jobs

/-!
# The second table

The manager has two tables. One goes with a mappings job to a worker and comes back when
the job is collected. An update gives it away before it knows whether the job is accepted,
so the table is with the manager or with one job throughout a run exactly when no update
has its mappings job refused.
-/

namespace ConArtist

namespace StreamRequest

open Machine StreamRequestManager

/-- The table that a mappings job carries. -/
def PushedJob.table (job : PushedJob) : Option ℕ :=
  match job.jobFn, job.jobData0 with
  | .updateMappingsJobFn, .mappings k => some k
  | _, _ => none

section Loaded

variable {nsort : Nsort} {m m' : StreamRequestManager}

theorem StreamRequestManager.collectRequest_loaded {job : JobData × JobData}
    (h : m.collectRequest job = some m') : m'.loadedMappings = m.loadedMappings := by
  obtain ⟨i, done, -, -, rfl⟩ := collectRequest_eq_some h
  rfl

theorem StreamRequestManager.processRequest_loaded {i : ℕ} {jobs : List PushedJob}
    (h : m.processRequest i = some (m', jobs)) : m'.loadedMappings = m.loadedMappings := by
  rcases processRequest_eq_some h with
    ⟨rfl, -⟩ | ⟨req, mappings, mappingIndex, -, -, -, -, -, rfl, -⟩ <;> rfl

/-- Collecting jobs that updates made succeeds for mappings jobs only, and leaves the table of
the last one with the manager. -/
theorem StreamRequestManager.run_collectMappings {m₀ : StreamRequestManager} {exchanged : Bool}
    {jobs : List Job} (hjobs : ∀ job ∈ jobs, System.Formed m₀ job.toPushedJob)
    (h : run (collectMappings nsort) m (jobs.map fun job => job.handBack exchanged) = some m') :
    (jobs.filterMap fun job => job.table).length = jobs.length ∧
      m'.loadedMappings = (jobs.filterMap fun job => job.table).getLast?.or m.loadedMappings := by
  induction jobs generalizing m with
  | nil =>
      cases h
      exact ⟨rfl, rfl⟩
  | cons job jobs ih =>
      rw [List.map_cons] at h
      obtain ⟨n, hone, hrest⟩ := (run_cons_eq_some _).mp h
      obtain ⟨hlength, hloaded⟩ :=
        ih (fun job hjob => hjobs job (List.mem_cons_of_mem _ hjob)) hrest
      obtain ⟨k, loaded, mappings, merged, hk, -, -, -, rfl⟩ := collectMappings_eq_some hone
      -- only the exchanged pointers of a mappings job have a table in the second place
      have htable : job.table = some k := by
        obtain ⟨job, userId⟩ := job
        cases hjobs _ List.mem_cons_self with
        | mappings k' =>
            cases exchanged with
            | true =>
                cases hk
                rfl
            | false => cases hk
        | request i => cases exchanged <;> cases hk
      rw [List.filterMap_cons_some (f := fun job : Job => job.table) htable, List.length_cons,
        List.length_cons, hlength, hloaded, List.getLast?_cons]
      refine ⟨rfl, ?_⟩
      cases (jobs.filterMap fun job => job.table).getLast? <;> rfl

theorem StreamRequestManager.update_loaded {m₀ : StreamRequestManager} {exchanged : Bool}
    {jobs : List Job} {now : Binary64} {requestJobs : List (JobData × JobData)}
    {pushed : List PushedJob}
    (hjobs : ∀ job ∈ jobs, System.Formed m₀ job.toPushedJob)
    (h : m.update nsort now (jobs.map fun job => job.handBack exchanged) requestJobs =
      some (m', pushed)) :
    (jobs.filterMap fun job => job.table).length = jobs.length ∧
      m'.loadedMappings = (jobs.filterMap fun job => job.table).getLast?.or
        (m.checkMappingsFile now).1.loadedMappings := by
  obtain ⟨n, n', jobs', hmappings, hrequests, hactive, -⟩ := StreamRequestManager.update_eq_some h
  obtain ⟨hlength, hn⟩ := run_collectMappings hjobs hmappings
  refine ⟨hlength, ?_⟩
  rw [← hn]
  have hn' : n'.loadedMappings = n.loadedMappings :=
    run_invariant (I := fun u => u.loadedMappings = n.loadedMappings) _
      (fun _ _ _ hu hcollect => (collectRequest_loaded hcollect).trans hu) _ rfl hrequests
  exact processRequests_invariant (I := fun u => u.loadedMappings = n.loadedMappings)
    (fun _ _ _ _ hu hone => (processRequest_loaded hone).trans hu) hn' hactive

end Loaded

namespace System

variable {nsort : Nsort} {parse : Parser} {exchanged : Bool} {s t : System} {b : ℕ}

def carried (s : System) : List ℕ := s.jobs.filterMap fun job => job.table

/-- The table is with the manager and with no job, or with exactly one job and not with the
manager. -/
def Held (b : ℕ) (s : System) : Prop :=
  s.manager.loadedMappings = some b ∧ s.carried = [] ∨
    s.manager.loadedMappings = none ∧ s.carried = [b]

theorem Held.of_perm (h : Held b s) (hloaded : t.manager.loadedMappings = s.manager.loadedMappings)
    (hperm : t.jobs.Perm s.jobs) : Held b t := by
  have hcarried : t.carried.Perm s.carried := hperm.filterMap _
  rcases h with ⟨hl, hc⟩ | ⟨hl, hc⟩
  · exact Or.inl ⟨hloaded.trans hl, List.perm_nil.mp (hc ▸ hcarried)⟩
  · exact Or.inr ⟨hloaded.trans hl, List.perm_singleton.mp (hc ▸ hcarried)⟩

/-- The table of a job on another channel is no table of a well formed system. -/
theorem WellFormed.table_otherJobs (h : s.WellFormed) {job : Job} (hjob : job ∈ s.otherJobs) :
    job.table = none := by
  have hformed := h job (List.mem_append_right _ (List.mem_of_mem_filter hjob))
  have hchannel := of_decide_eq_true (List.mem_filter.mp hjob).2
  obtain ⟨job, userId⟩ := job
  cases hformed with
  | mappings k => exact absurd rfl hchannel
  | request i => rfl

theorem filterMap_table_otherJobs (h : s.WellFormed) :
    s.otherJobs.filterMap (fun job => job.table) = [] :=
  List.filterMap_eq_nil_iff.mpr fun _ hjob => h.table_otherJobs hjob

theorem carried_perm (h : s.WellFormed) :
    s.carried.Perm ((s.waiting ++ s.executed).filterMap (fun job => job.table) ++
      s.mappingsJobs.filterMap fun job => job.table) := by
  rw [carried, jobs, List.filterMap_append]
  refine List.Perm.append_left _ ?_
  have hperm := (split_channel s.manager.mappingsChannel s.completed).filterMap
    fun job => job.table
  rw [List.filterMap_append] at hperm
  have hnil : (offChannel s.manager.mappingsChannel s.completed).filterMap
      (fun job => job.table) = [] := filterMap_table_otherJobs h
  rwa [hnil, List.append_nil] at hperm

theorem carried_update (h : s.WellFormed) {accepts : ℕ → Bool} {pushed : List PushedJob}
    (hjobs : t.jobs.Perm ((accepted accepts pushed).map (record t.manager) ++
      (s.waiting ++ s.executed ++ offChannel s.manager.streamRequestChannel s.otherJobs))) :
    t.carried.Perm ((accepted accepts pushed).filterMap PushedJob.table ++
      (s.waiting ++ s.executed).filterMap fun job => job.table) := by
  have hrest : (offChannel s.manager.streamRequestChannel s.otherJobs).filterMap
      (fun job => job.table) = [] :=
    List.filterMap_eq_nil_iff.mpr fun _ hjob => h.table_otherJobs (List.mem_of_mem_filter hjob)
  have hperm := hjobs.filterMap fun job => job.table
  rw [List.filterMap_append, List.filterMap_append, hrest, List.append_nil,
    List.filterMap_map] at hperm
  exact hperm

/-- A new manager after it pushed its first mappings job. -/
def givenAway : StreamRequestManager :=
  { newManager with lastMappingsCheckTime := 11, loadedMappings := none }

def firstReload : Job := ⟨⟨0, .updateMappingsJobFn, .mappings 0, .null⟩, none⟩

theorem due_eleven : Binary64.SumBelow 0 10 11 := by decide +kernel

theorem update_newManager (nsort : Nsort) (exchanged : Bool) (accepts : ℕ → Bool) :
    (idle newManager).update nsort exchanged 11 accepts = some { idle givenAway with
      waiting := if accepts 0 then [firstReload] else [] } := by
  have hcheck : newManager.checkMappingsFile 11 = (givenAway, [firstReload.toPushedJob]) :=
    checkMappingsFile_of_due rfl due_eleven
  have hm : newManager.update nsort 11 [] [] = some (givenAway, [firstReload.toPushedJob]) := by
    rw [StreamRequestManager.update, hcheck]
    rfl
  rw [update_of_manager (s := idle newManager) hm, accepted]
  cases accepts 0 <;> rfl

end System

end StreamRequest

end ConArtist
