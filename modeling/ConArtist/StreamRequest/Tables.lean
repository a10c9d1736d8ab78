import ConArtist.StreamRequest.Capacity
import ConArtist.StreamRequest.Reload

/-!
# The tables of a manager

What happens to the two tables in a run of a manager with its jobs is a sequence of loads and
merges: a mappings job that runs is a load, and one that is collected is a merge. Only the
first table is ever given to a job.
-/

namespace ConArtist

namespace StreamRequest

open Machine StreamRequestManager

namespace Tables

section Held

variable {nsort : Nsort} {parse : Parser} {exchanged : Bool} {s : Tables}
  {m m' : StreamRequestManager}

/-- The tables of a manager, of which the first goes through the mappings jobs. -/
structure HeldBy (s : Tables) (m : StreamRequestManager) : Prop where
  mappings : m.mappings = 1
  buffers : m.buffers = [s.loaded, s.mappings]

theorem heldBy_new (maxPathLen : ℕ) (mappingsChannel streamRequestChannel : ℤ) (now : Binary64)
    (streamsBasepath mappingsFilepath : List UInt8) (versions : ℕ → ℤ) (sorted : ℕ → ℕ → ℤ) :
    (new mappingsFilepath versions sorted).HeldBy (createStreamRequestManager maxPathLen
      mappingsChannel streamRequestChannel now streamsBasepath mappingsFilepath versions sorted) :=
  ⟨rfl, rfl⟩

theorem HeldBy.call {u v : System} (h : s.HeldBy u.manager) {channel : ℤ} {data : JobData}
    {file : Option FileView} {created : Option (Option ℕ)}
    (hcall : u.call parse ⟨channel, .updateMappingsJobFn, .mappings 0, data⟩ file created =
      some v) :
    ∃ s', s.step nsort parse (.load file) = some s' ∧ s'.HeldBy v.manager := by
  obtain ⟨t, ht, hcall⟩ := Option.bind_eq_some_iff.mp hcall
  obtain ⟨loaded, hloaded, hcall⟩ := Option.bind_eq_some_iff.mp hcall
  cases hcall
  rw [h.buffers] at ht
  cases ht
  refine ⟨_, Option.map_eq_some_iff.mpr ⟨loaded, hloaded, rfl⟩, h.mappings, ?_⟩
  dsimp only
  rw [h.buffers]
  rfl

theorem HeldBy.collectMappings {m m' : StreamRequestManager} (h : s.HeldBy m) {data : JobData}
    (hcollect : m.collectMappings nsort (data, .mappings 0) = some m') :
    ∃ s', s.step nsort parse .merge = some s' ∧ s'.HeldBy m' := by
  obtain ⟨k, loaded, mappings, merged, hk, hloaded, hmappings, hmerge, rfl⟩ :=
    StreamRequestManager.collectMappings_eq_some hcollect
  cases hk
  rw [h.buffers] at hloaded
  rw [h.buffers, h.mappings] at hmappings
  cases hloaded
  cases hmappings
  refine ⟨_, Option.map_eq_some_iff.mpr ⟨merged, hmerge, rfl⟩, h.mappings, ?_⟩
  dsimp only
  rw [h.buffers, h.mappings]
  rfl

theorem HeldBy.of_eq (h : s.HeldBy m) (hmappings : m'.mappings = m.mappings)
    (hbuffers : m'.buffers = m.buffers) : s.HeldBy m' :=
  ⟨hmappings.trans h.mappings, hbuffers.trans h.buffers⟩

theorem HeldBy.run_collectMappings {m₀ : StreamRequestManager} (h : s.HeldBy m) {jobs : List Job}
    (hformed : ∀ job ∈ jobs, System.Formed m₀ job.toPushedJob)
    (hfirst : ∀ job ∈ jobs, ∀ k, job.table = some k → k = 0)
    (hrun : run (StreamRequestManager.collectMappings nsort) m
      (jobs.map fun job => job.handBack exchanged) = some m') :
    ∃ s', run (step nsort parse) s (List.replicate jobs.length .merge) = some s' ∧
      s'.HeldBy m' := by
  induction jobs generalizing s m with
  | nil =>
      cases hrun
      exact ⟨s, rfl, h⟩
  | cons job jobs ih =>
      rw [List.map_cons] at hrun
      obtain ⟨n, hone, hrest⟩ := (run_cons_eq_some _).mp hrun
      -- only the exchanged pointers of a mappings job have a table in the second place
      have hdata : ∃ data, job.handBack exchanged = (data, .mappings 0) := by
        have hzero := hfirst job List.mem_cons_self
        obtain ⟨k, -, -, -, hk, -⟩ := collectMappings_eq_some hone
        obtain ⟨job, userId⟩ := job
        cases hformed _ List.mem_cons_self with
        | mappings k' =>
            obtain rfl : k' = 0 := hzero k' rfl
            cases exchanged with
            | true => exact ⟨_, rfl⟩
            | false => cases hk
        | request i => cases exchanged <;> cases hk
      obtain ⟨data, hdata⟩ := hdata
      rw [hdata] at hone
      obtain ⟨s₁, hs₁, h₁⟩ := h.collectMappings hone
      obtain ⟨s', hs', h'⟩ := ih h₁ (fun job hjob => hformed job (List.mem_cons_of_mem _ hjob))
        (fun job hjob => hfirst job (List.mem_cons_of_mem _ hjob)) hrest
      exact ⟨s', (run_cons_eq_some _).mpr ⟨s₁, hs₁, hs'⟩, h'⟩

theorem HeldBy.update (h : s.HeldBy m) {now : Binary64} {mappingsJobs : List (JobData × JobData)}
    {requestJobs : List (JobData × JobData)} {pushed : List PushedJob}
    (hupdate : m.update nsort now mappingsJobs requestJobs = some (m', pushed)) :
    ∃ n n', s.HeldBy n ∧ run (StreamRequestManager.collectMappings nsort) n mappingsJobs =
      some n' ∧ ∀ s' : Tables, s'.HeldBy n' → s'.HeldBy m' := by
  obtain ⟨n, n', jobs', hmappings, hrequests, hactive, -⟩ :=
    StreamRequestManager.update_eq_some hupdate
  refine ⟨_, n, h.of_eq ?_ ?_, hmappings, fun s' hs' => ?_⟩
  · rcases m.checkMappingsFile_cases now with heq | ⟨k, -, heq⟩ <;> rw [heq]
  · rcases m.checkMappingsFile_cases now with heq | ⟨k, -, heq⟩ <;> rw [heq]
  · have hn' : s'.HeldBy n' := run_invariant _ (fun u job u' hu hcollect => by
      obtain ⟨i, done, -, -, rfl⟩ := collectRequest_eq_some hcollect
      exact hu.of_eq rfl rfl) _ hs' hrequests
    refine processRequests_invariant (fun u i u' jobs hu hone => ?_) hn' hactive
    rcases processRequest_eq_some hone with
      ⟨rfl, -⟩ | ⟨req, mappings, mappingIndex, -, -, -, -, -, rfl, -⟩
    · exact hu
    · exact hu.of_eq rfl rfl

end Held

end Tables

namespace System

variable {nsort : Nsort} {parse : Parser} {exchanged : Bool} {u v : System} {s : Tables}

/-- Only the first table is given to jobs. -/
structure FirstOnly (u : System) : Prop where
  loaded : ∀ k, u.manager.loadedMappings = some k → k = 0
  carried : ∀ k ∈ u.carried, k = 0

theorem FirstOnly.of_perm (h : u.FirstOnly)
    (hloaded : v.manager.loadedMappings = u.manager.loadedMappings)
    (hperm : v.jobs.Perm u.jobs) : v.FirstOnly where
  loaded := hloaded ▸ h.loaded
  carried := fun k hk => h.carried k ((hperm.filterMap _).mem_iff.mp hk)

theorem FirstOnly.table (h : u.FirstOnly) {job : Job} (hjob : job ∈ u.jobs) {k : ℕ}
    (htable : job.table = some k) : k = 0 :=
  h.carried k (List.mem_filterMap.mpr ⟨job, hjob, htable⟩)

theorem mem_jobs_of_mappingsJobs {job : Job} (hjob : job ∈ u.mappingsJobs) : job ∈ u.jobs :=
  List.mem_append_right _ (List.mem_of_mem_filter hjob)

theorem FirstOnly.update (h : u.FirstOnly) (hformed : u.WellFormed) {now : Binary64}
    {accepts : ℕ → Bool}
    (hupdate : u.update nsort exchanged now accepts = some v) : v.FirstOnly := by
  obtain ⟨pushed, hm, hjobs⟩ := update_jobs hupdate
  have hmappings : ∀ job ∈ u.mappingsJobs, Formed u.manager job.toPushedJob :=
    fun job hjob => hformed job (mem_jobs_of_mappingsJobs hjob)
  have hloaded := (StreamRequestManager.update_loaded hmappings hm).2
  obtain ⟨-, slots, -, rfl, -⟩ := StreamRequestManager.update_pushed hm
  have hcheck := u.manager.checkMappingsFile_cases now
  constructor
  · intro k hk
    rw [hloaded, Option.or_eq_some_iff] at hk
    rcases hk with hlast | ⟨-, hkept⟩
    · obtain ⟨job, hjob, htable⟩ := List.mem_filterMap.mp (List.mem_of_getLast? hlast)
      exact h.table (mem_jobs_of_mappingsJobs hjob) htable
    · rcases hcheck with heq | ⟨k', -, heq⟩ <;> rw [heq] at hkept
      · exact h.loaded k hkept
      · cases hkept
  · intro k hk
    rcases List.mem_append.mp ((carried_update hformed hjobs).mem_iff.mp hk) with hnew | hold
    · obtain ⟨job, hjob, htable⟩ := List.mem_filterMap.mp hnew
      rcases List.mem_append.mp ((accepted_sublist accepts _).subset hjob) with hmap | hreq
      · rcases hcheck with heq | ⟨k', hk', heq⟩ <;> rw [heq] at hmap
        · exact absurd hmap List.not_mem_nil
        · rw [List.mem_singleton.mp hmap] at htable
          exact h.loaded k (hk'.trans htable)
      · obtain ⟨i, -, rfl⟩ := List.mem_map.mp hreq
        cases htable
    · obtain ⟨job, hjob, htable⟩ := List.mem_filterMap.mp hold
      exact h.table (List.mem_append_left _ hjob) htable

theorem FirstOnly.step (h : u.FirstOnly) (hformed : u.WellFormed) {a : Action}
    (hstep : System.step nsort parse exchanged u a = some v) : v.FirstOnly := by
  cases a with
  | push userId streamId mmfileSize mmfile =>
      obtain ⟨m, hpush, rfl⟩ := Option.map_eq_some_iff.mp hstep
      refine h.of_perm ?_ (.refl _)
      rcases StreamRequestManager.push_eq_some hpush with ⟨-, rfl⟩ |
        ⟨i, free, active, req, mappings, -, -, -, -, -, rfl⟩ <;> rfl
  | pop =>
      obtain ⟨⟨result, m⟩, hpop, rfl⟩ := Option.map_eq_some_iff.mp hstep
      refine h.of_perm ?_ (.refl _)
      rcases StreamRequestManager.pop_eq_some hpop with rfl | ⟨i, done, free, -, -, rfl⟩ <;> rfl
  | update now accepts => exact h.update hformed hstep
  | execute k file created =>
      refine h.of_perm ?_ (execute_jobs hstep)
      obtain ⟨job, w, -, hcall, rfl⟩ := execute_eq_some hstep
      exact (call_frame hcall).2.2
  | complete k =>
      refine h.of_perm ?_ (complete_jobs hstep)
      obtain ⟨job, -, rfl⟩ := complete_eq_some hstep
      rfl

theorem FirstOnly.held_execute (h : u.FirstOnly) (hs : s.HeldBy u.manager) {k : ℕ}
    {file : Option FileView} {created : Option (Option ℕ)}
    (hstep : u.execute parse k file created = some v) :
    ∃ changes s', run (Tables.step nsort parse) s changes = some s' ∧ s'.HeldBy v.manager := by
  obtain ⟨job, w, hjob, hcall, rfl⟩ := execute_eq_some hstep
  have hmem : job ∈ u.jobs :=
    List.mem_append_left _ (List.mem_append_left _ (List.mem_of_getElem? hjob))
  rcases call_eq_some hcall with
    ⟨k', -, -, hfn, hdata, -⟩ | ⟨i, m, filepath, -, -, hrun, rfl⟩
  · have htable : job.table = some k' := by
      rw [PushedJob.table, hfn, hdata]
    obtain rfl := h.table hmem htable
    obtain ⟨⟨channel, jobFn, jobData0, jobData1⟩, userId⟩ := job
    cases hfn
    cases hdata
    obtain ⟨s', hs', h'⟩ := hs.call hcall
    exact ⟨[.load file], s', (run_cons_eq_some _).mpr ⟨s', hs', rfl⟩, h'⟩
  · refine ⟨[], s, rfl, ?_⟩
    obtain ⟨req, mappings, name, -, -, -, ⟨-, rfl⟩ | ⟨mmfile, -, rfl⟩⟩ :=
      streamRequestFn_eq_some hrun
    · exact hs
    · exact hs.of_eq rfl rfl

/-- A step of the manager and its jobs is a number of changes of the tables. -/
theorem FirstOnly.held_step (h : u.FirstOnly) (hformed : u.WellFormed) (hs : s.HeldBy u.manager)
    {a : Action} (hstep : System.step nsort parse exchanged u a = some v) :
    ∃ changes s', run (Tables.step nsort parse) s changes = some s' ∧ s'.HeldBy v.manager := by
  cases a with
  | push userId streamId mmfileSize mmfile =>
      obtain ⟨m, hpush, rfl⟩ := Option.map_eq_some_iff.mp hstep
      refine ⟨[], s, rfl, hs.of_eq ?_ ?_⟩ <;>
      rcases StreamRequestManager.push_eq_some hpush with ⟨-, rfl⟩ |
        ⟨i, free, active, req, mappings, -, -, -, -, -, rfl⟩ <;> rfl
  | pop =>
      obtain ⟨⟨result, m⟩, hpop, rfl⟩ := Option.map_eq_some_iff.mp hstep
      refine ⟨[], s, rfl, hs.of_eq ?_ ?_⟩ <;>
      rcases StreamRequestManager.pop_eq_some hpop with rfl | ⟨i, done, free, -, -, rfl⟩ <;> rfl
  | update now accepts =>
      obtain ⟨pushed, hm, -⟩ := update_jobs hstep
      obtain ⟨n, n', hn, hcollect, hafter⟩ := hs.update hm
      have hmappings : ∀ job ∈ u.mappingsJobs, Formed u.manager job.toPushedJob :=
        fun job hjob => hformed job (mem_jobs_of_mappingsJobs hjob)
      have hfirst : ∀ job ∈ u.mappingsJobs, ∀ k, job.table = some k → k = 0 :=
        fun job hjob k hk => h.table (mem_jobs_of_mappingsJobs hjob) hk
      obtain ⟨s', hs', h'⟩ := hn.run_collectMappings hmappings hfirst hcollect
      exact ⟨_, s', hs', hafter s' h'⟩
  | execute k file created => exact h.held_execute hs hstep
  | complete k =>
      obtain ⟨job, -, rfl⟩ := complete_eq_some hstep
      exact ⟨[], s, rfl, hs⟩

theorem FirstOnly.held_run (h : u.FirstOnly) (hformed : u.WellFormed) (hs : s.HeldBy u.manager)
    {as : List Action} (hrun : run (System.step nsort parse exchanged) u as = some v) :
    ∃ changes s', run (Tables.step nsort parse) s changes = some s' ∧ s'.HeldBy v.manager := by
  induction as generalizing u s with
  | nil =>
      cases hrun
      exact ⟨[], s, rfl, hs⟩
  | cons a as ih =>
      obtain ⟨w, hw, hrest⟩ := (run_cons_eq_some _).mp hrun
      obtain ⟨changes, s₁, hs₁, h₁⟩ := h.held_step hformed hs hw
      obtain ⟨changes', s', hs', h'⟩ := ih (h.step hformed hw) (hformed.step hw) h₁ hrest
      exact ⟨changes ++ changes', s', (run_append_eq_some _).mpr ⟨s₁, hs₁, hs'⟩, h'⟩

/-- The tables after any run of a new manager with its jobs are those after some loads and
merges. -/
theorem tables_of_run {maxPathLen : ℕ} {mappingsChannel streamRequestChannel : ℤ} {now : Binary64}
    {streamsBasepath mappingsFilepath : List UInt8} {versions : ℕ → ℤ} {sorted : ℕ → ℕ → ℤ}
    {as : List Action}
    (hrun : run (System.step nsort parse exchanged) (idle (createStreamRequestManager maxPathLen
      mappingsChannel streamRequestChannel now streamsBasepath mappingsFilepath versions sorted))
      as = some u) :
    ∃ changes s, run (Tables.step nsort parse) (Tables.new mappingsFilepath versions sorted)
      changes = some s ∧ s.HeldBy u.manager := by
  have hfirst : FirstOnly (idle (createStreamRequestManager maxPathLen mappingsChannel
      streamRequestChannel now streamsBasepath mappingsFilepath versions sorted)) :=
    ⟨fun k hk => (Option.some.inj hk).symm, fun k hk => absurd hk List.not_mem_nil⟩
  exact hfirst.held_run (wellFormed_idle _) (Tables.heldBy_new _ _ _ _ _ _ _ _) hrun

end System

end StreamRequest

end ConArtist
