import ConArtist.StreamRequest.Collecting

/-!
# What becomes of a created manager

A manager that `create_stream_request_manager` has made is left without a free slot, and gives its
second table to the first mappings job. Together with its jobs it goes on so: no request becomes
active, no job for a request is ever submitted and no file is created, whatever is pushed and
whatever the mappings file says. There is one mappings job at a time at most. Where its pointers
come back as they were pushed, no update gets past it once it is completed, and the mappings stay as
they were created.
-/

namespace ConArtist

namespace StreamRequest

open Machine StreamRequestManager

namespace System

variable {nsort : Nsort} {parse : Parser} {exchanged : Bool} {s t : System} {channel : ℤ}
  {table : StreamMappings}

/-- The mappings job of a manager, with its second table. -/
def reload (channel : ℤ) : Job := ⟨⟨channel, .updateMappingsJobFn, .mappings 0, .null⟩, none⟩

/-- What the runs of a created manager keep. The second table is with the manager, with the one
job, or with no one. -/
structure Barren (channel : ℤ) (s : System) : Prop where
  bare : s.manager.Bare
  active : s.manager.activeRequests.size = 0
  mappings : s.manager.mappings = 1
  mappingsChannel : s.manager.mappingsChannel = channel
  jobs : s.jobs = [] ∨ s.jobs = [reload channel] ∧ s.manager.loadedMappings = none
  loaded : ∀ k, s.manager.loadedMappings = some k → k = 0
  submitted : s.submitted = []
  created : s.created = []

/-- No request is active or done, none was ever submitted and no file was created; there is one
mappings job at most. When its pointers come back as they were pushed, no update gets past it, and
nothing is merged. -/
structure ServesNone (nsort : Nsort) (exchanged : Bool) (channel : ℤ) (table : StreamMappings)
    (s : System) : Prop where
  active : s.manager.activeRequests.items = []
  done : s.manager.doneRequests.items = []
  submitted : s.submitted = []
  created : s.created = []
  jobs : s.jobs = [] ∨ s.jobs = [reload channel]
  mappings : exchanged = false → s.manager.buffers[s.manager.mappings]? = some table
  stuck : exchanged = false → s.completed ≠ [] →
    ∀ now accepts, s.update nsort exchanged now accepts = none

theorem jobs_of_perm {P : Prop} {job : Job} {before after : List Job}
    (h : before = [] ∨ before = [job] ∧ P) (hperm : after.Perm before) :
    after = [] ∨ after = [job] ∧ P := by
  rcases h with rfl | ⟨rfl, hP⟩
  · exact .inl (List.perm_nil.mp hperm)
  · exact .inr ⟨List.perm_singleton.mp hperm, hP⟩

theorem Barren.active_items (h : Barren channel s) : s.manager.activeRequests.items = [] := by
  rw [Slots.items, h.active, List.take_zero]

theorem Barren.mem_jobs (h : Barren channel s) {job : Job} (hjob : job ∈ s.jobs) :
    job = reload channel := by
  rcases h.jobs with hjobs | ⟨hjobs, -⟩
  · exact absurd (hjobs ▸ hjob) List.not_mem_nil
  · exact List.mem_singleton.mp (hjobs ▸ hjob)

theorem Barren.otherJobs (h : Barren channel s) : s.otherJobs = [] := by
  refine List.filter_eq_nil_iff.mpr fun job hjob => ?_
  rw [h.mem_jobs (List.mem_append_right _ hjob), h.mappingsChannel]
  simp [reload]

theorem Barren.mappingsJobs (h : Barren channel s) : s.mappingsJobs = s.completed := by
  refine List.filter_eq_self.mpr fun job hjob => ?_
  rw [h.mem_jobs (List.mem_append_right _ hjob), h.mappingsChannel]
  exact decide_eq_true rfl

theorem Barren.update_eq_some (h : Barren channel s) {now : Binary64} {accepts : ℕ → Bool}
    (hupdate : s.update nsort exchanged now accepts = some t) :
    run (collectMappings nsort) (s.manager.checkMappingsFile now).1
        (s.completed.map fun job => job.handBack exchanged) = some t.manager ∧
      t.jobs.Perm ((accepted accepts (s.manager.checkMappingsFile now).2).map
        (record t.manager) ++ (s.waiting ++ s.executed)) ∧
      t.submitted = [] ∧ t.created = [] := by
  obtain ⟨pushed, hm, hjobs⟩ := update_jobs hupdate
  obtain ⟨pushed', hm', -, -, -, hsubmitted, hcreated⟩ := System.update_eq_some hupdate
  obtain rfl : pushed' = pushed := (Prod.mk.inj (Option.some.inj (hm'.symm.trans hm))).2
  have hslots := StreamRequestManager.update_pushed hm
  rw [h.active_items] at hslots
  obtain ⟨-, slots, hsublist, hpushed, -⟩ := hslots
  obtain rfl : slots = [] := List.sublist_nil.mp hsublist
  rw [List.map_nil, List.append_nil] at hpushed
  obtain ⟨n, n', jobs', hmappings, hrequests, hactive, -⟩ :=
    StreamRequestManager.update_eq_some hm
  rw [h.mappingsJobs] at hmappings
  rw [requestJobs, h.otherJobs] at hrequests
  cases hrequests
  -- no request is active, so the last loop does nothing
  have hn : n.activeRequests.items = [] := by
    have hsame : s.manager.SameShape n := run_invariant _ (fun _ _ _ hsame hcollect =>
      hsame.trans (collectMappings_shape hcollect)) _
      (s.manager.checkMappingsFile_shape now) hmappings
    rw [hsame.active, h.active_items]
  rw [hn] at hactive
  cases hactive
  refine ⟨hmappings, ?_, ?_, hcreated.trans h.created⟩
  · rw [← hpushed]
    rw [h.otherJobs, offChannel, List.filter_nil, List.append_nil] at hjobs
    exact hjobs
  · rw [hsubmitted, h.submitted, List.nil_append, hpushed]
    refine List.filterMap_eq_nil_iff.mpr fun job hjob => ?_
    have hmem := (accepted_sublist accepts _).subset hjob
    rcases s.manager.checkMappingsFile_cases now with heq | ⟨k, -, heq⟩ <;> rw [heq] at hmem
    · exact absurd hmem List.not_mem_nil
    · rw [List.mem_singleton.mp hmem]
      rfl

theorem Barren.completed_eq (h : Barren channel s) (hcompleted : s.completed ≠ []) :
    s.waiting = [] ∧ s.executed = [] ∧ s.completed = [reload channel] ∧
      s.manager.loadedMappings = none := by
  rcases h.jobs with hjobs | ⟨hjobs, hloaded⟩
  · exact absurd (List.append_eq_nil_iff.mp hjobs).2 hcompleted
  · rcases List.append_eq_singleton_iff.mp hjobs with ⟨hbefore, hlast⟩ | ⟨-, hlast⟩
    · obtain ⟨hwaiting, hexecuted⟩ := List.append_eq_nil_iff.mp hbefore
      exact ⟨hwaiting, hexecuted, hlast, hloaded⟩
    · exact absurd hlast hcompleted

/-- Pointers that come back as they were pushed are not taken for a mappings job. -/
theorem Barren.update_stuck (h : Barren channel s) (hcompleted : s.completed ≠ []) (now : Binary64)
    (accepts : ℕ → Bool) : s.update nsort false now accepts = none := by
  by_contra hsome
  obtain ⟨t, hupdate⟩ := Option.ne_none_iff_exists'.mp hsome
  obtain ⟨hrun, -⟩ := h.update_eq_some hupdate
  obtain ⟨-, -, hlast, -⟩ := h.completed_eq hcompleted
  rw [hlast] at hrun
  obtain ⟨m, hcollect, -⟩ := (run_cons_eq_some _).mp hrun
  cases hcollect

theorem Barren.checkMappingsFile (h : Barren channel s) (now : Binary64) :
    (s.manager.checkMappingsFile now).1.buffers = s.manager.buffers ∧
      ((s.manager.checkMappingsFile now).1.loadedMappings = s.manager.loadedMappings ∧
          (s.manager.checkMappingsFile now).2 = [] ∨
        s.jobs = [] ∧ (s.manager.checkMappingsFile now).1.loadedMappings = none ∧
          (s.manager.checkMappingsFile now).2 = [(reload channel).toPushedJob]) := by
  rcases s.manager.checkMappingsFile_cases now with heq | ⟨k, hk, heq⟩ <;> rw [heq]
  · exact ⟨rfl, .inl ⟨rfl, rfl⟩⟩
  · obtain rfl := h.loaded k hk
    refine ⟨rfl, .inr ⟨?_, rfl, by rw [h.mappingsChannel]; rfl⟩⟩
    rcases h.jobs with hjobs | ⟨-, hloaded⟩
    · exact hjobs
    · cases hloaded.symm.trans hk

theorem Barren.update_nil (h : Barren channel s) (hcompleted : s.completed = []) {now : Binary64}
    {accepts : ℕ → Bool} (hupdate : s.update nsort exchanged now accepts = some t) :
    Barren channel t ∧ t.manager.buffers = s.manager.buffers := by
  obtain ⟨hrun, hjobs, hsubmitted, hcreated⟩ := h.update_eq_some hupdate
  rw [hcompleted] at hrun
  have hmanager : (s.manager.checkMappingsFile now).1 = t.manager := Option.some.inj hrun
  have hsame := s.manager.checkMappingsFile_shape now
  have hold : s.jobs = s.waiting ++ s.executed := by
    rw [System.jobs, hcompleted, List.append_nil]
  obtain ⟨hbuffers, hcheck⟩ := h.checkMappingsFile now
  rw [hmanager] at hsame hbuffers hcheck
  refine ⟨{
    bare := h.bare.same hsame.toSameSlots
    active := hsame.active ▸ h.active
    mappings := hsame.mappings.trans h.mappings
    mappingsChannel := hsame.mappingsChannel.trans h.mappingsChannel
    jobs := ?_
    loaded := fun k hk => ?_
    submitted := hsubmitted
    created := hcreated }, hbuffers⟩
  · rcases hcheck with ⟨hloaded, hpushed⟩ | ⟨hnone, hloaded, hpushed⟩
    · rw [hpushed, ← hold] at hjobs
      rw [hloaded]
      exact jobs_of_perm h.jobs hjobs
    · rw [hpushed, ← hold, hnone, List.append_nil, accepted] at hjobs
      split at hjobs
      case isTrue => exact .inr ⟨List.perm_singleton.mp hjobs, hloaded⟩
      case isFalse => exact .inl (List.perm_nil.mp hjobs)
  · rcases hcheck with ⟨hloaded, -⟩ | ⟨-, hloaded, -⟩
    · exact h.loaded k (hloaded.symm.trans hk)
    · cases hloaded.symm.trans hk

theorem Barren.update_cons (h : Barren channel s) (hcompleted : s.completed ≠ []) {now : Binary64}
    {accepts : ℕ → Bool} (hupdate : s.update nsort exchanged now accepts = some t) :
    Barren channel t := by
  obtain ⟨hwaiting, hexecuted, hlast, hloaded⟩ := h.completed_eq hcompleted
  obtain ⟨hrun, hjobs, hsubmitted, hcreated⟩ := h.update_eq_some hupdate
  have hcheck : s.manager.checkMappingsFile now = (s.manager, []) := by
    rw [StreamRequestManager.checkMappingsFile, hloaded]
  rw [hcheck, hwaiting, hexecuted] at hjobs
  rw [hcheck, hlast, List.map_singleton, run_singleton] at hrun
  obtain ⟨k, loaded, mappings, merged, hk, -, -, -, hmanager⟩ := collectMappings_eq_some hrun
  have hzero : k = 0 := by
    cases exchanged with
    | true =>
        cases hk
        rfl
    | false => cases hk
  exact {
    bare := by rw [hmanager]; exact ⟨h.bare.free, h.bare.done⟩
    active := by rw [hmanager]; exact h.active
    mappings := by rw [hmanager]; exact h.mappings
    mappingsChannel := by rw [hmanager]; exact h.mappingsChannel
    jobs := .inl (List.perm_nil.mp hjobs)
    loaded := fun k' hk' => by
      rw [hmanager, hzero] at hk'
      exact (Option.some.inj hk').symm
    submitted := hsubmitted
    created := hcreated }

theorem Barren.execute (h : Barren channel s) {k : ℕ} {file : Option FileView}
    {made : Option (Option ℕ)} (hexecute : s.execute parse k file made = some t) :
    Barren channel t ∧ t.manager.buffers[1]? = s.manager.buffers[1]? := by
  have hperm := execute_jobs hexecute
  obtain ⟨job, u, hjob, hcall, rfl⟩ := execute_eq_some hexecute
  have hmem : job ∈ s.jobs := List.mem_append_left _ (List.mem_append_left _
    (List.mem_of_getElem? hjob))
  obtain rfl := h.mem_jobs hmem
  rcases call_eq_some hcall with
    ⟨k, mappings, loaded, -, hdata, -, -, rfl⟩ | ⟨i, m, filepath, hfn, -, -, -⟩
  · cases hdata
    refine ⟨{
      bare := ⟨h.bare.free, h.bare.done⟩
      active := h.active
      mappings := h.mappings
      mappingsChannel := h.mappingsChannel
      jobs := jobs_of_perm h.jobs hperm
      loaded := h.loaded
      submitted := h.submitted
      created := h.created }, List.getElem?_set_ne (by omega)⟩
  · cases hfn

theorem Barren.complete (h : Barren channel s) {k : ℕ} (hcomplete : s.complete k = some t) :
    Barren channel t ∧ t.manager = s.manager := by
  have hperm := complete_jobs hcomplete
  obtain ⟨job, -, rfl⟩ := complete_eq_some hcomplete
  exact ⟨{
    bare := h.bare
    active := h.active
    mappings := h.mappings
    mappingsChannel := h.mappingsChannel
    jobs := jobs_of_perm h.jobs hperm
    loaded := h.loaded
    submitted := h.submitted
    created := h.created }, rfl⟩

/-- What one step does: the manager stays barren, and the mappings change only in an update that
collects exchanged pointers. -/
theorem Barren.step (h : Barren channel s) {a : Action}
    (hstep : System.step nsort parse exchanged s a = some t) : Barren channel t ∧
      (exchanged = false → t.manager.buffers[1]? = s.manager.buffers[1]?) := by
  cases a with
  | push userId streamId mmfileSize mmfile =>
      rw [System.step, h.bare.push] at hstep
      cases hstep
      exact ⟨h, fun _ => rfl⟩
  | pop =>
      rw [System.step, StreamRequestManager.pop, h.bare.done, if_neg (Nat.lt_irrefl 0)] at hstep
      cases hstep
      exact ⟨h, fun _ => rfl⟩
  | update now accepts =>
      by_cases hcompleted : s.completed = []
      · obtain ⟨hnext, hbuffers⟩ := h.update_nil hcompleted hstep
        exact ⟨hnext, fun _ => by rw [hbuffers]⟩
      · refine ⟨h.update_cons hcompleted hstep, fun hpushed => ?_⟩
        subst hpushed
        cases (h.update_stuck hcompleted now accepts).symm.trans hstep
  | execute k file made =>
      obtain ⟨hnext, hbuffers⟩ := h.execute hstep
      exact ⟨hnext, fun _ => hbuffers⟩
  | complete k =>
      obtain ⟨hnext, hmanager⟩ := h.complete hstep
      exact ⟨hnext, fun _ => by rw [hmanager]⟩

theorem Barren.servesNone (h : Barren channel s)
    (htable : exchanged = false → s.manager.buffers[1]? = some table) :
    ServesNone nsort exchanged channel table s where
  active := h.active_items
  done := by rw [Slots.items, h.bare.done]; rfl
  submitted := h.submitted
  created := h.created
  jobs := h.jobs.imp_right And.left
  mappings := fun hpushed => by rw [h.mappings, htable hpushed]
  stuck := fun hpushed hcompleted => hpushed ▸ h.update_stuck hcompleted

/-- In every run after the creation of a manager, with any requests pushed, any contents of the
mappings file and any outcome of the jobs, no request is active, submitted or done and no file is
created. When the pointers of the jobs come back as they were pushed, the mappings stay empty, and
the first mappings job that is completed is the end of the updates. -/
theorem created_serves_none (nsort : Nsort) (parse : Parser) (exchanged : Bool)
    (maxPathLen : ℕ) (mappingsChannel streamRequestChannel : ℤ) (now : Binary64)
    (basepath filepath : List UInt8) (versions : ℕ → ℤ) (sorted : ℕ → ℕ → ℤ)
    (actions : List Action) :
    Throughout (System.step nsort parse exchanged)
      (ServesNone nsort exchanged mappingsChannel (newMappings filepath (versions 1) (sorted 1)))
      (idle (createStreamRequestManager maxPathLen mappingsChannel streamRequestChannel now basepath
        filepath versions sorted)) actions := by
  refine throughout_of_step (I := fun s => Barren mappingsChannel s ∧ (exchanged = false →
    s.manager.buffers[1]? = some (newMappings filepath (versions 1) (sorted 1))))
    (fun s h => h.1.servesNone h.2) (fun s t a _ h hstep => ?_) ⟨?_, fun _ => rfl⟩
  · obtain ⟨hnext, hsame⟩ := h.1.step hstep
    exact ⟨hnext, fun hpushed => (hsame hpushed).trans (h.2 hpushed)⟩
  · exact {
      bare := ⟨rfl, rfl⟩
      active := rfl
      mappings := rfl
      mappingsChannel := rfl
      jobs := .inl rfl
      loaded := fun k hk => (Option.some.inj hk).symm
      submitted := rfl
      created := rfl }

end System

end StreamRequest

end ConArtist
