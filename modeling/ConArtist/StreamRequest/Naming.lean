import ConArtist.StreamRequest.Resubmission

/-!
# The name that a request job uses

The number of a mapping is stored with its request when the job is submitted, and the job
looks the name up when it runs. Entries of the mappings stay where they are, so the number
is still good, unless a push has taken the slot for another request meanwhile. It is the
number of an entry at all when the search came upon one: a merge takes cells of
`m_mappings_sorted` into use that it does not write, and a number in them may pass for the
entry of a request when the requests are looked up.
-/

namespace ConArtist

namespace StreamRequest

open Machine StreamRequestManager

namespace StreamMappings

variable {nsort : Nsort} {t t' loaded : StreamMappings}

theorem Extends.of_mergeLoaded (hmerge : t.mergeLoaded nsort loaded = some t') : Extends t t' := by
  obtain ⟨merged, hmerged, hsort⟩ := mergeLoaded_eq_some hmerge
  obtain ⟨hextends, -, -⟩ := merge_eq_some hmerged
  rcases hsort with rfl | hsort
  · exact hextends
  · obtain ⟨sorted, -, rfl⟩ := sortMappings_eq_some hsort
    exact hextends.trans ⟨le_rfl, fun _ _ => rfl, fun _ _ => rfl⟩

end StreamMappings

namespace StreamRequestManager

variable {nsort : Nsort} {m m' : StreamRequestManager} {i : ℕ} {userId : UInt64}

/-- No cell of `m_mappings_sorted` in use passes for the entry of the request without being
that of an entry. -/
def FindsEntry (m : StreamRequestManager) (i : ℕ) : Prop :=
  ∀ req mappings, m.requests[i]? = some req → req.mmfile = none →
    m.buffers[m.mappings]? = some mappings → ∀ k : ℕ, (k : ℤ) ∈ mappings.index →
      mappings.mappingIds[k]? = some req.userId → k < mappings.mappingsSize

/-- The number stored with a request of the user is that of an entry of the user. -/
def Named (m : StreamRequestManager) (i : ℕ) (userId : UInt64) : Prop :=
  ∃ req mappings, ∃ k : ℕ, m.requests[i]? = some req ∧ req.userId = userId ∧
    m.buffers[m.mappings]? = some mappings ∧ req.mappingIndex = k ∧ k < mappings.mappingsSize ∧
    mappings.mappingIds[k]? = some userId

theorem Named.of_extends (h : m.Named i userId) (hrequests : m'.requests[i]? = m.requests[i]?)
    (hmappings : ∀ mappings, m.buffers[m.mappings]? = some mappings →
      ∃ mappings', m'.buffers[m'.mappings]? = some mappings' ∧ mappings.Extends mappings') :
    m'.Named i userId := by
  obtain ⟨req, mappings, k, hreq, huser, hbuffer, hindex, hk, hid⟩ := h
  obtain ⟨mappings', hbuffer', hextends⟩ := hmappings mappings hbuffer
  exact ⟨req, mappings', k, hrequests.trans hreq, huser, hbuffer', hindex,
    hk.trans_le hextends.size_le, (hextends.ids k hk).trans hid⟩

theorem Named.of_eq (h : m.Named i userId) (hrequests : m'.requests[i]? = m.requests[i]?)
    (hbuffer : m'.buffers[m'.mappings]? = m.buffers[m.mappings]?) : m'.Named i userId :=
  h.of_extends hrequests fun mappings hmappings => ⟨mappings, hbuffer.trans hmappings, .refl _⟩

theorem checkMappingsFile_contents (m : StreamRequestManager) (now : Binary64) :
    (m.checkMappingsFile now).1.requests = m.requests ∧
      (m.checkMappingsFile now).1.buffers = m.buffers ∧
      (m.checkMappingsFile now).1.mappings = m.mappings := by
  rcases m.checkMappingsFile_cases now with h | ⟨k, -, h⟩ <;> rw [h] <;> exact ⟨rfl, rfl, rfl⟩

theorem Named.collectMappings (h : m.Named i userId) {job : JobData × JobData}
    (hcollect : m.collectMappings nsort job = some m') : m'.Named i userId := by
  obtain ⟨k, loaded, mappings, merged, -, -, hmappings, hmerge, rfl⟩ :=
    collectMappings_eq_some hcollect
  have hlt := (List.getElem?_eq_some_iff.mp hmappings).1
  refine h.of_extends rfl fun t ht => ⟨merged, List.getElem?_set_self hlt, ?_⟩
  obtain rfl : mappings = t := Option.some.inj (hmappings.symm.trans ht)
  exact .of_mergeLoaded hmerge

/-- A request keeps its user and its file when another one, or it itself, is looked up. -/
theorem FindsEntry.processRequest (h : m.FindsEntry i) {j : ℕ} {jobs : List PushedJob}
    (hprocess : m.processRequest j = some (m', jobs)) : m'.FindsEntry i := by
  rcases processRequest_eq_some hprocess with
    ⟨rfl, rfl⟩ | ⟨req, mappings, index, hreq, -, -, -, -, rfl, rfl⟩
  · exact h
  · intro req' mappings' hreq' hmmfile hmappings' k hk hid
    by_cases heq : j = i
    · subst heq
      have hlt := (List.getElem?_eq_some_iff.mp hreq).1
      obtain rfl := Option.some.inj ((List.getElem?_set_self hlt).symm.trans hreq')
      exact h req mappings' hreq hmmfile hmappings' k hk hid
    · exact h req' mappings' ((List.getElem?_set_ne heq).symm.trans hreq') hmmfile hmappings' k
        hk hid

theorem FindsEntry.named (h : m.FindsEntry i) {jobs : List PushedJob}
    (hprocess : m.processRequest i = some (m', jobs)) :
    (∀ j userId, m.Named j userId → m'.Named j userId) ∧
      ∀ job ∈ jobs, ∀ j, job.slot = some j → ∃ userId, m'.Named j userId := by
  rcases processRequest_eq_some hprocess with
    ⟨rfl, rfl⟩ | ⟨req, mappings, index, hreq, hmmfile, hmappings, hfound, hle, rfl, rfl⟩
  · exact ⟨fun _ _ hnamed => hnamed, fun job hjob => absurd hjob List.not_mem_nil⟩
  · obtain ⟨hfetch, hmem⟩ := StreamMappings.id_of_findMapping hfound hle
    obtain ⟨k, rfl, hid⟩ := fetch_eq_some.mp hfetch
    have hk := h req mappings hreq hmmfile hmappings k hmem hid
    have hlt := (List.getElem?_eq_some_iff.mp hreq).1
    -- the request itself is named now, with the user id that it had
    have hself : Named { m with requests := m.requests.set i { req with
        mappingIndex := (k : ℤ)
        version := mappings.version } } i req.userId :=
      ⟨_, mappings, k, List.getElem?_set_self hlt, rfl, hmappings, rfl, hk, hid⟩
    refine ⟨fun j userId hnamed => ?_, fun job hjob j hj => ?_⟩
    · by_cases heq : i = j
      · subst heq
        obtain ⟨req', -, -, hreq', huser, -⟩ := hnamed
        obtain rfl : req = req' := Option.some.inj (hreq.symm.trans hreq')
        exact huser ▸ hself
      · exact hnamed.of_eq (List.getElem?_set_ne heq) rfl
    · rw [List.mem_singleton.mp hjob] at hj
      obtain rfl : i = j := Option.some.inj hj
      exact ⟨_, hself⟩

theorem named_of_processRequests {is : List ℕ} (h : ∀ i ∈ is, m.FindsEntry i)
    {jobs : List PushedJob} (hprocess : m.processRequests is = some (m', jobs)) :
    (∀ j userId, m.Named j userId → m'.Named j userId) ∧
      ∀ job ∈ jobs, ∀ j, job.slot = some j → ∃ userId, m'.Named j userId := by
  induction is generalizing m jobs with
  | nil =>
      cases hprocess
      exact ⟨fun _ _ hnamed => hnamed, fun job hjob => absurd hjob List.not_mem_nil⟩
  | cons i is ih =>
      rw [StreamRequestManager.processRequests] at hprocess
      obtain ⟨⟨n, jobs₁⟩, hone, hprocess⟩ := Option.bind_eq_some_iff.mp hprocess
      obtain ⟨⟨n', jobs₂⟩, hrest, hprocess⟩ := Option.bind_eq_some_iff.mp hprocess
      cases hprocess
      obtain ⟨hi, his⟩ := List.forall_mem_cons.mp h
      obtain ⟨hkeep, hnew⟩ := hi.named hone
      obtain ⟨hkeep', hnew'⟩ := ih (fun j hj => (his j hj).processRequest hone) hrest
      refine ⟨fun j userId hnamed => hkeep' j userId (hkeep j userId hnamed), ?_⟩
      intro job hjob j hj
      rcases List.mem_append.mp hjob with hjob | hjob
      · obtain ⟨userId, hnamed⟩ := hnew job hjob j hj
        exact ⟨userId, hkeep' j userId hnamed⟩
      · exact hnew' job hjob j hj

/-- An update names the requests that it submits, and keeps the names of the others. -/
theorem named_of_update {now : Binary64} {mappingsJobs requestJobs : List (JobData × JobData)}
    (h : ∀ n, run (StreamRequestManager.collectMappings nsort) (m.checkMappingsFile now).1
      mappingsJobs = some n → ∀ i ∈ n.activeRequests.items, n.FindsEntry i)
    {jobs : List PushedJob}
    (hupdate : m.update nsort now mappingsJobs requestJobs = some (m', jobs)) :
    (∀ i userId, m.Named i userId → m'.Named i userId) ∧
      ∀ job ∈ jobs, ∀ i, job.slot = some i → ∃ userId, m'.Named i userId := by
  obtain ⟨n, n', jobs', hmappings, hrequests, hactive, rfl⟩ := update_eq_some hupdate
  obtain ⟨hcheckRequests, hcheckBuffers, hcheckMappings⟩ := m.checkMappingsFile_contents now
  have hcheck : (m.checkMappingsFile now).1.buffers[(m.checkMappingsFile now).1.mappings]? =
      m.buffers[m.mappings]? := by
    rw [hcheckBuffers, hcheckMappings]
  have hn : ∀ i userId, m.Named i userId → n.Named i userId := by
    refine run_invariant (I := fun u => ∀ i userId, m.Named i userId → u.Named i userId) _
      (fun u job u' hu hcollect i userId hnamed => ?_) _
      (fun i userId hnamed => hnamed.of_eq (by rw [hcheckRequests]) hcheck) hmappings
    exact (hu i userId hnamed).collectMappings hcollect
  -- a request job that is collected is taken note of, and nothing else
  obtain ⟨done, rfl⟩ : ∃ done, n' = { n with doneRequests := done } := by
    refine run_invariant (I := fun u => ∃ done, u = { n with doneRequests := done }) _
      (fun u job u' hu hcollect => ?_) _ ⟨n.doneRequests, rfl⟩ hrequests
    obtain ⟨done, rfl⟩ := hu
    obtain ⟨i, done', -, -, rfl⟩ := collectRequest_eq_some hcollect
    exact ⟨done', rfl⟩
  obtain ⟨hkeep, hnew⟩ := named_of_processRequests (m := { n with doneRequests := done })
    (h n hmappings) hactive
  refine ⟨fun i userId hnamed => hkeep i userId ((hn i userId hnamed).of_eq rfl rfl), ?_⟩
  intro job hjob i hi
  rcases List.mem_append.mp hjob with hjob | hjob
  · rcases m.checkMappingsFile_cases now with heq | ⟨k, -, heq⟩ <;> rw [heq] at hjob
    · exact absurd hjob List.not_mem_nil
    · rw [List.mem_singleton.mp hjob] at hi
      cases hi
  · exact hnew job hjob i hi

end StreamRequestManager

namespace System

variable {nsort : Nsort} {parse : Parser} {exchanged : Bool} {s t : System}

/-- A push takes no slot whose request waits for its job. -/
def TakesIdleSlot (s : System) : Action → Prop
  | .push _ _ _ _ => 0 < s.manager.freeRequests.size → ∀ i free,
      s.manager.freeRequests.pop = some (i, free) → ∀ job ∈ s.waiting, job.slot ≠ some i
  | _ => True

/-- When an update looks up the active requests, the finished mappings jobs merged, no cell of
`m_mappings_sorted` in use passes for the entry of one of them without being that of an
entry. -/
def FindsEntries (nsort : Nsort) (exchanged : Bool) (s : System) : Action → Prop
  | .update now _ => ∀ m, run (collectMappings nsort) (s.manager.checkMappingsFile now).1
      (s.mappingsJobs.map fun job => job.handBack exchanged) = some m →
        ∀ i ∈ m.activeRequests.items, m.FindsEntry i
  | _ => True

/-- No job writes to the mappings, and the requests of the jobs that wait are named. -/
structure Ready (s : System) : Prop where
  formed : s.WellFormed
  loaded : s.manager.loadedMappings ≠ some s.manager.mappings
  carried : s.manager.mappings ∉ s.carried
  named : ∀ job ∈ s.waiting, ∀ i, job.slot = some i →
    ∃ userId, job.userId = some userId ∧ s.manager.Named i userId

theorem Ready.push (h : s.Ready) {userId : UInt64} {streamId : UInt32} {mmfileSize : UInt64}
    {mmfile : Option ℕ} (hidle : TakesIdleSlot s (.push userId streamId mmfileSize mmfile))
    (hstep : step nsort parse exchanged s (.push userId streamId mmfileSize mmfile) = some t) :
    t.Ready := by
  have hformed := h.formed.step hstep
  obtain ⟨m, hpush, rfl⟩ := Option.map_eq_some_iff.mp hstep
  rcases push_eq_some hpush with
    ⟨-, rfl⟩ | ⟨i, free, active, req, mappings, hpos, hpop, -, -, -, rfl⟩
  · exact h
  · refine ⟨hformed, h.loaded, h.carried, fun job hjob j hj => ?_⟩
    obtain ⟨userId, huser, hnamed⟩ := h.named job hjob j hj
    have hne : i ≠ j := by
      rintro rfl
      exact hidle hpos i free hpop job hjob hj
    exact ⟨userId, huser, hnamed.of_eq (List.getElem?_set_ne hne) rfl⟩

theorem Ready.pop (h : s.Ready) (hstep : step nsort parse exchanged s .pop = some t) : t.Ready := by
  have hformed := h.formed.step hstep
  obtain ⟨⟨result, m⟩, hpop, rfl⟩ := Option.map_eq_some_iff.mp hstep
  rcases pop_eq_some hpop with rfl | ⟨i, done, free, -, -, rfl⟩
  · exact h
  · refine ⟨hformed, h.loaded, h.carried, fun job hjob j hj => ?_⟩
    obtain ⟨userId, huser, hnamed⟩ := h.named job hjob j hj
    exact ⟨userId, huser, hnamed.of_eq rfl rfl⟩

theorem Ready.complete (h : s.Ready) {k : ℕ}
    (hstep : step nsort parse exchanged s (.complete k) = some t) : t.Ready := by
  have hformed := h.formed.step hstep
  have hcarried : t.carried.Perm s.carried := (complete_jobs hstep).filterMap _
  obtain ⟨job, -, rfl⟩ := complete_eq_some hstep
  exact ⟨hformed, h.loaded, fun hmem => h.carried (hcarried.subset hmem), h.named⟩

theorem Ready.execute (h : s.Ready) {k : ℕ} {file : Option FileView}
    {created : Option (Option ℕ)}
    (hstep : step nsort parse exchanged s (.execute k file created) = some t) : t.Ready := by
  have hformed := h.formed.step hstep
  have hcarried : t.carried.Perm s.carried := (execute_jobs hstep).filterMap _
  obtain ⟨job, u, hjob, hcall, rfl⟩ := execute_eq_some hstep
  obtain ⟨hframe, -, hloaded⟩ := call_frame hcall
  -- the job writes into another table, or sets the file of a request
  have hkeep : ∀ i userId, s.manager.Named i userId → u.manager.Named i userId := by
    rcases call_eq_some hcall with
      ⟨k', mappings, loaded, hfn, hdata, -, -, rfl⟩ | ⟨i, m, filepath, -, -, hrun, rfl⟩
    · have hne : k' ≠ s.manager.mappings := by
        rintro rfl
        refine h.carried (List.mem_filterMap.mpr ⟨job, ?_, ?_⟩)
        · exact List.mem_append_left _ (List.mem_append_left _ (List.mem_of_getElem? hjob))
        · rw [PushedJob.table, hfn, hdata]
      exact fun i userId hnamed => hnamed.of_eq rfl (List.getElem?_set_ne hne)
    · obtain ⟨req, mappings, name, hreq, -, -, ⟨-, rfl⟩ | ⟨mmfile, -, rfl⟩⟩ :=
        streamRequestFn_eq_some hrun
      · exact fun _ _ hnamed => hnamed
      · intro j userId hnamed
        by_cases heq : i = j
        · subst heq
          obtain ⟨req', mappings', index, hreq', huser, hrest⟩ := hnamed
          obtain rfl : req = req' := Option.some.inj (hreq.symm.trans hreq')
          have hlt := (List.getElem?_eq_some_iff.mp hreq).1
          exact ⟨_, mappings', index, List.getElem?_set_self hlt, huser, hrest⟩
        · exact hnamed.of_eq (List.getElem?_set_ne heq) rfl
  refine ⟨hformed, ?_, ?_, fun job' hjob' i hi => ?_⟩
  · dsimp only
    rw [hloaded, hframe.mappings]
    exact h.loaded
  · dsimp only
    rw [hframe.mappings]
    exact fun hmem => h.carried (hcarried.subset hmem)
  · obtain ⟨userId, huser, hnamed⟩ := h.named job' (List.mem_of_mem_eraseIdx hjob') i hi
    exact ⟨userId, huser, hkeep i userId hnamed⟩

theorem Ready.update (h : s.Ready) {now : Binary64} {accepts : ℕ → Bool}
    (hfinds : FindsEntries nsort exchanged s (.update now accepts))
    (hstep : step nsort parse exchanged s (.update now accepts) = some t) : t.Ready := by
  have hformed := h.formed.step hstep
  have hframe := step_frame hstep
  obtain ⟨pushed, hm, hjobs⟩ := update_jobs hstep
  obtain ⟨pushed', hm', hwaiting, -⟩ := update_eq_some hstep
  obtain rfl : pushed = pushed' := (Prod.mk.inj (Option.some.inj (hm.symm.trans hm'))).2
  obtain ⟨hkeep, hnew⟩ := named_of_update hfinds hm
  have hmappings : ∀ job ∈ s.mappingsJobs, Formed s.manager job.toPushedJob := fun job hjob =>
    h.formed job (List.mem_append_right _ (List.mem_of_mem_filter hjob))
  obtain ⟨-, hloaded⟩ := StreamRequestManager.update_loaded hmappings hm
  have hbefore := carried_perm h.formed
  have hafter := carried_update h.formed hjobs
  refine ⟨hformed, ?_, ?_, ?_⟩
  · rw [hloaded, hframe.mappings]
    intro heq
    rcases Option.or_eq_some_iff.mp heq with hlast | ⟨-, hcheck⟩
    · exact h.carried (hbefore.mem_iff.mpr
        (List.mem_append_right _ (List.mem_of_getLast? hlast)))
    · rcases s.manager.checkMappingsFile_cases now with hc | ⟨k, -, hc⟩ <;> rw [hc] at hcheck
      · exact h.loaded hcheck
      · cases hcheck
  · rw [hframe.mappings]
    intro hmem
    rcases List.mem_append.mp (hafter.mem_iff.mp hmem) with hmem | hmem
    · -- the table that is given away is the loaded one
      obtain ⟨job, hjob, htable⟩ := List.mem_filterMap.mp hmem
      obtain ⟨-, slots, -, hpushed, -⟩ := StreamRequestManager.update_pushed hm
      have hjob := (accepted_sublist accepts pushed).subset hjob
      rw [hpushed] at hjob
      rcases List.mem_append.mp hjob with hjob | hjob
      · rcases s.manager.checkMappingsFile_cases now with hc | ⟨k, hk, hc⟩ <;> rw [hc] at hjob
        · exact absurd hjob List.not_mem_nil
        · rw [List.mem_singleton.mp hjob] at htable
          exact h.loaded (hk.trans htable)
      · obtain ⟨i, -, rfl⟩ := List.mem_map.mp hjob
        cases htable
    · exact h.carried (hbefore.mem_iff.mpr (List.mem_append_left _ hmem))
  · intro job hjob i hi
    rw [hwaiting] at hjob
    rcases List.mem_append.mp hjob with hjob | hjob
    · obtain ⟨userId, huser, hnamed⟩ := h.named job hjob i hi
      exact ⟨userId, huser, hkeep i userId hnamed⟩
    · obtain ⟨job, hmem, rfl⟩ := List.mem_map.mp hjob
      obtain ⟨userId, hnamed⟩ := hnew job ((accepted_sublist accepts pushed).subset hmem) i hi
      refine ⟨userId, ?_, hnamed⟩
      obtain ⟨req, -, -, hreq, huser, -⟩ := hnamed
      have hslot : job.slot = some i := hi
      rw [record, hslot, Option.bind_some, hreq, Option.map_some, huser]

theorem Ready.step (h : s.Ready) {a : Action} (hidle : TakesIdleSlot s a)
    (hfinds : FindsEntries nsort exchanged s a)
    (hstep : System.step nsort parse exchanged s a = some t) : t.Ready := by
  cases a with
  | push userId streamId mmfileSize mmfile => exact h.push hidle hstep
  | pop => exact h.pop hstep
  | update now accepts => exact h.update hfinds hstep
  | execute k file created => exact h.execute hstep
  | complete k => exact h.complete hstep

end System

end StreamRequest

end ConArtist
