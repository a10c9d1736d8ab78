import ConArtist.StreamRequest.Partition
import ConArtist.StreamRequest.Reload

/-!
# Submitting a request twice

An update submits every active request that has no file and a mapping. That a job for the
request was accepted before shows in its file only, which the job sets if it can create it.
When at each update all submitted requests have their files, no request is submitted twice,
no file is created twice, and no slot is done twice.
-/

namespace ConArtist

namespace StreamRequest

open Machine StreamRequestManager

namespace System

variable {nsort : Nsort} {parse : Parser} {exchanged : Bool} {s t : System}

def slots (jobs : List Job) : List ℕ := jobs.filterMap fun job => job.slot

theorem slots_append (xs ys : List Job) : slots (xs ++ ys) = slots xs ++ slots ys :=
  List.filterMap_append

theorem slots_cons_some {job : Job} {jobs : List Job} {i : ℕ} (h : job.slot = some i) :
    slots (job :: jobs) = i :: slots jobs :=
  List.filterMap_cons_some h

theorem slots_map_record (m : StreamRequestManager) (jobs : List PushedJob) :
    slots (jobs.map (record m)) = jobs.filterMap PushedJob.slot := by
  rw [slots, List.filterMap_map]
  rfl

/-- Collecting jobs that updates made succeeds for request jobs only, and appends their slots. -/
theorem run_collectRequest_formed {m₀ m m' : StreamRequestManager} {jobs : List Job}
    (hjobs : ∀ job ∈ jobs, Formed m₀ job.toPushedJob) (hvalid : m.doneRequests.Valid)
    (h : run collectRequest m (jobs.map fun job => job.handBack exchanged) = some m') :
    m'.doneRequests.items = m.doneRequests.items ++ slots jobs ∧ m'.doneRequests.Valid := by
  induction jobs generalizing m with
  | nil =>
      cases h
      exact ⟨(List.append_nil _).symm, hvalid⟩
  | cons job jobs ih =>
      rw [List.map_cons] at h
      obtain ⟨n, hone, hrest⟩ := (run_cons_eq_some _).mp h
      obtain ⟨i, done, hi, hpush, rfl⟩ := collectRequest_eq_some hone
      obtain ⟨hitems, -, hdone, -⟩ := Slots.push_eq_some hvalid hpush
      obtain ⟨hrestItems, hrestValid⟩ :=
        ih (fun job hjob => hjobs job (List.mem_cons_of_mem _ hjob)) hdone hrest
      have hslot : job.slot = some i := by
        obtain ⟨job, userId⟩ := job
        cases hjobs _ List.mem_cons_self with
        | mappings k => cases exchanged <;> cases hi
        | request i' =>
            cases exchanged with
            | true =>
                cases hi
                rfl
            | false => cases hi
      refine ⟨?_, hrestValid⟩
      rw [hrestItems, hitems, List.append_assoc, slots_cons_some hslot]
      rfl

theorem slots_of_tables {m₀ : StreamRequestManager} {jobs : List Job}
    (hjobs : ∀ job ∈ jobs, Formed m₀ job.toPushedJob)
    (h : (jobs.filterMap fun job => job.table).length = jobs.length) : slots jobs = [] := by
  refine List.filterMap_eq_nil_iff.mpr fun job hjob => ?_
  have htable := List.filterMap_length_eq_length.mp h job hjob
  have hformed := hjobs job hjob
  obtain ⟨job, userId⟩ := job
  cases hformed with
  | mappings k => rfl
  | request i => cases htable

theorem perm_slots_completed (hslots : slots s.mappingsJobs = []) :
    (slots s.requestJobs ++ slots (offChannel s.manager.streamRequestChannel s.otherJobs)).Perm
      (slots s.completed) := by
  have hfirst : (slots s.mappingsJobs ++ slots s.otherJobs).Perm (slots s.completed) := by
    rw [← slots_append]
    exact (split_channel s.manager.mappingsChannel s.completed).symm.filterMap fun job => job.slot
  have hsecond : (slots s.requestJobs ++
      slots (offChannel s.manager.streamRequestChannel s.otherJobs)).Perm (slots s.otherJobs) := by
    rw [← slots_append]
    exact (split_channel s.manager.streamRequestChannel s.otherJobs).symm.filterMap
      fun job => job.slot
  rw [hslots, List.nil_append] at hfirst
  exact hsecond.trans hfirst

/-- The slots of the accepted jobs are among those submitted: the job for the mappings file has
none. -/
theorem slots_accepted_sublist (m : StreamRequestManager) (now : Binary64) (accepts : ℕ → Bool)
    (submit : List ℕ) :
    ((accepted accepts ((m.checkMappingsFile now).2 ++ submit.map m.requestJob)).filterMap
      PushedJob.slot).Sublist submit := by
  refine ((accepted_sublist accepts _).filterMap PushedJob.slot).trans ?_
  have hmap : submit.filterMap (PushedJob.slot ∘ m.requestJob) = submit := List.filterMap_some
  rw [List.filterMap_append, List.filterMap_map, hmap]
  rcases m.checkMappingsFile_cases now with heq | ⟨k, -, heq⟩ <;> rw [heq] <;> exact .refl submit

/-- The slots that a step collects go from the jobs to the done list, and those that it
submits to the jobs. -/
theorem update_slots (hformed : s.WellFormed) (hvalid : s.manager.doneRequests.Valid)
    {now : Binary64}
    {accepts : ℕ → Bool} (h : s.update nsort exchanged now accepts = some t) :
    ∃ new collected : List ℕ, new.Sublist s.manager.activeRequests.items ∧
      (∀ i ∈ new, (s.manager.requests[i]?).map Request.mmfile = some none) ∧
      t.submitted = s.submitted ++ new ∧
      slots t.waiting = slots s.waiting ++ new ∧ t.created = s.created ∧
      (slots t.jobs ++ collected).Perm (slots s.jobs ++ new) ∧
      t.manager.doneRequests.items = s.manager.doneRequests.items ++ collected ∧
      t.manager.doneRequests.Valid ∧
      t.manager.activeRequests.items = s.manager.activeRequests.items := by
  obtain ⟨pushed, hm, hwaiting, hexecuted, hcompleted, hsubmitted, hcreated⟩ := update_eq_some h
  obtain ⟨-, submit, hsublist, hpushed, hnone⟩ := StreamRequestManager.update_pushed hm
  have hmappings : ∀ job ∈ s.mappingsJobs, Formed s.manager job.toPushedJob := fun job hjob =>
    hformed job (List.mem_append_right _ (List.mem_of_mem_filter hjob))
  have hrequests : ∀ job ∈ s.requestJobs, Formed s.manager job.toPushedJob := fun job hjob =>
    hformed job (List.mem_append_right _
      (List.mem_of_mem_filter (List.mem_of_mem_filter hjob)))
  obtain ⟨hlength, -⟩ := StreamRequestManager.update_loaded hmappings hm
  obtain ⟨n, n', jobs', hn, hn', hactive, -⟩ := StreamRequestManager.update_eq_some hm
  have hnShape : s.manager.SameShape n := run_invariant _ (fun _ _ _ hsame hcollect =>
    hsame.trans (collectMappings_shape hcollect)) _ (s.manager.checkMappingsFile_shape now) hn
  obtain ⟨hdone, hdoneValid⟩ := run_collectRequest_formed hrequests (hnShape.done ▸ hvalid) hn'
  have hactiveShape := processRequests_shape hactive
  have hn'Active : n'.activeRequests = n.activeRequests :=
    run_invariant (I := fun u => u.activeRequests = n.activeRequests) _
      (fun u job u' hu hcollect => by
        obtain ⟨i, done, -, -, rfl⟩ := collectRequest_eq_some hcollect
        exact hu) _ rfl hn'
  have hnew : ((accepted accepts pushed).filterMap PushedJob.slot).Sublist submit := by
    rw [hpushed]
    exact slots_accepted_sublist s.manager now accepts submit
  have hcompletedPerm := perm_slots_completed (slots_of_tables hmappings hlength)
  refine ⟨(accepted accepts pushed).filterMap PushedJob.slot, slots s.requestJobs,
    hnew.trans hsublist, fun i hi => hnone i (hnew.subset hi), hsubmitted, ?_, hcreated, ?_, ?_, ?_,
    ?_⟩
  · rw [hwaiting, slots_append, slots_map_record]
  · rw [jobs, jobs, hwaiting, hexecuted, hcompleted]
    simp only [slots_append, slots_map_record]
    rw [List.perm_iff_count] at hcompletedPerm ⊢
    intro i
    have hcount := hcompletedPerm i
    simp only [List.count_append] at hcount ⊢
    omega
  · rw [hactiveShape.done, hdone, hnShape.done]
  · rw [hactiveShape.done]
    exact hdoneValid
  · rw [hactiveShape.active, hn'Active, hnShape.active]

/-- No request was submitted twice, had its file created twice or is done twice. -/
structure Once (s : System) : Prop where
  submitted : s.submitted.Nodup
  created : s.created.Nodup
  done : s.manager.doneRequests.items.Nodup

/-- An update or a step of a worker. -/
def UpdateOrWork : Action → Prop
  | .push _ _ _ _ => False
  | .pop => False
  | _ => True

/-- When an update comes, all requests that were submitted have their files. -/
def FilesCreated (s : System) : Action → Prop
  | .update _ _ => ∀ i ∈ s.submitted, (s.manager.requests[i]?).map Request.mmfile ≠ some none
  | _ => True

/-- The slots submitted so far are slots of the active list. Each is with one job or in the
done list, behind the slots that were there before. -/
structure Submitted (active done : List ℕ) (s : System) : Prop where
  formed : s.WellFormed
  valid : s.manager.doneRequests.Valid
  active_items : s.manager.activeRequests.items = active
  submitted : s.submitted.Nodup
  mem_active : ∀ i ∈ s.submitted, i ∈ active
  exists_collected : ∃ collected, s.manager.doneRequests.items = done ++ collected ∧
    (slots s.jobs ++ collected).Perm s.submitted
  created : (s.created ++ slots s.waiting).Nodup
  mem_submitted : ∀ i ∈ s.created, i ∈ s.submitted

variable {active done : List ℕ}

theorem Submitted.once (h : Submitted active done s) (hnodup : (active ++ done).Nodup) :
    Once s := by
  refine ⟨h.submitted, (List.nodup_append.mp h.created).1, ?_⟩
  obtain ⟨collected, hdone, hperm⟩ := h.exists_collected
  have hcollected : ∀ i ∈ collected, i ∈ active := fun i hi =>
    h.mem_active i (hperm.subset (List.mem_append_right _ hi))
  obtain ⟨-, hdoneNodup, hdisjoint⟩ := List.nodup_append.mp hnodup
  rw [hdone]
  refine List.nodup_append.mpr ⟨hdoneNodup, ?_, fun i hi j hj heq => ?_⟩
  · exact (List.nodup_append.mp (hperm.nodup_iff.mpr h.submitted)).2.1
  · exact hdisjoint j (hcollected j hj) i hi heq.symm

theorem Submitted.mem_of_waiting (h : Submitted active done s) {i : ℕ}
    (hi : i ∈ slots s.waiting) : i ∈ s.submitted := by
  obtain ⟨collected, -, hperm⟩ := h.exists_collected
  refine hperm.subset (List.mem_append_left _ ?_)
  rw [jobs, slots_append, slots_append]
  exact List.mem_append_left _ (List.mem_append_left _ hi)

theorem Submitted.update (h : Submitted active done s) (hnodup : active.Nodup) {now : Binary64}
    {accepts : ℕ → Bool} (hfiles : FilesCreated s (.update now accepts))
    (hupdate : step nsort parse exchanged s (.update now accepts) = some t) :
    Submitted active done t := by
  obtain ⟨new, collected, hsublist, hnone, hsubmitted, hwaiting, hcreated, hperm, hdone, hvalid,
    hactive⟩ := update_slots h.formed h.valid hupdate
  rw [h.active_items] at hsublist hactive
  have hnew : ∀ i ∈ new, i ∉ s.submitted := fun i hi hmem => hfiles i hmem (hnone i hi)
  obtain ⟨collected₀, hdone₀, hperm₀⟩ := h.exists_collected
  refine ⟨h.formed.step hupdate, hvalid, hactive, ?_, ?_, ?_, ?_, ?_⟩
  · rw [hsubmitted]
    refine List.nodup_append.mpr ⟨h.submitted, hnodup.sublist hsublist, fun i hi j hj heq => ?_⟩
    exact hnew j hj (heq ▸ hi)
  · intro i hi
    rw [hsubmitted] at hi
    exact (List.mem_append.mp hi).elim (h.mem_active i) fun hi => hsublist.subset hi
  · refine ⟨collected₀ ++ collected, by rw [hdone, hdone₀, List.append_assoc], ?_⟩
    rw [hsubmitted]
    rw [List.perm_iff_count] at hperm hperm₀ ⊢
    intro i
    have hcount := hperm i
    have hcount₀ := hperm₀ i
    simp only [List.count_append] at hcount hcount₀ ⊢
    omega
  · rw [hcreated, hwaiting, ← List.append_assoc]
    refine List.nodup_append.mpr ⟨h.created, hnodup.sublist hsublist, fun i hi j hj heq => ?_⟩
    subst heq
    exact hnew i hj ((List.mem_append.mp hi).elim (h.mem_submitted i) h.mem_of_waiting)
  · intro i hi
    rw [hcreated] at hi
    rw [hsubmitted]
    exact List.mem_append_left _ (h.mem_submitted i hi)

theorem Submitted.execute (h : Submitted active done s) {k : ℕ} {file : Option FileView}
    {created : Option (Option ℕ)}
    (hexecute : step nsort parse exchanged s (.execute k file created) = some t) :
    Submitted active done t := by
  have hformed := h.formed.step hexecute
  have hjobs : (slots t.jobs).Perm (slots s.jobs) := (execute_jobs hexecute).filterMap _
  obtain ⟨job, u, hjob, hcall, rfl⟩ := execute_eq_some hexecute
  obtain ⟨-, hslots, -⟩ := call_frame hcall
  have hsubmitted := (call_jobs hcall).2.2.2
  obtain ⟨collected, hdone, hperm⟩ := h.exists_collected
  have hwaiting : (slots [job] ++ slots (s.waiting.eraseIdx k)).Perm (slots s.waiting) := by
    obtain ⟨hlt, rfl⟩ := List.getElem?_eq_some_iff.mp hjob
    have hcons := (List.getElem_cons_eraseIdx_perm hlt).filterMap fun job => job.slot
    rwa [← List.singleton_append, List.filterMap_append] at hcons
  have hall : (u.created ++ slots (s.waiting.eraseIdx k)).Nodup ∧
      ∀ i ∈ u.created, i ∈ s.submitted := by
    have hbefore : (s.created ++ (slots [job] ++ slots (s.waiting.eraseIdx k))).Nodup :=
      (hwaiting.append_left s.created).nodup_iff.mpr h.created
    have hrest : (s.created ++ slots (s.waiting.eraseIdx k)).Nodup :=
      hbefore.sublist ((List.sublist_append_right _ _).append_left _)
    rcases call_eq_some hcall with
      ⟨k', mappings, loaded, -, -, -, -, rfl⟩ | ⟨i, m, filepath, -, hdata, -, rfl⟩
    · exact ⟨hrest, h.mem_submitted⟩
    · -- the slot of the job goes to those whose file was created, if it was
      have hslot : slots [job] = [i] := slots_cons_some (by rw [PushedJob.slot, hdata])
      rw [hslot] at hbefore hwaiting
      cases created with
      | none => exact ⟨hrest, h.mem_submitted⟩
      | some mmfile =>
          change ((s.created ++ [i]) ++ slots (s.waiting.eraseIdx k)).Nodup ∧
            ∀ j ∈ s.created ++ [i], j ∈ s.submitted
          rw [List.append_assoc]
          refine ⟨hbefore, fun j hj => ?_⟩
          rcases List.mem_append.mp hj with hj | hj
          · exact h.mem_submitted j hj
          · rw [List.mem_singleton.mp hj]
            exact h.mem_of_waiting (hwaiting.subset (List.mem_append_left _ List.mem_cons_self))
  refine ⟨hformed, hslots.done ▸ h.valid, hslots.active ▸ h.active_items, hsubmitted ▸ h.submitted,
    hsubmitted ▸ h.mem_active, ⟨collected, hslots.done ▸ hdone, ?_⟩, hall.1, hsubmitted ▸ hall.2⟩
  exact (hjobs.append_right collected).trans (hsubmitted ▸ hperm)

theorem Submitted.complete (h : Submitted active done s) {k : ℕ}
    (hcomplete : step nsort parse exchanged s (.complete k) = some t) :
    Submitted active done t := by
  have hformed := h.formed.step hcomplete
  have hjobs : (slots t.jobs).Perm (slots s.jobs) := (complete_jobs hcomplete).filterMap _
  obtain ⟨job, hjob, rfl⟩ := complete_eq_some hcomplete
  obtain ⟨collected, hdone, hperm⟩ := h.exists_collected
  exact ⟨hformed, h.valid, h.active_items, h.submitted, h.mem_active,
    ⟨collected, hdone, (hjobs.append_right collected).trans hperm⟩, h.created, h.mem_submitted⟩

theorem submitted_idle {m : StreamRequestManager} (h : m.Partitioned) :
    Submitted m.activeRequests.items m.doneRequests.items (idle m) where
  formed := wellFormed_idle m
  valid := h.done_valid
  active_items := rfl
  submitted := List.nodup_nil
  mem_active := fun _ hi => absurd hi List.not_mem_nil
  exists_collected := ⟨[], (List.append_nil _).symm, .refl _⟩
  created := List.nodup_nil
  mem_submitted := fun _ hi => absurd hi List.not_mem_nil

/-- In a run of updates and steps of workers, from slot lists that partition the slots, no
request is submitted twice, has its file created twice or is done twice, when all submitted
requests have their files whenever an update comes. -/
theorem once_of_filesCreated {m : StreamRequestManager} (hm : m.Partitioned) {as : List Action}
    (has : ∀ a ∈ as, UpdateOrWork a)
    (hfiles : Along (step nsort parse exchanged) FilesCreated (idle m) as) :
    Throughout (step nsort parse exchanged) Once (idle m) as := by
  have hnodup : (m.activeRequests.items ++ m.doneRequests.items).Nodup := by
    have hall := hm.nodup
    rw [List.append_assoc] at hall
    exact (List.nodup_append.mp hall).2.1
  refine throughout_of_along (I := Submitted m.activeRequests.items m.doneRequests.items)
    (fun s h => h.once hnodup) (fun s t a ha h hC hstep => ?_) (submitted_idle hm) hfiles
  cases a with
  | push userId streamId mmfileSize mmfile => exact absurd (has _ ha) id
  | pop => exact absurd (has _ ha) id
  | update now accepts => exact h.update (List.nodup_append.mp hnodup).1 hC hstep
  | execute k file created => exact h.execute hstep
  | complete k => exact h.complete hstep

/-- A manager of two slots, with an active request of the user 5, and with the entry 5 in the
mappings. -/
def requestOfFive (mappingIndex version : ℤ) : StreamRequestManager :=
  { newManager with
    buffers := [newMappings [] 0 fun _ => 0, StreamMappings.tableOfFive]
    requests := [⟨mappingIndex, version, 1, 5, 4096, none⟩, ⟨0, 0, 0, 0, 0, none⟩]
    requestsCapacity := 2
    freeRequests := { cells := some [1, 0], size := 1 }
    activeRequests := { cells := some [0, 0], size := 1 }
    doneRequests := { cells := some [0, 0], size := 0 } }

theorem partitioned_requestOfFive (mappingIndex version : ℤ) :
    (requestOfFive mappingIndex version).Partitioned :=
  ⟨rfl, Nat.one_lt_two, ⟨_, rfl, rfl⟩, ⟨_, rfl, rfl⟩, rfl, rfl, rfl, .swap 0 1 []⟩

theorem findMapping_five : StreamMappings.tableOfFive.findMapping 5 = some 0 := by
  have hids : StreamMappings.tableOfFive.ids = [5] := rfl
  rcases StreamMappings.dictionary_tableOfFive.indexed.findMapping_cases 5 with
    ⟨k, hk, -, hfound⟩ | ⟨hnot, -⟩
  · obtain rfl : k = 0 := Nat.lt_one_iff.mp hk
    exact hfound
  · rw [hids] at hnot
    exact absurd List.mem_cons_self hnot

def jobOfFive : Job := { (requestOfFive 0 0).requestJob 0 with userId := some 5 }

/-- An update pushes the job of the request, whatever is known of it. -/
theorem requestOfFive_pushed (nsort : Nsort) (mappingIndex version : ℤ) :
    (requestOfFive mappingIndex version).update nsort 1 [] [] =
      some (requestOfFive 0 0, [(requestOfFive 0 0).requestJob 0]) := by
  have hcheck : (requestOfFive mappingIndex version).checkMappingsFile 1 =
      (requestOfFive mappingIndex version, []) :=
    StreamRequestManager.checkMappingsFile_of_not_due not_due_one
  have hprocess : (requestOfFive mappingIndex version).processRequest 0 =
      some (requestOfFive 0 0, [(requestOfFive 0 0).requestJob 0]) := by
    change (StreamMappings.tableOfFive.findMapping 5).bind _ = _
    rw [findMapping_five]
    rfl
  rw [StreamRequestManager.update, hcheck]
  change ((requestOfFive mappingIndex version).processRequests [0]).bind _ = _
  rw [processRequests, hprocess]
  rfl

theorem update_requestOfFive (nsort : Nsort) (exchanged : Bool) (mappingIndex version : ℤ)
    (waiting : List Job) (submitted created : List ℕ) :
    System.update nsort exchanged ⟨requestOfFive mappingIndex version, waiting, [], [], submitted,
      created⟩ 1 (fun _ => true) = some ⟨requestOfFive 0 0, waiting ++ [jobOfFive], [], [],
        submitted ++ [0], created⟩ := by
  change ((requestOfFive mappingIndex version).update _ 1 [] []).bind _ = _
  rw [requestOfFive_pushed]
  rfl

set_option maxRecDepth 8000 in
theorem nameAt_five : StreamMappings.tableOfFive.nameAt 0 = some [97] := by
  obtain ⟨rest, hrest⟩ : ∃ rest, StreamMappings.tableOfFive.mappingNames.flatten =
    97 :: 0 :: rest := ⟨_, rfl⟩
  rw [StreamMappings.nameAt, if_pos ⟨le_rfl, by decide⟩]
  simp only [Int.toNat_zero, List.drop_zero, hrest]
  rw [if_pos (List.mem_cons_of_mem _ List.mem_cons_self)]
  rfl

/-- The manager after the file was created. -/
def fileOfFive : StreamRequestManager :=
  { requestOfFive 0 0 with requests := [⟨0, 0, 1, 5, 4096, some 3⟩, ⟨0, 0, 0, 0, 0, none⟩] }

theorem streamRequestFn_five :
    (requestOfFive 0 0).streamRequestFn 0 (some (some 3)) =
      some (fileOfFive, (requestOfFive 0 0).filepath [97]) := by
  have hreq : (requestOfFive 0 0).requests[0]? = some ⟨0, 0, 1, 5, 4096, none⟩ := rfl
  have hmappings : (requestOfFive 0 0).buffers[(requestOfFive 0 0).mappings]? =
      some StreamMappings.tableOfFive := rfl
  simp only [streamRequestFn, hreq, hmappings, nameAt_five, Option.bind_eq_bind, Option.bind_some]
  rfl

theorem execute_jobOfFive (waiting : List Job) (submitted created : List ℕ) :
    step nsort parse exchanged ⟨requestOfFive 0 0, jobOfFive :: waiting, [], [], submitted,
      created⟩ (.execute 0 none (some (some 3))) =
        some ⟨fileOfFive, waiting, [jobOfFive], [], submitted, created ++ [0]⟩ := by
  have hcall (s : System) (hs : s.manager = requestOfFive 0 0) :
      s.call parse jobOfFive.toPushedJob none (some (some 3)) =
        some { s with manager := fileOfFive, created := s.created ++ [0] } := by
    change (s.manager.streamRequestFn 0 (some (some 3))).bind _ = _
    rw [hs, streamRequestFn_five]
    rfl
  rw [step, System.execute]
  simp only [List.getElem?_cons_zero, Option.bind_eq_bind, Option.bind_some]
  rw [hcall _ rfl]
  rfl

/-- The request is submitted, and its file is there before the next update. -/
theorem once_requestOfFive :
    Throughout (step (fun _ indices => some indices) (fun _ => []) true) Once
      (idle (requestOfFive (-1) (-1)))
      [.update 1 fun _ => true, .execute 0 none (some (some 3)), .update 1 fun _ => true] := by
  refine once_of_filesCreated (partitioned_requestOfFive (-1) (-1)) (by simp [UpdateOrWork]) ?_
  have hfirst := update_requestOfFive (fun _ indices => some indices) true (-1) (-1) [] [] []
  refine fun t ht => ⟨fun i hi => absurd hi List.not_mem_nil, fun u hu => ⟨trivial, fun v _ => ?_⟩⟩
  obtain rfl := Option.some.inj (hfirst.symm.trans ht)
  refine ⟨?_, trivial⟩
  obtain rfl := Option.some.inj ((execute_jobOfFive [] [0] []).symm.trans hu)
  intro i hi
  rw [List.mem_singleton.mp hi]
  exact fun h => nomatch h

/-- Two updates before the job has run submit the request twice. -/
theorem submits_twice : (requestOfFive (-1) (-1)).Partitioned ∧ ∀ exchanged,
    run (step (fun _ indices => some indices) (fun _ => []) exchanged)
      (idle (requestOfFive (-1) (-1))) [.update 1 fun _ => true, .update 1 fun _ => true] =
        some ⟨requestOfFive 0 0, [jobOfFive, jobOfFive], [], [], [0, 0], []⟩ ∧
    ¬ Throughout (step (fun _ indices => some indices) (fun _ => []) exchanged) Once
      (idle (requestOfFive (-1) (-1))) [.update 1 fun _ => true, .update 1 fun _ => true] := by
  refine ⟨partitioned_requestOfFive (-1) (-1), fun exchanged => ?_⟩
  have hfirst := update_requestOfFive (fun _ indices => some indices) exchanged (-1) (-1) [] [] []
  have hsecond :=
    update_requestOfFive (fun _ indices => some indices) exchanged 0 0 [jobOfFive] [0] []
  refine ⟨(run_cons_eq_some _).mpr ⟨_, hfirst, (run_cons_eq_some _).mpr ⟨_, hsecond, rfl⟩⟩, ?_⟩
  exact fun h => absurd ((h.2 _ hfirst).2 _ hsecond).submitted (by decide)

end System

end StreamRequest

end ConArtist
