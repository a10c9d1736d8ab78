import ConArtist.StreamRequest.Model

/-!
# Submitting stream requests

A push takes a slot from the free list, and `create_stream_request_manager` leaves that
list empty. Slots come back to it from the done list only, which nothing can enter, as its
array is never allocated. So no push of any run records its request.
-/

namespace ConArtist

namespace StreamRequest

open Machine

/-- What happens to a manager: calls of the three functions, and what the jobs of the
workers write into the tables meanwhile. -/
inductive Operation where
  | push (userId : UInt64) (streamId : UInt32) (mmfileSize : UInt64) (mmfile : Option ℕ)
  | pop
  | update (now : Binary64) (mappingsJobs requestJobs : List (JobData × JobData))
  | worker (k : ℕ) (mappings : StreamMappings)

def step (nsort : Nsort) (m : StreamRequestManager) : Operation → Option StreamRequestManager
  | .push userId streamId mmfileSize mmfile => m.push userId streamId mmfileSize mmfile
  | .pop => m.pop.map Prod.snd
  | .update now mappingsJobs requestJobs =>
      (m.update nsort now mappingsJobs requestJobs).map Prod.fst
  | .worker k mappings => some { m with buffers := m.buffers.set k mappings }

/-- A push appends a slot with its request to the active list. -/
def Records (m : StreamRequestManager) : Operation → Prop
  | .push userId streamId mmfileSize mmfile =>
      ∀ m', m.push userId streamId mmfileSize mmfile = some m' →
        ∃ i req, m'.activeRequests.items = m.activeRequests.items ++ [i] ∧
          m'.requests[i]? = some req ∧ req.userId = userId ∧ req.streamId = streamId ∧
          req.mmfileSize = mmfileSize
  | _ => True

namespace StreamRequestManager

variable {nsort : Nsort} {m m' : StreamRequestManager}

theorem push_eq_some {userId : UInt64} {streamId : UInt32} {mmfileSize : UInt64}
    {mmfile : Option ℕ} (h : m.push userId streamId mmfileSize mmfile = some m') :
    m.freeRequests.size = 0 ∧ m' = m ∨
      ∃ i free active req mappings, 0 < m.freeRequests.size ∧
        m.freeRequests.pop = some (i, free) ∧ m.activeRequests.push i = some active ∧
        m.requests[i]? = some req ∧ m.buffers[m.mappings]? = some mappings ∧
        m' = { m with
          freeRequests := free
          requests := m.requests.set i { req with
            userId := userId
            mmfileSize := mmfileSize
            mappingIndex := -1
            version := mappings.version - 1
            streamId := streamId
            mmfile := mmfile }
          activeRequests := active } := by
  rw [push] at h
  split at h
  case isTrue hpos =>
    obtain ⟨⟨i, free⟩, hpop, h⟩ := Option.bind_eq_some_iff.mp h
    obtain ⟨req, hreq, h⟩ := Option.bind_eq_some_iff.mp h
    obtain ⟨mappings, hmappings, h⟩ := Option.bind_eq_some_iff.mp h
    obtain ⟨active, hactive, h⟩ := Option.bind_eq_some_iff.mp h
    cases h
    exact Or.inr ⟨i, free, active, req, mappings, hpos, hpop, hactive, hreq, hmappings, rfl⟩
  case isFalse hpos =>
    cases h
    exact Or.inl ⟨Nat.eq_zero_of_not_pos hpos, rfl⟩

theorem pop_eq_some {result : Option (UInt64 × Option ℕ)} (h : m.pop = some (result, m')) :
    m' = m ∨ ∃ i done free, m.doneRequests.pop = some (i, done) ∧
      m.freeRequests.push i = some free ∧
      m' = { m with doneRequests := done, freeRequests := free } := by
  rw [pop] at h
  split at h
  case isTrue =>
    obtain ⟨⟨i, done⟩, hpop, h⟩ := Option.bind_eq_some_iff.mp h
    obtain ⟨req, -, h⟩ := Option.bind_eq_some_iff.mp h
    obtain ⟨free, hfree, h⟩ := Option.bind_eq_some_iff.mp h
    cases h
    exact Or.inr ⟨i, done, free, hpop, hfree, rfl⟩
  case isFalse =>
    cases h
    exact Or.inl rfl

theorem checkMappingsFile_of_due {now : Binary64} {k : ℕ} (hloaded : m.loadedMappings = some k)
    (hdue : Binary64.SumBelow m.lastMappingsCheckTime 10 now) :
    m.checkMappingsFile now = ({ m with lastMappingsCheckTime := now, loadedMappings := none },
      [⟨m.mappingsChannel, .updateMappingsJobFn, .mappings k, .null⟩]) := by
  rw [checkMappingsFile, hloaded]
  exact if_pos hdue

theorem checkMappingsFile_of_not_due {now : Binary64}
    (hdue : ¬ Binary64.SumBelow m.lastMappingsCheckTime 10 now) :
    m.checkMappingsFile now = (m, []) := by
  rw [checkMappingsFile]
  split
  · rfl
  · exact if_neg hdue

theorem checkMappingsFile_cases (m : StreamRequestManager) (now : Binary64) :
    m.checkMappingsFile now = (m, []) ∨
      ∃ k, m.loadedMappings = some k ∧ m.checkMappingsFile now =
        ({ m with lastMappingsCheckTime := now, loadedMappings := none },
          [⟨m.mappingsChannel, .updateMappingsJobFn, .mappings k, .null⟩]) := by
  rw [checkMappingsFile]
  split
  case h_1 => exact Or.inl rfl
  case h_2 k hloaded =>
    split
    · exact Or.inr ⟨k, hloaded, rfl⟩
    · exact Or.inl rfl

theorem collectMappings_eq_some {job : JobData × JobData}
    (h : m.collectMappings nsort job = some m') :
    ∃ k loaded mappings merged, job.2 = .mappings k ∧ m.buffers[k]? = some loaded ∧
      m.buffers[m.mappings]? = some mappings ∧ mappings.mergeLoaded nsort loaded = some merged ∧
      m' = { m with loadedMappings := some k, buffers := m.buffers.set m.mappings merged } := by
  rw [collectMappings] at h
  split at h
  case h_1 k hk =>
    obtain ⟨loaded, hloaded, h⟩ := Option.bind_eq_some_iff.mp h
    obtain ⟨mappings, hmappings, h⟩ := Option.bind_eq_some_iff.mp h
    obtain ⟨merged, hmerged, h⟩ := Option.bind_eq_some_iff.mp h
    exact ⟨k, loaded, mappings, merged, hk, hloaded, hmappings, hmerged, (Option.some.inj h).symm⟩
  case h_2 => cases h

theorem collectRequest_eq_some {job : JobData × JobData} (h : m.collectRequest job = some m') :
    ∃ i done, job.1 = .request i ∧ m.doneRequests.push i = some done ∧
      m' = { m with doneRequests := done } := by
  rw [collectRequest] at h
  split at h
  case h_1 i hi =>
    obtain ⟨done, hdone, rfl⟩ := Option.map_eq_some_iff.mp h
    exact ⟨i, done, hi, hdone, rfl⟩
  case h_2 => cases h

/-- A request is left as it is, or it is submitted with the number of its mapping. -/
theorem processRequest_eq_some {i : ℕ} {jobs : List PushedJob}
    (h : m.processRequest i = some (m', jobs)) :
    m' = m ∧ jobs = [] ∨
      ∃ req mappings mappingIndex, m.requests[i]? = some req ∧ req.mmfile = none ∧
        m.buffers[m.mappings]? = some mappings ∧
        mappings.findMapping req.userId = some mappingIndex ∧ 0 ≤ mappingIndex ∧
        m' = { m with requests := m.requests.set i { req with
          mappingIndex := mappingIndex
          version := mappings.version } } ∧
        jobs = [⟨m.streamRequestChannel, .streamRequestFn, .manager, .request i⟩] := by
  rw [processRequest] at h
  obtain ⟨req, hreq, h⟩ := Option.bind_eq_some_iff.mp h
  split at h
  case h_1 =>
    cases h
    exact Or.inl ⟨rfl, rfl⟩
  case h_2 hnone =>
    obtain ⟨mappings, hmappings, h⟩ := Option.bind_eq_some_iff.mp h
    obtain ⟨mappingIndex, hfound, h⟩ := Option.bind_eq_some_iff.mp h
    split at h
    case isTrue hle =>
      cases h
      exact Or.inr
        ⟨req, mappings, mappingIndex, hreq, hnone, hmappings, hfound, hle, rfl, rfl⟩
    case isFalse =>
      cases h
      exact Or.inl ⟨rfl, rfl⟩

theorem processRequests_invariant {I : StreamRequestManager → Prop}
    (hstep : ∀ m i m' jobs, I m → m.processRequest i = some (m', jobs) → I m') {is : List ℕ}
    {jobs : List PushedJob} (hm : I m) (h : m.processRequests is = some (m', jobs)) :
    I m' := by
  induction is generalizing m jobs with
  | nil =>
      cases h
      exact hm
  | cons i is ih =>
      rw [processRequests] at h
      obtain ⟨⟨n, jobs₁⟩, hone, h⟩ := Option.bind_eq_some_iff.mp h
      obtain ⟨⟨n', jobs₂⟩, hrest, h⟩ := Option.bind_eq_some_iff.mp h
      cases h
      exact ih (hstep m i n jobs₁ hm hone) hrest

theorem update_eq_some {now : Binary64} {mappingsJobs requestJobs : List (JobData × JobData)}
    {jobs : List PushedJob} (h : m.update nsort now mappingsJobs requestJobs = some (m', jobs)) :
    ∃ n n' jobs', run (collectMappings nsort) (m.checkMappingsFile now).1 mappingsJobs = some n ∧
      run collectRequest n requestJobs = some n' ∧
      n'.processRequests n'.activeRequests.items = some (m', jobs') ∧
      jobs = (m.checkMappingsFile now).2 ++ jobs' := by
  rw [update] at h
  obtain ⟨n, hmappings, h⟩ := Option.bind_eq_some_iff.mp h
  obtain ⟨n', hrequests, h⟩ := Option.bind_eq_some_iff.mp h
  obtain ⟨⟨n'', jobs'⟩, hactive, h⟩ := Option.bind_eq_some_iff.mp h
  cases h
  exact ⟨n, n', jobs', hmappings, hrequests, hactive, rfl⟩

/-- The three lists of two managers are the same. -/
structure SameSlots (m m' : StreamRequestManager) : Prop where
  free : m'.freeRequests = m.freeRequests
  active : m'.activeRequests = m.activeRequests
  done : m'.doneRequests = m.doneRequests

theorem SameSlots.trans {m'' : StreamRequestManager} (h : SameSlots m m')
    (h' : SameSlots m' m'') : SameSlots m m'' :=
  ⟨h'.free.trans h.free, h'.active.trans h.active, h'.done.trans h.done⟩

/-- What no function changes in a manager. -/
structure SameFrame (m m' : StreamRequestManager) : Prop where
  mappingsChannel : m'.mappingsChannel = m.mappingsChannel
  streamRequestChannel : m'.streamRequestChannel = m.streamRequestChannel
  streamsBasepath : m'.streamsBasepath = m.streamsBasepath
  mappings : m'.mappings = m.mappings
  buffers_length : m'.buffers.length = m.buffers.length
  requests_length : m'.requests.length = m.requests.length
  requestsCapacity : m'.requestsCapacity = m.requestsCapacity

theorem SameFrame.refl (m : StreamRequestManager) : SameFrame m m :=
  ⟨rfl, rfl, rfl, rfl, rfl, rfl, rfl⟩

theorem SameFrame.trans {m'' : StreamRequestManager} (h : SameFrame m m')
    (h' : SameFrame m' m'') : SameFrame m m'' where
  mappingsChannel := h'.mappingsChannel.trans h.mappingsChannel
  streamRequestChannel := h'.streamRequestChannel.trans h.streamRequestChannel
  streamsBasepath := h'.streamsBasepath.trans h.streamsBasepath
  mappings := h'.mappings.trans h.mappings
  buffers_length := h'.buffers_length.trans h.buffers_length
  requests_length := h'.requests_length.trans h.requests_length
  requestsCapacity := h'.requestsCapacity.trans h.requestsCapacity

/-- Two managers differ in the contents of their requests and tables only, and in what is
due to be loaded. -/
structure SameShape (m m' : StreamRequestManager) : Prop extends SameFrame m m', SameSlots m m'

theorem SameShape.refl (m : StreamRequestManager) : SameShape m m :=
  ⟨.refl m, rfl, rfl, rfl⟩

theorem SameShape.trans {m'' : StreamRequestManager} (h : SameShape m m')
    (h' : SameShape m' m'') : SameShape m m'' :=
  ⟨h.toSameFrame.trans h'.toSameFrame, h.toSameSlots.trans h'.toSameSlots⟩

theorem checkMappingsFile_shape (m : StreamRequestManager) (now : Binary64) :
    SameShape m (m.checkMappingsFile now).1 := by
  rcases m.checkMappingsFile_cases now with h | ⟨k, -, h⟩ <;> rw [h]
  · exact .refl m
  · exact ⟨⟨rfl, rfl, rfl, rfl, rfl, rfl, rfl⟩, rfl, rfl, rfl⟩

theorem collectMappings_shape {job : JobData × JobData}
    (h : m.collectMappings nsort job = some m') : SameShape m m' := by
  obtain ⟨k, loaded, mappings, merged, -, -, -, -, rfl⟩ := collectMappings_eq_some h
  exact ⟨⟨rfl, rfl, rfl, rfl, List.length_set, rfl, rfl⟩, rfl, rfl, rfl⟩

theorem processRequest_shape {i : ℕ} {jobs : List PushedJob}
    (h : m.processRequest i = some (m', jobs)) : SameShape m m' := by
  rcases processRequest_eq_some h with
    ⟨rfl, -⟩ | ⟨req, mappings, mappingIndex, -, -, -, -, -, rfl, -⟩
  · exact .refl m'
  · exact ⟨⟨rfl, rfl, rfl, rfl, rfl, List.length_set, rfl⟩, rfl, rfl, rfl⟩

theorem processRequests_shape {is : List ℕ} {jobs : List PushedJob}
    (h : m.processRequests is = some (m', jobs)) : SameShape m m' :=
  processRequests_invariant (fun _ _ _ _ hsame hone => hsame.trans (processRequest_shape hone))
    (.refl m) h

theorem push_frame {userId : UInt64} {streamId : UInt32} {mmfileSize : UInt64}
    {mmfile : Option ℕ} (h : m.push userId streamId mmfileSize mmfile = some m') :
    SameFrame m m' := by
  rcases push_eq_some h with ⟨-, rfl⟩ | ⟨i, free, active, req, mappings, -, -, -, -, -, rfl⟩
  · exact .refl m'
  · exact ⟨rfl, rfl, rfl, rfl, rfl, List.length_set, rfl⟩

theorem pop_frame {result : Option (UInt64 × Option ℕ)} (h : m.pop = some (result, m')) :
    SameFrame m m' := by
  rcases pop_eq_some h with rfl | ⟨i, done, free, -, -, rfl⟩
  · exact .refl m'
  · exact ⟨rfl, rfl, rfl, rfl, rfl, rfl, rfl⟩

theorem collectRequest_frame {job : JobData × JobData} (h : m.collectRequest job = some m') :
    SameFrame m m' := by
  obtain ⟨i, done, -, -, rfl⟩ := collectRequest_eq_some h
  exact ⟨rfl, rfl, rfl, rfl, rfl, rfl, rfl⟩

theorem update_frame {now : Binary64} {mappingsJobs requestJobs : List (JobData × JobData)}
    {jobs : List PushedJob} (h : m.update nsort now mappingsJobs requestJobs = some (m', jobs)) :
    SameFrame m m' := by
  obtain ⟨n, n', jobs', hmappings, hrequests, hactive, -⟩ := update_eq_some h
  have hn : SameFrame m n := run_invariant _ (fun _ _ _ hsame hcollect =>
    hsame.trans (collectMappings_shape hcollect).toSameFrame) _
    (m.checkMappingsFile_shape now).toSameFrame hmappings
  have hn' : SameFrame m n' := run_invariant _ (fun _ _ _ hsame hcollect =>
    hsame.trans (collectRequest_frame hcollect)) _ hn hrequests
  exact hn'.trans (processRequests_shape hactive).toSameFrame

/-- No slot is free, and none can become done. -/
structure Bare (m : StreamRequestManager) : Prop where
  free : m.freeRequests.size = 0
  done : m.doneRequests = { cells := none, size := 0 }

theorem Bare.same (h : m.Bare) (hsame : SameSlots m m') : m'.Bare :=
  ⟨hsame.free ▸ h.free, hsame.done.trans h.done⟩

theorem Bare.push (h : m.Bare) (userId : UInt64) (streamId : UInt32) (mmfileSize : UInt64)
    (mmfile : Option ℕ) : m.push userId streamId mmfileSize mmfile = some m := by
  rw [StreamRequestManager.push, h.free, if_neg (Nat.lt_irrefl 0)]

/-- A finished request cannot be stored. -/
theorem Bare.collectRequest (h : m.Bare) (job : JobData × JobData) :
    m.collectRequest job = none := by
  rw [StreamRequestManager.collectRequest]
  split
  · rw [h.done]
    rfl
  · rfl

theorem Bare.update (h : m.Bare) {now : Binary64}
    {mappingsJobs requestJobs : List (JobData × JobData)}
    {jobs : List PushedJob}
    (hupdate : m.update nsort now mappingsJobs requestJobs = some (m', jobs)) : m'.Bare := by
  obtain ⟨n, n', jobs', hmappings, hrequests, hactive, -⟩ := update_eq_some hupdate
  have hn : n.Bare := run_invariant _ (fun _ _ _ hbare hcollect => hbare.same
    (collectMappings_shape hcollect).toSameSlots) _
    (h.same (m.checkMappingsFile_shape now).toSameSlots) hmappings
  have hn' : n'.Bare := by
    refine run_invariant _ (fun s job _ hbare hcollect => ?_) _ hn hrequests
    rw [hbare.collectRequest] at hcollect
    cases hcollect
  exact hn'.same (processRequests_shape hactive).toSameSlots

theorem Bare.step {op : Operation} (h : m.Bare) (hstep : StreamRequest.step nsort m op = some m') :
    m'.Bare := by
  cases op with
  | push userId streamId mmfileSize mmfile =>
      rw [StreamRequest.step, h.push] at hstep
      cases hstep
      exact h
  | pop =>
      rw [StreamRequest.step, pop, h.done, if_neg (Nat.lt_irrefl 0)] at hstep
      cases hstep
      exact h
  | update now mappingsJobs requestJobs =>
      obtain ⟨⟨n, jobs⟩, hupdate, rfl⟩ := Option.map_eq_some_iff.mp hstep
      exact h.update hupdate
  | worker k mappings =>
      cases hstep
      exact ⟨h.free, h.done⟩

theorem Bare.not_records (h : m.Bare) (userId : UInt64) (streamId : UInt32) (mmfileSize : UInt64)
    (mmfile : Option ℕ) : ¬ Records m (.push userId streamId mmfileSize mmfile) := by
  intro hrecords
  obtain ⟨i, req, hactive, -⟩ := hrecords m (h.push userId streamId mmfileSize mmfile)
  have hnil : [i] = [] := List.append_cancel_left (hactive.symm.trans (List.append_nil _).symm)
  exact List.cons_ne_nil i [] hnil

end StreamRequestManager

/-- In every run after the creation of a manager, however few requests are outstanding, all
pushes record their requests exactly when there are none. -/
theorem allRecorded_iff {nsort : Nsort} {maxPathLen : ℕ}
    {mappingsChannel streamRequestChannel : ℤ} {now : Binary64} {basepath filepath : List UInt8}
    {versions : ℕ → ℤ} {sorted : ℕ → ℕ → ℤ}
    {ops : List Operation} {m : StreamRequestManager}
    (hrun : run (step nsort) (createStreamRequestManager maxPathLen mappingsChannel
      streamRequestChannel now basepath filepath versions sorted) ops = some m) :
    Along (step nsort) Records (createStreamRequestManager maxPathLen mappingsChannel
      streamRequestChannel now basepath filepath versions sorted) ops ↔
      ∀ userId streamId mmfileSize mmfile, .push userId streamId mmfileSize mmfile ∉ ops := by
  have hbare : (createStreamRequestManager maxPathLen mappingsChannel streamRequestChannel now
      basepath filepath versions sorted).Bare := ⟨rfl, rfl⟩
  generalize createStreamRequestManager maxPathLen mappingsChannel streamRequestChannel now basepath
    filepath versions sorted = s at hrun hbare ⊢
  induction ops generalizing s with
  | nil => exact iff_of_true trivial fun _ _ _ _ => List.not_mem_nil
  | cons op ops ih =>
      obtain ⟨t, hstep, hrest⟩ := (run_cons_eq_some _).mp hrun
      have htail := ih t hrest (hbare.step hstep)
      constructor
      · intro halong userId streamId mmfileSize mmfile hmem
        obtain ⟨hrecords, halong⟩ := halong t hstep
        rcases List.mem_cons.mp hmem with rfl | hmem
        · exact hbare.not_records userId streamId mmfileSize mmfile hrecords
        · exact htail.mp halong userId streamId mmfileSize mmfile hmem
      · intro hnone t' ht'
        obtain rfl : t = t' := Option.some.inj (hstep.symm.trans ht')
        refine ⟨?_, htail.mpr fun userId streamId mmfileSize mmfile hmem =>
          hnone userId streamId mmfileSize mmfile (List.mem_cons_of_mem op hmem)⟩
        cases op with
        | push userId streamId mmfileSize mmfile =>
            exact absurd List.mem_cons_self (hnone userId streamId mmfileSize mmfile)
        | _ => trivial

/-- A new manager, of channels 0 and 1. -/
def newManager : StreamRequestManager :=
  createStreamRequestManager 1024 0 1 0 [] [] (fun _ => 0) fun _ _ => 0

theorem not_due_one : ¬ Binary64.SumBelow 0 10 1 := by decide +kernel

theorem allRecorded_pop :
    Along (step fun _ indices => some indices) Records newManager [.pop, .update 1 [] []] := by
  have hcheck : newManager.checkMappingsFile 1 = (newManager, []) :=
    StreamRequestManager.checkMappingsFile_of_not_due not_due_one
  have hupdate : newManager.update (fun _ indices => some indices) 1 [] [] =
      some (newManager, []) := by
    rw [StreamRequestManager.update, hcheck]
    rfl
  have hrun : run (step fun _ indices => some indices) newManager [.pop, .update 1 [] []] =
      some newManager := by
    rw [run_cons_eq_some]
    exact ⟨newManager, rfl, (run_cons_eq_some _).mpr ⟨newManager, by rw [step, hupdate]; rfl, rfl⟩⟩
  exact (allRecorded_iff hrun).mpr fun _ _ _ _ => by simp

/-- The first push after the creation is dropped. -/
theorem push_drops_first : ∃ m,
    run (step fun _ indices => some indices) newManager [.push 7 1 4096 none] = some m ∧
      m.activeRequests.items = [] ∧
      ¬ Along (step fun _ indices => some indices) Records newManager [.push 7 1 4096 none] := by
  refine ⟨newManager, rfl, rfl, fun halong => ?_⟩
  obtain ⟨i, req, hactive, -⟩ := (halong newManager rfl).1 newManager rfl
  cases hactive

end StreamRequest

end ConArtist
