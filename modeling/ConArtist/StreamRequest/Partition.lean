import Mathlib.Data.List.Perm.Basic
import Mathlib.Algebra.Order.Group.Nat
import ConArtist.StreamRequest.Submission

/-!
# The partition of the slots

The free, the active and the done list are to hold each slot once. A push and a pop move a
slot from one list to another. An update appends a finished request to the done list and
leaves it in the active list as well, so it keeps the partition exactly when no request has
finished.
-/

namespace ConArtist

namespace StreamRequest

open Machine StreamRequestManager

namespace Slots

variable {s s' : Slots} {i : ℕ}

/-- The array has all numbers of the list. -/
def Valid (s : Slots) : Prop := s.items.length = s.size

/-- The array has a cell for each slot. -/
def Spans (s : Slots) (capacity : ℕ) : Prop :=
  ∃ cells, s.cells = some cells ∧ cells.length = capacity

theorem valid_iff : s.Valid ↔ s.size ≤ (s.cells.getD []).length := by
  rw [Valid, items, List.length_take]
  exact ⟨fun h => h ▸ Nat.min_le_right _ _, min_eq_left⟩

theorem push_eq_some (h : s.Valid) (hpush : s.push i = some s') :
    s'.items = s.items ++ [i] ∧ s'.size = s.size + 1 ∧ s'.Valid ∧
      ∀ capacity, s.Spans capacity → s'.Spans capacity := by
  obtain ⟨cells, hcells, hpush⟩ := Option.bind_eq_some_iff.mp hpush
  split at hpush
  case isTrue hlt =>
    cases hpush
    have hitems : items { cells := some (cells.set s.size i), size := s.size + 1 } =
        s.items ++ [i] := by
      rw [items, items, hcells, Option.getD_some, Option.getD_some, List.take_add_one,
        List.getElem?_set_self hlt, List.take_set_of_le le_rfl]
      rfl
    refine ⟨hitems, rfl, ?_, ?_⟩
    · rw [Valid, hitems, List.length_append, h]
      rfl
    · rintro capacity ⟨cells', hcells', hlength⟩
      obtain rfl : cells = cells' := Option.some.inj (hcells.symm.trans hcells')
      exact ⟨_, rfl, by rw [List.length_set, hlength]⟩
  case isFalse => cases hpush

theorem exists_push {capacity : ℕ} (h : s.Spans capacity) (hlt : s.size < capacity) (i : ℕ) :
    ∃ s', s.push i = some s' := by
  obtain ⟨cells, hcells, rfl⟩ := h
  exact ⟨_, by rw [push, hcells, Option.bind_some, if_pos hlt]⟩

theorem exists_pop (h : s.Valid) (hpos : 0 < s.size) :
    ∃ i s', s.pop = some (i, s') ∧ s.items = s'.items ++ [i] ∧ s'.Valid ∧
      ∀ capacity, s.Spans capacity → s'.Spans capacity := by
  have hle := valid_iff.mp h
  cases hcells : s.cells with
  | none =>
      rw [hcells] at hle
      exact absurd hpos (not_lt.mpr hle)
  | some cells =>
      rw [hcells, Option.getD_some] at hle
      have hlast : cells[s.size - 1]? = some cells[s.size - 1] :=
        List.getElem?_eq_getElem (by omega)
      refine ⟨cells[s.size - 1], { s with size := s.size - 1 }, ?_, ?_, ?_, ?_⟩
      · rw [pop, hcells, Option.bind_some, hlast, Option.map_some, ← hcells]
      · have hsize : s.size = s.size - 1 + 1 := by omega
        rw [items, items, hcells, Option.getD_some]
        conv_lhs => rw [hsize]
        rw [List.take_add_one, hlast]
        rfl
      · refine valid_iff.mpr ?_
        rw [hcells, Option.getD_some]
        exact (Nat.sub_le _ _).trans hle
      · exact fun _ hspans => hspans

end Slots

namespace StreamRequestManager

variable {nsort : Nsort} {m m' : StreamRequestManager}

/-- The three lists hold each slot once. The array of the free and of the active list has a
cell for each. -/
structure Partitioned (m : StreamRequestManager) : Prop where
  requests_length : m.requests.length = m.requestsCapacity
  mappings_lt : m.mappings < m.buffers.length
  free_spans : m.freeRequests.Spans m.requestsCapacity
  active_spans : m.activeRequests.Spans m.requestsCapacity
  free_valid : m.freeRequests.Valid
  active_valid : m.activeRequests.Valid
  done_valid : m.doneRequests.Valid
  perm : (m.freeRequests.items ++ m.activeRequests.items ++ m.doneRequests.items).Perm
    (List.range m.requestsCapacity)

theorem Partitioned.size (h : m.Partitioned) :
    m.freeRequests.size + m.activeRequests.size + m.doneRequests.size = m.requestsCapacity := by
  have hlength := h.perm.length_eq
  rwa [List.length_append, List.length_append, h.free_valid, h.active_valid, h.done_valid,
    List.length_range] at hlength

theorem Partitioned.nodup (h : m.Partitioned) :
    (m.freeRequests.items ++ m.activeRequests.items ++ m.doneRequests.items).Nodup :=
  h.perm.nodup_iff.mpr List.nodup_range

theorem Partitioned.lt (h : m.Partitioned) {i : ℕ}
    (hi : i ∈ m.freeRequests.items ++ m.activeRequests.items ++ m.doneRequests.items) :
    i < m.requestsCapacity :=
  List.mem_range.mp (h.perm.mem_iff.mp hi)

theorem Partitioned.same (h : m.Partitioned) (hsame : SameShape m m') : m'.Partitioned where
  requests_length := by rw [hsame.requests_length, h.requests_length, hsame.requestsCapacity]
  mappings_lt := by
    rw [hsame.mappings, hsame.buffers_length]
    exact h.mappings_lt
  free_spans := by
    rw [hsame.free, hsame.requestsCapacity]
    exact h.free_spans
  active_spans := by
    rw [hsame.active, hsame.requestsCapacity]
    exact h.active_spans
  free_valid := hsame.free ▸ h.free_valid
  active_valid := hsame.active ▸ h.active_valid
  done_valid := hsame.done ▸ h.done_valid
  perm := by
    rw [hsame.free, hsame.active, hsame.done, hsame.requestsCapacity]
    exact h.perm

theorem run_collectRequest {jobs : List (JobData × JobData)} (h : m.doneRequests.Valid)
    (hrun : run collectRequest m jobs = some m') : m'.doneRequests.Valid ∧
      m'.doneRequests.size = m.doneRequests.size + jobs.length ∧
      m' = { m with doneRequests := m'.doneRequests } := by
  induction jobs generalizing m with
  | nil =>
      cases hrun
      exact ⟨h, rfl, rfl⟩
  | cons job jobs ih =>
      obtain ⟨n, hcollect, hrest⟩ := (run_cons_eq_some _).mp hrun
      obtain ⟨i, done, -, hpush, rfl⟩ := collectRequest_eq_some hcollect
      obtain ⟨-, hsize, hvalid, -⟩ := Slots.push_eq_some h hpush
      obtain ⟨hvalid', hsize', heq⟩ := ih hvalid hrest
      refine ⟨hvalid', ?_, heq⟩
      rw [hsize', hsize, List.length_cons]
      omega

theorem Partitioned.push (h : m.Partitioned) (userId : UInt64) (streamId : UInt32)
    (mmfileSize : UInt64) (mmfile : Option ℕ) :
    ∃ m', m.push userId streamId mmfileSize mmfile = some m' ∧ m'.Partitioned := by
  rw [StreamRequestManager.push]
  split
  case isFalse => exact ⟨m, rfl, h⟩
  case isTrue hpos =>
    have hsize := h.size
    obtain ⟨i, free, hpop, hitems, hfree, hfreeSpans⟩ := Slots.exists_pop h.free_valid hpos
    obtain ⟨active, hactive⟩ := Slots.exists_push h.active_spans (by omega) i
    obtain ⟨hactiveItems, -, hactiveValid, hactiveSpans⟩ :=
      Slots.push_eq_some h.active_valid hactive
    have hi : i < m.requests.length := by
      rw [h.requests_length]
      refine h.lt ?_
      rw [hitems]
      simp
    rw [hpop]
    simp only [Option.bind_eq_bind, Option.bind_some, List.getElem?_eq_getElem hi,
      List.getElem?_eq_getElem h.mappings_lt, hactive]
    refine ⟨_, rfl, ?_⟩
    refine ⟨List.length_set.trans h.requests_length, h.mappings_lt, hfreeSpans _ h.free_spans,
      hactiveSpans _ h.active_spans, hfree, hactiveValid, h.done_valid, ?_⟩
    -- the slot goes from the end of one list to the end of the next
    refine List.Perm.trans ?_ h.perm
    rw [hitems, hactiveItems]
    refine List.Perm.append_right _ ?_
    rw [List.append_assoc]
    exact List.perm_append_comm.append_left _

theorem Partitioned.pop (h : m.Partitioned) :
    ∃ r, m.pop = some r ∧ r.2.Partitioned := by
  rw [StreamRequestManager.pop]
  split
  case isFalse => exact ⟨_, rfl, h⟩
  case isTrue hpos =>
    have hsize := h.size
    obtain ⟨i, done, hpop, hitems, hdone, -⟩ := Slots.exists_pop h.done_valid hpos
    obtain ⟨free, hfree⟩ := Slots.exists_push h.free_spans (by omega) i
    obtain ⟨hfreeItems, -, hfreeValid, hfreeSpans⟩ := Slots.push_eq_some h.free_valid hfree
    have hi : i < m.requests.length := by
      rw [h.requests_length]
      refine h.lt ?_
      rw [hitems]
      simp
    rw [hpop]
    simp only [Option.bind_eq_bind, Option.bind_some, List.getElem?_eq_getElem hi, hfree]
    refine ⟨_, rfl, ?_⟩
    refine ⟨h.requests_length, h.mappings_lt, hfreeSpans _ h.free_spans, h.active_spans,
      hfreeValid, h.active_valid, hdone, ?_⟩
    refine List.Perm.trans ?_ h.perm
    rw [hitems, hfreeItems, List.append_assoc, List.append_assoc, List.append_assoc,
      ← List.append_assoc m.activeRequests.items]
    exact List.perm_append_comm.append_left _

theorem partitioned_run_collectMappings {jobs : List (JobData × JobData)} (h : m.Partitioned)
    (hrun : run (collectMappings nsort) m jobs = some m') : m'.Partitioned :=
  run_invariant _ (fun _ _ _ hpart hcollect => hpart.same (collectMappings_shape hcollect)) _ h hrun

theorem Partitioned.run_collectRequest_iff {jobs : List (JobData × JobData)} (h : m.Partitioned) :
    (∃ m', run collectRequest m jobs = some m' ∧ m'.Partitioned) ↔ jobs = [] := by
  constructor
  · rintro ⟨m', hrun, hpart⟩
    obtain ⟨-, hdone, heq⟩ := run_collectRequest h.done_valid hrun
    have hsize := h.size
    have hsize' := hpart.size
    rw [heq] at hsize'
    dsimp only at hsize'
    exact List.length_eq_zero_iff.mp (by omega)
  · rintro rfl
    exact ⟨m, rfl, h⟩

end StreamRequestManager

/-- An operation stays inside the arrays of the slots and keeps the partition. -/
def KeepsSlots (nsort : Nsort) (m : StreamRequestManager) : Operation → Prop
  | .push userId streamId mmfileSize mmfile =>
      ∃ m', m.push userId streamId mmfileSize mmfile = some m' ∧ m'.Partitioned
  | .pop => ∃ result m', m.pop = some (result, m') ∧ m'.Partitioned
  | .update now mappingsJobs requestJobs =>
      ∀ n, run (collectMappings nsort) (m.checkMappingsFile now).1 mappingsJobs = some n →
        (∃ n', run collectRequest n requestJobs = some n' ∧ n'.Partitioned) ∧
          ∀ m' jobs, m.update nsort now mappingsJobs requestJobs = some (m', jobs) →
            m'.Partitioned
  | .worker k mappings =>
      StreamRequestManager.Partitioned { m with buffers := m.buffers.set k mappings }

/-- No request has finished when the update comes to the finished requests. -/
def NoneFinished (nsort : Nsort) (m : StreamRequestManager) : Operation → Prop
  | .update now mappingsJobs requestJobs =>
      run (collectMappings nsort) (m.checkMappingsFile now).1 mappingsJobs ≠ none →
        requestJobs = []
  | _ => True

/-- In a state with the partition an operation keeps it if and only if it is no update that
collects a finished request. -/
theorem keepsSlots_iff {nsort : Nsort} {m : StreamRequestManager} (h : m.Partitioned)
    (op : Operation) : KeepsSlots nsort m op ↔ NoneFinished nsort m op := by
  cases op with
  | push userId streamId mmfileSize mmfile =>
      exact iff_of_true (h.push userId streamId mmfileSize mmfile) trivial
  | pop =>
      obtain ⟨⟨result, m'⟩, hpop, hpart⟩ := h.pop
      exact iff_of_true ⟨result, m', hpop, hpart⟩ trivial
  | update now mappingsJobs requestJobs =>
      have hcheck := h.same (m.checkMappingsFile_shape now)
      constructor
      · intro hkeeps hmappings
        obtain ⟨n, hn⟩ := Option.ne_none_iff_exists'.mp hmappings
        have hpart := partitioned_run_collectMappings hcheck hn
        exact hpart.run_collectRequest_iff.mp (hkeeps n hn).1
      · intro hnone n hn
        obtain rfl := hnone (by rw [hn]; exact Option.some_ne_none n)
        have hpart := partitioned_run_collectMappings hcheck hn
        refine ⟨⟨n, rfl, hpart⟩, fun m' jobs hupdate => ?_⟩
        obtain ⟨n₁, n₂, jobs', hn₁, hn₂, hactive, -⟩ := update_eq_some hupdate
        obtain rfl : n = n₁ := Option.some.inj (hn.symm.trans hn₁)
        obtain rfl : n = n₂ := Option.some.inj hn₂
        exact hpart.same (processRequests_shape hactive)
  | worker k mappings =>
      exact iff_of_true (h.same
        ⟨⟨rfl, rfl, rfl, rfl, List.length_set, rfl, rfl⟩, rfl, rfl, rfl⟩) trivial

/-- A manager of one slot, whose request has its file and is active. -/
def oneActive : StreamRequestManager :=
  { newManager with
    requests := [⟨0, 0, 1, 7, 4096, some 3⟩]
    requestsCapacity := 1
    freeRequests := { cells := some [0], size := 0 }
    activeRequests := { cells := some [0], size := 1 }
    doneRequests := { cells := some [0], size := 0 } }

theorem partitioned_oneActive : oneActive.Partitioned :=
  ⟨rfl, by decide, ⟨_, rfl, rfl⟩, ⟨_, rfl, rfl⟩, rfl, rfl, rfl, .refl _⟩

theorem keepsSlots_update :
    KeepsSlots (fun _ indices => some indices) oneActive (.update 1 [] []) :=
  (keepsSlots_iff partitioned_oneActive _).mpr fun _ => rfl

/-- The finished request is in two lists after the update. -/
theorem update_duplicates_slot : oneActive.Partitioned ∧
    (∃ m', oneActive.update (fun _ indices => some indices) 1 [] [(.request 0, .manager)] =
      some (m', []) ∧ m'.activeRequests.items = [0] ∧ m'.doneRequests.items = [0] ∧
      ¬ m'.Partitioned) ∧
    ¬ KeepsSlots (fun _ indices => some indices) oneActive
      (.update 1 [] [(.request 0, .manager)]) := by
  have hcheck : oneActive.checkMappingsFile 1 = (oneActive, []) :=
    StreamRequestManager.checkMappingsFile_of_not_due not_due_one
  have hupdate : oneActive.update (fun _ indices => some indices) 1 [] [(.request 0, .manager)] =
      some ({ oneActive with doneRequests := { cells := some [0], size := 1 } }, []) := by
    rw [update, hcheck]
    rfl
  have hnot : ¬ StreamRequestManager.Partitioned
      { oneActive with doneRequests := { cells := some [0], size := 1 } } :=
    fun h => absurd h.size (by decide)
  refine ⟨partitioned_oneActive, ⟨_, hupdate, rfl, rfl, hnot⟩, fun hkeeps => ?_⟩
  exact hnot ((hkeeps oneActive (by rw [hcheck]; rfl)).2 _ _ hupdate)

end StreamRequest

end ConArtist
