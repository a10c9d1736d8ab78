import ConArtist.Stream.Opened

/-!
# The sorted view of the read-only streams

`m_ro_streams_sorted` is there to look up a stream by its user id.
`stream_manager_add_ro_stream` stores the header of the file at the same index as in
`m_ro_streams`, and nothing moves it from there. So the two arrays hold the same streams in the
same order (`Enters`), and the view is sorted exactly when the files were found in the order of
their user ids.

`stream_manager_create` leaves `m_ro_stream_files` as it was constructed. It is a parameter here:
where it names no array, no stream is registered at all.
-/

namespace ConArtist

namespace Stream

open GrowingArray Machine

/-- `m_user_id` of the header in a mapping. -/
def Mapping.userId (mapping : Mapping) : UInt64 := Stream.userId (mapped mapping.content)

/-- The streams of `m_ro_streams_sorted` are those of `m_ro_streams`, ordered by their user ids. -/
def SortedView (m : ReadOnlyTable) : Prop :=
  ∃ streams sorted : List Mapping, streams.length = m.numRoStreams ∧
    m.roStreams.take m.numRoStreams = streams.map some ∧
    m.roStreamsSorted.take m.numRoStreams = sorted.map some ∧
    sorted.Perm streams ∧ sorted.Pairwise fun a b => a.userId ≤ b.userId

/-- The tables after `stream_manager_create`, with what `m_ro_stream_files` was constructed with. -/
def streamManagerCreated (constructed : Option (List (Option MappedFile))) (maxStreams : ℕ) :
    Tables :=
  { streamManagerCreate maxStreams with
    ro := { (streamManagerCreate maxStreams).ro with roStreamFiles := constructed } }

/-- Both arrays begin with the streams, in the order in which they were registered. -/
structure Enters (m : ReadOnlyTable) (streams : List Mapping) : Prop where
  count : m.numRoStreams = streams.length
  length_roStreams : m.roStreams.length = m.maxRoStreams
  roStreams : Holds m.roStreams m.maxRoStreams streams
  roStreamsSorted : Holds m.roStreamsSorted m.maxRoStreams streams

theorem enters_created (constructed : Option (List (Option MappedFile))) (maxStreams : ℕ) :
    Enters (streamManagerCreated constructed maxStreams).ro [] where
  count := rfl
  length_roStreams := List.length_replicate
  roStreams := holds_replicate maxStreams
  roStreamsSorted := holds_replicate maxStreams

section Enters

variable {m m' : ReadOnlyTable} {streams : List Mapping}

theorem Enters.resizeRo (h : Enters m streams) (hresize : m.resizeRo = some m') :
    Enters m' streams := by
  simp only [ReadOnlyTable.resizeRo] at hresize
  split at hresize
  case isTrue hfull =>
      have hle := h.roStreams.values_le
      have hroom : streams.length ≤ m.maxRoStreams * 2 := by omega
      split at hresize
      case isTrue hmax =>
          obtain ⟨files, -, rfl⟩ := Option.map_eq_some_iff.mp hresize
          exact ⟨h.count, length_reallocate _ _, h.roStreams.reallocate hroom,
            h.roStreamsSorted.reallocate hroom⟩
      case isFalse => cases hresize
  case isFalse =>
      cases hresize
      exact h

theorem Enters.register (h : Enters m streams) {file : MappedFile}
    (hregister : m.register file = some m') : Enters m' (streams ++ [file.mapping]) := by
  simp only [ReadOnlyTable.register, Option.bind_eq_bind, Option.bind_eq_some_iff] at hregister
  obtain ⟨roStreams, hroStreams, sorted, hsorted, files, -, files', -, hm'⟩ := hregister
  cases hm'
  rw [h.count] at hroStreams hsorted
  obtain ⟨hlt, hlength⟩ := assign_eq_some hroStreams
  have hroom : streams.length < m.maxRoStreams := h.length_roStreams ▸ hlt
  obtain ⟨roStreams', hroStreams', hholds⟩ := h.roStreams.assign hroom file.mapping
  obtain ⟨sorted', hsorted', hholdsSorted⟩ := h.roStreamsSorted.assign hroom file.mapping
  obtain rfl : roStreams' = roStreams := Option.some.inj (hroStreams'.symm.trans hroStreams)
  obtain rfl : sorted' = sorted := Option.some.inj (hsorted'.symm.trans hsorted)
  refine ⟨?_, hlength.trans h.length_roStreams, hholds, hholdsSorted⟩
  rw [List.length_append, List.length_singleton, ← h.count]

theorem Enters.addRoStream (h : Enters m streams) {filepath : String} {opening : Opening}
    (hadd : m.addRoStream filepath opening = some m') :
    Enters m' (streams ++ (opening.file filepath).map MappedFile.mapping) := by
  obtain ⟨m₁, hresize, hopen⟩ := Option.bind_eq_some_iff.mp hadd
  have hgrown := h.resizeRo hresize
  cases opening with
  | failed | nowhere =>
      cases hopen
      exact (List.append_nil streams).symm ▸ hgrown
  | mapped mapping => exact hgrown.register hopen

/-- The view is sorted when the order of registration is that of the user ids. -/
theorem Enters.sortedView_iff_pairwise (h : Enters m streams) :
    SortedView m ↔ streams.Pairwise fun a b => a.userId ≤ b.userId := by
  have hstreams : m.roStreams.take m.numRoStreams = streams.map some := by
    rw [h.count]
    exact h.roStreams.take_eq
  have hsorted : m.roStreamsSorted.take m.numRoStreams = streams.map some := by
    rw [h.count]
    exact h.roStreamsSorted.take_eq
  constructor
  · rintro ⟨-, sorted, -, -, hview, -, hordered⟩
    have heq : sorted = streams :=
      List.map_injective_iff.mpr (Option.some_injective _) (hview.symm.trans hsorted)
    exact heq ▸ hordered
  · intro hordered
    exact ⟨streams, streams, h.count.symm, hstreams, hsorted, List.Perm.refl _, hordered⟩

end Enters

/-- The stream that a call registers in the read-only group. -/
def AddCall.roStream (call : AddCall) : List Mapping := call.roFile.map MappedFile.mapping

theorem Enters.step {m m' : Tables} {streams : List Mapping} {call : AddCall}
    (h : Enters m.ro streams) (hstep : addStream m call = some m') :
    Enters m'.ro (streams ++ call.roStream) := by
  cases call with
  | ro filepath opening =>
      obtain ⟨ro, hro, rfl⟩ := Option.map_eq_some_iff.mp hstep
      exact h.addRoStream hro
  | rw filepath opening =>
      obtain ⟨rw, -, rfl⟩ := Option.map_eq_some_iff.mp hstep
      exact (List.append_nil streams).symm ▸ h

section Run

variable {constructed : Option (List (Option MappedFile))} {maxStreams : ℕ} {calls : List AddCall}
  {m : Tables}

theorem enters_run (hrun : run addStream (streamManagerCreated constructed maxStreams) calls =
    some m) : Enters m.ro (calls.flatMap AddCall.roStream) :=
  run_records addStream (R := fun m => Enters m.ro) (fun _ _ _ _ h hstep => h.step hstep)
    calls (enters_created constructed maxStreams) hrun

/-- After a run the view is sorted exactly when the streams it registered were registered in the
order of their user ids. -/
theorem sortedView_iff (hrun : run addStream (streamManagerCreated constructed maxStreams) calls =
    some m) : SortedView m.ro ↔
      (calls.flatMap AddCall.roStream).Pairwise fun a b => a.userId ≤ b.userId :=
  (enters_run hrun).sortedView_iff_pairwise

end Run

/-- A stream file of one header, with a small user id. -/
def headerOnly (address : ℕ) (id : UInt8) : Mapping := ⟨address, id :: List.replicate 63 0⟩

/-- Three files that are found in the order of their user ids. -/
def foundOneTwoThree : List AddCall :=
  [.ro "2025/a.rostream" (.mapped (headerOnly 4096 1)),
    .ro "2025/b.rostream" (.mapped (headerOnly 8192 2)),
    .ro "2025/c.rostream" (.mapped (headerOnly 12288 3))]

/-- Two files that are found the other way round. -/
def foundTwoOne : List AddCall :=
  [.ro "2025/a.rostream" (.mapped (headerOnly 4096 2)),
    .ro "2025/b.rostream" (.mapped (headerOnly 8192 1))]

/-- Arrays of one entry grow twice under the three files. -/
theorem sortedView_oneTwoThree :
    ∃ m, run addStream (streamManagerCreated (some [none]) 1) foundOneTwoThree = some m ∧
      SortedView m.ro := by
  have hsome : (run addStream (streamManagerCreated (some [none]) 1) foundOneTwoThree).isSome :=
    rfl
  obtain ⟨m, hrun⟩ := Option.isSome_iff_exists.mp hsome
  exact ⟨m, hrun, (sortedView_iff hrun).mpr (by decide)⟩

/-- The view of the two files keeps their order. -/
theorem not_sortedView_twoOne :
    ∃ m, run addStream (streamManagerCreated (some (List.replicate 4 none)) 4) foundTwoOne =
      some m ∧ ¬ SortedView m.ro := by
  have hsome : (run addStream (streamManagerCreated (some (List.replicate 4 none)) 4)
      foundTwoOne).isSome := rfl
  obtain ⟨m, hrun⟩ := Option.isSome_iff_exists.mp hsome
  refine ⟨m, hrun, ?_⟩
  rw [(enters_run hrun).sortedView_iff_pairwise]
  decide

end Stream

end ConArtist
