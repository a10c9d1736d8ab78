import Mathlib.Algebra.Group.Nat.Defs
import ConArtist.Foundation.GrowingArray
import ConArtist.Foundation.Run

/-!
# The tables of the stream manager

The stream manager keeps what it knows of a file in parallel arrays: three for
the read-only streams and three for the read-write ones.
`stream_manager_create` allocates five of the six. `m_ro_stream_files` is given
no array there, and the only other place that gives it one is the growth of the
read-only group, which is not reached before a read-only stream is registered.

`ReadOnlyAligned` and `ReadWriteAligned` say that the arrays of a group are large
enough and hold the same files. The read-write group is aligned in every run
(`readWrite_run`), the read-only group in no state of any run.
-/

namespace ConArtist

namespace Stream

open GrowingArray Machine

/-- The memory a file is mapped to: where it begins and what the file holds. -/
structure Mapping where
  address : ℕ
  content : List UInt8

/-- `nmmio::mappedfile_t`, once the file is open. -/
structure MappedFile where
  filepath : String
  mapping : Mapping

/-- What `nmmio` answers for a path: the file does not open, it opens and has no
address, or it is mapped. -/
inductive Opening where
  | failed
  | nowhere
  | mapped (mapping : Mapping)

/-- The read-only group of `stream_manager_t`. An array that was not allocated is
`none`. -/
structure ReadOnlyTable where
  numRoStreams : ℕ
  maxRoStreams : ℕ
  roStreamFiles : Option (List (Option MappedFile))
  roStreams : List (Option Mapping)
  roStreamsSorted : List (Option Mapping)

/-- The read-write group of `stream_manager_t`. -/
structure ReadWriteTable where
  numRwStreams : ℕ
  maxRwStreams : ℕ
  rwStreamFilepaths : List (Option String)
  rwStreamFiles : List (Option MappedFile)
  rwStreams : List (Option Mapping)

/-- The part of `stream_manager_t` that registers files. -/
structure Tables where
  ro : ReadOnlyTable
  rw : ReadWriteTable

/-- `stream_manager_resize_ro`. The doubled maximum is an `i32`; growth reads the
old arrays. -/
def ReadOnlyTable.resizeRo (m : ReadOnlyTable) : Option ReadOnlyTable :=
  if m.maxRoStreams ≤ m.numRoStreams then
    let newMax := m.maxRoStreams * 2
    if newMax < 2 ^ 31 then
      m.roStreamFiles.map fun files =>
        { m with
          roStreamFiles := some (reallocate files newMax)
          roStreams := reallocate m.roStreams newMax
          roStreamsSorted := reallocate m.roStreamsSorted newMax
          maxRoStreams := newMax }
    else none
  else some m

/-- `stream_manager_resize_rw`. The doubled maximum is a `u32`. -/
def ReadWriteTable.resizeRw (m : ReadWriteTable) : ReadWriteTable :=
  if m.maxRwStreams ≤ m.numRwStreams then
    let newMax := m.maxRwStreams * 2 % 2 ^ 32
    { m with
      rwStreamFilepaths := reallocate m.rwStreamFilepaths newMax
      rwStreamFiles := reallocate m.rwStreamFiles newMax
      rwStreams := reallocate m.rwStreams newMax
      maxRwStreams := newMax }
  else m

/-- The registration in `stream_manager_add_ro_stream`, in its order. It has no
result where it assigns outside of an array, or to one that was not allocated. -/
def ReadOnlyTable.register (m : ReadOnlyTable) (file : MappedFile) : Option ReadOnlyTable := do
  let streams ← assign m.roStreams m.numRoStreams file.mapping
  let sorted ← assign m.roStreamsSorted m.numRoStreams file.mapping
  let files ← m.roStreamFiles
  let files ← assign files m.numRoStreams file
  some { m with
    roStreams := streams
    roStreamsSorted := sorted
    roStreamFiles := some files
    numRoStreams := m.numRoStreams + 1 }

/-- The registration in `stream_manager_add_rw_stream`, in its order. It has no
result where it assigns outside of an array. -/
def ReadWriteTable.register (m : ReadWriteTable) (file : MappedFile) : Option ReadWriteTable := do
  let filepaths ← assign m.rwStreamFilepaths m.numRwStreams file.filepath
  let files ← assign m.rwStreamFiles m.numRwStreams file
  let streams ← assign m.rwStreams m.numRwStreams file.mapping
  some { m with
    rwStreamFilepaths := filepaths
    rwStreamFiles := files
    rwStreams := streams
    numRwStreams := (m.numRwStreams + 1) % 2 ^ 32 }

/-- `stream_manager_add_ro_stream`, on its group. -/
def ReadOnlyTable.addRoStream (m : ReadOnlyTable) (filepath : String) (opening : Opening) :
    Option ReadOnlyTable :=
  m.resizeRo.bind fun m =>
    match opening with
    | .failed | .nowhere => some m
    | .mapped mapping => m.register ⟨filepath, mapping⟩

/-- `stream_manager_add_rw_stream`, on its group. -/
def ReadWriteTable.addRwStream (m : ReadWriteTable) (filepath : String) (opening : Opening) :
    Option ReadWriteTable :=
  let m := m.resizeRw
  match opening with
  | .failed | .nowhere => some m
  | .mapped mapping => m.register ⟨filepath, mapping⟩

/-- `stream_manager_create`, up to the scan of the base path, which is a sequence of
calls of the two functions. `m_ro_stream_files` is not assigned. -/
def streamManagerCreate (maxStreams : ℕ) : Tables where
  ro :=
    { numRoStreams := 0
      maxRoStreams := maxStreams
      roStreamFiles := none
      roStreams := List.replicate maxStreams none
      roStreamsSorted := List.replicate maxStreams none }
  rw :=
    { numRwStreams := 0
      maxRwStreams := maxStreams
      rwStreamFilepaths := List.replicate maxStreams none
      rwStreamFiles := List.replicate maxStreams none
      rwStreams := List.replicate maxStreams none }

/-- A call of one of the two functions. -/
inductive AddCall where
  | ro (filepath : String) (opening : Opening)
  | rw (filepath : String) (opening : Opening)

/-- The call on the tables. -/
def addStream (m : Tables) : AddCall → Option Tables
  | .ro filepath opening => (m.ro.addRoStream filepath opening).map fun ro => { m with ro := ro }
  | .rw filepath opening => (m.rw.addRwStream filepath opening).map fun rw => { m with rw := rw }

/-- The file that is registered, if it opens. -/
def Opening.file (filepath : String) : Opening → List MappedFile
  | .failed | .nowhere => []
  | .mapped mapping => [⟨filepath, mapping⟩]

/-- The read-only file a call registers. -/
def AddCall.roFile : AddCall → List MappedFile
  | .ro filepath opening => opening.file filepath
  | .rw _ _ => []

/-- The read-write file a call registers. -/
def AddCall.rwFile : AddCall → List MappedFile
  | .ro _ _ => []
  | .rw filepath opening => opening.file filepath

/-- The arrays of the read-only group have an entry for every stream up to the
maximum and begin with the files, in one order. -/
structure ReadOnlyAligned (m : ReadOnlyTable) (files : List MappedFile) : Prop where
  count : m.numRoStreams = files.length
  roStreamFiles : ∃ entries, m.roStreamFiles = some entries ∧ Holds entries m.maxRoStreams files
  roStreams : Holds m.roStreams m.maxRoStreams (files.map MappedFile.mapping)
  roStreamsSorted : Holds m.roStreamsSorted m.maxRoStreams (files.map MappedFile.mapping)

/-- The same of the read-write group. -/
structure ReadWriteAligned (m : ReadWriteTable) (files : List MappedFile) : Prop where
  count : m.numRwStreams = files.length
  rwStreamFilepaths : Holds m.rwStreamFilepaths m.maxRwStreams (files.map MappedFile.filepath)
  rwStreamFiles : Holds m.rwStreamFiles m.maxRwStreams files
  rwStreams : Holds m.rwStreams m.maxRwStreams (files.map MappedFile.mapping)

def Aligned (m : Tables) : Prop :=
  (∃ files, ReadOnlyAligned m.ro files) ∧ ∃ files, ReadWriteAligned m.rw files

/-- The call assigns inside of the arrays. The files registered before stay where
they are, and the file of the call comes after them if it opens. -/
def AddsAligned (m : Tables) (call : AddCall) : Prop :=
  ∃ m', addStream m call = some m' ∧
    (∀ files, ReadOnlyAligned m.ro files → ReadOnlyAligned m'.ro (files ++ call.roFile)) ∧
    ∀ files, ReadWriteAligned m.rw files → ReadWriteAligned m'.rw (files ++ call.rwFile)

section ReadWrite

variable {m : ReadWriteTable} {files : List MappedFile}

/-- Growth makes room for one more file, unless the maximum wraps. -/
theorem ReadWriteAligned.resizeRw (h : ReadWriteAligned m files) (hpos : 0 < m.maxRwStreams)
    (hfew : files.length < 2 ^ 31) :
    ReadWriteAligned m.resizeRw files ∧ files.length < m.resizeRw.maxRwStreams := by
  have hle := h.rwStreamFiles.values_le
  rw [ReadWriteTable.resizeRw]
  by_cases hfull : m.maxRwStreams ≤ m.numRwStreams
  · rw [if_pos hfull]
    rw [h.count] at hfull
    have hwrap : m.maxRwStreams * 2 % 2 ^ 32 = m.maxRwStreams * 2 := Nat.mod_eq_of_lt (by omega)
    have hroom : files.length < m.maxRwStreams * 2 % 2 ^ 32 := by omega
    refine ⟨⟨h.count, ?_, ?_, ?_⟩, hroom⟩
    · exact h.rwStreamFilepaths.reallocate (by rw [List.length_map]; exact Nat.le_of_lt hroom)
    · exact h.rwStreamFiles.reallocate (Nat.le_of_lt hroom)
    · exact h.rwStreams.reallocate (by rw [List.length_map]; exact Nat.le_of_lt hroom)
  · rw [if_neg hfull]
    rw [h.count] at hfull
    exact ⟨h, Nat.not_le.mp hfull⟩

theorem ReadWriteAligned.register (h : ReadWriteAligned m files)
    (hroom : files.length < m.maxRwStreams) (hfew : files.length < 2 ^ 31) (file : MappedFile) :
    ∃ m', m.register file = some m' ∧ ReadWriteAligned m' (files ++ [file]) ∧
      m'.maxRwStreams = m.maxRwStreams := by
  obtain ⟨filepaths, hfilepaths, hholds₁⟩ :=
    h.rwStreamFilepaths.assign (by rw [List.length_map]; exact hroom) file.filepath
  obtain ⟨entries, hentries, hholds₂⟩ := h.rwStreamFiles.assign hroom file
  obtain ⟨streams, hstreams, hholds₃⟩ :=
    h.rwStreams.assign (by rw [List.length_map]; exact hroom) file.mapping
  rw [List.length_map] at hfilepaths hstreams
  refine ⟨{ m with
    rwStreamFilepaths := filepaths
    rwStreamFiles := entries
    rwStreams := streams
    numRwStreams := (m.numRwStreams + 1) % 2 ^ 32 }, ?_, ⟨?_, ?_, hholds₂, ?_⟩, rfl⟩
  · simp [ReadWriteTable.register, h.count, hfilepaths, hentries, hstreams]
  · rw [h.count, List.length_append, List.length_singleton]
    exact Nat.mod_eq_of_lt (by omega)
  · simpa using hholds₁
  · simpa using hholds₃

/-- Adding a read-write stream, whatever opens: its file comes after the others, if
there is one. -/
theorem ReadWriteAligned.addRwStream (h : ReadWriteAligned m files) (hpos : 0 < m.maxRwStreams)
    (hfew : files.length < 2 ^ 31) (filepath : String) (opening : Opening) :
    ∃ m', m.addRwStream filepath opening = some m' ∧
      ReadWriteAligned m' (files ++ opening.file filepath) ∧ 0 < m'.maxRwStreams := by
  obtain ⟨hgrown, hroom⟩ := h.resizeRw hpos hfew
  have hmax : 0 < m.resizeRw.maxRwStreams := Nat.zero_lt_of_lt hroom
  cases opening with
  | failed | nowhere =>
      exact ⟨m.resizeRw, rfl, (List.append_nil files).symm ▸ hgrown, hmax⟩
  | mapped mapping =>
      obtain ⟨m', hregister, haligned, hsame⟩ := hgrown.register hroom hfew ⟨filepath, mapping⟩
      exact ⟨m', hregister, haligned, hsame ▸ hmax⟩

end ReadWrite

theorem readWriteAligned_create (maxStreams : ℕ) :
    ReadWriteAligned (streamManagerCreate maxStreams).rw [] where
  count := rfl
  rwStreamFilepaths := holds_replicate maxStreams
  rwStreamFiles := holds_replicate maxStreams
  rwStreams := holds_replicate maxStreams

theorem AddCall.length_rwFile_le (call : AddCall) : call.rwFile.length ≤ 1 := by
  obtain ⟨filepath, opening⟩ | ⟨filepath, _ | _ | mapping⟩ := call <;>
    simp [AddCall.rwFile, Opening.file]

theorem ReadWriteAligned.step {m m' : Tables} {files : List MappedFile} {call : AddCall}
    (h : ReadWriteAligned m.rw files) (hpos : 0 < m.rw.maxRwStreams)
    (hfew : files.length < 2 ^ 31) (hstep : addStream m call = some m') :
    ReadWriteAligned m'.rw (files ++ call.rwFile) ∧ 0 < m'.rw.maxRwStreams := by
  cases call with
  | ro filepath opening =>
      obtain ⟨ro, -, rfl⟩ := Option.map_eq_some_iff.mp hstep
      exact ⟨(List.append_nil files).symm ▸ h, hpos⟩
  | rw filepath opening =>
      obtain ⟨rw, hrw, rfl⟩ := Option.map_eq_some_iff.mp hstep
      obtain ⟨rw', hrw', haligned, hpos'⟩ := h.addRwStream hpos hfew filepath opening
      obtain rfl : rw' = rw := Option.some.inj (hrw'.symm.trans hrw)
      exact ⟨haligned, hpos'⟩

theorem ReadWriteAligned.run {m m' : Tables} {files : List MappedFile} (calls : List AddCall)
    (h : ReadWriteAligned m.rw files) (hpos : 0 < m.rw.maxRwStreams)
    (hfew : files.length + calls.length < 2 ^ 31) (hrun : run addStream m calls = some m') :
    ReadWriteAligned m'.rw (files ++ calls.flatMap AddCall.rwFile) := by
  induction calls generalizing m files with
  | nil =>
      cases hrun
      rw [List.flatMap_nil, List.append_nil]
      exact h
  | cons call calls ih =>
      rw [List.length_cons] at hfew
      obtain ⟨m₁, hstep, hrest⟩ := (run_cons_eq_some addStream).mp hrun
      obtain ⟨hnext, hpos'⟩ := h.step hpos (by omega) hstep
      have hle := call.length_rwFile_le
      rw [List.flatMap_cons, ← List.append_assoc]
      exact ih hnext hpos' (by rw [List.length_append]; omega) hrest

/-- The read-write group is aligned after every run of less than `2 ^ 31` calls: it
holds the files of the calls that opened theirs, in call order. -/
theorem readWrite_run {maxStreams : ℕ} (hpos : 0 < maxStreams) {calls : List AddCall}
    (hfew : calls.length < 2 ^ 31) {m : Tables}
    (hrun : run addStream (streamManagerCreate maxStreams) calls = some m) :
    ReadWriteAligned m.rw (calls.flatMap AddCall.rwFile) := by
  have hfew' : ([] : List MappedFile).length + calls.length < 2 ^ 31 := by
    rw [List.length_nil, Nat.zero_add]
    exact hfew
  exact (readWriteAligned_create maxStreams).run calls hpos hfew' hrun

/-- The read-only group as it is in every state reached: `m_ro_stream_files` has no
array, and the group does not grow. -/
structure WithoutFiles (m : ReadOnlyTable) : Prop where
  roStreamFiles : m.roStreamFiles = none
  room : m.numRoStreams < m.maxRoStreams

section WithoutFiles

variable {m : ReadOnlyTable}

theorem WithoutFiles.not_aligned (h : WithoutFiles m) (files : List MappedFile) :
    ¬ ReadOnlyAligned m files := by
  intro haligned
  obtain ⟨entries, hentries, -⟩ := haligned.roStreamFiles
  rw [h.roStreamFiles] at hentries
  cases hentries

theorem WithoutFiles.register_eq_none (h : WithoutFiles m) (file : MappedFile) :
    m.register file = none := by
  rw [ReadOnlyTable.register, h.roStreamFiles]
  cases assign m.roStreams m.numRoStreams file.mapping with
  | none => rfl
  | some streams =>
      cases assign m.roStreamsSorted m.numRoStreams file.mapping <;> rfl

theorem WithoutFiles.resizeRo (h : WithoutFiles m) : m.resizeRo = some m :=
  if_neg (Nat.not_le.mpr h.room)

theorem WithoutFiles.addRoStream_mapped (h : WithoutFiles m) (filepath : String)
    (mapping : Mapping) : m.addRoStream filepath (.mapped mapping) = none := by
  rw [ReadOnlyTable.addRoStream, h.resizeRo]
  exact h.register_eq_none ⟨filepath, mapping⟩

theorem WithoutFiles.addRoStream (h : WithoutFiles m) {m' : ReadOnlyTable} {filepath : String}
    {opening : Opening} (hstep : m.addRoStream filepath opening = some m') : m' = m := by
  cases opening with
  | failed | nowhere =>
      rw [ReadOnlyTable.addRoStream, h.resizeRo] at hstep
      exact (Option.some.inj hstep).symm
  | mapped mapping =>
      rw [h.addRoStream_mapped] at hstep
      cases hstep

end WithoutFiles

/-- For every maximum and every sequence of calls: the arrays are aligned in no state
reached, and no read-only stream that opens can be registered in any. -/
theorem tables_neverAligned (maxStreams : ℕ) (hpos : 0 < maxStreams) (calls : List AddCall) :
    ¬ (Throughout addStream Aligned (streamManagerCreate maxStreams) calls ∧
        Attempts addStream AddsAligned (streamManagerCreate maxStreams) calls) ∧
      Throughout addStream (fun m => ¬ Aligned m ∧ ∀ filepath mapping,
        ¬ AddsAligned m (.ro filepath (.mapped mapping)))
        (streamManagerCreate maxStreams) calls := by
  have hstart : WithoutFiles (streamManagerCreate maxStreams).ro := ⟨rfl, hpos⟩
  have hnot : ∀ m : Tables, WithoutFiles m.ro → ¬ Aligned m := by
    rintro m h ⟨⟨files, haligned⟩, -⟩
    exact h.not_aligned files haligned
  refine ⟨fun h => hnot _ hstart h.1.head, ?_⟩
  refine throughout_of_step (I := fun m : Tables => WithoutFiles m.ro) ?_ ?_ hstart
  · refine fun m h => ⟨hnot m h, ?_⟩
    rintro filepath mapping ⟨m', hstep, -⟩
    rw [addStream, h.addRoStream_mapped] at hstep
    cases hstep
  · intro m m' call _ h hstep
    cases call with
    | ro filepath opening =>
        obtain ⟨ro, hro, rfl⟩ := Option.map_eq_some_iff.mp hstep
        obtain rfl := h.addRoStream hro
        exact h
    | rw filepath opening =>
        obtain ⟨rw, -, rfl⟩ := Option.map_eq_some_iff.mp hstep
        exact h

/-- A manager for four streams and one read-write file. -/
theorem tables_neverAligned_four :
    ¬ (Throughout addStream Aligned (streamManagerCreate 4)
          [.rw "a.rwstream" (.mapped ⟨4096, [0]⟩)] ∧
        Attempts addStream AddsAligned (streamManagerCreate 4)
          [.rw "a.rwstream" (.mapped ⟨4096, [0]⟩)]) :=
  (tables_neverAligned 4 (by decide) _).1

/-- Right after the manager is created for four streams the arrays are not aligned, and
the first read-only file that opens is stored through an array that is not there. -/
theorem addRoStream_created :
    ¬ Throughout addStream Aligned (streamManagerCreate 4)
        [.ro "2025/a.rostream" (.mapped ⟨4096, [0]⟩)] ∧
      addStream (streamManagerCreate 4) (.ro "2025/a.rostream" (.mapped ⟨4096, [0]⟩)) = none := by
  have hstart : WithoutFiles (streamManagerCreate 4).ro := ⟨rfl, by decide⟩
  refine ⟨fun h => ?_, rfl⟩
  obtain ⟨⟨files, haligned⟩, -⟩ := h.head
  exact hstart.not_aligned files haligned

end Stream

end ConArtist
