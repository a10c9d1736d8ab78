import ConArtist.Foundation.CString
import ConArtist.Stream.SortedView

/-!
# What a new manager finds on disk

`stream_manager_create` ends with a scan of the base path: the files in it that end in
`.rwstream` are registered as read-write streams, and those one directory below that end in
`.rostream` as read-only ones. The file system comes as what `opendir` and `nmmio` answer for a
path; it does not change during the scan.

The scan is a run of the two functions that add a stream (`scanBasepath_eq_run`). So what a
manager has registered when it was created can be said without it: `rwFiles` and `roFiles`.
-/

namespace ConArtist

namespace Stream

open ByteMemory CString GrowingArray Machine

/-- The part of a `dirent` that is read: `d_name`, and whether `d_type` is `DT_DIR`. -/
structure Dirent where
  name : List UInt8
  isDir : Bool

/-- What is at a path: the entries that `readdir` gives of it, and what `nmmio` answers. With it
goes `MAXPATHLEN`, which the platform gives. -/
structure FileSystem where
  maxPathLen : ℕ
  opendir : List UInt8 → Option (List Dirent)
  openRo : List UInt8 → Opening
  openRw : List UInt8 → Opening

/-- `.` -/
def dot : UInt8 := 46

/-- `/` -/
def slash : UInt8 := 47

/-- `rostream` -/
def roExtension : List UInt8 := [114, 111, 115, 116, 114, 101, 97, 109]

/-- `rwstream` -/
def rwExtension : List UInt8 := [114, 119, 115, 116, 114, 101, 97, 109]

/-- `has_ro_extension`. -/
def hasRoExtension (filename : List UInt8) : Bool :=
  hasExtension dot (dot :: roExtension) filename

/-- `has_rw_extension`. -/
def hasRwExtension (filename : List UInt8) : Bool :=
  hasExtension dot (dot :: rwExtension) filename

/-- `s_dir_is_current_or_parent`. -/
def sDirIsCurrentOrParent (name : List UInt8) : Bool := name = [dot] ∨ name = [dot, dot]

/-- `snprintf(path, MAXPATHLEN, "%s/%s", directory, name)`. -/
def FileSystem.fullPath (fs : FileSystem) (directory name : List UInt8) : List UInt8 :=
  (directory ++ slash :: name).take (fs.maxPathLen - 1)

/-- The bytes of a path, a character each. -/
def text (path : List UInt8) : String := String.ofList (path.map fun b => Char.ofNat b.toNat)

section Scan

variable (fs : FileSystem)

/-- The body of the inner loop of `stream_manager_scan_basepath`. -/
def scanSubentry (directory : List UInt8) (m : Tables) (subentry : Dirent) : Option Tables :=
  if subentry.isDir then some m
  else if hasRoExtension subentry.name then
    let subFull := fs.fullPath directory subentry.name
    addStream m (.ro (text subFull) (fs.openRo subFull))
  else some m

/-- The body of the outer loop. -/
def scanEntry (basePath : List UInt8) (m : Tables) (entry : Dirent) : Option Tables :=
  if sDirIsCurrentOrParent entry.name then some m
  else
    let path := fs.fullPath basePath entry.name
    if entry.isDir = false then
      if hasRwExtension entry.name then addStream m (.rw (text path) (fs.openRw path)) else some m
    else
      match fs.opendir path with
      | none => some m
      | some subentries => run (scanSubentry fs path) m subentries

/-- `stream_manager_scan_basepath`. -/
def scanBasepath (basePath : List UInt8) (m : Tables) : Option Tables :=
  match fs.opendir basePath with
  | none => some m
  | some entries => run (scanEntry fs basePath) m entries

/-- `stream_manager_create`, with what `m_ro_stream_files` was constructed with. -/
def streamManagerCreateIn (constructed : Option (List (Option MappedFile))) (maxStreams : ℕ)
    (basePath : List UInt8) : Option Tables :=
  scanBasepath fs basePath (streamManagerCreated constructed maxStreams)

/-- The read-only files of a directory below the base path. -/
def roFilesOf (directory : List UInt8) (subentries : List Dirent) : List MappedFile :=
  (subentries.filter fun e => e.isDir = false ∧ (dot :: roExtension) <:+ e.name).flatMap fun e =>
    (fs.openRo (fs.fullPath directory e.name)).file (text (fs.fullPath directory e.name))

/-- The read-only files: those that open of the directories in the base path. -/
def roFiles (basePath : List UInt8) : List MappedFile :=
  (((fs.opendir basePath).getD []).filter fun e =>
      e.isDir = true ∧ e.name ≠ [dot] ∧ e.name ≠ [dot, dot]).flatMap fun e =>
    roFilesOf fs (fs.fullPath basePath e.name) ((fs.opendir (fs.fullPath basePath e.name)).getD [])

/-- The read-write files: those of the base path that open. -/
def rwFiles (basePath : List UInt8) : List MappedFile :=
  (((fs.opendir basePath).getD []).filter fun e =>
      e.isDir = false ∧ (dot :: rwExtension) <:+ e.name).flatMap fun e =>
    (fs.openRw (fs.fullPath basePath e.name)).file (text (fs.fullPath basePath e.name))

/-- The calls for an entry of a directory below the base path. -/
def subentryCalls (directory : List UInt8) (subentry : Dirent) : List AddCall :=
  if subentry.isDir = false ∧ (dot :: roExtension) <:+ subentry.name then
    [.ro (text (fs.fullPath directory subentry.name))
      (fs.openRo (fs.fullPath directory subentry.name))]
  else []

/-- The calls for an entry of the base path. -/
def entryCalls (basePath : List UInt8) (entry : Dirent) : List AddCall :=
  let path := fs.fullPath basePath entry.name
  if entry.isDir = false then
    if (dot :: rwExtension) <:+ entry.name then [.rw (text path) (fs.openRw path)] else []
  else if entry.name ≠ [dot] ∧ entry.name ≠ [dot, dot] then
    ((fs.opendir path).getD []).flatMap (subentryCalls fs path)
  else []

def scanCalls (basePath : List UInt8) : List AddCall :=
  ((fs.opendir basePath).getD []).flatMap (entryCalls fs basePath)

end Scan

theorem hasRoExtension_iff {filename : List UInt8} :
    hasRoExtension filename = true ↔ (dot :: roExtension) <:+ filename :=
  hasExtension_iff (by decide)

theorem hasRwExtension_iff {filename : List UInt8} :
    hasRwExtension filename = true ↔ (dot :: rwExtension) <:+ filename :=
  hasExtension_iff (by decide)

theorem sDirIsCurrentOrParent_iff {name : List UInt8} :
    sDirIsCurrentOrParent name = true ↔ name = [dot] ∨ name = [dot, dot] :=
  decide_eq_true_iff

theorem not_rwExtension_of_skipped {name : List UInt8} (h : name = [dot] ∨ name = [dot, dot]) :
    ¬ (dot :: rwExtension) <:+ name := by
  intro hsuffix
  have hle := hsuffix.length_le
  rcases h with rfl | rfl <;> simp [rwExtension] at hle

section Calls

variable (fs : FileSystem)

theorem scanSubentry_eq_run (directory : List UInt8) (m : Tables) (subentry : Dirent) :
    scanSubentry fs directory m subentry =
      run addStream m (subentryCalls fs directory subentry) := by
  rw [scanSubentry, subentryCalls]
  cases hdir : subentry.isDir with
  | true => rfl
  | false =>
      by_cases hext : (dot :: roExtension) <:+ subentry.name
      · rw [if_neg Bool.false_ne_true, if_pos (hasRoExtension_iff.mpr hext), if_pos ⟨rfl, hext⟩,
          run_singleton]
      · rw [if_neg Bool.false_ne_true, if_neg (mt hasRoExtension_iff.mp hext),
          if_neg fun h => hext h.2]
        rfl

theorem scanEntry_eq_run (basePath : List UInt8) (m : Tables) (entry : Dirent) :
    scanEntry fs basePath m entry = run addStream m (entryCalls fs basePath entry) := by
  rw [scanEntry, entryCalls]
  by_cases hskip : entry.name = [dot] ∨ entry.name = [dot, dot]
  · rw [if_pos (sDirIsCurrentOrParent_iff.mpr hskip), if_neg (not_rwExtension_of_skipped hskip),
      if_neg fun h => not_or.mpr h hskip]
    split <;> rfl
  · rw [if_neg (mt sDirIsCurrentOrParent_iff.mp hskip)]
    split
    case isTrue hfile =>
        by_cases hext : (dot :: rwExtension) <:+ entry.name
        · rw [if_pos (hasRwExtension_iff.mpr hext), if_pos hext, run_singleton]
        · rw [if_neg (mt hasRwExtension_iff.mp hext), if_neg hext]
          rfl
    case isFalse hdir =>
        rw [if_pos (not_or.mp hskip)]
        dsimp only
        cases fs.opendir (fs.fullPath basePath entry.name) with
        | none => rfl
        | some subentries =>
            exact run_flatMap _ (scanSubentry_eq_run fs (fs.fullPath basePath entry.name)) m
              subentries

theorem scanBasepath_eq_run (basePath : List UInt8) (m : Tables) :
    scanBasepath fs basePath m = run addStream m (scanCalls fs basePath) := by
  rw [scanBasepath, scanCalls]
  cases fs.opendir basePath with
  | none => rfl
  | some entries => exact run_flatMap _ (scanEntry_eq_run fs basePath) m entries

end Calls

section Files

theorem flatMap_filter {α β : Type*} {P : α → Prop} [DecidablePred P] (f : α → List β)
    (as : List α) : (as.filter P).flatMap f = as.flatMap fun a => if P a then f a else [] := by
  induction as with
  | nil => rfl
  | cons a as ih =>
      rw [List.flatMap_cons, ← ih, List.filter_cons]
      by_cases ha : P a
      · rw [if_pos (decide_eq_true ha), List.flatMap_cons, if_pos ha]
      · rw [if_neg (mt decide_eq_true_iff.mp ha), if_neg ha, List.nil_append]

variable (fs : FileSystem)

theorem rwFile_subentryCalls (directory : List UInt8) (subentries : List Dirent) :
    (subentries.flatMap (subentryCalls fs directory)).flatMap AddCall.rwFile = [] := by
  rw [List.flatMap_assoc, List.flatMap_eq_nil_iff]
  intro e _
  rw [subentryCalls]
  split <;> rfl

theorem roFile_subentryCalls (directory : List UInt8) (subentries : List Dirent) :
    (subentries.flatMap (subentryCalls fs directory)).flatMap AddCall.roFile =
      roFilesOf fs directory subentries := by
  rw [List.flatMap_assoc, roFilesOf, flatMap_filter]
  refine List.flatMap_congr fun e _ => ?_
  rw [subentryCalls]
  split
  case isTrue => exact List.append_nil _
  case isFalse => rfl

theorem rwFile_scanCalls (basePath : List UInt8) :
    (scanCalls fs basePath).flatMap AddCall.rwFile = rwFiles fs basePath := by
  rw [scanCalls, List.flatMap_assoc, rwFiles, flatMap_filter]
  refine List.flatMap_congr fun e _ => ?_
  rw [entryCalls]
  split
  case isTrue hfile =>
      by_cases hext : (dot :: rwExtension) <:+ e.name
      · rw [if_pos hext, if_pos ⟨hfile, hext⟩]
        exact List.append_nil _
      · rw [if_neg hext, if_neg fun h => hext h.2]
        rfl
  case isFalse hdir =>
      rw [if_neg fun h : e.isDir = false ∧ (dot :: rwExtension) <:+ e.name => hdir h.1]
      split
      case isTrue => exact rwFile_subentryCalls fs _ _
      case isFalse => rfl

theorem roFile_scanCalls (basePath : List UInt8) :
    (scanCalls fs basePath).flatMap AddCall.roFile = roFiles fs basePath := by
  rw [scanCalls, List.flatMap_assoc, roFiles, flatMap_filter]
  refine List.flatMap_congr fun e _ => ?_
  rw [entryCalls]
  cases hdir : e.isDir with
  | false =>
      rw [if_pos rfl,
        if_neg fun h : false = true ∧ e.name ≠ [dot] ∧ e.name ≠ [dot, dot] => by cases h.1]
      split <;> rfl
  | true =>
      rw [if_neg fun h => Bool.false_ne_true h.symm]
      by_cases hskip : e.name ≠ [dot] ∧ e.name ≠ [dot, dot]
      · rw [if_pos hskip, if_pos ⟨rfl, hskip⟩]
        exact roFile_subentryCalls fs _ _
      · rw [if_neg hskip, if_neg fun h => hskip h.2]
        rfl

end Files

section Run

variable {m m' : Tables} {files : List MappedFile} {calls : List AddCall}

theorem readWriteAligned_run (h : ReadWriteAligned m.rw files) (hpos : 0 < m.rw.maxRwStreams)
    (hfew : (files ++ calls.flatMap AddCall.rwFile).length < 2 ^ 31)
    (hrun : run addStream m calls = some m') :
    ReadWriteAligned m'.rw (files ++ calls.flatMap AddCall.rwFile) := by
  induction calls generalizing m files with
  | nil =>
      cases hrun
      rw [List.flatMap_nil, List.append_nil]
      exact h
  | cons call calls ih =>
      obtain ⟨m₁, hstep, hrest⟩ := (run_cons_eq_some addStream).mp hrun
      rw [List.flatMap_cons, ← List.append_assoc] at hfew ⊢
      have hfiles : files.length < 2 ^ 31 := by
        simp only [List.length_append] at hfew
        omega
      obtain ⟨hnext, hpos'⟩ := h.step hpos hfiles hstep
      exact ih hnext hpos' hfew hrest

/-- While `m_ro_stream_files` has no array, a call can be made exactly when no read-only file
opens in it, and it stays so. -/
theorem WithoutFiles.step (h : WithoutFiles m.ro) (hrw : ReadWriteAligned m.rw files)
    (hpos : 0 < m.rw.maxRwStreams) (hfew : files.length < 2 ^ 31) (call : AddCall) :
    (call.roFile = [] ∧ ∃ m', addStream m call = some m' ∧ WithoutFiles m'.ro) ∨
      (call.roFile ≠ [] ∧ addStream m call = none) := by
  cases call with
  | ro filepath opening =>
      cases opening with
      | failed | nowhere =>
          refine Or.inl ⟨rfl, m, ?_, h⟩
          rw [addStream, ReadOnlyTable.addRoStream, h.resizeRo]
          rfl
      | mapped mapping =>
          refine Or.inr ⟨List.cons_ne_nil _ _, ?_⟩
          rw [addStream, h.addRoStream_mapped]
          rfl
  | rw filepath opening =>
      obtain ⟨rw', hadd, -, -⟩ := hrw.addRwStream hpos hfew filepath opening
      refine Or.inl ⟨rfl, { m with rw := rw' }, ?_, h⟩
      rw [addStream, hadd]
      rfl

theorem WithoutFiles.run_isSome_iff (h : WithoutFiles m.ro) (hrw : ReadWriteAligned m.rw files)
    (hpos : 0 < m.rw.maxRwStreams)
    (hfew : (files ++ calls.flatMap AddCall.rwFile).length < 2 ^ 31) :
    (run addStream m calls).isSome ↔ calls.flatMap AddCall.roFile = [] := by
  induction calls generalizing m files with
  | nil => exact iff_of_true rfl rfl
  | cons call calls ih =>
      rw [List.flatMap_cons, ← List.append_assoc] at hfew
      have hfiles : files.length < 2 ^ 31 := by
        simp only [List.length_append] at hfew
        omega
      rw [run_cons, List.flatMap_cons, List.append_eq_nil_iff]
      rcases h.step hrw hpos hfiles call with ⟨hnone, m₁, hstep, hwithout⟩ | ⟨hsome, hstep⟩
      · obtain ⟨hnext, hpos'⟩ := hrw.step hpos hfiles hstep
        rw [hstep, Option.bind_some, ih hwithout hnext hpos' hfew, and_iff_right hnone]
      · rw [hstep, Option.bind_none]
        exact iff_of_false Bool.false_ne_true fun hboth => hsome hboth.1

end Run

/-- `m_user_index` of the header in a mapping. -/
def Mapping.userIndex (mapping : Mapping) : ℕ := leValue (load (mapped mapping.content) 8 2)

/-- The body of the loop of `stream_manager_largest_user_index_for`, on the header an entry
names. -/
def largestIndexStep (userId : UInt64) (largestIndex : ℕ) (entry : Option Mapping) : Option ℕ :=
  entry.map fun header =>
    if header.userId = userId then
      if largestIndex < header.userIndex then header.userIndex else largestIndex
    else largestIndex

/-- `stream_manager_largest_user_index_for`. -/
def ReadOnlyTable.largestUserIndexFor (m : ReadOnlyTable) (userId : UInt64) : Option ℕ :=
  run (largestIndexStep userId) 0 (m.roStreams.take m.numRoStreams)

/-- The loop gives the largest index of the user id, and what it began with if none is larger. -/
theorem exists_largestIndex (userId : UInt64) (streams : List Mapping) (first : ℕ) :
    ∃ largest, run (largestIndexStep userId) first (streams.map some) = some largest ∧
      first ≤ largest ∧ (∀ s ∈ streams, s.userId = userId → s.userIndex ≤ largest) ∧
      (largest = first ∨ ∃ s ∈ streams, s.userId = userId ∧ s.userIndex = largest) := by
  induction streams generalizing first with
  | nil => exact ⟨first, rfl, le_rfl, fun s hs => absurd hs List.not_mem_nil, Or.inl rfl⟩
  | cons s streams ih =>
      obtain ⟨next, hnext, hle, hthis, hfrom⟩ : ∃ next,
          largestIndexStep userId first (some s) = some next ∧ first ≤ next ∧
            (s.userId = userId → s.userIndex ≤ next) ∧
            (next = first ∨ s.userId = userId ∧ s.userIndex = next) := by
        refine ⟨_, rfl, ?_⟩
        by_cases hid : s.userId = userId <;> by_cases hlt : first < s.userIndex <;>
          simp [hid, hlt] <;> omega
      obtain ⟨largest, hrun, hlargest, hall, hwhere⟩ := ih next
      refine ⟨largest, (run_cons_eq_some _).mpr ⟨next, hnext, hrun⟩, hle.trans hlargest, ?_, ?_⟩
      · intro t ht hid
        rcases List.mem_cons.mp ht with rfl | ht
        · exact (hthis hid).trans hlargest
        · exact hall t ht hid
      · rcases hwhere with rfl | ⟨t, ht, hid, heq⟩
        · rcases hfrom with heq | ⟨hid, heq⟩
          · exact Or.inl heq
          · exact Or.inr ⟨s, List.mem_cons_self, hid, heq⟩
        · exact Or.inr ⟨t, List.mem_cons_of_mem s ht, hid, heq⟩

theorem Enters.largestUserIndexFor {m : ReadOnlyTable} {streams : List Mapping}
    (h : Enters m streams) (userId : UInt64) :
    ∃ largest, m.largestUserIndexFor userId = some largest ∧
      (∀ s ∈ streams, s.userId = userId → s.userIndex ≤ largest) ∧
      (largest = 0 ∨ ∃ s ∈ streams, s.userId = userId ∧ s.userIndex = largest) := by
  obtain ⟨largest, hrun, -, hall, hwhere⟩ := exists_largestIndex userId streams 0
  refine ⟨largest, ?_, hall, hwhere⟩
  rw [ReadOnlyTable.largestUserIndexFor, h.count, h.roStreams.take_eq]
  exact hrun

section Created

variable {fs : FileSystem} {basePath : List UInt8} {maxStreams : ℕ}
  {constructed : Option (List (Option MappedFile))} {m : Tables}

theorem created_rw (hpos : 0 < maxStreams) (hfew : (rwFiles fs basePath).length < 2 ^ 31)
    (hm : streamManagerCreateIn fs constructed maxStreams basePath = some m) :
    ReadWriteAligned m.rw (rwFiles fs basePath) := by
  rw [streamManagerCreateIn, scanBasepath_eq_run] at hm
  have hcreated : ReadWriteAligned (streamManagerCreated constructed maxStreams).rw [] :=
    readWriteAligned_create maxStreams
  rw [← rwFile_scanCalls, ← List.nil_append ((scanCalls fs basePath).flatMap _)] at hfew
  have haligned := readWriteAligned_run hcreated hpos hfew hm
  rwa [rwFile_scanCalls, List.nil_append] at haligned

theorem created_ro (hm : streamManagerCreateIn fs constructed maxStreams basePath = some m) :
    Enters m.ro ((roFiles fs basePath).map MappedFile.mapping) := by
  rw [streamManagerCreateIn, scanBasepath_eq_run] at hm
  rw [← roFile_scanCalls, List.map_flatMap]
  exact enters_run hm

theorem created_isSome_iff (hpos : 0 < maxStreams)
    (hfew : (rwFiles fs basePath).length < 2 ^ 31) :
    (streamManagerCreateIn fs none maxStreams basePath).isSome ↔ roFiles fs basePath = [] := by
  have hcreated : ReadWriteAligned (streamManagerCreated none maxStreams).rw [] :=
    readWriteAligned_create maxStreams
  have hwithout : WithoutFiles (streamManagerCreated none maxStreams).ro := ⟨rfl, hpos⟩
  rw [← rwFile_scanCalls, ← List.nil_append ((scanCalls fs basePath).flatMap _)] at hfew
  rw [streamManagerCreateIn, scanBasepath_eq_run, ← roFile_scanCalls]
  exact hwithout.run_isSome_iff hcreated hpos hfew

end Created

/-- Of a manager that was created in a directory. While `m_ro_stream_files` has no array, the scan
comes to its end exactly when no read-only file is found. Whenever it does, the read-write
streams are the `.rwstream` files of the directory, and the read-only ones the `.rostream` files one
directory below, of those that open and in the order of `readdir`; and the largest user index
is that of the read-only files. -/
theorem created_in_directory (fs : FileSystem) (basePath : List UInt8) (maxStreams : ℕ)
    (hpos : 0 < maxStreams) (hfew : (rwFiles fs basePath).length < 2 ^ 31) :
    ((streamManagerCreateIn fs none maxStreams basePath).isSome ↔ roFiles fs basePath = []) ∧
      ∀ constructed m, streamManagerCreateIn fs constructed maxStreams basePath = some m →
        ReadWriteAligned m.rw (rwFiles fs basePath) ∧
          Enters m.ro ((roFiles fs basePath).map MappedFile.mapping) ∧
          ∀ userId, ∃ largest, m.ro.largestUserIndexFor userId = some largest ∧
            (∀ file ∈ roFiles fs basePath, file.mapping.userId = userId →
              file.mapping.userIndex ≤ largest) ∧
            (largest = 0 ∨ ∃ file ∈ roFiles fs basePath, file.mapping.userId = userId ∧
              file.mapping.userIndex = largest) := by
  refine ⟨created_isSome_iff hpos hfew, fun constructed m hm => ?_⟩
  have henters := created_ro hm
  refine ⟨created_rw hpos hfew hm, henters, fun userId => ?_⟩
  obtain ⟨largest, hlargest, hall, hwhere⟩ := henters.largestUserIndexFor userId
  refine ⟨largest, hlargest, fun file hfile => hall _ (List.mem_map_of_mem hfile), ?_⟩
  refine hwhere.imp_right ?_
  rintro ⟨s, hs, hfound⟩
  obtain ⟨file, hfile, rfl⟩ := List.mem_map.mp hs
  exact ⟨file, hfile, hfound⟩

/-- A directory `b` with `x.rwstream`, the entry of itself, an empty directory `d` and a file
that is no stream. -/
def smallDirectory : FileSystem where
  maxPathLen := 1024
  opendir path :=
    if path = [98] then some [⟨[120] ++ dot :: rwExtension, false⟩, ⟨[dot], true⟩, ⟨[100], true⟩,
      ⟨[120] ++ dot :: roExtension, false⟩]
    else if path = [98, slash, 100] then some []
    else none
  openRo _ := .failed
  openRw _ := .mapped ⟨4096, [0]⟩

theorem created_in_smallDirectory :
    (streamManagerCreateIn smallDirectory none 1 [98]).isSome ∧
      ∃ m, streamManagerCreateIn smallDirectory none 1 [98] = some m ∧
        ReadWriteAligned m.rw (rwFiles smallDirectory [98]) := by
  have hfew : (rwFiles smallDirectory [98]).length < 2 ^ 31 := by decide
  have hcreated := created_in_directory smallDirectory [98] 1 (by decide) hfew
  have hsome : (streamManagerCreateIn smallDirectory none 1 [98]).isSome :=
    hcreated.1.mpr (List.eq_nil_of_length_eq_zero (by decide))
  obtain ⟨m, hm⟩ := Option.isSome_iff_exists.mp hsome
  exact ⟨hsome, m, hm, (hcreated.2 none m hm).1⟩

end Stream

end ConArtist
