import ConArtist.Foundation.Ledger
import ConArtist.Stream.Scanning

/-!
# The files of a stream manager

Each call that adds a stream allocates a `mappedfile_t`, and maps the file. When there is no stream
in it both go back at once, else they stay up to `stream_manager_destroy`; `stream_manager_flush`
writes the mapped files of the read-write streams back. A ledger of this can be kept over every
life of a manager, from its creation up to its end: a file that is written back is mapped, and none
is unmapped or deallocated twice. What is left at the end are the copies of the paths of the
read-write streams.

A resource is named by the place of its stream in the table, which a stream never leaves.
-/

namespace ConArtist

namespace Stream

open Function GrowingArray Machine

/-- The two groups of streams. -/
inductive Group where
  | ro
  | rw
  deriving DecidableEq

/-- What a stream takes: the `mappedfile_t`, the memory it is mapped to, the copy of its path. -/
inductive Resource where
  | object (group : Group) (i : ℕ)
  | mapping (group : Group) (i : ℕ)
  | filepath (i : ℕ)
  deriving DecidableEq

/-- An entry of the ledger. -/
abbrev FileEntry := Ledger.Entry Resource

/-- What a call allocates, maps and gives back, by what `nmmio` answers. -/
def openEntries (group : Group) (i : ℕ) : Opening → List FileEntry
  | .failed => [.acquire (.object group i), .release (.object group i)]
  | .nowhere => [.acquire (.object group i), .acquire (.mapping group i),
      .release (.mapping group i), .release (.object group i)]
  | .mapped _ => [.acquire (.object group i), .acquire (.mapping group i)] ++
      match group with
      | .ro => []
      | .rw => [.acquire (.filepath i)]

/-- The entries of a call that adds a stream. -/
def addEntries (m : Tables) : AddCall → List FileEntry
  | .ro _ opening => openEntries .ro m.ro.numRoStreams opening
  | .rw _ opening => openEntries .rw m.rw.numRwStreams opening

/-- A loop over the first entries of an array of files, from `i` on. Nothing is done for an entry
that is null. -/
def forFiles (body : ℕ → List FileEntry) (files : List (Option MappedFile)) :
    ℕ → ℕ → Option (List FileEntry)
  | 0, _ => some []
  | n + 1, i => do
      let file ← files[i]?
      let rest ← forFiles body files n (i + 1)
      some ((if file.isSome then body i else []) ++ rest)

/-- `stream_manager_flush`. -/
def streamManagerFlush (m : Tables) : Option (List FileEntry) :=
  forFiles (fun i => [.use (.mapping .rw i)]) m.rw.rwStreamFiles m.rw.numRwStreams 0

/-- The body of the loop over the read-write files in `stream_manager_destroy`. -/
def closeRw (i : ℕ) : List FileEntry :=
  [.use (.mapping .rw i), .release (.mapping .rw i), .release (.object .rw i)]

/-- The body of the loop over the read-only files. -/
def closeRo (i : ℕ) : List FileEntry := [.release (.mapping .ro i), .release (.object .ro i)]

/-- `stream_manager_destroy`, without the arrays. -/
def streamManagerDestroy (m : Tables) : Option (List FileEntry) := do
  let rw ← forFiles closeRw m.rw.rwStreamFiles m.rw.numRwStreams 0
  let ro ← forFiles closeRo (m.ro.roStreamFiles.getD []) m.ro.numRoStreams 0
  some (rw ++ ro)

/-- What is done with a manager. The scan of the base path is a run of calls that add streams. -/
inductive FileOp where
  | add (call : AddCall)
  | flush

/-- The read-only file that is registered. -/
def FileOp.roFile : FileOp → List MappedFile
  | .add call => call.roFile
  | .flush => []

/-- The read-write file that is registered. -/
def FileOp.rwFile : FileOp → List MappedFile
  | .add call => call.rwFile
  | .flush => []

/-- The ledger of a manager up to its end. -/
def life : Tables → List FileOp → Option (List FileEntry)
  | m, [] => streamManagerDestroy m
  | m, .add call :: ops => do
      let m' ← addStream m call
      let rest ← life m' ops
      some (addEntries m call ++ rest)
  | m, .flush :: ops => do
      let flushed ← streamManagerFlush m
      let rest ← life m ops
      some (flushed ++ rest)

section Owned

/-- What is held: the files of the two groups, and the paths. -/
def owned (files : Group → ℕ → Bool) (paths : ℕ → Bool) : Resource → Bool
  | .object group i => files group i
  | .mapping group i => files group i
  | .filepath i => paths i

/-- One file comes or goes. -/
def setFile (files : Group → ℕ → Bool) (group : Group) (i : ℕ) (b : Bool) : Group → ℕ → Bool :=
  update files group (update (files group) i b)

variable {files : Group → ℕ → Bool} {paths : ℕ → Bool} {group : Group} {i : ℕ}

theorem update_owned_file (b : Bool) :
    update (update (owned files paths) (.object group i) b) (.mapping group i) b =
      owned (setFile files group i b) paths := by
  funext r
  cases r with
  | object group' j =>
      simp only [update_apply, owned, setFile, Resource.object.injEq, reduceCtorEq, if_false]
      by_cases hgroup : group' = group
      · subst hgroup
        simp [update_apply]
      · simp [hgroup]
  | mapping group' j =>
      simp only [update_apply, owned, setFile, Resource.mapping.injEq, reduceCtorEq, if_false]
      by_cases hgroup : group' = group
      · subst hgroup
        simp [update_apply]
      · simp [hgroup]
  | filepath j => rfl

theorem setFile_setFile (b b' : Bool) :
    setFile (setFile files group i b) group i b' = setFile files group i b' := by
  simp [setFile]

theorem setFile_eq_self {b : Bool} (h : files group i = b) : setFile files group i b = files := by
  subst h
  simp [setFile]

theorem setFile_self (b : Bool) : setFile files group i b group i = b := by simp [setFile]

theorem run_open (h : files group i = false) :
    run Ledger.step (owned files paths) [.acquire (.object group i), .acquire (.mapping group i)] =
      some (owned (setFile files group i true) paths) := by
  have hmapping : update (owned files paths) (.object group i) true (.mapping group i) = false := by
    rw [update_of_ne (by simp)]
    exact h
  have hobject : owned files paths (.object group i) = false := h
  rw [run_cons, Ledger.step_acquire hobject, Option.bind_some, run_cons,
    Ledger.step_acquire hmapping, Option.bind_some, run_nil, update_owned_file]

theorem run_close (h : files group i = true) :
    run Ledger.step (owned files paths) [.release (.mapping group i), .release (.object group i)] =
      some (owned (setFile files group i false) paths) := by
  have hobject : update (owned files paths) (.mapping group i) false (.object group i) = true := by
    rw [update_of_ne (by simp)]
    exact h
  have hmapping : owned files paths (.mapping group i) = true := h
  rw [run_cons, Ledger.step_release hmapping, Option.bind_some, run_cons,
    Ledger.step_release hobject, Option.bind_some, run_nil, update_comm (by simp),
    update_owned_file]

theorem run_path (h : paths i = false) :
    run Ledger.step (owned files paths) [.acquire (.filepath i)] =
      some (owned files (update paths i true)) := by
  have hpath : owned files paths (.filepath i) = false := h
  rw [run_singleton, Ledger.step_acquire hpath]
  refine congrArg some (funext fun r => ?_)
  cases r with
  | object | mapping => rfl
  | filepath j => simp [update_apply, owned]

theorem run_openEntries_none (h : files group i = false) {opening : Opening}
    (hopening : ∀ mapping, opening ≠ .mapped mapping) :
    run Ledger.step (owned files paths) (openEntries group i opening) =
      some (owned files paths) := by
  cases opening with
  | failed => exact Ledger.run_acquire_release h
  | nowhere =>
      have hopen : setFile files group i true group i = true := setFile_self true
      have hback : run Ledger.step (owned (setFile files group i true) paths)
          [.release (.mapping group i), .release (.object group i)] =
            some (owned files paths) := by
        rw [run_close hopen, setFile_setFile, setFile_eq_self h]
      exact Ledger.run_append_of_run (run_open h) hback
  | mapped mapping => exact absurd rfl (hopening mapping)

end Owned

section Loops

variable {body : ℕ → List FileEntry} {entries : List (Option MappedFile)}

theorem forFiles_eq {n i : ℕ}
    (h : ∀ j, i ≤ j → j < i + n → ∃ file, entries[j]? = some (some file)) :
    forFiles body entries n i = some ((List.range' i n).flatMap body) := by
  induction n generalizing i with
  | zero => rfl
  | succ n ih =>
      obtain ⟨file, hfile⟩ := h i le_rfl (by omega)
      have hrest := ih (i := i + 1) fun j hj hlt => h j (by omega) (by omega)
      rw [forFiles, hfile, Option.bind_eq_bind, Option.bind_some, hrest, Option.bind_eq_bind,
        Option.bind_some, Option.isSome_some, if_pos rfl, List.range'_succ, List.flatMap_cons]

theorem run_flush {files : Group → ℕ → Bool} {paths : ℕ → Bool} {n i : ℕ}
    (h : ∀ j, i ≤ j → j < i + n → files .rw j = true) :
    run Ledger.step (owned files paths)
      ((List.range' i n).flatMap fun j => [.use (.mapping .rw j)]) = some (owned files paths) := by
  induction n generalizing i with
  | zero => rfl
  | succ n ih =>
      have hmapping : owned files paths (.mapping .rw i) = true := h i le_rfl (by omega)
      rw [List.range'_succ, List.flatMap_cons, List.singleton_append, run_cons,
        Ledger.step_use hmapping, Option.bind_some]
      exact ih fun j hj hlt => h j (by omega) (by omega)

/-- Without the files in the places from `i` on. -/
def closeFrom (files : Group → ℕ → Bool) (group : Group) (i n : ℕ) : Group → ℕ → Bool :=
  update files group fun j => files group j && !(decide (i ≤ j ∧ j < i + n))

theorem closeFrom_succ (files : Group → ℕ → Bool) (group : Group) (i n : ℕ) :
    closeFrom (setFile files group i false) group (i + 1) n = closeFrom files group i (n + 1) := by
  funext group' j
  by_cases hgroup : group' = group
  · subst hgroup
    simp only [closeFrom, setFile, update_self]
    rw [update_apply]
    by_cases hj : j = i
    · subst hj
      simp
    · rw [if_neg hj]
      have hiff : (i + 1 ≤ j ∧ j < i + 1 + n) ↔ (i ≤ j ∧ j < i + (n + 1)) := by omega
      rw [decide_eq_decide.mpr hiff]
  · simp [closeFrom, setFile, update_of_ne hgroup]

theorem run_closeLoop {group : Group} {close : ℕ → List FileEntry}
    (hclose : ∀ (files : Group → ℕ → Bool) (paths : ℕ → Bool) (j : ℕ), files group j = true →
      run Ledger.step (owned files paths) (close j) =
        some (owned (setFile files group j false) paths))
    {files : Group → ℕ → Bool} {paths : ℕ → Bool} {n i : ℕ}
    (h : ∀ j, i ≤ j → j < i + n → files group j = true) :
    run Ledger.step (owned files paths) ((List.range' i n).flatMap close) =
      some (owned (closeFrom files group i n) paths) := by
  induction n generalizing i files with
  | zero =>
      have hsame : closeFrom files group i 0 = files := by
        have hnone : ∀ j, ¬ (i ≤ j ∧ j < i + 0) := fun j => by omega
        simp only [closeFrom, decide_eq_false (hnone _), Bool.not_false, Bool.and_true]
        exact update_eq_self group files
      rw [hsame]
      rfl
  | succ n ih =>
      rw [List.range'_succ, List.flatMap_cons]
      refine Ledger.run_append_of_run (hclose files paths i (h i le_rfl (by omega))) ?_
      rw [← closeFrom_succ]
      refine ih fun j hj hlt => ?_
      rw [setFile, update_self, update_of_ne (by omega)]
      exact h j (by omega) (by omega)

theorem run_closeRo (files : Group → ℕ → Bool) (paths : ℕ → Bool) (j : ℕ)
    (h : files .ro j = true) : run Ledger.step (owned files paths) (closeRo j) =
      some (owned (setFile files .ro j false) paths) :=
  run_close h

theorem run_closeRw (files : Group → ℕ → Bool) (paths : ℕ → Bool) (j : ℕ)
    (h : files .rw j = true) : run Ledger.step (owned files paths) (closeRw j) =
      some (owned (setFile files .rw j false) paths) := by
  have hmapping : owned files paths (.mapping .rw j) = true := h
  rw [closeRw, run_cons, Ledger.step_use hmapping, Option.bind_some]
  exact run_close h

end Loops

/-- The files of the first read-only and read-write streams are held, and the paths of the
latter. -/
def holding (numRo numRw : ℕ) : Resource → Bool :=
  owned (fun group i => match group with
    | .ro => decide (i < numRo)
    | .rw => decide (i < numRw)) fun i => decide (i < numRw)

theorem update_decide_lt (n : ℕ) :
    update (fun i => decide (i < n)) n true = fun i => decide (i < n + 1) := by
  funext i
  rw [update_apply]
  by_cases hi : i = n
  · simp [hi]
  · rw [if_neg hi]
    exact decide_eq_decide.mpr (by omega)

section Calls

variable {numRo numRw : ℕ}

theorem run_addEntries_ro {opening : Opening} {filepath : String} :
    run Ledger.step (holding numRo numRw) (openEntries .ro numRo opening) =
      some (holding (numRo + (opening.file filepath).length) numRw) := by
  have hfree : decide (numRo < numRo) = false := decide_eq_false (lt_irrefl numRo)
  cases opening with
  | failed => exact run_openEntries_none hfree (by simp)
  | nowhere => exact run_openEntries_none hfree (by simp)
  | mapped mapping =>
      rw [openEntries, List.append_nil, holding, run_open hfree]
      refine congrArg (fun files => some (owned files _)) (funext fun group => ?_)
      cases group with
      | ro => exact (update_self Group.ro _ _).trans (update_decide_lt numRo)
      | rw => exact update_of_ne (by simp) _ _

theorem run_addEntries_rw {opening : Opening} {filepath : String} :
    run Ledger.step (holding numRo numRw) (openEntries .rw numRw opening) =
      some (holding numRo (numRw + (opening.file filepath).length)) := by
  have hfree : decide (numRw < numRw) = false := decide_eq_false (lt_irrefl numRw)
  cases opening with
  | failed => exact run_openEntries_none hfree (by simp)
  | nowhere => exact run_openEntries_none hfree (by simp)
  | mapped mapping =>
      rw [openEntries, holding]
      refine Ledger.run_append_of_run (run_open hfree) ((run_path hfree).trans ?_)
      rw [update_decide_lt]
      refine congrArg (fun files => some (owned files _)) (funext fun group => ?_)
      cases group with
      | ro => exact update_of_ne (by simp) _ _
      | rw => exact (update_self Group.rw _ _).trans (update_decide_lt numRw)

end Calls

/-- What an operation finds: `m_ro_stream_files` names a file for every read-only stream, and the
read-write group is aligned. -/
structure Registered (m : Tables) (streams : List Mapping) (files : List MappedFile) : Prop where
  enters : Enters m.ro streams
  roFiles : ∀ i < streams.length, ∃ file, (m.ro.roStreamFiles.getD [])[i]? = some (some file)
  aligned : ReadWriteAligned m.rw files
  pos : 0 < m.rw.maxRwStreams

section Registered

theorem roFiles_resizeRo {m m' : ReadOnlyTable} {streams : List Mapping} (h : Enters m streams)
    (hresize : m.resizeRo = some m') {i : ℕ} (hi : i < streams.length) {file : MappedFile}
    (hfile : (m.roStreamFiles.getD [])[i]? = some (some file)) :
    (m'.roStreamFiles.getD [])[i]? = some (some file) := by
  simp only [ReadOnlyTable.resizeRo] at hresize
  split at hresize
  case isTrue hfull =>
      have hle := h.roStreams.values_le
      split at hresize
      case isTrue hmax =>
          obtain ⟨files, hfiles, rfl⟩ := Option.map_eq_some_iff.mp hresize
          rw [hfiles, Option.getD_some] at hfile
          have hlt : i < files.length := (List.getElem?_eq_some_iff.mp hfile).1
          rw [Option.getD_some, reallocate,
            List.getElem?_append_left (by rw [List.length_take]; omega),
            List.getElem?_take_of_lt (by omega)]
          exact hfile
      case isFalse => cases hresize
  case isFalse =>
      cases hresize
      exact hfile

theorem roFiles_register {m m' : ReadOnlyTable} {file : MappedFile}
    (hregister : m.register file = some m')
    (h : ∀ i < m.numRoStreams, ∃ file, (m.roStreamFiles.getD [])[i]? = some (some file)) :
    ∀ i < m.numRoStreams + 1, ∃ file, (m'.roStreamFiles.getD [])[i]? = some (some file) := by
  simp only [ReadOnlyTable.register, Option.bind_eq_bind, Option.bind_eq_some_iff] at hregister
  obtain ⟨_, -, _, -, files, hfiles, files', hassign, hm'⟩ := hregister
  cases hm'
  rw [hfiles] at h
  rw [assign] at hassign
  split at hassign
  case isTrue hroom =>
      cases hassign
      intro i hi
      rw [Option.getD_some]
      rcases Nat.lt_succ_iff_lt_or_eq.mp hi with hlt | rfl
      · rw [List.getElem?_set_ne (by omega)]
        exact h i hlt
      · exact ⟨file, List.getElem?_set_self hroom⟩
  case isFalse => cases hassign

theorem roFiles_addRoStream {m m' : ReadOnlyTable} {streams : List Mapping} (h : Enters m streams)
    (hfiles : ∀ i < streams.length, ∃ file, (m.roStreamFiles.getD [])[i]? = some (some file))
    {filepath : String} {opening : Opening} (hadd : m.addRoStream filepath opening = some m') :
    ∀ i < streams.length + (opening.file filepath).length,
      ∃ file, (m'.roStreamFiles.getD [])[i]? = some (some file) := by
  obtain ⟨m₁, hresize, hopen⟩ := Option.bind_eq_some_iff.mp hadd
  have hgrown : ∀ i < streams.length,
      ∃ file, (m₁.roStreamFiles.getD [])[i]? = some (some file) := fun i hi =>
    (hfiles i hi).imp fun _ hfile => roFiles_resizeRo h hresize hi hfile
  cases opening with
  | failed | nowhere =>
      cases hopen
      exact hgrown
  | mapped mapping =>
      rw [← (h.resizeRo hresize).count] at hgrown ⊢
      exact roFiles_register hopen hgrown

variable {m m' : Tables} {streams : List Mapping} {files : List MappedFile}

theorem Registered.step (h : Registered m streams files) {call : AddCall}
    (hfew : files.length < 2 ^ 31) (hstep : addStream m call = some m') :
    Registered m' (streams ++ call.roStream) (files ++ call.rwFile) := by
  obtain ⟨haligned, hpos⟩ := h.aligned.step h.pos hfew hstep
  refine ⟨h.enters.step hstep, ?_, haligned, hpos⟩
  cases call with
  | ro filepath opening =>
      obtain ⟨ro, hro, rfl⟩ := Option.map_eq_some_iff.mp hstep
      rw [List.length_append, AddCall.roStream, List.length_map]
      exact roFiles_addRoStream h.enters h.roFiles hro
  | rw filepath opening =>
      obtain ⟨rw, -, rfl⟩ := Option.map_eq_some_iff.mp hstep
      rw [AddCall.roStream, AddCall.roFile, List.map_nil, List.append_nil]
      exact h.roFiles

theorem Registered.run_addEntries (h : Registered m streams files) (call : AddCall) :
    run Ledger.step (holding streams.length files.length) (addEntries m call) =
      some (holding (streams ++ call.roStream).length (files ++ call.rwFile).length) := by
  rw [List.length_append, List.length_append, AddCall.roStream, List.length_map]
  cases call with
  | ro filepath opening =>
      rw [addEntries, h.enters.count]
      exact run_addEntries_ro
  | rw filepath opening =>
      rw [addEntries, h.aligned.count]
      exact run_addEntries_rw

theorem Registered.rwFiles (h : Registered m streams files) :
    ∀ j, 0 ≤ j → j < 0 + m.rw.numRwStreams → ∃ file, m.rw.rwStreamFiles[j]? = some (some file) := by
  intro j _ hj
  rw [Nat.zero_add, h.aligned.count] at hj
  exact ⟨files[j], h.aligned.rwStreamFiles.entry_eq j _ (List.getElem?_eq_getElem hj)⟩

theorem Registered.run_flush (h : Registered m streams files) {entries : List FileEntry}
    (hflush : streamManagerFlush m = some entries) :
    run Ledger.step (holding streams.length files.length) entries =
      some (holding streams.length files.length) := by
  rw [streamManagerFlush, forFiles_eq h.rwFiles] at hflush
  cases hflush
  refine Stream.run_flush fun j _ hj => decide_eq_true ?_
  rwa [Nat.zero_add, h.aligned.count] at hj

theorem Registered.run_destroy (h : Registered m streams files) {entries : List FileEntry}
    (hdestroy : streamManagerDestroy m = some entries) :
    run Ledger.step (holding streams.length files.length) entries =
      some (owned (fun _ _ => false) fun i => decide (i < files.length)) := by
  have hro : ∀ j, 0 ≤ j → j < 0 + m.ro.numRoStreams →
      ∃ file, (m.ro.roStreamFiles.getD [])[j]? = some (some file) := fun j _ hj =>
    h.roFiles j (by rwa [Nat.zero_add, h.enters.count] at hj)
  rw [streamManagerDestroy, forFiles_eq h.rwFiles, Option.bind_eq_bind, Option.bind_some,
    forFiles_eq hro, Option.bind_some, h.aligned.count, h.enters.count] at hdestroy
  cases hdestroy
  refine Ledger.run_append_of_run
    (run_closeLoop run_closeRw fun j _ hj => decide_eq_true (by omega)) ?_
  refine (run_closeLoop run_closeRo fun j _ hj => decide_eq_true (by omega)).trans ?_
  refine congrArg (fun files => some (owned files _)) (funext fun group => funext fun j => ?_)
  cases group with
  | ro => simp [closeFrom]
  | rw => simp [closeFrom]

end Registered

theorem Registered.run_life {m : Tables} {streams : List Mapping} {files : List MappedFile}
    {ops : List FileOp} {entries : List FileEntry} (h : Registered m streams files)
    (hfew : (files ++ ops.flatMap FileOp.rwFile).length < 2 ^ 31)
    (hlife : life m ops = some entries) :
    run Ledger.step (holding streams.length files.length) entries =
      some (owned (fun _ _ => false)
        fun i => decide (i < (files ++ ops.flatMap FileOp.rwFile).length)) := by
  induction ops generalizing m streams files entries with
  | nil =>
      rw [List.flatMap_nil, List.append_nil]
      exact h.run_destroy hlife
  | cons op ops ih =>
      rw [List.flatMap_cons, ← List.append_assoc] at hfew ⊢
      cases op with
      | add call =>
          simp only [life, Option.bind_eq_bind, Option.bind_eq_some_iff] at hlife
          obtain ⟨m', hstep, rest, hrest, heq⟩ := hlife
          cases heq
          have hfiles : files.length < 2 ^ 31 := by
            simp only [List.length_append] at hfew
            omega
          exact Ledger.run_append_of_run (h.run_addEntries call)
            (ih (h.step hfiles hstep) hfew hrest)
      | flush =>
          simp only [life, Option.bind_eq_bind, Option.bind_eq_some_iff] at hlife
          obtain ⟨flushed, hflush, rest, hrest, heq⟩ := hlife
          cases heq
          rw [FileOp.rwFile, List.append_nil] at hfew ⊢
          exact Ledger.run_append_of_run (h.run_flush hflush) (ih h hfew hrest)

theorem registered_created (constructed : Option (List (Option MappedFile))) {maxStreams : ℕ}
    (hpos : 0 < maxStreams) : Registered (streamManagerCreated constructed maxStreams) [] [] where
  enters := enters_created constructed maxStreams
  roFiles := fun _ hi => absurd hi (Nat.not_lt_zero _)
  aligned := readWriteAligned_create maxStreams
  pos := hpos

/-- Over every life of a manager that comes to its end the ledger can be replayed: what is written
back is mapped, and nothing is unmapped or deallocated twice. At its end every `mappedfile_t` and
every mapping is gone, and the paths of the read-write streams are held. -/
theorem files_closed_once (constructed : Option (List (Option MappedFile))) (maxStreams : ℕ)
    (hpos : 0 < maxStreams) (ops : List FileOp)
    (hfew : (ops.flatMap FileOp.rwFile).length < 2 ^ 31) (entries : List FileEntry)
    (hlife : life (streamManagerCreated constructed maxStreams) ops = some entries) :
    ∃ held, run Ledger.step Ledger.nothing entries = some held ∧
      (∀ r, held r = true ↔ ∃ i < (ops.flatMap FileOp.rwFile).length, r = .filepath i) ∧
      ∀ group i, entries.count (.release (.object group i)) =
          entries.count (.acquire (.object group i)) ∧
        entries.count (.release (.mapping group i)) =
          entries.count (.acquire (.mapping group i)) := by
  have hstart : holding 0 0 = Ledger.nothing := by
    funext r
    rcases r with ⟨_ | _, i⟩ | ⟨_ | _, i⟩ | i <;> rfl
  have hrun := (registered_created constructed hpos).run_life hfew hlife
  rw [List.length_nil, List.length_nil, hstart, List.nil_append] at hrun
  refine ⟨_, hrun, ?_, fun group i => ⟨Ledger.count_release_eq hrun rfl rfl,
    Ledger.count_release_eq hrun rfl rfl⟩⟩
  rintro (⟨group, i⟩ | ⟨group, i⟩ | i)
  · simp [owned]
  · simp [owned]
  · simp [owned]

/-- A read-write file that is mapped, a flush, and a file that is not mapped. -/
def oneFlushed : List FileOp :=
  [.add (.rw "a.rwstream" (.mapped ⟨4096, [0]⟩)), .flush, .add (.rw "b.rwstream" .nowhere)]

theorem files_closed_once_oneFlushed :
    ∃ entries held, life (streamManagerCreated none 1) oneFlushed = some entries ∧
      run Ledger.step Ledger.nothing entries = some held ∧
      ∀ r, held r = true ↔ ∃ i < 1, r = .filepath i := by
  obtain ⟨held, hrun, hheld, -⟩ :=
    files_closed_once none 1 (by decide) oneFlushed (by decide) _ rfl
  exact ⟨_, held, rfl, hrun, hheld⟩

end Stream

end ConArtist
