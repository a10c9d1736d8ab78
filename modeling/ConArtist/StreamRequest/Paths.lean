import ConArtist.StreamRequest.Capacity
import ConArtist.StreamRequest.Naming

/-!
# Do different streams get different files

The name of a mapping is cut to 63 bytes when the file is loaded, copied as a slot when it
is merged, and printed up to its first zero, behind the base path and into a buffer of
`MAXPATHLEN` bytes. So two names of one file that differ give the same path when they
differ only behind what is kept of them.
-/

namespace ConArtist

namespace StreamRequest

open Machine

/-- The ids of the lines are distinct, and so are the names. -/
structure DistinctLines (lines : List (UInt64 × List UInt8)) : Prop where
  ids : (lines.map Prod.fst).Nodup
  names : (lines.map Prod.snd).Nodup

theorem DistinctLines.name_unique {lines : List (UInt64 × List UInt8)} (h : DistinctLines lines)
    {userId : UInt64} {right right' : List UInt8} (hright : (userId, right) ∈ lines)
    (hright' : (userId, right') ∈ lines) : right = right' :=
  congrArg Prod.snd (List.inj_on_of_nodup_map h.ids hright hright' rfl)

theorem takeWhile_append_zero (xs ys : List UInt8) :
    (xs ++ 0 :: ys).takeWhile (· ≠ 0) = xs.takeWhile (· ≠ 0) := by
  rw [List.takeWhile_append, List.takeWhile_cons_of_neg (by simp), List.append_nil]
  split
  case isTrue h =>
    exact ((List.takeWhile_prefix _).eq_of_length h).symm
  case isFalse => rfl

namespace StreamMappings

/-- What is kept of a name: 63 bytes, as far as the first zero. -/
def keptName (right : List UInt8) : List UInt8 :=
  (right.take (dMappingNameMaxlen - 1)).takeWhile (· ≠ 0)

/-- Every entry is that of a line. -/
def FromLines (lines : List (UInt64 × List UInt8)) (t : StreamMappings) : Prop :=
  ∀ k < t.mappingsSize, ∃ userId right old, (userId, right) ∈ lines ∧
    t.mappingIds[k]? = some userId ∧ t.mappingNames[k]? = some (slot right old)

section FromLines

variable {lines : List (UInt64 × List UInt8)} {nsort : Nsort} {t t' loaded : StreamMappings}

theorem fromLines_of_empty (h : t.mappingsSize = 0) : t.FromLines lines :=
  fun k hk => absurd (h ▸ hk) (Nat.not_lt_zero k)

theorem FromLines.addMapping (h : t.FromLines lines) {userId : UInt64} {right old : List UInt8}
    (hline : (userId, right) ∈ lines) (hadd : t.addMapping userId (slot right old) = some t') :
    t'.FromLines lines := by
  rw [StreamMappings.addMapping] at hadd
  split at hadd
  case isFalse => cases hadd
  case isTrue hlt =>
    cases hadd
    intro k hk
    dsimp only at hk ⊢
    rcases Nat.lt_succ_iff_lt_or_eq.mp hk with hold | rfl
    · rw [List.getElem?_set_ne hold.ne', List.getElem?_set_ne hold.ne']
      exact h k hold
    · exact ⟨userId, right, old, hline, List.getElem?_set_self hlt.2, List.getElem?_set_self hlt.1⟩

theorem FromLines.addLines (h : t.FromLines lines) {read : List (UInt64 × List UInt8)}
    (hread : read ⊆ lines) (hadd : t.addLines read = some t') : t'.FromLines lines := by
  induction read generalizing t with
  | nil =>
      cases hadd
      exact h
  | cons line read ih =>
      obtain ⟨userId, right⟩ := line
      rw [addLines_cons] at hadd
      obtain ⟨name, -, hadd⟩ := Option.bind_eq_some_iff.mp hadd
      obtain ⟨u, hu, hrest⟩ := Option.bind_eq_some_iff.mp hadd
      exact ih (h.addMapping (hread List.mem_cons_self) hu)
        (fun line hline => hread (List.mem_cons_of_mem _ hline)) hrest

/-- Whenever the job sees the file, it has the same contents. -/
def Sees (content : List UInt8) (file : Option FileView) : Prop :=
  ∀ view, file = some view → view.content = content

theorem FromLines.updateMappingsJobFn {parse : Parser} {content : List UInt8}
    (h : t.FromLines (parse content)) {file : Option FileView} (hfile : Sees content file)
    (hload : t.updateMappingsJobFn parse file = some t') : t'.FromLines (parse content) := by
  cases file with
  | none =>
      cases hload
      exact h
  | some view =>
      obtain rfl := hfile view rfl
      rw [StreamMappings.updateMappingsJobFn] at hload
      split at hload
      case h_1 =>
        cases hload
        exact h
      case h_2 =>
        split at hload
        case isFalse =>
          cases hload
          exact h
        case isTrue =>
          obtain ⟨u, hu, hload⟩ := Option.bind_eq_some_iff.mp hload
          cases hload
          have hfrom : u.FromLines (parse view.content) :=
            FromLines.addLines (fromLines_of_empty rfl) (List.Subset.refl _) hu
          exact hfrom

theorem FromLines.mergeEntry (h : t.FromLines lines) (hloaded : loaded.FromLines lines) {i : ℕ}
    (hi : i < loaded.mappingsSize) (hstep : loaded.mergeEntry t i = some t') :
    t'.FromLines lines := by
  rcases mergeEntry_eq_some hstep with rfl | ⟨userId, name, hid, hname, hadd⟩
  · exact h
  · obtain ⟨userId', right, old, hline, hid', hname'⟩ := hloaded i hi
    obtain rfl : userId = userId' := Option.some.inj (hid.symm.trans hid')
    obtain rfl : name = slot right old := Option.some.inj (hname.symm.trans hname')
    exact h.addMapping hline hadd

theorem FromLines.mergeLoaded (h : t.FromLines lines) (hloaded : loaded.FromLines lines)
    (hmerge : t.mergeLoaded nsort loaded = some t') : t'.FromLines lines := by
  obtain ⟨merged, hmerged, hsort⟩ := mergeLoaded_eq_some hmerge
  rw [merge_eq_run] at hmerged
  have hfrom : merged.FromLines lines := run_invariant_of_mem _
    (fun u i hi u' hu => hu.mergeEntry hloaded (List.mem_range.mp hi)) h hmerged
  rcases hsort with rfl | hsort
  · exact hfrom
  · obtain ⟨sorted, -, rfl⟩ := sortMappings_eq_some hsort
    exact hfrom

theorem nameAt_of_slot {k : ℕ} {right old : List UInt8}
    (h : t.mappingNames[k]? = some (slot right old)) :
    t.nameAt k = some (keptName right) := by
  obtain ⟨hlt, hslot⟩ := List.getElem?_eq_some_iff.mp h
  have hbehind : (t.mappingNames.drop k).flatten =
      slot right old ++ (t.mappingNames.drop (k + 1)).flatten := by
    rw [List.drop_eq_getElem_cons hlt, List.flatten_cons, hslot]
  have hzero : 0 ∈ (t.mappingNames.drop k).flatten := by
    rw [hbehind]
    exact List.mem_append_left _ (zero_mem_slot right old)
  rw [nameAt, if_pos ⟨Int.natCast_nonneg k, Int.ofNat_lt.mpr hlt⟩, Int.toNat_natCast]
  dsimp only
  rw [if_pos hzero, hbehind, slot, List.append_assoc, List.cons_append, takeWhile_append_zero,
    keptName, min_comm,
    ← List.take_eq_take_min]

end FromLines

end StreamMappings

namespace Tables

/-- Whenever the change sees the file, it has the same contents. -/
def Reads (content : List UInt8) : Change → Prop
  | .load file => StreamMappings.Sees content file
  | .merge => True

/-- The entries of both tables are those of the lines. -/
structure FromLines (lines : List (UInt64 × List UInt8)) (s : Tables) : Prop where
  loaded : s.loaded.FromLines lines
  mappings : s.mappings.FromLines lines

section FromLines

variable {nsort : Nsort} {parse : Parser} {content : List UInt8} {s s' : Tables}

theorem FromLines.step (h : s.FromLines (parse content)) {change : Change}
    (hreads : Reads content change) (hstep : s.step nsort parse change = some s') :
    s'.FromLines (parse content) := by
  cases change with
  | load file =>
      obtain ⟨loaded, hload, rfl⟩ := Option.map_eq_some_iff.mp hstep
      exact ⟨h.loaded.updateMappingsJobFn hreads hload, h.mappings⟩
  | merge =>
      obtain ⟨merged, hmerge, rfl⟩ := Option.map_eq_some_iff.mp hstep
      exact ⟨h.loaded, h.mappings.mergeLoaded h.loaded hmerge⟩

/-- However often the file is loaded and merged, the entries are those of its lines. -/
theorem FromLines.run (h : s.FromLines (parse content)) {changes : List Change}
    (hreads : ∀ change ∈ changes, Reads content change)
    (hrun : Machine.run (Tables.step nsort parse) s changes = some s') :
    s'.FromLines (parse content) :=
  run_invariant_of_mem _ (fun _ change hchange _ hs => hs.step (hreads change hchange)) h hrun

theorem fromLines_new (lines : List (UInt64 × List UInt8)) (mappingsFilepath : List UInt8)
    (versions : ℕ → ℤ) (sorted : ℕ → ℕ → ℤ) :
    (new mappingsFilepath versions sorted).FromLines lines :=
  ⟨StreamMappings.fromLines_of_empty rfl, StreamMappings.fromLines_of_empty rfl⟩

end FromLines

end Tables

namespace StreamRequestManager

/-- The bytes that the path buffer has behind the base path and the slash. -/
def nameRoom (m : StreamRequestManager) : ℕ := m.maxPathLen - 1 - (m.streamsBasepath.length + 1)

/-- What there is of a name of the file in a path. -/
def pathName (m : StreamRequestManager) (right : List UInt8) : List UInt8 :=
  (StreamMappings.keptName right ++ ".rwstream".toUTF8.data.toList).take m.nameRoom

/-- The jobs of the two requests build paths, and these differ. -/
def DifferentFiles (m : StreamRequestManager) (i j : ℕ) : Prop :=
  ∃ path path', path ≠ path' ∧
    (∀ created, ∃ m', m.streamRequestFn i created = some (m', path)) ∧
    ∀ created, ∃ m', m.streamRequestFn j created = some (m', path')

section Paths

variable {m : StreamRequestManager} {i j : ℕ} {userId : UInt64}

theorem filepath_inj (m : StreamRequestManager) (right right' : List UInt8) :
    m.filepath (StreamMappings.keptName right) = m.filepath (StreamMappings.keptName right') ↔
      m.pathName right = m.pathName right' := by
  have hpath : ∀ right, m.filepath (StreamMappings.keptName right) =
      (m.streamsBasepath ++ "/".toUTF8.data.toList).take (m.maxPathLen - 1) ++
        m.pathName right := by
    intro right
    have hlength : (m.streamsBasepath ++ "/".toUTF8.data.toList).length =
        m.streamsBasepath.length + 1 := List.length_append
    rw [filepath, List.append_assoc, List.take_append, hlength]
    rfl
  rw [hpath, hpath, List.append_right_inj]

/-- Where the base path leaves 74 bytes the buffer has room for all that is kept. -/
theorem pathName_inj (h : m.streamsBasepath.length + 74 ≤ m.maxPathLen)
    (right right' : List UInt8) : m.pathName right = m.pathName right' ↔
      StreamMappings.keptName right = StreamMappings.keptName right' := by
  have hwhole : ∀ right,
      m.pathName right = StreamMappings.keptName right ++ ".rwstream".toUTF8.data.toList := by
    intro right
    have hkept : (StreamMappings.keptName right).length ≤ 63 :=
      (List.takeWhile_prefix _).length_le.trans (List.length_take_le _ _)
    have hsuffix : ".rwstream".toUTF8.data.toList.length = 9 := by decide +kernel
    have hroom : 72 ≤ m.nameRoom := by
      rw [nameRoom]
      omega
    refine List.take_of_length_le ?_
    rw [List.length_append, hsuffix]
    omega
  rw [hwhole, hwhole, List.append_left_inj]

theorem Named.streamRequestFn (h : m.Named i userId) {lines : List (UInt64 × List UInt8)}
    (hdistinct : DistinctLines lines) {t : StreamMappings} (ht : m.buffers[m.mappings]? = some t)
    (hfrom : t.FromLines lines) {right : List UInt8} (hright : (userId, right) ∈ lines)
    (created : Option (Option ℕ)) :
    ∃ m', m.streamRequestFn i created =
      some (m', m.filepath (StreamMappings.keptName right)) := by
  obtain ⟨req, t', k, hreq, -, ht', hindex, hk, hid⟩ := h
  obtain rfl : t = t' := Option.some.inj (ht.symm.trans ht')
  obtain ⟨userId', right', old, hline, hid', hname⟩ := hfrom k hk
  obtain rfl : userId = userId' := Option.some.inj (hid.symm.trans hid')
  obtain rfl : right = right' := hdistinct.name_unique hright hline
  rw [StreamRequestManager.streamRequestFn]
  simp only [hreq, ht, hindex, StreamMappings.nameAt_of_slot hname, Option.bind_eq_bind,
    Option.bind_some]
  cases created with
  | none => exact ⟨_, rfl⟩
  | some mmfile => exact ⟨_, rfl⟩

theorem DifferentFiles.ne (h : m.DifferentFiles i j) {m₁ m₂ : StreamRequestManager}
    {path path' : List UInt8} (hi : m.streamRequestFn i none = some (m₁, path))
    (hj : m.streamRequestFn j none = some (m₂, path')) : path ≠ path' := by
  obtain ⟨built, built', hne, hall, hall'⟩ := h
  obtain ⟨m₃, h₃⟩ := hall none
  obtain ⟨m₄, h₄⟩ := hall' none
  obtain rfl : built = path := congrArg Prod.snd (Option.some.inj (h₃.symm.trans hi))
  obtain rfl : built' = path' := congrArg Prod.snd (Option.some.inj (h₄.symm.trans hj))
  exact hne

/-- For every file with distinct ids and distinct names, after any loads and merges of it, and
for any two requests for users that it has: the jobs build different paths exactly when the
two names differ in what the path has of them. That is their first 63 bytes as far as the
first zero, with the suffix behind them, as far as the buffer has room. -/
theorem differentFiles_iff {nsort : Nsort} {parse : Parser} {content : List UInt8}
    (hdistinct : DistinctLines (parse content)) {mappingsFilepath : List UInt8} {versions : ℕ → ℤ}
    {sorted : ℕ → ℕ → ℤ} {changes : List Tables.Change}
    (hreads : ∀ change ∈ changes, Tables.Reads content change) {s : Tables}
    (hrun : run (Tables.step nsort parse) (Tables.new mappingsFilepath versions sorted) changes =
      some s)
    (hmappings : m.buffers[m.mappings]? = some s.mappings) {u v : UInt64} (hi : m.Named i u)
    (hj : m.Named j v) {right right' : List UInt8} (hright : (u, right) ∈ parse content)
    (hright' : (v, right') ∈ parse content) :
    m.DifferentFiles i j ↔ m.pathName right ≠ m.pathName right' := by
  have hfrom := ((Tables.fromLines_new _ _ _ _).run hreads hrun).mappings
  have hpath := hi.streamRequestFn hdistinct hmappings hfrom hright
  have hpath' := hj.streamRequestFn hdistinct hmappings hfrom hright'
  rw [Ne, ← m.filepath_inj right right']
  constructor
  · intro h
    obtain ⟨m₁, h₁⟩ := hpath none
    obtain ⟨m₂, h₂⟩ := hpath' none
    exact h.ne h₁ h₂
  · exact fun hne => ⟨_, _, hne, hpath, hpath'⟩

/-- The file of the names of two users, 1 and 2. -/
def twoLines (name name' : List UInt8) : FileView :=
  ⟨some 5, [49, 61] ++ name ++ [10, 50, 61] ++ name'⟩

/-- The requests of the two users, with the numbers of the first two entries. -/
def twoRequests (s : Tables) : StreamRequestManager :=
  { newManager with
    buffers := [s.loaded, s.mappings]
    requests := ⟨0, 0, 0, 1, 64, none⟩ :: ⟨1, 0, 1, 2, 64, none⟩ ::
      List.replicate 254 ⟨0, 0, 0, 0, 0, none⟩ }

/-- The file is loaded and merged into the tables of a new manager, the memory of whose
`m_mappings_sorted` happens to be in order. -/
def loadAndMerge (file : FileView) : Option Tables :=
  run (Tables.step StreamMappings.insertionNsort parseLines)
    (Tables.new [] (fun _ => 0) fun _ i => i) [.load (some file), .merge]

/-- Both users are mapped: the search finds their entries. -/
structure BothMapped (s : Tables) : Prop where
  findsFirst : s.mappings.findMapping 1 = some 0
  findsSecond : s.mappings.findMapping 2 = some 1
  first : (twoRequests s).Named 0 1
  second : (twoRequests s).Named 1 2

theorem exists_bothMapped (file : FileView)
    (h : (loadAndMerge file).map (fun s => (s.mappings.findMapping 1, s.mappings.findMapping 2,
      s.mappings.mappingsSize, s.mappings.ids)) = some (some 0, some 1, 2, [1, 2])) :
    ∃ s, loadAndMerge file = some s ∧ BothMapped s := by
  obtain ⟨s, hs, hfound⟩ := Option.map_eq_some_iff.mp h
  simp only [Prod.mk.injEq] at hfound
  obtain ⟨hfirst, hsecond, hsize, hids⟩ := hfound
  have hid : ∀ k < 2, s.mappings.mappingIds[k]? = [(1 : UInt64), 2][k]? := by
    intro k hk
    rw [← StreamMappings.ids_getElem? s.mappings (hsize.symm ▸ hk), hids]
  refine ⟨s, hs, hfirst, hsecond, ?_, ?_⟩
  · exact ⟨_, s.mappings, 0, rfl, rfl, rfl, rfl, by omega, hid 0 (by decide)⟩
  · exact ⟨_, s.mappings, 1, rfl, rfl, rfl, rfl, by omega, hid 1 (by decide)⟩

theorem reads_loadAndMerge (file : FileView) :
    ∀ change ∈ [Tables.Change.load (some file), .merge], Tables.Reads file.content change := by
  intro change hchange
  rw [List.mem_cons, List.mem_singleton] at hchange
  rcases hchange with rfl | rfl
  · exact fun view hview => congrArg FileView.content (Option.some.inj hview).symm
  · exact trivial

/-- The names `a` and `b`. -/
theorem differentFiles_short : ∃ s, loadAndMerge (twoLines [97] [98]) = some s ∧
    (twoRequests s).DifferentFiles 0 1 := by
  obtain ⟨s, hs, hmapped⟩ := exists_bothMapped (twoLines [97] [98]) (by decide +kernel)
  have hdistinct : DistinctLines (parseLines (twoLines [97] [98]).content) :=
    ⟨by decide +kernel, by decide +kernel⟩
  have hfirst : (1, [97]) ∈ parseLines (twoLines [97] [98]).content := by decide +kernel
  have hsecond : (2, [98]) ∈ parseLines (twoLines [97] [98]).content := by decide +kernel
  have hname : newManager.pathName [97] ≠ newManager.pathName [98] := by decide +kernel
  exact ⟨s, hs, (differentFiles_iff hdistinct (reads_loadAndMerge _) hs rfl hmapped.first
    hmapped.second hfirst hsecond).mpr hname⟩

/-- Two names of 64 bytes, of which the last differ. -/
def longLines : FileView :=
  twoLines (List.replicate 63 97 ++ [98]) (List.replicate 63 97 ++ [99])

/-- Both users have their own name, and their jobs build the same path. -/
theorem same_file : DistinctLines (parseLines longLines.content) ∧
    ∃ s, loadAndMerge longLines = some s ∧ BothMapped s ∧
      ¬ (twoRequests s).DifferentFiles 0 1 := by
  obtain ⟨s, hs, hmapped⟩ := exists_bothMapped longLines (by decide +kernel)
  have hdistinct : DistinctLines (parseLines longLines.content) :=
    ⟨by decide +kernel, by decide +kernel⟩
  have hlines : parseLines longLines.content =
      [(1, List.replicate 63 97 ++ [98]), (2, List.replicate 63 97 ++ [99])] := by decide +kernel
  have hkept : StreamMappings.keptName (List.replicate 63 97 ++ [98]) =
      StreamMappings.keptName (List.replicate 63 97 ++ [99]) := by decide +kernel
  have hfrom := ((Tables.fromLines_new _ _ _ _).run (reads_loadAndMerge longLines) hs).mappings
  rw [hlines] at hdistinct hfrom
  obtain ⟨m₁, h₁⟩ := hmapped.first.streamRequestFn hdistinct rfl hfrom List.mem_cons_self none
  obtain ⟨m₂, h₂⟩ := hmapped.second.streamRequestFn hdistinct rfl hfrom
    (List.mem_cons_of_mem _ List.mem_cons_self) none
  refine ⟨hlines ▸ hdistinct, s, hs, hmapped, fun h => h.ne h₁ h₂ ?_⟩
  rw [hkept]

end Paths

end StreamRequestManager

end StreamRequest

end ConArtist
