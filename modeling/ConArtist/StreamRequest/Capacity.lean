import ConArtist.StreamRequest.Jobs

/-!
# Do the mapping tables stay within their arrays

The file of the mappings may have 64 KiB, the arrays of a table have 1024 elements, and
neither the loop over the lines nor `add_mapping` looks at `m_mappings_capacity`. Nor does
anything leave `m_mappings`, while the files come and go.

`Tables` has the two tables with their loads and merges, in any order. `WritesInRange` says
that a load or a merge writes within the arrays, `RoomFor` asks for a file of 1024 lines at
most, and for fewer than 1024 entries whenever the merge has one to add.
-/

namespace ConArtist

namespace StreamRequest

open Machine

namespace StreamMappings

/-- One iteration of the loop that merges a loaded table. -/
def mergeEntry (loaded m : StreamMappings) (i : ℕ) : Option StreamMappings := do
  let userId ← loaded.mappingIds[i]?
  let name ← loaded.mappingNames[i]?
  let found ← m.findMapping userId
  if 0 ≤ found then some m else m.addMapping userId name

/-- The search in the iteration does not find the id. -/
def Misses (loaded m : StreamMappings) (i : ℕ) : Prop :=
  ∃ userId found, loaded.mappingIds[i]? = some userId ∧ m.findMapping userId = some found ∧
    found < 0

/-- The lines that `update_mappings_job_fn` stores, when it sees that the file has
changed. -/
def reload (parse : Parser) (t : StreamMappings) : Option FileView → List (UInt64 × List UInt8)
  | none => []
  | some view =>
      match view.mtime with
      | none => []
      | some mtime =>
          if mtime ≠ t.fileMtime ∧ view.content.length ≤ t.fileContentCapacity then
            parse view.content
          else []

/-- The entries are within the capacity, and each name ends inside its slot. -/
structure WithinCapacity (t : StreamMappings) : Prop where
  size_le : t.mappingsSize ≤ t.mappingsCapacity
  terminated : ∀ name ∈ t.names, name.length = dMappingNameMaxlen ∧ 0 ∈ name

/-- The arrays have the lengths that they were allocated with. -/
structure Allocated (t : StreamMappings) : Prop where
  capacity : t.mappingsCapacity = 1024
  ids : t.mappingIds.length = 1024
  names : t.mappingNames.length = 1024
  sorted : t.mappingsSorted.length = 1024
  slots : ∀ name ∈ t.mappingNames, name.length = dMappingNameMaxlen
  within : t.WithinCapacity

theorem allocated_newMappings (filepath : List UInt8) (version : ℤ) (sorted : ℕ → ℤ) :
    (newMappings filepath version sorted).Allocated where
  capacity := rfl
  ids := List.length_replicate
  names := List.length_replicate
  sorted := by rw [newMappings, List.length_map, List.length_range]
  slots := by
    intro name hname
    rw [List.eq_of_mem_replicate hname, List.length_replicate]
  within := by
    refine ⟨Nat.zero_le _, fun name hname => ?_⟩
    rw [StreamMappings.names, newMappings, List.take_zero] at hname
    exact absurd hname List.not_mem_nil

section Entries

variable {t t' loaded : StreamMappings} {userId : UInt64} {name : List UInt8}

theorem merge_eq_run (t loaded : StreamMappings) (is : List ℕ) :
    t.merge loaded is = run (mergeEntry loaded) t is := by
  induction is generalizing t with
  | nil => rfl
  | cons i is ih =>
      rw [merge, run_cons, mergeEntry]
      simp only [Option.bind_eq_bind, Option.bind_assoc]
      refine congrArg _ (funext fun userId => congrArg _ (funext fun name =>
        congrArg _ (funext fun found => ?_)))
      split
      case isTrue => exact ih t
      case isFalse => exact congrArg _ (funext ih)

theorem Allocated.exists_addMapping_iff (h : t.Allocated) (userId : UInt64) (name : List UInt8) :
    (∃ t', t.addMapping userId name = some t') ↔ t.mappingsSize < 1024 := by
  rw [addMapping]
  split
  case isTrue hlt => exact iff_of_true ⟨_, rfl⟩ (h.ids ▸ hlt.2)
  case isFalse hge =>
    rw [h.names, h.ids, and_self] at hge
    refine iff_of_false ?_ hge
    rintro ⟨t', ht'⟩
    cases ht'

theorem Allocated.addMapping (h : t.Allocated) (hlength : name.length = dMappingNameMaxlen)
    (hzero : 0 ∈ name) (hadd : t.addMapping userId name = some t') :
    t'.Allocated ∧ t'.mappingsSize = t.mappingsSize + 1 := by
  have hlt : t.mappingsSize < 1024 :=
    (h.exists_addMapping_iff userId name).mp ⟨t', hadd⟩
  rw [StreamMappings.addMapping, if_pos ⟨h.names.symm ▸ hlt, h.ids.symm ▸ hlt⟩] at hadd
  cases hadd
  refine ⟨⟨h.capacity, ?_, ?_, h.sorted, fun x hx => ?_, ?_, fun x hx => ?_⟩, rfl⟩
  · rw [List.length_set, h.ids]
  · rw [List.length_set, h.names]
  · rcases List.mem_or_eq_of_mem_set hx with hx | rfl
    · exact h.slots x hx
    · exact hlength
  · rw [h.capacity]
    exact hlt
  · -- the names before, and the one that is added
    rw [StreamMappings.names, List.take_add_one, List.take_set_of_le (Nat.le_refl _),
      List.mem_append] at hx
    rcases hx with hx | hx
    · exact h.within.terminated x hx
    · rw [List.getElem?_set_self (h.names.symm ▸ hlt), Option.toList_some,
        List.mem_singleton] at hx
      exact hx ▸ ⟨hlength, hzero⟩

/-- The slot of a name after a line was stored: the cut name, the closing zero, and behind
it what was there. -/
def slot (right old : List UInt8) : List UInt8 :=
  right.take (min right.length (dMappingNameMaxlen - 1)) ++
    0 :: old.drop (min right.length (dMappingNameMaxlen - 1) + 1)

theorem length_slot (right : List UInt8) (h : name.length = dMappingNameMaxlen) :
    (slot right name).length = dMappingNameMaxlen := by
  rw [slot, List.length_append, List.length_take, List.length_cons, List.length_drop, h]
  simp only [dMappingNameMaxlen]
  omega

theorem zero_mem_slot (right name : List UInt8) : 0 ∈ slot right name :=
  List.mem_append_right _ List.mem_cons_self

theorem addLines_cons (t : StreamMappings) (userId : UInt64) (right : List UInt8)
    (lines : List (UInt64 × List UInt8)) :
    t.addLines ((userId, right) :: lines) = t.mappingNames[t.mappingsSize]?.bind fun name =>
      (t.addMapping userId (slot right name)).bind fun t' => t'.addLines lines := by
  rw [addLines]
  cases hname : t.mappingNames[t.mappingsSize]? with
  | none => rfl
  | some name =>
      have hlt := (List.getElem?_eq_some_iff.mp hname).1
      simp only [Option.bind_eq_bind, Option.bind_some, StreamMappings.addMapping, hlt, true_and]
      split <;> rfl

theorem Allocated.addLines {lines : List (UInt64 × List UInt8)} (h : t.Allocated)
    (hadd : t.addLines lines = some t') : t'.Allocated := by
  induction lines generalizing t with
  | nil =>
      cases hadd
      exact h
  | cons line lines ih =>
      obtain ⟨userId, right⟩ := line
      rw [addLines_cons] at hadd
      obtain ⟨name, hname, hadd⟩ := Option.bind_eq_some_iff.mp hadd
      obtain ⟨u, hu, hrest⟩ := Option.bind_eq_some_iff.mp hadd
      have hslot := length_slot right (h.slots name (List.mem_of_getElem? hname))
      exact ih (h.addMapping hslot (zero_mem_slot right name) hu).1 hrest

/-- The lines can be stored if and only if there is room for all of them. -/
theorem Allocated.exists_addLines_iff (h : t.Allocated) (lines : List (UInt64 × List UInt8)) :
    (∃ t', t.addLines lines = some t') ↔ t.mappingsSize + lines.length ≤ 1024 := by
  induction lines generalizing t with
  | nil => exact iff_of_true ⟨t, rfl⟩ (h.capacity ▸ h.within.size_le)
  | cons line lines ih =>
      obtain ⟨userId, right⟩ := line
      rw [List.length_cons, addLines_cons]
      rcases Nat.lt_or_ge t.mappingsSize 1024 with hlt | hge
      · have hname := List.getElem?_eq_getElem (h.names.symm ▸ hlt)
        have hslot := length_slot right (h.slots _ (List.mem_of_getElem? hname))
        obtain ⟨u, hu⟩ := (h.exists_addMapping_iff userId _).mpr hlt
        obtain ⟨hallocated, hsize⟩ := h.addMapping hslot (zero_mem_slot right _) hu
        rw [hname, Option.bind_some, hu, Option.bind_some, ih hallocated, hsize]
        omega
      · rw [List.getElem?_eq_none (h.names.symm ▸ hge), Option.bind_none]
        refine iff_of_false ?_ (by omega)
        rintro ⟨t', ht'⟩
        cases ht'

theorem Allocated.cleared (h : t.Allocated) (content : List UInt8) (n : ℕ) :
    { t with fileContent := content, fileContentSize := n, mappingsSize := 0 }.Allocated where
  capacity := h.capacity
  ids := h.ids
  names := h.names
  sorted := h.sorted
  slots := h.slots
  within := by
    refine ⟨Nat.zero_le _, fun name hname => ?_⟩
    rw [StreamMappings.names, List.take_zero] at hname
    exact absurd hname List.not_mem_nil

theorem Allocated.versioned (h : t.Allocated) (version mtime : ℤ) :
    { t with version := version, fileMtime := mtime }.Allocated where
  capacity := h.capacity
  ids := h.ids
  names := h.names
  sorted := h.sorted
  slots := h.slots
  within := ⟨h.within.size_le, h.within.terminated⟩

theorem reload_of_changed {parse : Parser} {view : FileView} {mtime : ℤ}
    (hview : view.mtime = some mtime) (hchanged : mtime ≠ t.fileMtime)
    (hfits : view.content.length ≤ t.fileContentCapacity) :
    t.reload parse (some view) = parse view.content := by
  rw [reload, hview]
  exact if_pos ⟨hchanged, hfits⟩

/-- The job keeps the arrays, and stores in them exactly when the file has 1024 lines at
most. -/
theorem Allocated.updateMappingsJobFn (h : t.Allocated) (parse : Parser)
    (file : Option FileView) :
    ((∃ t', t.updateMappingsJobFn parse file = some t') ↔
        (t.reload parse file).length ≤ 1024) ∧
      ∀ t', t.updateMappingsJobFn parse file = some t' → t'.Allocated := by
  have hsame : ((∃ t', some t = some t') ↔ ([] : List (UInt64 × List UInt8)).length ≤ 1024) ∧
      ∀ t', some t = some t' → t'.Allocated :=
    ⟨iff_of_true ⟨t, rfl⟩ (Nat.zero_le _), fun t' ht' => Option.some.inj ht' ▸ h⟩
  cases file with
  | none => exact hsame
  | some view =>
      rw [StreamMappings.updateMappingsJobFn, reload]
      cases view.mtime with
      | none => exact hsame
      | some mtime =>
          dsimp only
          split
          case isFalse => exact hsame
          case isTrue =>
            have hcleared := h.cleared (view.content ++ t.fileContent.drop view.content.length)
              view.content.length
            have hadd := hcleared.exists_addLines_iff (parse view.content)
            rw [Nat.zero_add] at hadd
            rw [← hadd]
            constructor
            · constructor
              · rintro ⟨t', ht'⟩
                obtain ⟨loaded, hloaded, -⟩ := Option.bind_eq_some_iff.mp ht'
                exact ⟨loaded, hloaded⟩
              · rintro ⟨loaded, hloaded⟩
                exact ⟨_, Option.bind_eq_some_iff.mpr ⟨loaded, hloaded, rfl⟩⟩
            · intro t' ht'
              obtain ⟨loaded, hloaded, ht'⟩ := Option.bind_eq_some_iff.mp ht'
              cases ht'
              exact (hcleared.addLines hloaded).versioned _ _

end Entries

section Merging

variable {nsort : Nsort} {t t' loaded : StreamMappings}

theorem mergeEntry_eq_some {i : ℕ} (hstep : loaded.mergeEntry t i = some t') :
    t' = t ∨ ∃ userId name, loaded.mappingIds[i]? = some userId ∧
      loaded.mappingNames[i]? = some name ∧ t.addMapping userId name = some t' := by
  obtain ⟨userId, hid, hstep⟩ := Option.bind_eq_some_iff.mp hstep
  obtain ⟨name, hname, hstep⟩ := Option.bind_eq_some_iff.mp hstep
  obtain ⟨found, -, hstep⟩ := Option.bind_eq_some_iff.mp hstep
  split at hstep
  case isTrue => exact Or.inl (Option.some.inj hstep).symm
  case isFalse => exact Or.inr ⟨userId, name, hid, hname, hstep⟩

theorem Allocated.mergeEntry (h : t.Allocated) (hloaded : loaded.Allocated) {i : ℕ}
    (hi : i < loaded.mappingsSize) (hstep : loaded.mergeEntry t i = some t') : t'.Allocated := by
  rcases mergeEntry_eq_some hstep with rfl | ⟨userId, name, -, hname, hadd⟩
  · exact h
  · have hmem : name ∈ loaded.names := by
      refine List.mem_of_getElem? (i := i) ?_
      rw [StreamMappings.names, List.getElem?_take_of_lt hi, hname]
    obtain ⟨hlength, hzero⟩ := hloaded.within.terminated name hmem
    exact (h.addMapping hlength hzero hadd).1

/-- A sort rearranges `m_mappings_sorted` and leaves the rest. -/
theorem Allocated.sortMappings (h : t.Allocated) (hnsort : Permutes nsort)
    (hsort : t.sortMappings nsort = some t') : t'.Allocated := by
  obtain ⟨sorted, hsorted, rfl⟩ := sortMappings_eq_some hsort
  refine ⟨h.capacity, h.ids, h.names, ?_, h.slots, ⟨h.within.size_le, h.within.terminated⟩⟩
  have hsize := h.within.size_le
  have hcapacity := h.capacity
  have hlength := h.sorted
  rw [List.length_append, List.length_drop, (hnsort _ _ _ hsorted).length_eq, index,
    List.length_take]
  omega

theorem Allocated.merge (h : t.Allocated) (hloaded : loaded.Allocated) {is : List ℕ}
    (his : ∀ i ∈ is, i < loaded.mappingsSize) (hmerge : t.merge loaded is = some t') :
    t'.Allocated := by
  rw [merge_eq_run] at hmerge
  exact run_invariant_of_mem _ (fun u i hi u' hu => hu.mergeEntry hloaded (his i hi)) h hmerge

theorem Allocated.mergeLoaded (h : t.Allocated) (hloaded : loaded.Allocated)
    (hnsort : Permutes nsort) (hmerge : t.mergeLoaded nsort loaded = some t') :
    t'.Allocated := by
  obtain ⟨merged, hmerged, hsort⟩ := mergeLoaded_eq_some hmerge
  have hallocated := h.merge hloaded (fun i hi => List.mem_range.mp hi) hmerged
  rcases hsort with rfl | hsort
  · exact hallocated
  · exact hallocated.sortMappings hnsort hsort

/-- The entry that an iteration adds is within the arrays. -/
def EntryInRange (loaded t : StreamMappings) (i : ℕ) : Prop :=
  Misses loaded t i →
    t.mappingsSize < t.mappingIds.length ∧ t.mappingsSize < t.mappingNames.length

/-- There is room for the entry that an iteration adds. -/
def EntryRoom (loaded t : StreamMappings) (i : ℕ) : Prop :=
  Misses loaded t i → t.mappingsSize < 1024

/-- The entries that a merge adds, and the cells that it sorts, are within the arrays. -/
structure MergeInRange (loaded t : StreamMappings) : Prop where
  entries : Attempts (StreamMappings.mergeEntry loaded) (EntryInRange loaded) t
    (List.range loaded.mappingsSize)
  sorted : ∀ merged, t.merge loaded (List.range loaded.mappingsSize) = some merged →
    t.mappingsSize < merged.mappingsSize → merged.mappingsSize ≤ merged.mappingsSorted.length

/-- An iteration adds one entry at most, so there is room when the table could take all. -/
theorem attempts_entryRoom {is : List ℕ} (h : t.mappingsSize + is.length ≤ 1024) :
    Attempts (StreamMappings.mergeEntry loaded) (EntryRoom loaded) t is := by
  induction is generalizing t with
  | nil => exact trivial
  | cons i is ih =>
      rw [List.length_cons] at h
      refine ⟨fun _ => by omega, fun u hu => ih ?_⟩
      rcases mergeEntry_eq_some hu with rfl | ⟨userId, name, -, -, hadd⟩
      · omega
      · rw [(addMapping_eq_some hadd).2.2]
        omega

theorem Allocated.entryInRange_iff (h : t.Allocated) (i : ℕ) :
    EntryInRange loaded t i ↔ EntryRoom loaded t i := by
  rw [EntryInRange, EntryRoom, h.ids, h.names, and_self]

/-- A merge writes within the arrays exactly when there is room for each entry it adds. -/
theorem Allocated.mergeInRange_iff (h : t.Allocated) (hloaded : loaded.Allocated) :
    MergeInRange loaded t ↔ Attempts (StreamMappings.mergeEntry loaded) (EntryRoom loaded) t
      (List.range loaded.mappingsSize) := by
  have hentries : ∀ is : List ℕ, (∀ i ∈ is, i < loaded.mappingsSize) → ∀ u : StreamMappings,
      u.Allocated → (Attempts (StreamMappings.mergeEntry loaded) (EntryInRange loaded) u is ↔
        Attempts (StreamMappings.mergeEntry loaded) (EntryRoom loaded) u is) := by
    intro is
    induction is with
    | nil => exact fun _ _ _ => Iff.rfl
    | cons i is ih =>
        intro his u hu
        refine and_congr (hu.entryInRange_iff i) (forall_congr' fun v => forall_congr' fun hv => ?_)
        exact ih (fun j hj => his j (List.mem_cons_of_mem i hj)) v
          (hu.mergeEntry hloaded (his i List.mem_cons_self) hv)
  have hrange : ∀ i ∈ List.range loaded.mappingsSize, i < loaded.mappingsSize :=
    fun i hi => List.mem_range.mp hi
  rw [← hentries _ hrange t h]
  refine ⟨MergeInRange.entries, fun hall => ⟨hall, fun merged hmerged _ => ?_⟩⟩
  have hallocated := h.merge hloaded hrange hmerged
  rw [hallocated.sorted, ← hallocated.capacity]
  exact hallocated.within.size_le

end Merging

end StreamMappings

/-- The two tables of a manager: the one that is loaded, and `m_mappings`. -/
structure Tables where
  loaded : StreamMappings
  mappings : StreamMappings

namespace Tables

/-- The tables of a new manager. -/
def new (mappingsFilepath : List UInt8) (versions : ℕ → ℤ) (sorted : ℕ → ℕ → ℤ) : Tables where
  loaded := newMappings mappingsFilepath (versions 0) (sorted 0)
  mappings := newMappings mappingsFilepath (versions 1) (sorted 1)

/-- What happens to the tables: a job that looks at the file, or a merge. -/
inductive Change where
  | load (file : Option FileView)
  | merge

def step (nsort : Nsort) (parse : Parser) (s : Tables) : Change → Option Tables
  | .load file => (s.loaded.updateMappingsJobFn parse file).map fun t => { s with loaded := t }
  | .merge => (s.mappings.mergeLoaded nsort s.loaded).map fun t => { s with mappings := t }

structure WithinCapacity (s : Tables) : Prop where
  loaded : s.loaded.WithinCapacity
  mappings : s.mappings.WithinCapacity

/-- What the change writes is within the arrays. -/
def WritesInRange (parse : Parser) (s : Tables) : Change → Prop
  | .load file => ∃ t, s.loaded.updateMappingsJobFn parse file = some t
  | .merge => StreamMappings.MergeInRange s.loaded s.mappings

/-- There is room for the lines of the file, or for each entry that the merge adds. -/
def RoomFor (parse : Parser) (s : Tables) : Change → Prop
  | .load file => (s.loaded.reload parse file).length ≤ 1024
  | .merge => Attempts s.loaded.mergeEntry (StreamMappings.EntryRoom s.loaded) s.mappings
      (List.range s.loaded.mappingsSize)

/-- The arrays of both tables have the lengths that they were allocated with. -/
structure Allocated (s : Tables) : Prop where
  loaded : s.loaded.Allocated
  mappings : s.mappings.Allocated

section Steps

variable {nsort : Nsort} {parse : Parser} {s s' : Tables}

theorem Allocated.withinCapacity (h : s.Allocated) : s.WithinCapacity :=
  ⟨h.loaded.within, h.mappings.within⟩

theorem Allocated.step (h : s.Allocated) (hnsort : Permutes nsort) {change : Change}
    (hstep : s.step nsort parse change = some s') : s'.Allocated := by
  cases change with
  | load file =>
      obtain ⟨t, ht, rfl⟩ := Option.map_eq_some_iff.mp hstep
      exact ⟨(h.loaded.updateMappingsJobFn parse file).2 t ht, h.mappings⟩
  | merge =>
      obtain ⟨t, ht, rfl⟩ := Option.map_eq_some_iff.mp hstep
      exact ⟨h.loaded, h.mappings.mergeLoaded h.loaded hnsort ht⟩

theorem step_load_mappings {file : Option FileView}
    (hstep : s.step nsort parse (.load file) = some s') : s'.mappings = s.mappings := by
  obtain ⟨t, -, rfl⟩ := Option.map_eq_some_iff.mp hstep
  rfl

theorem Allocated.writesInRange_iff (h : s.Allocated) (change : Change) :
    s.WritesInRange parse change ↔ s.RoomFor parse change := by
  cases change with
  | load file => exact (h.loaded.updateMappingsJobFn parse file).1
  | merge => exact h.mappings.mergeInRange_iff h.loaded

theorem allocated_new (mappingsFilepath : List UInt8) (versions : ℕ → ℤ) (sorted : ℕ → ℕ → ℤ) :
    (new mappingsFilepath versions sorted).Allocated :=
  ⟨StreamMappings.allocated_newMappings _ _ _, StreamMappings.allocated_newMappings _ _ _⟩

end Steps

/-- For every sequence of files that the job sees and every sequence of merges, in any order,
and whatever the memory of the tables held at first: the tables are within their capacity
in every state and no write is outside the arrays, exactly when every changed file has at
most 1024 lines, and `m_mappings` fewer than 1024 entries whenever a merge adds one. -/
theorem within_capacity_iff {nsort : Nsort} (hnsort : Permutes nsort) (parse : Parser)
    (mappingsFilepath : List UInt8) (versions : ℕ → ℤ) (sorted : ℕ → ℕ → ℤ)
    (changes : List Change) :
    (Throughout (step nsort parse) WithinCapacity (new mappingsFilepath versions sorted) changes ∧
        Attempts (step nsort parse) (WritesInRange parse) (new mappingsFilepath versions sorted)
          changes) ↔
      Attempts (step nsort parse) (RoomFor parse) (new mappingsFilepath versions sorted)
        changes := by
  have hnew := allocated_new mappingsFilepath versions sorted
  rw [throughout_and_attempts_iff, and_iff_right hnew.withinCapacity]
  refine attempts_iff_attempts (I := Allocated)
    (fun s change s' hs _ hstep => hs.step hnsort hstep) ?_ hnew
  intro s change hs
  rw [← hs.writesInRange_iff]
  exact and_iff_left fun s' hstep => (hs.step hnsort hstep).withinCapacity

end Tables

/-- A byte as a hexadecimal digit. -/
def hexDigit (c : UInt8) : UInt64 :=
  if c ≤ 57 then (c - 48).toUInt64 else if c ≤ 70 then (c - 55).toUInt64 else (c - 87).toUInt64

/-- The number of the hexadecimal digits, which colons may separate. -/
def parseMac (left : List UInt8) : UInt64 :=
  (left.filter (· ≠ 58)).foldl (fun id c => id * 16 + hexDigit c) 0

/-- A line is split at its first `=`. -/
def parseLine (line : List UInt8) : Option (UInt64 × List UInt8) :=
  if 61 ∈ line then some (parseMac (line.takeWhile (· ≠ 61)), (line.dropWhile (· ≠ 61)).tail)
  else none

def parseLines : Parser := fun content => (content.splitOn 10).filterMap parseLine

namespace Tables

/-- The file of a number of lines, all of them `0=a`. -/
def linesOfZero (n : ℕ) : FileView := ⟨some 5, [10].intercalate (List.replicate n [48, 61, 97])⟩

theorem parseLines_linesOfZero (n : ℕ) :
    parseLines (linesOfZero (n + 1)).content = List.replicate (n + 1) (0, [97]) := by
  rw [parseLines, linesOfZero, List.splitOn_intercalate]
  · exact List.filterMap_replicate_of_some rfl
  · intro line hline
    rw [List.eq_of_mem_replicate hline]
    decide
  · simp

theorem reload_linesOfZero {n : ℕ} (h : (linesOfZero (n + 1)).content.length ≤ 64 * 1024) :
    (new [] (fun _ => 0) fun _ _ => 0).loaded.reload parseLines (some (linesOfZero (n + 1))) =
      List.replicate (n + 1) (0, [97]) := by
  have hchanged : (5 : ℤ) ≠ (new [] (fun _ => 0) fun _ _ => 0).loaded.fileMtime := by
    have hmtime : (new [] (fun _ => 0) fun _ _ => 0).loaded.fileMtime = 0 := rfl
    rw [hmtime]
    decide
  rw [StreamMappings.reload_of_changed rfl hchanged h, parseLines_linesOfZero]

/-- A file of one line is loaded and merged. -/
theorem within_capacity_one :
    Throughout (step StreamMappings.insertionNsort parseLines) WithinCapacity
      (new [] (fun _ => 0) fun _ _ => 0) [.load (some (linesOfZero 1)), .merge] ∧
    Attempts (step StreamMappings.insertionNsort parseLines) (WritesInRange parseLines)
      (new [] (fun _ => 0) fun _ _ => 0) [.load (some (linesOfZero 1)), .merge] := by
  have hnsort := StreamMappings.permutes_insertionNsort
  refine (within_capacity_iff hnsort parseLines [] _ _ _).mpr ?_
  refine ⟨?_, fun s hs => ⟨?_, fun _ _ => trivial⟩⟩
  · rw [RoomFor, reload_linesOfZero (by decide), List.length_replicate]
    decide
  · -- nothing was merged before, and the loaded table has 1024 entries at most
    have hloaded := ((allocated_new [] (fun _ => 0) fun _ _ => 0).step hnsort hs).loaded
    have hsize : s.mappings.mappingsSize = 0 := by
      rw [step_load_mappings hs]
      rfl
    have hle := hloaded.within.size_le
    rw [hloaded.capacity] at hle
    refine StreamMappings.attempts_entryRoom ?_
    rw [List.length_range, hsize, Nat.zero_add]
    exact hle

/-- A file of 1025 lines is small enough, and the last of them is stored behind the end of the
arrays. -/
theorem line_overrun : (linesOfZero 1025).content.length ≤ 64 * 1024 ∧
    ¬ (Throughout (step StreamMappings.insertionNsort parseLines) WithinCapacity
        (new [] (fun _ => 0) fun _ _ => 0) [.load (some (linesOfZero 1025))] ∧
      Attempts (step StreamMappings.insertionNsort parseLines) (WritesInRange parseLines)
        (new [] (fun _ => 0) fun _ _ => 0) [.load (some (linesOfZero 1025))]) := by
  have hlength : (linesOfZero 1025).content.length ≤ 64 * 1024 := by decide +kernel
  refine ⟨hlength, fun h => ?_⟩
  have hroom := ((allocated_new [] _ _).writesInRange_iff _).mp h.2.1
  rw [RoomFor, reload_linesOfZero hlength, List.length_replicate] at hroom
  exact absurd hroom (by decide)

end Tables

end StreamRequest

end ConArtist
