import Mathlib.Data.List.Sort
import ConArtist.StreamRequest.Search

/-!
# The mappings as a dictionary

A table whose ids are distinct is a dictionary. `add_mapping` appends an entry and leaves
`m_mappings_sorted` alone, so that the next searches and `sort_mappings` take in a cell that
nothing was written to. The merge of a loaded table is right, whatever that memory holds,
exactly when it has no entry to add.
-/

namespace ConArtist

namespace StreamRequest

/-- The library's sort rearranges the array it is given. -/
def Permutes (nsort : Nsort) : Prop :=
  ∀ cmp indices sorted, nsort cmp indices = some sorted → sorted.Perm indices

namespace StreamMappings

def names (m : StreamMappings) : List (List UInt8) := m.mappingNames.take m.mappingsSize

/-- The ids are distinct, and the index has the number of each entry, in the order of the
ids. -/
structure Dictionary (m : StreamMappings) : Prop where
  ids_length : m.mappingIds.length = m.mappingsCapacity
  names_length : m.mappingNames.length = m.mappingsCapacity
  sorted_length : m.mappingsSorted.length = m.mappingsCapacity
  size_le : m.mappingsSize ≤ m.mappingsCapacity
  distinct : m.ids.Nodup
  perm : m.index.Perm ((List.range m.mappingsSize).map Nat.cast)
  sorted : m.index.Pairwise fun i j =>
    ∀ x y, fetch m.ids i = some x → fetch m.ids j = some y → x ≤ y

section Dictionary

variable {m : StreamMappings}

theorem Dictionary.indexed (h : m.Dictionary) : m.Indexed :=
  ⟨h.size_le.trans_eq h.ids_length.symm, h.perm, h.sorted⟩

end Dictionary

/-- The entries of a table are there in the other, under the same numbers. -/
structure Extends (m m' : StreamMappings) : Prop where
  size_le : m.mappingsSize ≤ m'.mappingsSize
  ids : ∀ k < m.mappingsSize, m'.mappingIds[k]? = m.mappingIds[k]?
  names : ∀ k < m.mappingsSize, m'.mappingNames[k]? = m.mappingNames[k]?

section Merge

variable {m m' m'' loaded : StreamMappings}

theorem Extends.refl (m : StreamMappings) : Extends m m :=
  ⟨le_rfl, fun _ _ => rfl, fun _ _ => rfl⟩

theorem Extends.trans (h : Extends m m') (h' : Extends m' m'') : Extends m m'' where
  size_le := h.size_le.trans h'.size_le
  ids := fun k hk => (h'.ids k (hk.trans_le h.size_le)).trans (h.ids k hk)
  names := fun k hk => (h'.names k (hk.trans_le h.size_le)).trans (h.names k hk)

theorem addMapping_eq_some {userId : UInt64} {name : List UInt8}
    (h : m.addMapping userId name = some m') :
    Extends m m' ∧ m'.mappingsSorted = m.mappingsSorted ∧
      m'.mappingsSize = m.mappingsSize + 1 := by
  rw [addMapping] at h
  split at h
  case isTrue =>
    cases h
    refine ⟨⟨Nat.le_succ _, fun k hk => ?_, fun k hk => ?_⟩, rfl, rfl⟩
    · exact List.getElem?_set_ne hk.ne'
    · exact List.getElem?_set_ne hk.ne'
  case isFalse => cases h

/-- The loop appends entries. Where it appends none, it has found all ids of the loaded
table. -/
theorem merge_eq_some {is : List ℕ} (h : m.merge loaded is = some m') :
    Extends m m' ∧ m'.mappingsSorted = m.mappingsSorted ∧
      (m'.mappingsSize = m.mappingsSize → ∀ i ∈ is, ∃ userId found,
        loaded.mappingIds[i]? = some userId ∧ m.findMapping userId = some found ∧ 0 ≤ found) := by
  induction is generalizing m with
  | nil =>
      cases h
      exact ⟨.refl _, rfl, fun _ i hi => absurd hi List.not_mem_nil⟩
  | cons i is ih =>
      rw [merge] at h
      obtain ⟨userId, hid, h⟩ := Option.bind_eq_some_iff.mp h
      obtain ⟨name, -, h⟩ := Option.bind_eq_some_iff.mp h
      obtain ⟨found, hfound, h⟩ := Option.bind_eq_some_iff.mp h
      split at h
      case isTrue hle =>
        obtain ⟨hextends, hsorted, hall⟩ := ih h
        refine ⟨hextends, hsorted, fun hsize j hj => ?_⟩
        rcases List.mem_cons.mp hj with rfl | hj
        · exact ⟨userId, found, hid, hfound, hle⟩
        · exact hall hsize j hj
      case isFalse =>
        obtain ⟨n, hadd, h⟩ := Option.bind_eq_some_iff.mp h
        obtain ⟨hadded, haddedSorted, haddedSize⟩ := addMapping_eq_some hadd
        obtain ⟨hextends, hsorted, -⟩ := ih h
        refine ⟨hadded.trans hextends, hsorted.trans haddedSorted, fun hsize => ?_⟩
        have hle := hextends.size_le
        omega

theorem sortMappings_eq_some {nsort : Nsort} (h : m.sortMappings nsort = some m') :
    ∃ sorted, nsort m.mappingCmpFn m.index = some sorted ∧
      m' = { m with mappingsSorted := sorted ++ m.mappingsSorted.drop m.mappingsSize } := by
  obtain ⟨sorted, hsorted, rfl⟩ := Option.map_eq_some_iff.mp h
  exact ⟨sorted, hsorted, rfl⟩

theorem mergeLoaded_eq_some {nsort : Nsort} (hmerge : m.mergeLoaded nsort loaded = some m') :
    ∃ merged, m.merge loaded (List.range loaded.mappingsSize) = some merged ∧
      (m' = merged ∨ merged.sortMappings nsort = some m') := by
  obtain ⟨merged, hmerged, hmerge⟩ := Option.bind_eq_some_iff.mp hmerge
  refine ⟨merged, hmerged, ?_⟩
  split at hmerge
  case isTrue => exact Or.inr hmerge
  case isFalse => exact Or.inl (Option.some.inj hmerge).symm

/-- A merge that finds all ids of the loaded table leaves the table as it is. -/
theorem merge_of_found {is : List ℕ} (h : ∀ i ∈ is, ∃ userId name found,
    loaded.mappingIds[i]? = some userId ∧ loaded.mappingNames[i]? = some name ∧
      m.findMapping userId = some found ∧ 0 ≤ found) : m.merge loaded is = some m := by
  induction is with
  | nil => rfl
  | cons i is ih =>
      obtain ⟨userId, name, found, hid, hname, hfound, hle⟩ := h i List.mem_cons_self
      simp only [merge, hid, hname, hfound, Option.bind_eq_bind, Option.bind_some, if_pos hle]
      exact ih fun j hj => h j (List.mem_cons_of_mem i hj)

end Merge

/-- The table with other contents in the cells of `m_mappings_sorted` that are not in
use. -/
def withBehind (m : StreamMappings) (behind : List ℤ) : StreamMappings :=
  { m with mappingsSorted := m.index ++ behind }

/-- What a merge should make of a table. -/
structure Merges (m loaded m' : StreamMappings) : Prop where
  dictionary : m'.Dictionary
  mem_ids : ∀ userId, userId ∈ m'.ids ↔ userId ∈ m.ids ∨ userId ∈ loaded.ids
  old : ∀ k < m.mappingsSize, m'.ids[k]? = m.ids[k]? ∧ m'.names[k]? = m.names[k]?
  first_name : ∀ (k i : ℕ) (userId : UInt64), m'.ids[k]? = some userId → userId ∉ m.ids →
    loaded.ids[i]? = some userId → (∀ j < i, loaded.ids[j]? ≠ some userId) →
    m'.names[k]? = loaded.names[i]?
  finds : ∀ userId, ∃ found, m'.findMapping userId = some found ∧
    (0 ≤ found ↔ userId ∈ m.ids ∨ userId ∈ loaded.ids) ∧
    (0 ≤ found → fetch m'.ids found = some userId)

section Exact

variable {m loaded : StreamMappings}

theorem Dictionary.withBehind (h : m.Dictionary) {b : List ℤ}
    (hb : b.length = m.mappingsCapacity - m.mappingsSize) :
    (m.withBehind b).Dictionary ∧ (m.withBehind b).index = m.index := by
  have hindex : (m.withBehind b).index = m.index := by
    rw [index, StreamMappings.withBehind]
    exact List.take_left' h.indexed.length_index
  refine ⟨⟨h.ids_length, h.names_length, ?_, h.size_le, h.distinct, ?_, ?_⟩, hindex⟩
  · have hle := h.size_le
    change (m.index ++ b).length = m.mappingsCapacity
    rw [List.length_append, h.indexed.length_index, hb]
    omega
  · rw [hindex]
    exact h.perm
  · rw [hindex]
    exact h.sorted

theorem Dictionary.merges_self (h : m.Dictionary) (hids : ∀ userId ∈ loaded.ids, userId ∈ m.ids) :
    Merges m loaded m where
  dictionary := h
  mem_ids := fun userId => ⟨Or.inl, fun hmem => hmem.elim id (hids userId)⟩
  old := fun _ _ => ⟨rfl, rfl⟩
  first_name := fun k i userId hk hnot _ _ => absurd (List.mem_of_getElem? hk) hnot
  finds := by
    intro userId
    rcases h.indexed.findMapping_cases userId with ⟨k, -, hk, hfound⟩ | ⟨hnot, hfound⟩
    · refine ⟨k, hfound, ?_, fun _ => by rw [fetch_natCast, hk]⟩
      exact iff_of_true (Int.natCast_nonneg k) (Or.inl (List.mem_of_getElem? hk))
    · refine ⟨-1, hfound, ?_, fun hle => absurd hle (by decide)⟩
      exact iff_of_false (by decide) fun hmem => hnot (hmem.elim id (hids userId))

theorem Dictionary.mergeLoaded_self (h : m.Dictionary) (nsort : Nsort)
    (hidsLength : loaded.mappingsSize ≤ loaded.mappingIds.length)
    (hnamesLength : loaded.mappingsSize ≤ loaded.mappingNames.length)
    (hids : ∀ userId ∈ loaded.ids, userId ∈ m.ids) : m.mergeLoaded nsort loaded = some m := by
  have hmerge : m.merge loaded (List.range loaded.mappingsSize) = some m := by
    refine merge_of_found fun i hi => ?_
    have hlt := List.mem_range.mp hi
    have hid := List.getElem?_eq_getElem (hlt.trans_le hidsLength)
    have hname := List.getElem?_eq_getElem (hlt.trans_le hnamesLength)
    have hmem := hids _ (List.mem_of_getElem? ((ids_getElem? loaded hlt).trans hid))
    rcases h.indexed.findMapping_cases loaded.mappingIds[i] with ⟨k, -, -, hfound⟩ | ⟨hnot, -⟩
    · exact ⟨_, _, k, hid, hname, hfound, Int.natCast_nonneg k⟩
    · exact absurd hmem hnot
  rw [mergeLoaded, hmerge]
  exact if_neg (Nat.lt_irrefl _)

/-- An entry that is added brings a cell into use that nothing was written to. -/
theorem Dictionary.not_dictionary_mergeLoaded (h : m.Dictionary) {nsort : Nsort}
    (hnsort : Permutes nsort) {m' : StreamMappings} {userId : UInt64}
    (hmem : userId ∈ loaded.ids) (hnew : userId ∉ m.ids)
    (hcells : ∀ i ∈ m.mappingsSorted.drop m.mappingsSize, i < 0)
    (hmerge : m.mergeLoaded nsort loaded = some m') : ¬ m'.Dictionary := by
  intro h'
  obtain ⟨merged, hmerged, hmerge⟩ := Option.bind_eq_some_iff.mp hmerge
  obtain ⟨hextends, hsorted, hfound⟩ := merge_eq_some hmerged
  have hlt : m.mappingsSize < merged.mappingsSize := by
    refine lt_of_le_of_ne hextends.size_le fun hsize => ?_
    obtain ⟨i, hi⟩ := List.mem_iff_getElem?.mp hmem
    have hisize : i < loaded.mappingsSize := by
      have := (List.getElem?_eq_some_iff.mp hi).1
      rw [ids, List.length_take] at this
      omega
    obtain ⟨id, found, hid, hfind, hle⟩ := hfound hsize.symm i (List.mem_range.mpr hisize)
    rw [ids_getElem? loaded hisize, hid, Option.some.injEq] at hi
    subst hi
    rcases h.indexed.findMapping_cases id with ⟨k, -, hk, -⟩ | ⟨-, hnone⟩
    · exact hnew (List.mem_of_getElem? hk)
    · rw [hfind, Option.some.injEq] at hnone
      omega
  rw [if_pos hlt] at hmerge
  obtain ⟨sorted, hsort, rfl⟩ := sortMappings_eq_some hmerge
  have hperm := hnsort _ _ _ hsort
  have hsize := h'.size_le
  have hcapacity := h'.sorted_length
  have hsortedLength := hperm.length_eq
  dsimp only at hsize hcapacity
  rw [List.length_append, List.length_drop] at hcapacity
  rw [index, List.length_take] at hsortedLength
  have hlength : sorted.length = merged.mappingsSize := by omega
  have hindex : StreamMappings.index { merged with
      mappingsSorted := sorted ++ merged.mappingsSorted.drop merged.mappingsSize } = sorted :=
    List.take_left' hlength
  -- the first cell behind the old index is among the cells that are sorted
  obtain ⟨cell, hcell⟩ : ∃ cell, m.mappingsSorted[m.mappingsSize]? = some cell := by
    rw [← hsorted]
    exact ⟨_, List.getElem?_eq_getElem (by omega)⟩
  have hmem' : cell ∈ merged.index := by
    refine List.mem_of_getElem? (i := m.mappingsSize) ?_
    rw [index_getElem? merged hlt, hsorted, hcell]
  rw [← hperm.mem_iff, ← hindex] at hmem'
  obtain ⟨k, rfl, -⟩ := h'.indexed.mem_index.mp hmem'
  have hneg := hcells k (List.mem_of_getElem? (i := 0) (by rw [List.getElem?_drop]; exact hcell))
  exact absurd (Int.natCast_nonneg k) (not_le.mpr hneg)

/-- Whatever the cells of `m_mappings_sorted` hold that are not in use, the merge of a
loaded table is right, if and only if all ids of the loaded table are there already. -/
theorem merges_iff (h : m.Dictionary) {nsort : Nsort} (hnsort : Permutes nsort)
    (hidsLength : loaded.mappingsSize ≤ loaded.mappingIds.length)
    (hnamesLength : loaded.mappingsSize ≤ loaded.mappingNames.length) :
    (∀ behind : List ℤ, behind.length = m.mappingsCapacity - m.mappingsSize →
      ∃ m', (m.withBehind behind).mergeLoaded nsort loaded = some m' ∧
        Merges (m.withBehind behind) loaded m') ↔
      ∀ userId ∈ loaded.ids, userId ∈ m.ids := by
  constructor
  · intro hall userId hmem
    by_contra hnew
    obtain ⟨m', hmerge, hmerges⟩ :=
      hall (List.replicate (m.mappingsCapacity - m.mappingsSize) (-1)) List.length_replicate
    obtain ⟨hbehind, -⟩ := h.withBehind
      (b := List.replicate (m.mappingsCapacity - m.mappingsSize) (-1)) List.length_replicate
    refine hbehind.not_dictionary_mergeLoaded hnsort hmem hnew (fun i hi => ?_) hmerge
      hmerges.dictionary
    have hcells : i ∈ List.replicate (m.mappingsCapacity - m.mappingsSize) (-1 : ℤ) := by
      rwa [StreamMappings.withBehind, List.drop_left' h.indexed.length_index] at hi
    rw [List.eq_of_mem_replicate hcells]
    decide
  · intro hids behind hlength
    obtain ⟨hbehind, -⟩ := h.withBehind hlength
    refine ⟨m.withBehind behind, hbehind.mergeLoaded_self nsort hidsLength hnamesLength hids, ?_⟩
    exact hbehind.merges_self hids

end Exact

theorem dictionary_newMappings (filepath : List UInt8) (version : ℤ) (sorted : ℕ → ℤ) :
    (newMappings filepath version sorted).Dictionary := by
  have hids : (newMappings filepath version sorted).ids = [] := by
    rw [ids, newMappings, List.take_zero]
  have hindex : (newMappings filepath version sorted).index = [] := by
    rw [index, newMappings, List.take_zero]
  refine ⟨?_, ?_, ?_, Nat.zero_le _, ?_, ?_, ?_⟩
  · rw [newMappings, List.length_replicate]
  · rw [newMappings, List.length_replicate]
  · rw [newMappings, List.length_map, List.length_range]
  · rw [hids]
    exact List.nodup_nil
  · rw [hindex]
    exact .nil
  · rw [hindex]
    exact .nil

/-- A sort of the library: by insertion. -/
def insertionNsort : Nsort := fun cmp indices =>
  if indices.all fun i => (cmp i i).isSome then
    some (indices.insertionSort fun i j => cmp i j ≠ some 1)
  else none

theorem permutes_insertionNsort : Permutes insertionNsort := by
  intro cmp indices sorted h
  rw [insertionNsort] at h
  split at h
  · cases h
    exact List.perm_insertionSort _ _
  · cases h

def tableOfFive : StreamMappings :=
  { newMappings [] 0 fun _ => 0 with
    mappingIds := 5 :: List.replicate 1023 0
    mappingNames := [97] :: List.replicate 1023 (List.replicate dMappingNameMaxlen 0)
    mappingsSize := 1 }

set_option maxRecDepth 8000 in
theorem dictionary_tableOfFive : tableOfFive.Dictionary := by
  have hindex : tableOfFive.index = [0] := rfl
  have hids : tableOfFive.ids = [5] := rfl
  refine ⟨?_, ?_, ?_, by decide, ?_, ?_, ?_⟩
  · rw [tableOfFive, List.length_cons, List.length_replicate]
    rfl
  · rw [tableOfFive, List.length_cons, List.length_replicate]
    rfl
  · exact (dictionary_newMappings [] 0 fun _ => 0).sorted_length
  · rw [hids]
    exact List.nodup_singleton 5
  · rw [hindex]
    exact .refl _
  · rw [hindex]
    exact List.pairwise_singleton _ 0

/-- The table of the entry 5 is merged into itself. -/
theorem merges_tableOfFive : ∃ m',
    (tableOfFive.withBehind (List.replicate 1023 7)).mergeLoaded insertionNsort tableOfFive =
      some m' ∧
      Merges (tableOfFive.withBehind (List.replicate 1023 7)) tableOfFive m' := by
  have h := dictionary_tableOfFive
  refine (merges_iff h permutes_insertionNsort ?_ ?_).mpr (fun _ hmem => hmem)
    (List.replicate 1023 7) List.length_replicate
  · rw [h.ids_length]
    exact h.size_le
  · rw [h.names_length]
    exact h.size_le

/-- The loaded entries 5 and 9. -/
def loadedTwo : StreamMappings :=
  { newMappings [] 0 fun _ => 0 with
    mappingIds := [5, 9]
    mappingNames := [[97], [98]]
    mappingsSize := 2 }

/-- The table after they were merged into an empty table. -/
def mergedTwo : StreamMappings :=
  { newMappings [] 0 fun _ => 0 with
    mappingIds := 5 :: 9 :: List.replicate 1022 0
    mappingNames := [97] :: [98] :: List.replicate 1022 (List.replicate dMappingNameMaxlen 0)
    mappingsSize := 2 }

theorem fetch_zeros {place : ℤ} (hleft : 0 ≤ place) (hright : place ≤ 1) :
    fetch ((List.range 1024).map fun _ => (0 : ℤ)) place = some 0 := by
  obtain ⟨p, rfl⟩ := Int.eq_ofNat_of_zero_le hleft
  rw [fetch_natCast, List.getElem?_map, List.getElem?_range (by omega), Option.map_some]

set_option maxRecDepth 8000 in
/-- Two entries merged into an empty table, all cells of whose index are zero: the number of
the first entry is in the index twice, and the second is not found. -/
theorem merge_loses_second : (newMappings [] 0 fun _ => 0).Dictionary ∧
    (newMappings [] 0 fun _ => 0).mergeLoaded insertionNsort loadedTwo = some mergedTwo ∧
    mergedTwo.ids = [5, 9] ∧ mergedTwo.index = [0, 0] ∧ mergedTwo.findMapping 9 = some (-1) ∧
    ¬ mergedTwo.Dictionary := by
  have hnone : (newMappings [] 0 fun _ => 0).findMapping 5 = some (-1) :=
    findMappingLoop_of_lt fun place hleft hright => by
      have hsize : (newMappings [] 0 fun _ => 0).mappingsSize = 0 := rfl
      rw [hsize] at hright
      omega
  have hfirst : tableOfFive.findMapping 9 = some (-1) :=
    findMappingLoop_of_lt fun place hleft hright => by
      have hsize : tableOfFive.mappingsSize = 1 := rfl
      rw [hsize] at hright
      exact ⟨0, 5, fetch_zeros hleft (by omega), rfl, by decide, by decide⟩
  have hsecond : mergedTwo.findMapping 9 = some (-1) :=
    findMappingLoop_of_lt fun place hleft hright => by
      have hsize : mergedTwo.mappingsSize = 2 := rfl
      rw [hsize] at hright
      exact ⟨0, 5, fetch_zeros hleft (by omega), rfl, by decide, by decide⟩
  have haddFirst : (newMappings [] 0 fun _ => 0).addMapping 5 [97] = some tableOfFive := by
    rw [addMapping, newMappings, List.length_replicate, List.length_replicate, if_pos (by decide)]
    rfl
  have haddSecond : tableOfFive.addMapping 9 [98] = some mergedTwo := by
    rw [addMapping, tableOfFive, List.length_cons, List.length_cons, List.length_replicate,
      List.length_replicate, if_pos (by decide)]
    rfl
  have hmerge : (newMappings [] 0 fun _ => 0).merge loadedTwo [0, 1] = some mergedTwo := by
    have hids : loadedTwo.mappingIds = [5, 9] := rfl
    have hnames : loadedTwo.mappingNames = [[97], [98]] := rfl
    simp only [merge, hids, hnames, List.getElem?_cons_zero, List.getElem?_cons_succ,
      Option.bind_eq_bind, Option.bind_some, hnone, haddFirst, hfirst, haddSecond]
    rfl
  have hindex : mergedTwo.index = [0, 0] := rfl
  have hsort : mergedTwo.sortMappings insertionNsort = some mergedTwo := rfl
  refine ⟨dictionary_newMappings [] 0 _, ?_, rfl, hindex, hsecond, fun h => ?_⟩
  · change (StreamMappings.merge _ loadedTwo [0, 1]).bind _ = _
    rw [hmerge]
    exact hsort
  · have hperm := h.perm.nodup_iff.mpr (List.nodup_range.map fun _ _ heq => Int.ofNat.inj heq)
    rw [hindex] at hperm
    exact absurd hperm (by decide)

end StreamMappings

end StreamRequest

end ConArtist
