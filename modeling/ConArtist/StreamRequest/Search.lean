import Mathlib.Data.Int.Cast.Basic
import Mathlib.Data.List.Nodup
import Mathlib.Data.List.Perm.Basic
import ConArtist.Foundation.BinarySearch
import ConArtist.StreamRequest.Model

/-!
# The search for a mapping

`find_mapping` is a binary search through `m_mappings_sorted`, whose first
`m_mappings_size` cells are the numbers of the entries in the order of their ids. Ids may
be there more than once: the number of one of their entries is found.
-/

namespace ConArtist

namespace StreamRequest

open BinarySearch

theorem fetch_natCast {α : Type*} (xs : List α) (i : ℕ) : fetch xs i = xs[i]? := by
  rw [fetch, if_pos (Int.natCast_nonneg i), Int.toNat_natCast]

theorem fetch_eq_some {α : Type*} {xs : List α} {i : ℤ} {x : α} :
    fetch xs i = some x ↔ ∃ k : ℕ, i = k ∧ xs[k]? = some x := by
  constructor
  · intro h
    rw [fetch] at h
    split at h
    case isTrue hi => exact ⟨i.toNat, (Int.toNat_of_nonneg hi).symm, h⟩
    case isFalse => cases h
  · rintro ⟨k, rfl, hk⟩
    rw [fetch_natCast, hk]

namespace StreamMappings

def ids (m : StreamMappings) : List UInt64 := m.mappingIds.take m.mappingsSize

/-- The cells of `m_mappings_sorted` in use. -/
def index (m : StreamMappings) : List ℤ := m.mappingsSorted.take m.mappingsSize

/-- The id that the search compares at a place of the index. -/
def idAt (m : StreamMappings) (place : ℤ) : Option ℕ :=
  (fetch m.mappingsSorted place).bind fun i => (fetch m.mappingIds i).map UInt64.toNat

/-- `find_mapping` is a binary search. -/
theorem findMappingLoop_eq (m : StreamMappings) (userId : UInt64) (left right : ℤ) :
    m.findMappingLoop userId left right =
      (search m.idAt userId.toNat left right).bind fun found =>
        found.elim (some (-1)) (fetch m.mappingsSorted) := by
  induction left, right using findMappingLoop.induct m userId with
  | case1 left right hle mid hnone =>
      rw [findMappingLoop, search, if_pos hle, if_pos hle]
      simp only [idAt, mid, hnone, Option.bind_none]
  | case2 left right hle mid i hi hnone =>
      rw [findMappingLoop, search, if_pos hle, if_pos hle]
      simp only [idAt, mid, hi, hnone, Option.bind_some, Option.map_none, Option.bind_none]
  | case3 left right hle mid i hi id hid hlt ih =>
      rw [findMappingLoop, search, if_pos hle, if_pos hle]
      simp only [idAt, mid, hi, hid, Option.bind_some, Option.map_some, if_pos hlt,
        if_pos (UInt64.lt_iff_toNat_lt.mp hlt)]
      exact ih
  | case4 left right hle mid i hi id hid hnlt hlt ih =>
      rw [findMappingLoop, search, if_pos hle, if_pos hle]
      simp only [idAt, mid, hi, hid, Option.bind_some, Option.map_some, if_neg hnlt, if_pos hlt,
        if_neg (UInt64.lt_iff_toNat_lt.not.mp hnlt), if_pos (UInt64.lt_iff_toNat_lt.mp hlt)]
      exact ih
  | case5 left right hle mid i hi id hid hnlt hngt =>
      rw [findMappingLoop, search, if_pos hle, if_pos hle]
      simp only [idAt, mid, hi, hid, Option.bind_some, Option.map_some, if_neg hnlt, if_neg hngt,
        if_neg (UInt64.lt_iff_toNat_lt.not.mp hnlt), if_neg (UInt64.lt_iff_toNat_lt.not.mp hngt),
        Option.elim_some]
  | case6 left right hgt =>
      rw [findMappingLoop, search, if_neg hgt, if_neg hgt]
      rfl

/-- What `find_mapping` finds has the id, whatever the index holds. -/
theorem id_of_findMapping {m : StreamMappings} {userId : UInt64} {i : ℤ}
    (h : m.findMapping userId = some i) (hi : 0 ≤ i) :
    fetch m.mappingIds i = some userId ∧ i ∈ m.index := by
  rw [findMapping, findMappingLoop_eq] at h
  obtain ⟨found, hsearch, h⟩ := Option.bind_eq_some_iff.mp h
  cases found with
  | none =>
      cases h
      omega
  | some place =>
      obtain ⟨hkey, hleft, hright⟩ := key_of_search hsearch
      have hplace : fetch m.mappingsSorted place = some i := h
      rw [idAt, hplace, Option.bind_some] at hkey
      obtain ⟨id, hid, htoNat⟩ := Option.map_eq_some_iff.mp hkey
      obtain rfl : id = userId := UInt64.toNat.inj htoNat
      refine ⟨hid, ?_⟩
      obtain ⟨k, rfl, hk⟩ := fetch_eq_some.mp hplace
      refine List.mem_of_getElem? (i := k) ?_
      rw [index, List.getElem?_take_of_lt (by omega), hk]

theorem findMappingLoop_of_lt {m : StreamMappings} {userId : UInt64} {left right : ℤ}
    (h : ∀ place, left ≤ place → place ≤ right → ∃ i id, fetch m.mappingsSorted place = some i ∧
      fetch m.mappingIds i = some id ∧ id < userId ∧ ¬ userId < id) :
    m.findMappingLoop userId left right = some (-1) := by
  induction left, right using findMappingLoop.induct m userId with
  | case1 left right hle mid hnone =>
      obtain ⟨i, id, hi, -⟩ := h mid (by omega) (by omega)
      rw [hnone] at hi
      cases hi
  | case2 left right hle mid i hi hnone =>
      obtain ⟨i', id, hi', hid, -⟩ := h mid (by omega) (by omega)
      rw [hi] at hi'
      cases hi'
      rw [hnone] at hid
      cases hid
  | case3 left right hle mid i hi id hid hlt ih =>
      obtain ⟨i', id', hi', hid', -, hnlt⟩ := h mid (by omega) (by omega)
      rw [hi] at hi'
      cases hi'
      rw [hid] at hid'
      cases hid'
      exact absurd hlt hnlt
  | case4 left right hle mid i hi id hid hnlt hlt ih =>
      rw [findMappingLoop, if_pos hle]
      simp only [mid] at hi
      simp only [hi, hid, if_neg hnlt, if_pos hlt]
      exact ih fun place hleft hright => h place (by omega) hright
  | case5 left right hle mid i hi id hid hnlt hngt =>
      obtain ⟨i', id', hi', hid', hlt, -⟩ := h mid (by omega) (by omega)
      rw [hi] at hi'
      cases hi'
      rw [hid] at hid'
      cases hid'
      exact absurd hlt hngt
  | case6 left right hgt => rw [findMappingLoop, if_neg hgt]

theorem ids_getElem? (m : StreamMappings) {k : ℕ} (hk : k < m.mappingsSize) :
    m.ids[k]? = m.mappingIds[k]? :=
  List.getElem?_take_of_lt hk

theorem index_getElem? (m : StreamMappings) {k : ℕ} (hk : k < m.mappingsSize) :
    m.index[k]? = m.mappingsSorted[k]? :=
  List.getElem?_take_of_lt hk

/-- The index has the number of each entry, and the ids do not decrease along it. -/
structure Indexed (m : StreamMappings) : Prop where
  ids_le : m.mappingsSize ≤ m.mappingIds.length
  perm : m.index.Perm ((List.range m.mappingsSize).map Nat.cast)
  sorted : m.index.Pairwise fun i j =>
    ∀ x y, fetch m.ids i = some x → fetch m.ids j = some y → x ≤ y

section Indexed

variable {m m' : StreamMappings}

theorem Indexed.length_ids (h : m.Indexed) : m.ids.length = m.mappingsSize := by
  rw [ids, List.length_take, min_eq_left h.ids_le]

theorem Indexed.length_index (h : m.Indexed) : m.index.length = m.mappingsSize := by
  rw [h.perm.length_eq, List.length_map, List.length_range]

theorem Indexed.mem_index (h : m.Indexed) {i : ℤ} :
    i ∈ m.index ↔ ∃ k : ℕ, i = k ∧ k < m.mappingsSize := by
  rw [h.perm.mem_iff, List.mem_map]
  simp only [List.mem_range]
  exact exists_congr fun k => and_comm.trans (and_congr_left fun _ => eq_comm)

theorem Indexed.idAt_natCast (h : m.Indexed) {p : ℕ} (hp : p < m.mappingsSize) :
    ∃ k : ℕ, ∃ id, m.index[p]? = some (k : ℤ) ∧ k < m.mappingsSize ∧
      m.ids[k]? = some id ∧ m.idAt p = some id.toNat := by
  have hlt : p < m.index.length := h.length_index.symm ▸ hp
  obtain ⟨k, hk, hksize⟩ := h.mem_index.mp (List.getElem_mem hlt)
  have hindex : m.index[p]? = some (k : ℤ) := by
    rw [← hk]
    exact List.getElem?_eq_getElem hlt
  have hkids : k < m.ids.length := h.length_ids.symm ▸ hksize
  have hid : m.ids[k]? = some m.ids[k] := List.getElem?_eq_getElem hkids
  refine ⟨k, m.ids[k], hindex, hksize, hid, ?_⟩
  rw [ids_getElem? m hksize] at hid
  rw [index_getElem? m hp] at hindex
  rw [idAt, fetch_natCast, hindex, Option.bind_some, fetch_natCast, hid, Option.map_some]

theorem Indexed.ordered (h : m.Indexed) : Ordered m.idAt 0 (m.mappingsSize - 1) where
  exists_key := by
    intro place hleft hright
    obtain ⟨place, rfl⟩ := Int.eq_ofNat_of_zero_le hleft
    obtain ⟨k, id, -, -, -, hkey⟩ := h.idAt_natCast (p := place) (by omega)
    exact ⟨_, hkey⟩
  le := by
    intro p q x y hleft hpq hright hx hy
    obtain ⟨p, rfl⟩ := Int.eq_ofNat_of_zero_le hleft
    obtain ⟨q, rfl⟩ := Int.eq_ofNat_of_zero_le (hleft.trans hpq.le)
    obtain ⟨i, id, hi, -, hid, hkey⟩ := h.idAt_natCast (p := p) (by omega)
    obtain ⟨j, id', hj, -, hid', hkey'⟩ := h.idAt_natCast (p := q) (by omega)
    rw [hkey] at hx
    rw [hkey'] at hy
    cases hx
    cases hy
    obtain ⟨hplt, hpeq⟩ := List.getElem?_eq_some_iff.mp hi
    obtain ⟨hqlt, hqeq⟩ := List.getElem?_eq_some_iff.mp hj
    have hle := List.pairwise_iff_getElem.mp h.sorted p q hplt hqlt (by omega) id id'
      (by rw [hpeq, fetch_natCast, hid]) (by rw [hqeq, fetch_natCast, hid'])
    exact UInt64.le_iff_toNat_le.mp hle

/-- `find_mapping` finds the number of an entry with the id, or none. -/
theorem Indexed.findMapping_cases (h : m.Indexed) (userId : UInt64) :
    (∃ k : ℕ, k < m.mappingsSize ∧ m.ids[k]? = some userId ∧
        m.findMapping userId = some (k : ℤ)) ∨
      userId ∉ m.ids ∧ m.findMapping userId = some (-1) := by
  rw [findMapping, findMappingLoop_eq]
  rcases search_spec h.ordered userId.toNat with
    ⟨place, hleft, hright, hkey, hsearch⟩ | ⟨hsearch, hnot⟩
  · obtain ⟨place, rfl⟩ := Int.eq_ofNat_of_zero_le hleft
    obtain ⟨k, id, hk, hksize, hid, hkey'⟩ := h.idAt_natCast (p := place) (by omega)
    rw [hkey, Option.some.injEq] at hkey'
    obtain rfl := UInt64.toNat.inj hkey'
    refine Or.inl ⟨k, hksize, hid, ?_⟩
    rw [index_getElem? m (by omega), ← fetch_natCast] at hk
    rw [hsearch]
    exact hk
  · refine Or.inr ⟨fun hmem => ?_, by rw [hsearch]; rfl⟩
    -- the number of the entry is somewhere in the index
    obtain ⟨k, hk⟩ := List.mem_iff_getElem?.mp hmem
    have hksize : k < m.mappingsSize := h.length_ids ▸ (List.getElem?_eq_some_iff.mp hk).1
    obtain ⟨place, hplace⟩ := List.mem_iff_getElem?.mp (h.mem_index.mpr ⟨k, rfl, hksize⟩)
    have hlt : place < m.mappingsSize :=
      h.length_index ▸ (List.getElem?_eq_some_iff.mp hplace).1
    obtain ⟨k', id, hk', -, hid, hkey⟩ := h.idAt_natCast hlt
    rw [hk', Option.some.injEq] at hplace
    obtain rfl : k' = k := Int.ofNat.inj hplace
    obtain rfl : id = userId := Option.some.inj (hid.symm.trans hk)
    exact hnot place (Int.natCast_nonneg _) (by omega) hkey

/-- The values of `left` and `right` in the rounds of `find_mapping`. -/
def findMappingRounds (m : StreamMappings) (userId : UInt64) : List (ℤ × ℤ) :=
  rounds m.idAt userId.toNat 0 (m.mappingsSize - 1)

/-- Two tables are the same as far as their entries go. -/
structure SameEntries (m m' : StreamMappings) : Prop where
  size_eq : m'.mappingsSize = m.mappingsSize
  ids_eq : m'.ids = m.ids
  index_eq : m'.index = m.index

theorem Indexed.of_same (h : m.Indexed) (hsame : SameEntries m m') : m'.Indexed := by
  obtain ⟨hsize, hids, hindex⟩ := hsame
  refine ⟨?_, by rw [hindex, hsize]; exact h.perm, by rw [hindex, hids]; exact h.sorted⟩
  have hlength := congrArg List.length hids
  rw [h.length_ids, ids, List.length_take] at hlength
  omega

/-- The entries decide what `find_mapping` compares and returns. -/
theorem Indexed.findMapping_congr (h : m.Indexed) (hsame : SameEntries m m') (userId : UInt64) :
    m'.findMapping userId = m.findMapping userId := by
  have hidAt : ∀ p : ℕ, p < m.mappingsSize → m'.idAt p = m.idAt p := by
    intro p hp
    obtain ⟨k, id, hk, hksize, hid, hkey⟩ := h.idAt_natCast hp
    obtain ⟨k', id', hk', -, hid', hkey'⟩ :=
      (h.of_same hsame).idAt_natCast (p := p) (by rw [hsame.size_eq]; exact hp)
    rw [hsame.index_eq, hk, Option.some.injEq] at hk'
    obtain rfl : k = k' := Int.ofNat.inj hk'
    rw [hsame.ids_eq, hid, Option.some.injEq] at hid'
    rw [hkey, hkey', hid']
  have hsearch : search m'.idAt userId.toNat 0 (m.mappingsSize - 1) =
      search m.idAt userId.toNat 0 (m.mappingsSize - 1) := search_congr fun l r hmem => by
    obtain ⟨hl, hlr, hr⟩ := of_mem_rounds hmem
    obtain ⟨p, hp⟩ := Int.eq_ofNat_of_zero_le (show 0 ≤ (l + r) / 2 by omega)
    rw [hp]
    exact hidAt p (by omega)
  rw [findMapping, findMapping, findMappingLoop_eq, findMappingLoop_eq, hsame.size_eq, hsearch]
  refine Option.bind_congr fun found hfound => ?_
  cases found with
  | none => rfl
  | some place =>
      obtain ⟨-, hleft, hright⟩ := key_of_search hfound
      obtain ⟨p, rfl⟩ := Int.eq_ofNat_of_zero_le hleft
      have hp : p < m.mappingsSize := by omega
      rw [Option.elim_some, Option.elim_some, fetch_natCast, fetch_natCast, ← index_getElem? m hp,
        ← hsame.index_eq, index_getElem? m' (by rw [hsame.size_eq]; exact hp)]

/-- The number of an entry with the id if there is one, and -1 otherwise. -/
def Finds (m : StreamMappings) (userId : UInt64) (i : ℤ) : Prop :=
  (userId ∈ m.ids ∧ fetch m.ids i = some userId) ∨ (userId ∉ m.ids ∧ i = -1)

/-- `find_mapping` comes to its end and finds what it should. It does so in every table with the
same entries, also in one that ends behind them, where any other cell has no value; and its
rounds stay inside the index, so that the sum of their bounds is below twice the size. -/
theorem findMapping_finds (h : m.Indexed) (userId : UInt64) : ∃ i,
    m.findMapping userId = some i ∧ m.Finds userId i ∧
      (∀ m', SameEntries m m' → m'.findMapping userId = some i) ∧
      ∀ l r, (l, r) ∈ m.findMappingRounds userId →
        0 ≤ l ∧ l ≤ r ∧ r < m.mappingsSize ∧ l + r < 2 * m.mappingsSize := by
  have hrounds : ∀ l r, (l, r) ∈ m.findMappingRounds userId →
      0 ≤ l ∧ l ≤ r ∧ r < m.mappingsSize ∧ l + r < 2 * m.mappingsSize := by
    intro l r hmem
    obtain ⟨hl, hlr, hr⟩ := of_mem_rounds hmem
    exact ⟨hl, hlr, by omega, by omega⟩
  rcases h.findMapping_cases userId with ⟨k, -, hk, hfound⟩ | ⟨hnot, hfound⟩
  · refine ⟨k, hfound, Or.inl ⟨List.mem_of_getElem? hk, ?_⟩, fun m' hsame => ?_, hrounds⟩
    · rw [fetch_natCast, hk]
    · rw [h.findMapping_congr hsame, hfound]
  · refine ⟨-1, hfound, Or.inr ⟨hnot, rfl⟩, fun m' hsame => ?_, hrounds⟩
    rw [h.findMapping_congr hsame, hfound]

end Indexed

/-- Three entries, two of them with the same id, and a cell that is not in use. -/
def tableOfTwins : StreamMappings where
  version := 0
  fileContent := []
  fileContentSize := 0
  fileContentCapacity := 0
  mappingsFilepath := []
  fileMtime := 0
  mappingIds := [7, 5, 5, 0]
  mappingNames := List.replicate 4 (List.replicate dMappingNameMaxlen 0)
  mappingsSorted := [2, 1, 0, 9]
  mappingsSize := 3
  mappingsCapacity := 4

theorem indexed_tableOfTwins : tableOfTwins.Indexed := by
  refine ⟨by decide, ?_, ?_⟩
  · change [(2 : ℤ), 1, 0].Perm [0, 1, 2]
    decide
  · change [(2 : ℤ), 1, 0].Pairwise _
    simp [fetch, tableOfTwins, ids]

theorem findMapping_finds_tableOfTwins : ∃ i, tableOfTwins.findMapping 5 = some i ∧
    tableOfTwins.Finds 5 i := by
  obtain ⟨i, hfound, hfinds, -⟩ := findMapping_finds indexed_tableOfTwins 5
  exact ⟨i, hfound, hfinds⟩

end StreamMappings

end StreamRequest

end ConArtist
