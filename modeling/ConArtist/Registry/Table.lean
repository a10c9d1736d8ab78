import Mathlib.Data.List.Nodup
import ConArtist.Registry.Shard

/-!
# The table a registry holds

`IdTable` is the abstract registry: the user ids in the order of their first
registration, each once, with their places as stream ids. A registry `Represents`
a table when all ids of the table belong to one shard, which then holds their
indices. A new id of that shard joins the table, up to the limit of the shard.
A new id of another shard does not: `shard_t::add` stores the number of entries
of the shard for the index of the id, which is 0 there.
-/

namespace ConArtist

namespace Registry

section Holds

variable {alloc : Allocator} {s : Shard} {n : ℕ} {userIds : List UInt64}

/-- The shard's entries are the indices below `n`, in some order. -/
structure Holds (alloc : Allocator) (s : Shard) (n : ℕ) : Prop where
  count_eq : s.count = n
  perm : (s.sorted.take n).Perm ((List.range n).map Nat.cast)
  room : Room alloc s n

theorem holds_emptyShard : Holds alloc emptyShard 0 where
  count_eq := rfl
  perm := List.Perm.nil
  room := Or.inl ⟨0, rfl, rfl, le_rfl, Or.inl rfl⟩

/-- Entries that are the indices below `n` read registered ids only. -/
theorem readsIds_of_perm {sorted : List ℤ} (hlen : n ≤ sorted.length)
    (hperm : (sorted.take n).Perm ((List.range n).map Nat.cast)) (hn : n ≤ userIds.length) :
    ReadsIds sorted userIds n 0 := by
  intro j _ hj
  have hj' : j < n := by omega
  have hmem : sorted[j] ∈ (List.range n).map (Nat.cast : ℕ → ℤ) :=
    hperm.subset (List.mem_take_iff_getElem.mpr ⟨j, by omega, rfl⟩)
  obtain ⟨k, hk, heq⟩ := List.mem_map.mp hmem
  have hkn : k < userIds.length := by
    have := List.mem_range.mp hk
    omega
  refine ⟨k, userIds[k], ?_, List.getElem?_eq_getElem hkn⟩
  rw [List.getElem?_eq_getElem (by omega), ← heq]

/-- Whatever the index `add` is given, what a shard that holds the indices below
`n` takes up is `n`. -/
theorem Holds.add {index : ℤ} {key : UInt64} (h : Holds alloc s n) (hn : n < limit alloc)
    (hlen : n ≤ userIds.length) (hkey : read? userIds index = some key) :
    ∃ s', s.add alloc userIds index = some s' ∧ Holds alloc s' (n + 1) := by
  obtain ⟨g, hgrow, hcount, hlt, htake, hroom⟩ := grow_spec h.count_eq h.room hn
  have hperm : (g.sorted.take n).Perm ((List.range n).map Nat.cast) := htake ▸ h.perm
  obtain ⟨pos, hpos, -, hposn⟩ := posLoop_spec key n 0
    (readsIds_of_perm hlt.le hperm hlen)
  obtain ⟨out, hout, houtlen, hentry⟩ := shiftLoop_spec (n - pos) n g.sorted (by omega) hlt
  have hinsert := take_insert g.sorted (n : ℤ) (show pos ≤ n by omega) hlt houtlen
    (by simpa only [show n - (n - pos) = pos by omega] using hentry)
  refine ⟨⟨((n + 1 : ℕ) : ℤ), g.capacity, out.set pos n⟩, ?_, rfl, ?_, ?_⟩
  · have hi16 : n + 1 < 32768 := by
      rw [limit] at hn
      split_ifs at hn <;> omega
    have hnext : toI16 (n + 1) = ((n + 1 : ℕ) : ℤ) := toI16_of_lt hi16
    simp only [Shard.add, hgrow, hkey, hcount, hnext, hpos, hout, Int.toNat_natCast,
      write?_of_lt (show pos < out.length by omega), toI16_of_lt (show n < 32768 by omega),
      Option.bind_eq_bind, Option.bind_some]
  · rw [hinsert]
    refine (List.perm_insertIdx _ _ (by rw [List.length_take]; omega)).trans ?_
    rw [List.range_succ, List.map_append]
    exact (hperm.cons _).trans (List.perm_append_singleton _ _).symm
  · have hlength : (out.set pos (n : ℤ)).length = g.sorted.length := by
      rw [List.length_set, houtlen]
    rw [Room] at hroom ⊢
    rwa [hlength]

theorem Holds.add_limit (h : Holds alloc s n) (hn : n = limit alloc) (index : ℤ) :
    s.add alloc userIds index = none := by
  rw [Shard.add, grow_limit h.count_eq h.room hn]
  rfl

/-- `find` in a shard that holds the indices below `n`. -/
theorem Holds.find (h : Holds alloc s n) (hn : n ≤ userIds.length) (userId : UInt64) :
    (s.find userIds userId = some (-1) ∧ ∀ k < n, userIds[k]? ≠ some userId) ∨
      ∃ k < n, s.find userIds userId = some (k : ℤ) ∧ userIds[k]? = some userId := by
  have hlen := h.room.le_length
  have hindex : ∀ k : ℕ, (k : ℤ) ∈ s.sorted.take n ↔ k < n := by
    intro k
    rw [h.perm.mem_iff, List.mem_map]
    exact ⟨fun ⟨i, hi, heq⟩ => Int.ofNat_inj.mp heq ▸ List.mem_range.mp hi,
      fun hk => ⟨k, List.mem_range.mpr hk, rfl⟩⟩
  rw [Shard.find, h.count_eq, Int.toNat_natCast]
  rcases findLoop_spec userId n 0 (readsIds_of_perm hlen h.perm hn) with
    ⟨hnone, hall⟩ | ⟨j, k, -, hj, hget, hid, hfound⟩
  · refine Or.inl ⟨hnone, fun k hk => ?_⟩
    obtain ⟨j, hj, hget⟩ := List.mem_take_iff_getElem.mp ((hindex k).mpr hk)
    exact hall j (Nat.zero_le j) (by omega) k (List.getElem?_eq_some_iff.mpr ⟨by omega, hget⟩)
  · refine Or.inr ⟨k, (hindex k).mp ?_, hfound, hid⟩
    obtain ⟨hlt, hget⟩ := List.getElem?_eq_some_iff.mp hget
    exact List.mem_take_iff_getElem.mpr ⟨j, by omega, hget⟩

end Holds

/-- The abstract registry: the registered user ids, in order and each once. -/
structure IdTable where
  ids : List UInt64
  nodup : ids.Nodup

namespace IdTable

/-- The stream id of a user id is its place in the table. -/
def first (t : IdTable) : List (UInt64 × UInt32) := t.ids.mapIdx fun i u => (u, UInt32.ofNat i)

def insert (t : IdTable) (userId : UInt64) (h : userId ∉ t.ids) : IdTable where
  ids := t.ids ++ [userId]
  nodup := by
    rw [← List.concat_eq_append]
    exact t.nodup.concat h

theorem lookup_first_of_notMem {t : IdTable} {userId : UInt64} (h : userId ∉ t.ids) :
    t.first.lookup userId = none := by
  rw [List.lookup_eq_none_iff]
  intro p hp
  obtain ⟨i, hi, rfl⟩ := List.mem_mapIdx.mp hp
  exact bne_iff_ne.mpr fun heq => h (heq ▸ List.getElem_mem hi)

theorem lookup_first {t : IdTable} {userId : UInt64} {k : ℕ} (h : t.ids[k]? = some userId) :
    t.first.lookup userId = some (UInt32.ofNat k) := by
  obtain ⟨hk, hid⟩ := List.getElem?_eq_some_iff.mp h
  have hk' : k < t.first.length := by simpa [first] using hk
  refine List.lookup_eq_some_iff.mpr ⟨t.first.take k, t.first.drop (k + 1), ?_, ?_⟩
  · have hentry : t.first[k] = (userId, UInt32.ofNat k) := by simp [first, hid]
    rw [← hentry, List.getElem_cons_drop, List.take_append_drop]
  · intro p hp
    obtain ⟨i, hi, rfl⟩ := List.mem_take_iff_getElem.mp hp
    have hik : i ≠ k := by omega
    refine bne_iff_ne.mpr fun heq => hik ?_
    have hi' : i < t.ids.length := by omega
    simp only [first, List.getElem_mapIdx] at heq
    exact t.nodup.getElem_inj_iff.mp (heq.symm.trans hid.symm)

end IdTable

theorem shardIndex_lt (nShardingBits : ℕ) (userId : UInt64) :
    shardIndex (2 ^ nShardingBits) userId < 2 ^ nShardingBits := by
  have hle : shardIndex (2 ^ nShardingBits) userId ≤ 2 ^ nShardingBits - 1 := Nat.and_le_right
  have := Nat.two_pow_pos nShardingBits
  omega

/-- The registry holds the table, and all its ids belong to the shard `home`. -/
structure Represents (alloc : Allocator) (capacity nShardingBits : ℕ) (r : StreamIdRegistry)
    (t : IdTable) (home : ℕ) : Prop where
  userIds_length : r.userIds.length = capacity
  streamIds_length : r.streamIds.length = capacity
  shards_length : r.shards.length = 2 ^ nShardingBits
  size_eq : r.size = t.ids.length
  size_le : t.ids.length ≤ capacity
  userIds_eq : ∀ k < t.ids.length, r.userIds[k]? = t.ids[k]?
  streamIds_eq : ∀ k < t.ids.length, r.streamIds[k]? = some (UInt32.ofNat k)
  ids_home : ∀ u ∈ t.ids, shardIndex (2 ^ nShardingBits) u = home
  home_holds : ∃ s, r.shards[home]? = some s ∧ Holds alloc s t.ids.length
  others_empty : ∀ j < 2 ^ nShardingBits, j ≠ home →
    ∃ s, r.shards[j]? = some s ∧ Holds alloc s 0

section Represents

variable {alloc : Allocator} {capacity nShardingBits home : ℕ} {r : StreamIdRegistry}
  {t : IdTable} {userId : UInt64}

theorem Represents.shard (h : Represents alloc capacity nShardingBits r t home)
    (userId : UInt64) :
    ∃ s n, r.shards[shardIndex r.shards.length userId]? = some s ∧ Holds alloc s n ∧
      n ≤ t.ids.length ∧ (userId ∈ t.ids → n = t.ids.length) := by
  rw [h.shards_length]
  by_cases hhome : shardIndex (2 ^ nShardingBits) userId = home
  · obtain ⟨s, hs, hholds⟩ := h.home_holds
    exact ⟨s, t.ids.length, hhome ▸ hs, hholds, le_rfl, fun _ => rfl⟩
  · obtain ⟨s, hs, hholds⟩ := h.others_empty _ (shardIndex_lt nShardingBits userId) hhome
    exact ⟨s, 0, hs, hholds, Nat.zero_le _, fun hmem => absurd (h.ids_home userId hmem) hhome⟩

/-- `stream_id_find` answers as the table does. -/
theorem Represents.find (h : Represents alloc capacity nShardingBits r t home)
    (userId : UInt64) : streamIdFind r userId = some (t.first.lookup userId) := by
  obtain ⟨s, n, hs, hholds, hn, hmem⟩ := h.shard userId
  have hlen : n ≤ r.userIds.length := hn.trans (h.size_le.trans_eq h.userIds_length.symm)
  rcases hholds.find hlen userId with ⟨hfind, hall⟩ | ⟨k, hk, hfind, hid⟩
  · have hnot : userId ∉ t.ids := by
      intro hin
      obtain rfl := hmem hin
      obtain ⟨k, hk, hget⟩ := List.getElem_of_mem hin
      refine hall k hk ?_
      rw [h.userIds_eq k hk, List.getElem?_eq_getElem hk, hget]
    simp [streamIdFind, hs, hfind, IdTable.lookup_first_of_notMem hnot]
  · have hkn : k < t.ids.length := by omega
    rw [h.userIds_eq k hkn] at hid
    simp [streamIdFind, hs, hfind, read?_natCast, h.streamIds_eq k hkn, IdTable.lookup_first hid]

/-- Registering a new user id comes down to `add` on its shard. -/
theorem Represents.register_new (h : Represents alloc capacity nShardingBits r t home)
    (hnew : userId ∉ t.ids) (hcap : t.ids.length < capacity) {shard : Shard}
    (hshard : r.shards[shardIndex (2 ^ nShardingBits) userId]? = some shard) :
    streamIdRegister alloc r userId =
      (shard.add alloc (r.userIds.set t.ids.length userId) (toI16 t.ids.length)).map fun shard' =>
        (⟨r.userIds.set t.ids.length userId,
          r.streamIds.set t.ids.length (UInt32.ofNat t.ids.length), t.ids.length + 1,
          r.shards.set (shardIndex (2 ^ nShardingBits) userId) shard'⟩,
          UInt32.ofNat t.ids.length) := by
  have hfind := h.find userId
  rw [IdTable.lookup_first_of_notMem hnew] at hfind
  have hu := write?_of_lt (show t.ids.length < r.userIds.length by
    rw [h.userIds_length]; exact hcap) userId
  have hs := write?_of_lt (show t.ids.length < r.streamIds.length by
    rw [h.streamIds_length]; exact hcap) (UInt32.ofNat t.ids.length)
  simp only [streamIdRegister, hfind, h.shards_length, hshard, h.size_eq, hu, hs,
    Option.bind_eq_bind, Option.bind_some]
  cases shard.add alloc (r.userIds.set t.ids.length userId) (toI16 t.ids.length) <;> rfl

end Represents

end Registry

end ConArtist
