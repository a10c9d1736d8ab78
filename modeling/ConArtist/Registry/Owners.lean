import Mathlib.Data.List.Count
import ConArtist.Registry.Refinement

/-!
# The owners of the stream ids

With the ids of several shards the registry is no map. `shard_t::add` stores its own count, so a
shard to which `n` ids were added looks for an id among the first `n` of the whole registry, and
an id that it does not see there is issued another stream id. What holds all the same is that no
stream id ever stands for two user ids, and that a user id is issued nothing more once its shard
sees it.
-/

namespace ConArtist

namespace Registry

open Machine

/-- The number of the ids that belong to a shard. -/
def addedTo (nShardingBits : ℕ) (ids : List UInt64) (shardAt : ℕ) : ℕ :=
  ids.countP fun id => shardIndex (2 ^ nShardingBits) id = shardAt

/-- The ids among which the shard of a user id looks for it. -/
def seenBy (nShardingBits : ℕ) (ids : List UInt64) (userId : UInt64) : List UInt64 :=
  ids.take (addedTo nShardingBits ids (shardIndex (2 ^ nShardingBits) userId))

section Seen

variable {nShardingBits : ℕ} {ids : List UInt64}

theorem addedTo_append (more : List UInt64) (shardAt : ℕ) :
    addedTo nShardingBits (ids ++ more) shardAt =
      addedTo nShardingBits ids shardAt + addedTo nShardingBits more shardAt :=
  List.countP_append

theorem addedTo_singleton (userId : UInt64) (shardAt : ℕ) :
    addedTo nShardingBits [userId] shardAt =
      if shardIndex (2 ^ nShardingBits) userId = shardAt then 1 else 0 := by
  simp [addedTo, List.countP_singleton]

theorem addedTo_le (shardAt : ℕ) : addedTo nShardingBits ids shardAt ≤ ids.length :=
  List.countP_le_length

theorem mem_seenBy_append {userId : UInt64} (h : userId ∈ seenBy nShardingBits ids userId)
    (more : List UInt64) : userId ∈ seenBy nShardingBits (ids ++ more) userId := by
  have htake : (ids ++ more).take
      (addedTo nShardingBits ids (shardIndex (2 ^ nShardingBits) userId)) =
        seenBy nShardingBits ids userId := List.take_append_of_le_length (addedTo_le _)
  rw [← htake] at h
  refine (List.take_prefix_take_left ?_).subset h
  rw [addedTo_append]
  exact Nat.le_add_right _ _

end Seen

/-- The registry has issued stream ids to `ids`, in this order. -/
structure Issued (alloc : Allocator) (capacity nShardingBits : ℕ) (r : StreamIdRegistry)
    (ids : List UInt64) : Prop where
  userIds_length : r.userIds.length = capacity
  streamIds_length : r.streamIds.length = capacity
  shards_length : r.shards.length = 2 ^ nShardingBits
  size_eq : r.size = ids.length
  size_le : ids.length ≤ capacity
  narrow : ids.length ≤ 32768
  userIds_eq : ∀ k < ids.length, r.userIds[k]? = ids[k]?
  streamIds_eq : ∀ k < ids.length, r.streamIds[k]? = some (UInt32.ofNat k)
  holds : ∀ shardAt s, r.shards[shardAt]? = some s →
    Holds alloc s (addedTo nShardingBits ids shardAt)

section Issued

variable {alloc : Allocator} {capacity nShardingBits : ℕ} {r r' : StreamIdRegistry}
  {ids : List UInt64} {userId : UInt64} {streamId : UInt32}

theorem issued_emptyRegistry (alloc : Allocator) (capacity nShardingBits : ℕ) :
    Issued alloc capacity nShardingBits (emptyRegistry capacity nShardingBits) [] where
  userIds_length := List.length_replicate
  streamIds_length := List.length_replicate
  shards_length := List.length_replicate
  size_eq := rfl
  size_le := Nat.zero_le _
  narrow := Nat.zero_le _
  userIds_eq := fun k hk => absurd hk (Nat.not_lt_zero k)
  streamIds_eq := fun k hk => absurd hk (Nat.not_lt_zero k)
  holds := by
    intro shardAt s hs
    obtain rfl := List.eq_of_mem_replicate (List.mem_of_getElem? hs)
    exact holds_emptyShard

theorem Issued.exists_shard (h : Issued alloc capacity nShardingBits r ids) (userId : UInt64) :
    ∃ s, r.shards[shardIndex r.shards.length userId]? = some s ∧
      Holds alloc s (addedTo nShardingBits ids (shardIndex (2 ^ nShardingBits) userId)) := by
  have hlt : shardIndex r.shards.length userId < r.shards.length := by
    rw [h.shards_length]
    exact shardIndex_lt nShardingBits userId
  obtain ⟨s, hs⟩ : ∃ s, r.shards[shardIndex r.shards.length userId]? = some s :=
    ⟨_, List.getElem?_eq_getElem hlt⟩
  have hholds := h.holds _ s hs
  rw [h.shards_length] at hholds
  exact ⟨s, hs, hholds⟩

/-- A user id is found when its shard sees it, and then with a stream id that it was issued. -/
theorem Issued.find (h : Issued alloc capacity nShardingBits r ids) (userId : UInt64) :
    (streamIdFind r userId = some none ∧ userId ∉ seenBy nShardingBits ids userId) ∨
      ∃ streamId, streamIdFind r userId = some (some streamId) ∧
        userId ∈ seenBy nShardingBits ids userId ∧ ids[streamId.toNat]? = some userId := by
  obtain ⟨s, hs, hholds⟩ := h.exists_shard userId
  have hle : addedTo nShardingBits ids (shardIndex (2 ^ nShardingBits) userId) ≤ ids.length :=
    addedTo_le _
  have hlen : ids.length ≤ r.userIds.length := h.size_le.trans_eq h.userIds_length.symm
  have hnarrow := h.narrow
  rcases hholds.find (hle.trans hlen) userId with ⟨hfind, hall⟩ | ⟨k, hk, hfind, hid⟩
  · refine .inl ⟨by simp [streamIdFind, hs, hfind], fun hmem => ?_⟩
    obtain ⟨k, hk, hget⟩ := List.mem_take_iff_getElem.mp hmem
    refine hall k (by omega) ?_
    rw [h.userIds_eq k (by omega), List.getElem?_eq_getElem (by omega), hget]
  · have hkn : k < ids.length := by omega
    rw [h.userIds_eq k hkn] at hid
    refine .inr ⟨UInt32.ofNat k, ?_, ?_, ?_⟩
    · simp [streamIdFind, hs, hfind, read?_natCast, h.streamIds_eq k hkn]
    · obtain ⟨hlt, hget⟩ := List.getElem?_eq_some_iff.mp hid
      exact List.mem_take_iff_getElem.mpr ⟨k, by omega, hget⟩
    · rwa [UInt32.toNat_ofNat_of_lt' (by rw [UInt32.size]; omega)]

/-- What `stream_id_find` answers. -/
theorem Issued.finds (h : Issued alloc capacity nShardingBits r ids) (userId : UInt64) :
    ∃ found, streamIdFind r userId = some found ∧
      (found.isSome ↔ userId ∈ seenBy nShardingBits ids userId) ∧
      ∀ streamId ∈ found, ids[streamId.toNat]? = some userId := by
  obtain ⟨hfind, hnot⟩ | ⟨streamId, hfind, hmem, hissued⟩ := h.find userId
  · exact ⟨none, hfind, iff_of_false Bool.false_ne_true hnot, fun _ hfalse => nomatch hfalse⟩
  · exact ⟨_, hfind, iff_of_true rfl hmem, fun _ hstream => Option.some.inj hstream ▸ hissued⟩

/-- A shard takes up an id only below its limit, and through an index that is an `i16`. -/
theorem Holds.lt_of_add {s s' : Shard} {n size : ℕ} {userIds : List UInt64}
    (h : Holds alloc s n) (hsize : size ≤ 32768)
    (hadd : s.add alloc userIds (toI16 size) = some s') : n < limit alloc ∧ size < 32768 := by
  constructor
  · refine h.room.le_limit.lt_of_ne fun hlimit => ?_
    rw [h.add_limit hlimit] at hadd
    cases hadd
  · refine hsize.lt_of_ne ?_
    rintro rfl
    have hread : read? userIds (toI16 (32768 : ℕ)) = none := if_neg (by decide)
    rw [Shard.add, hread] at hadd
    cases hgrow : s.grow alloc <;> simp [hgrow] at hadd

/-- The registry after a user id is stored at its end and added to its shard. -/
theorem Issued.stored (h : Issued alloc capacity nShardingBits r ids) {s : Shard}
    (husers : ids.length < r.userIds.length) (hstreams : ids.length < r.streamIds.length)
    (hnarrow : ids.length < 32768)
    (hholds : Holds alloc s
      (addedTo nShardingBits ids (shardIndex (2 ^ nShardingBits) userId) + 1)) :
    Issued alloc capacity nShardingBits
      ⟨r.userIds.set ids.length userId, r.streamIds.set ids.length (UInt32.ofNat ids.length),
        ids.length + 1, r.shards.set (shardIndex r.shards.length userId) s⟩
      (ids ++ [userId]) := by
  have hlength : (ids ++ [userId]).length = ids.length + 1 := List.length_append
  exact {
    userIds_length := List.length_set.trans h.userIds_length
    streamIds_length := List.length_set.trans h.streamIds_length
    shards_length := List.length_set.trans h.shards_length
    size_eq := hlength.symm
    size_le := by
      rw [hlength, ← h.userIds_length]
      exact husers
    narrow := by omega
    userIds_eq := by
      intro k hk
      rw [hlength] at hk
      rcases Nat.lt_or_ge k ids.length with hlt | hge
      · rw [List.getElem?_set_ne (by omega), h.userIds_eq k hlt, List.getElem?_append_left hlt]
      · obtain rfl : k = ids.length := by omega
        rw [List.getElem?_set_self husers, List.getElem?_concat_length]
    streamIds_eq := by
      intro k hk
      rw [hlength] at hk
      rcases Nat.lt_or_ge k ids.length with hlt | hge
      · rw [List.getElem?_set_ne (by omega), h.streamIds_eq k hlt]
      · obtain rfl : k = ids.length := by omega
        rw [List.getElem?_set_self hstreams]
    holds := by
      intro shardAt shard hshard
      rw [h.shards_length, List.getElem?_set] at hshard
      rw [addedTo_append, addedTo_singleton]
      split at hshard
      case isTrue hown =>
        rw [if_pos hown]
        split at hshard
        · cases hshard
          rw [← hown]
          exact hholds
        · cases hshard
      case isFalse hother =>
        rw [if_neg hother]
        exact h.holds shardAt shard hshard }

/-- A registration issues nothing to a user id that its shard sees, and the next stream id to
any other. -/
theorem Issued.register (h : Issued alloc capacity nShardingBits r ids)
    (hregister : streamIdRegister alloc r userId = some (r', streamId)) :
    (userId ∈ seenBy nShardingBits ids userId ∧ r' = r ∧
        ids[streamId.toNat]? = some userId) ∨
      (userId ∉ seenBy nShardingBits ids userId ∧ streamId = UInt32.ofNat ids.length ∧
        ids.length < 32768 ∧ Issued alloc capacity nShardingBits r' (ids ++ [userId])) := by
  have hnarrow := h.narrow
  obtain ⟨hfind, hnot⟩ | ⟨known, hfind, hmem, hissued⟩ := h.find userId
  · obtain ⟨s, hs, hholds⟩ := h.exists_shard userId
    simp only [streamIdRegister, hfind, hs, h.size_eq, Option.bind_eq_bind, Option.bind_some,
      Option.bind_eq_some_iff, write?_eq_some] at hregister
    obtain ⟨_, ⟨husers, rfl⟩, _, ⟨hstreams, rfl⟩, s', hadd, hout⟩ := hregister
    cases hout
    obtain ⟨hlimit, hlt⟩ := hholds.lt_of_add hnarrow hadd
    have hkey : read? (r.userIds.set ids.length userId) (toI16 ids.length) = some userId := by
      rw [toI16_of_lt hlt, read?_natCast, List.getElem?_set_self husers]
    have hle : addedTo nShardingBits ids (shardIndex (2 ^ nShardingBits) userId) ≤ ids.length :=
      addedTo_le _
    obtain ⟨s'', hadd', hholds'⟩ := hholds.add hlimit (by rw [List.length_set]; omega) hkey
    obtain rfl := Option.some.inj (hadd'.symm.trans hadd)
    exact .inr ⟨hnot, rfl, hlt, h.stored husers hstreams hlt hholds'⟩
  · simp only [streamIdRegister, hfind, Option.bind_eq_bind, Option.bind_some] at hregister
    cases hregister
    exact .inl ⟨hmem, rfl, hissued⟩

end Issued

/-- A registry in use, with the answers that named a stream id. -/
structure Dialogue where
  registry : StreamIdRegistry
  answers : List (UInt64 × UInt32)

namespace Dialogue

def step (alloc : Allocator) (d : Dialogue) : Call → Option Dialogue
  | .register userId =>
      (streamIdRegister alloc d.registry userId).map fun out =>
        ⟨out.1, d.answers ++ [(userId, out.2)]⟩
  | .find userId =>
      (streamIdFind d.registry userId).map fun found =>
        ⟨d.registry, d.answers ++ found.toList.map (userId, ·)⟩

/-- A new registry that has not been asked yet. -/
def start (capacity nShardingBits : ℕ) : Dialogue := ⟨emptyRegistry capacity nShardingBits, []⟩

/-- Each user id in `ids` was issued its place for a stream id, and the answers say so. -/
structure Owned (alloc : Allocator) (capacity nShardingBits : ℕ) (d : Dialogue)
    (ids : List UInt64) : Prop where
  issued : Issued alloc capacity nShardingBits d.registry ids
  answers : ∀ userId streamId,
    (userId, streamId) ∈ d.answers ↔ ids[streamId.toNat]? = some userId

variable {alloc : Allocator} {capacity nShardingBits : ℕ} {d d' : Dialogue} {ids : List UInt64}

theorem owned_start (alloc : Allocator) (capacity nShardingBits : ℕ) :
    Owned alloc capacity nShardingBits (start capacity nShardingBits) [] where
  issued := issued_emptyRegistry alloc capacity nShardingBits
  answers := fun userId streamId => by simp [start]

theorem Owned.again (h : Owned alloc capacity nShardingBits d ids) {userId : UInt64}
    {streamId : UInt32} (hissued : ids[streamId.toNat]? = some userId) :
    Owned alloc capacity nShardingBits ⟨d.registry, d.answers ++ [(userId, streamId)]⟩ ids where
  issued := h.issued
  answers := by
    intro other otherStream
    rw [List.mem_append, List.mem_singleton, Prod.mk.injEq, h.answers]
    refine or_iff_left_of_imp ?_
    rintro ⟨rfl, rfl⟩
    exact hissued

theorem Owned.issue (h : Owned alloc capacity nShardingBits d ids) {userId : UInt64}
    {r' : StreamIdRegistry} (hlt : ids.length < 32768)
    (hissued : Issued alloc capacity nShardingBits r' (ids ++ [userId])) :
    Owned alloc capacity nShardingBits
      ⟨r', d.answers ++ [(userId, UInt32.ofNat ids.length)]⟩ (ids ++ [userId]) where
  issued := hissued
  answers := by
    have hnat : (UInt32.ofNat ids.length).toNat = ids.length :=
      UInt32.toNat_ofNat_of_lt' (by rw [UInt32.size]; omega)
    intro other streamId
    rw [List.mem_append, List.mem_singleton, Prod.mk.injEq, h.answers]
    rcases Nat.lt_trichotomy streamId.toNat ids.length with hbelow | hlast | habove
    · rw [List.getElem?_append_left hbelow]
      refine or_iff_left ?_
      rintro ⟨-, rfl⟩
      omega
    · have hself : streamId = UInt32.ofNat ids.length := UInt32.toNat_inj.mp (hlast.trans hnat.symm)
      rw [hlast, List.getElem?_concat_length, List.getElem?_eq_none (Nat.le_refl _),
        Option.some.injEq]
      simp [hself, eq_comm]
    · rw [List.getElem?_eq_none (by omega), List.getElem?_eq_none (by simp; omega)]
      refine iff_of_false ?_ (Option.some_ne_none _).symm
      rintro (hfalse | ⟨-, rfl⟩)
      · cases hfalse
      · omega

/-- A call issues at most one stream id, and none to a user id that its shard sees. -/
theorem Owned.step {call : Call} (h : Owned alloc capacity nShardingBits d ids)
    (hstep : d.step alloc call = some d') :
    ∃ more, Owned alloc capacity nShardingBits d' (ids ++ more) ∧
      ∀ userId ∈ more, userId ∉ seenBy nShardingBits ids userId := by
  have hnone : ∀ userId ∈ ([] : List UInt64), userId ∉ seenBy nShardingBits ids userId :=
    fun userId hmem => absurd hmem List.not_mem_nil
  cases call with
  | register userId =>
      obtain ⟨⟨r', streamId⟩, hregister, rfl⟩ := Option.map_eq_some_iff.mp hstep
      obtain ⟨hseen, rfl, hissued⟩ | ⟨hunseen, rfl, hlt, hissued⟩ := h.issued.register hregister
      · refine ⟨[], ?_, hnone⟩
        rw [List.append_nil]
        exact h.again hissued
      · refine ⟨[userId], h.issue hlt hissued, fun other hmem => ?_⟩
        rwa [List.mem_singleton.mp hmem]
  | find userId =>
      obtain ⟨found, hfound, rfl⟩ := Option.map_eq_some_iff.mp hstep
      refine ⟨[], ?_, hnone⟩
      rw [List.append_nil]
      obtain ⟨hfind, -⟩ | ⟨streamId, hfind, -, hissued⟩ := h.issued.find userId
      · obtain rfl := Option.some.inj (hfind.symm.trans hfound)
        exact ⟨h.issued, by simpa using h.answers⟩
      · obtain rfl := Option.some.inj (hfind.symm.trans hfound)
        exact h.again hissued

theorem Owned.run {calls : List Call} (h : Owned alloc capacity nShardingBits d ids)
    (hrun : run (Dialogue.step alloc) d calls = some d') :
    ∃ more, Owned alloc capacity nShardingBits d' (ids ++ more) ∧
      ∀ userId ∈ more, userId ∉ seenBy nShardingBits ids userId := by
  refine run_invariant (Dialogue.step alloc) (I := fun d => ∃ more,
      Owned alloc capacity nShardingBits d (ids ++ more) ∧
        ∀ userId ∈ more, userId ∉ seenBy nShardingBits ids userId) ?_ calls ⟨[], ?_, ?_⟩ hrun
  · rintro d call d' ⟨more, howned, hunseen⟩ hstep
    obtain ⟨next, howned', hnext⟩ := howned.step hstep
    rw [List.append_assoc] at howned'
    refine ⟨more ++ next, howned', fun userId hmem hseen => ?_⟩
    rcases List.mem_append.mp hmem with hmem | hmem
    · exact hunseen userId hmem hseen
    · exact hnext userId hmem (mem_seenBy_append hseen more)
  · rwa [List.append_nil]
  · exact fun userId hmem => absurd hmem List.not_mem_nil

end Dialogue

/-- Over every run of a new registry, of any number of shards, that stays inside its arrays: each
stream id that is answered belongs to one user id, the one it was issued to. A user id is found
exactly when it is among the first ids of the registry, as many as belong to its own shard, and
from then on it is found always and is answered nothing but what it had been. -/
theorem stream_ids_have_one_owner (alloc : Allocator) (capacity nShardingBits : ℕ)
    (calls : List Call) {d : Dialogue}
    (hrun : run (Dialogue.step alloc) (Dialogue.start capacity nShardingBits) calls = some d) :
    ∃ ids : List UInt64,
      (∀ userId streamId, (userId, streamId) ∈ d.answers ↔ ids[streamId.toNat]? = some userId) ∧
      (∀ userId, ∃ found, streamIdFind d.registry userId = some found ∧
        (found.isSome ↔ userId ∈ seenBy nShardingBits ids userId) ∧
        ∀ streamId ∈ found, ids[streamId.toNat]? = some userId) ∧
      ∀ userId ∈ seenBy nShardingBits ids userId, ∀ later d',
        run (Dialogue.step alloc) d later = some d' →
          (∃ streamId, streamIdFind d'.registry userId = some (some streamId)) ∧
          ∀ streamId, (userId, streamId) ∈ d'.answers ↔ (userId, streamId) ∈ d.answers := by
  obtain ⟨ids, howned, -⟩ := (Dialogue.owned_start alloc capacity nShardingBits).run hrun
  rw [List.nil_append] at howned
  refine ⟨ids, howned.answers, howned.issued.finds, fun userId hseen later d' hlater => ?_⟩
  obtain ⟨more, howned', hunseen⟩ := howned.run hlater
  constructor
  · obtain ⟨-, hnot⟩ | ⟨streamId, hfind, -⟩ := howned'.issued.find userId
    · exact absurd (mem_seenBy_append hseen more) hnot
    · exact ⟨streamId, hfind⟩
  · intro streamId
    rw [howned'.answers, howned.answers]
    rcases Nat.lt_or_ge streamId.toNat ids.length with hlt | hge
    · rw [List.getElem?_append_left hlt]
    · rw [List.getElem?_eq_none hge, List.getElem?_append_right hge]
      refine iff_of_false (fun hmore => ?_) (Option.some_ne_none _).symm
      exact hunseen userId (List.mem_of_getElem? hmore) hseen

/-- With one sharding bit, `2 ^ 32` is issued two stream ids before its shard sees it. -/
theorem stream_ids_have_one_owner_issuedTwice :
    ∃ d, run (Dialogue.step smallAllocator) (Dialogue.start 4 1)
        [.register 0, .register 4294967296, .register 4294967296] = some d ∧
      ∃ ids : List UInt64, (4294967296, 1) ∈ d.answers ∧ (4294967296, 2) ∈ d.answers ∧
        ids[1]? = some 4294967296 ∧ ids[2]? = some 4294967296 := by
  refine ⟨_, rfl, ?_⟩
  obtain ⟨ids, hanswers, -⟩ := stream_ids_have_one_owner smallAllocator 4 1
    [.register 0, .register 4294967296, .register 4294967296] rfl
  refine ⟨ids, by decide, by decide, ?_, ?_⟩
  · exact (hanswers 4294967296 1).mp (by decide)
  · exact (hanswers 4294967296 2).mp (by decide)

end Registry

end ConArtist
