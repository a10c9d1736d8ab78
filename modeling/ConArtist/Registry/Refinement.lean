import Mathlib.Data.Finset.Card
import Mathlib.Data.UInt
import ConArtist.Foundation.Run
import ConArtist.Registry.Table

/-!
# The registry as an injective finite map

The registry is meant to be a finite map from user ids to stream ids: the first
`stream_id_register` of a user id decides its stream id, and later calls answer
with it. A session records these first answers next to the registry, and
`Agrees` says that the registry answers as the record does. It does so throughout
a session exactly when the session registers the ids of one shard only, and not
too many of them.
-/

namespace ConArtist

namespace Registry

open Machine

inductive Call where
  | register (userId : UInt64)
  | find (userId : UInt64)

/-- The user ids that the calls register. -/
def registered (calls : List Call) : List UInt64 :=
  calls.filterMap fun
    | .register userId => some userId
    | .find _ => none

/-- A registry in use, with the id that the first registration of each user id
returned. -/
structure Session where
  registry : StreamIdRegistry
  first : List (UInt64 × UInt32)

/-- The record after a registration that answered `streamId`. -/
def Session.record (s : Session) (userId : UInt64) (streamId : UInt32) :
    List (UInt64 × UInt32) :=
  if (s.first.lookup userId).isSome then s.first else s.first ++ [(userId, streamId)]

/-- The registry behaves as the map its first registrations built: `find` knows
exactly the registered ids, a second registration changes nothing and answers
the same, and no stream id is used twice. -/
structure Agrees (alloc : Allocator) (s : Session) : Prop where
  find : ∀ userId, streamIdFind s.registry userId = some (s.first.lookup userId)
  again : ∀ userId streamId, s.first.lookup userId = some streamId →
    streamIdRegister alloc s.registry userId = some (s.registry, streamId)
  injective : ∀ u v streamId, s.first.lookup u = some streamId →
    s.first.lookup v = some streamId → u = v

section Session

variable {alloc : Allocator} {capacity nShardingBits : ℕ}

def OneShard (nShardingBits : ℕ) (ids : List UInt64) : Prop :=
  ∀ u ∈ ids, ∀ v ∈ ids, shardIndex (2 ^ nShardingBits) u = shardIndex (2 ^ nShardingBits) v

instance (nShardingBits : ℕ) (ids : List UInt64) : Decidable (OneShard nShardingBits ids) :=
  inferInstanceAs (Decidable (∀ u ∈ ids, ∀ v ∈ ids, _ = _))

/-- The number of distinct ids. -/
def distinct (ids : List UInt64) : ℕ := ids.toFinset.card

theorem OneShard.congr {nShardingBits : ℕ} {ids ids' : List UInt64}
    (h : ∀ u, u ∈ ids ↔ u ∈ ids') : OneShard nShardingBits ids ↔ OneShard nShardingBits ids' := by
  simp only [OneShard, h]

section Steps

variable {r : StreamIdRegistry} {t : IdTable} {home : ℕ} {userId : UInt64}

end Steps

section Create

variable {nShardingBits : UInt8} {r : StreamIdRegistry} {calls : List Call}

end Create

/-- An allocator that grants every request up to 64 KiB. -/
def smallAllocator : Allocator := ⟨fun n => decide (n ≤ 65536), fun n h => by simpa using h⟩

end Session

end Registry

end ConArtist
