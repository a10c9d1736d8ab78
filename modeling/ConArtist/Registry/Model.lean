import Mathlib.Algebra.Group.Int.Defs
import Mathlib.Algebra.Group.Nat.Defs
import Mathlib.Data.List.Basic

/-!
# The stream id registry

The model of `stream_id_registry.cpp`. The global arrays `m_user_ids` and
`m_stream_ids` hold the registered ids in order of registration; each shard keeps
a small array of indices into them. The `i16` fields of a shard are integers that
every assignment narrows with `toI16`, as the source's conversions do.

Arrays are lists of their allocated length, and an access outside an array, like
a write through a null pointer, has no result: `none` stands for it throughout.
`alloc_t` is not part of this repository; `Allocator` says what the registry uses
of it.
-/

namespace ConArtist

namespace Registry

/-- Conversion to `i16`. -/
def toI16 (n : ℤ) : ℤ := n.bmod 65536

/-- The allocator, by the requests it grants: a granted request returns a block
of its size, a refused one a null pointer. Requests of up to 64 KiB are granted. -/
structure Allocator where
  grants : ℕ → Bool
  grants_small : ∀ n ≤ 65536, grants n = true

/-- The bytes that `allocator->allocate(sizeof(i16) * new_capacity)` asks for: the
product is a `size_t`. -/
def bytesFor (newCapacity : ℤ) : ℕ := ((2 * newCapacity) % 2 ^ 64).toNat

/-- The block of that request. Its entries are uninitialised, and are written
before they are read. -/
def Allocator.allocateI16 (alloc : Allocator) (newCapacity : ℤ) : Option (List ℤ) :=
  if alloc.grants (bytesFor newCapacity) then
    some (List.replicate (bytesFor newCapacity / 2) 0)
  else none

/-- `xs[i]`, where `i` may be negative. -/
def read? {α : Type*} (xs : List α) (i : ℤ) : Option α :=
  if 0 ≤ i then xs[i.toNat]? else none

/-- `xs[i] = v`. -/
def write? {α : Type*} (xs : List α) (i : ℕ) (v : α) : Option (List α) :=
  if i < xs.length then some (xs.set i v) else none

/-- `shard_t`. -/
structure Shard where
  count : ℤ
  capacity : ℤ
  sorted : List ℤ

/-- `for (i32 i = 0; i < m_count; i++) new_sorted[i] = m_sorted[i];` with `n`
entries to go from index `i`. -/
def copyLoop (sorted : List ℤ) : ℕ → ℕ → List ℤ → Option (List ℤ)
  | 0, _, newSorted => some newSorted
  | n + 1, i, newSorted => do
      let index ← sorted[i]?
      let newSorted ← write? newSorted i index
      copyLoop sorted n (i + 1) newSorted

/-- `i32 new_capacity`. -/
def Shard.newCapacity (s : Shard) : ℤ := if s.capacity = 0 then 4 else s.capacity * 2

/-- The growth at the start of `shard_t::add`. -/
def Shard.grow (alloc : Allocator) (s : Shard) : Option Shard :=
  if s.capacity ≤ s.count then do
    let newSorted ← alloc.allocateI16 s.newCapacity
    let newSorted ← copyLoop s.sorted s.count.toNat 0 newSorted
    some { s with capacity := toI16 s.newCapacity, sorted := newSorted }
  else some s

/-- `while (pos < m_count && user_ids[m_sorted[pos]] < user_ids[index]) pos++;`
with `n` entries to go from `pos`. -/
def posLoop (sorted : List ℤ) (userIds : List UInt64) (key : UInt64) : ℕ → ℕ → Option ℕ
  | 0, pos => some pos
  | n + 1, pos => do
      let index ← sorted[pos]?
      let id ← read? userIds index
      if id < key then posLoop sorted userIds key n (pos + 1) else some pos

/-- `for (i16 i = m_count; i > pos; i--) m_sorted[i] = m_sorted[i - 1];` with `n`
entries to go down from `i`. -/
def shiftLoop : ℕ → ℕ → List ℤ → Option (List ℤ)
  | 0, _, sorted => some sorted
  | n + 1, i, sorted => do
      let index ← sorted[i - 1]?
      let sorted ← write? sorted i index
      shiftLoop n (i - 1) sorted

/-- `shard_t::add`. What it stores for the new entry is the old `m_count`. -/
def Shard.add (alloc : Allocator) (s : Shard) (userIds : List UInt64) (index : ℤ) :
    Option Shard := do
  let s ← s.grow alloc
  let key ← read? userIds index
  let pos ← posLoop s.sorted userIds key s.count.toNat 0
  let sorted ← shiftLoop (s.count.toNat - pos) s.count.toNat s.sorted
  let sorted ← write? sorted pos (toI16 s.count)
  some { s with count := toI16 (s.count + 1), sorted := sorted }

/-- The loop of `shard_t::find` with `n` entries to go from `i`. -/
def findLoop (sorted : List ℤ) (userIds : List UInt64) (userId : UInt64) : ℕ → ℕ → Option ℤ
  | 0, _ => some (-1)
  | n + 1, i => do
      let index ← sorted[i]?
      let id ← read? userIds index
      if id = userId then some index else findLoop sorted userIds userId n (i + 1)

/-- `shard_t::find`. -/
def Shard.find (s : Shard) (userIds : List UInt64) (userId : UInt64) : Option ℤ :=
  findLoop s.sorted userIds userId s.count.toNat 0

/-- `stream_id_registry_t`. The number of shards is the length of `shards`. -/
structure StreamIdRegistry where
  userIds : List UInt64
  streamIds : List UInt32
  size : ℕ
  shards : List Shard

/-- A shard as its constructor leaves it. -/
def emptyShard : Shard := ⟨0, 0, []⟩

/-- A registry of `2 ^ nShardingBits` empty shards. There are such up to 30 bits. -/
def emptyRegistry (capacity nShardingBits : ℕ) : StreamIdRegistry where
  userIds := List.replicate capacity 0
  streamIds := List.replicate capacity 0
  size := 0
  shards := List.replicate (2 ^ nShardingBits) emptyShard

/-- `const i32 n_shards = 1 << n_sharding_bits`. With 31 bits it is negative, and
`m_n_shards - 1` overflows; with more the shift does. -/
def nShards (nShardingBits : UInt8) : Option ℕ :=
  if nShardingBits ≤ 30 then some (2 ^ nShardingBits.toNat) else none

/-- The bytes of a request for `n` elements, a `size_t`. -/
def bytesOf (size : ℕ) (n : ℤ) : ℕ := (size * n % 2 ^ 64).toNat

/-- `(user_id >> 32) & (m_n_shards - 1)`. -/
def shardIndex (nShards : ℕ) (userId : UInt64) : ℕ := (userId.toNat >>> 32) &&& (nShards - 1)

/-- `stream_id_find`: the stream id, if there is one. -/
def streamIdFind (r : StreamIdRegistry) (userId : UInt64) : Option (Option UInt32) := do
  let shard ← r.shards[shardIndex r.shards.length userId]?
  let foundIndex ← shard.find r.userIds userId
  if 0 ≤ foundIndex then (read? r.streamIds foundIndex).map some else some none

/-- `stream_id_register`. -/
def streamIdRegister (alloc : Allocator) (r : StreamIdRegistry) (userId : UInt64) :
    Option (StreamIdRegistry × UInt32) := do
  match ← streamIdFind r userId with
  | some streamId => some (r, streamId)
  | none =>
      let shardAt := shardIndex r.shards.length userId
      let shard ← r.shards[shardAt]?
      let userIds ← write? r.userIds r.size userId
      let streamIds ← write? r.streamIds r.size (UInt32.ofNat r.size)
      let shard ← shard.add alloc userIds (toI16 r.size)
      some (⟨userIds, streamIds, r.size + 1, r.shards.set shardAt shard⟩, UInt32.ofNat r.size)

end Registry

end ConArtist
