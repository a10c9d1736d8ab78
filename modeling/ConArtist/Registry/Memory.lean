import ConArtist.Foundation.Ledger
import ConArtist.Registry.Refinement

/-!
# The memory of the registry

A shard takes an array of double the size when it is full, copies its entries and gives the old
array back. A ledger of this can be kept over every life of a registry, from its creation to
`stream_id_register_destroy`, also where the capacity of a shard has wrapped: no array is read or
written that the shard does not have, and none is deallocated twice. At the end one block is left,
`m_stream_ids`, which is never deallocated.
-/

namespace ConArtist

namespace Registry

open Function Machine

/-- What a registry allocates. The arrays of the shards are numbered in the order of their
allocation. -/
inductive Block where
  | registry
  | userIds
  | streamIds
  | shards
  | sorted (n : ℕ)
  deriving DecidableEq

abbrev BlockEntry := Ledger.Entry Block

def StreamIdRegistry.shardOf (r : StreamIdRegistry) (userId : UInt64) : ℕ :=
  shardIndex r.shards.length userId

section Shard

variable {alloc : Allocator} {s s' : Shard} {userIds : List UInt64} {index : ℤ}

theorem length_of_shiftLoop {m i : ℕ} {sorted out : List ℤ}
    (h : shiftLoop m i sorted = some out) : out.length = sorted.length := by
  induction m generalizing i sorted with
  | zero => rw [← Option.some.inj h]
  | succ m ih =>
      simp only [shiftLoop, Option.bind_eq_bind, Option.bind_eq_some_iff, write?_eq_some] at h
      obtain ⟨index, -, shifted, ⟨-, rfl⟩, hrest⟩ := h
      rw [ih hrest, List.length_set]

/-- A shard that took up an id has an array, and one that was not full had it before. -/
theorem sorted_ne_nil_of_add (hadd : s.add alloc userIds index = some s') :
    s'.sorted ≠ [] ∧ (¬ s.capacity ≤ s.count → s.sorted ≠ []) := by
  simp only [Shard.add, Option.bind_eq_bind, Option.bind_eq_some_iff, write?_eq_some] at hadd
  obtain ⟨g, hgrow, key, -, pos, -, shifted, hshift, stored, ⟨hlt, rfl⟩, hout⟩ := hadd
  cases hout
  rw [length_of_shiftLoop hshift] at hlt
  refine ⟨?_, fun hfull => ?_⟩
  · refine List.ne_nil_of_length_pos ?_
    rw [List.length_set, length_of_shiftLoop hshift]
    exact Nat.zero_lt_of_lt hlt
  · rw [Shard.grow, if_neg hfull] at hgrow
    cases hgrow
    exact List.ne_nil_of_length_pos (Nat.zero_lt_of_lt hlt)

end Shard

theorem register_cases {alloc : Allocator} {r : StreamIdRegistry} {userId : UInt64}
    {out : StreamIdRegistry × UInt32} (h : streamIdRegister alloc r userId = some out) :
    (streamIdFind r userId ≠ some none ∧ out.1 = r) ∨
      (streamIdFind r userId = some none ∧ ∃ s s' userIds,
        r.shards[r.shardOf userId]? = some s ∧
          s.add alloc userIds (toI16 r.size) = some s' ∧
          out.1.shards = r.shards.set (r.shardOf userId) s') := by
  match hfind : streamIdFind r userId with
  | none =>
      simp [streamIdRegister, hfind] at h
  | some (some streamId) =>
      simp only [streamIdRegister, hfind, Option.bind_eq_bind, Option.bind_some] at h
      cases h
      exact .inl ⟨by simp, rfl⟩
  | some none =>
      simp only [streamIdRegister, hfind, Option.bind_eq_bind, Option.bind_some,
        Option.bind_eq_some_iff, write?_eq_some] at h
      obtain ⟨s, hs, userIds, -, streamIds, -, s', hadd, hout⟩ := h
      cases hout
      exact .inr ⟨rfl, s, s', userIds, hs, hadd, rfl⟩

/-- A registry with the pointers `m_sorted` of its shards, `none` where null. -/
structure Allocated where
  registry : StreamIdRegistry
  sorted : List (Option ℕ)
  next : ℕ

namespace Allocated

/-- `stream_id_register_create`, with shards that start empty. -/
def created (capacity nShardingBits : ℕ) : Allocated :=
  ⟨emptyRegistry capacity nShardingBits, List.replicate (2 ^ nShardingBits) none, 0⟩

/-- The blocks that it allocates. -/
def createEntries : List BlockEntry :=
  [.acquire .registry, .acquire .userIds, .acquire .streamIds, .acquire .shards]

/-- The array of a user id's shard. -/
def pointer (a : Allocated) (userId : UInt64) : Option ℕ :=
  (a.sorted[a.registry.shardOf userId]?).join

/-- A loop over the entries of a shard, which reads its array unless there are none. -/
def readEntries (s : Shard) (pointer : Option ℕ) : List BlockEntry :=
  if s.count.toNat = 0 then [] else pointer.toList.map fun n => .use (.sorted n)

/-- `shard_t::add`, with the number of the array that it allocates when the shard is full. -/
def addEntries (s : Shard) (pointer : Option ℕ) (next : ℕ) : List BlockEntry :=
  if s.capacity ≤ s.count then
    .acquire (.sorted next) :: (readEntries s pointer ++
      pointer.toList.map fun n => .release (.sorted n)) ++ [.use (.sorted next)]
  else pointer.toList.map fun n => .use (.sorted n)

/-- `stream_id_find`. -/
def findEntries (a : Allocated) (userId : UInt64) : List BlockEntry :=
  match a.registry.shards[a.registry.shardOf userId]? with
  | some s => readEntries s (a.pointer userId)
  | none => []

/-- The shard that a registration adds the user id to. -/
def adds (a : Allocated) (userId : UInt64) : Option Shard :=
  if streamIdFind a.registry userId = some none then
    a.registry.shards[a.registry.shardOf userId]?
  else none

/-- What a call does to the arrays. -/
def callEntries (a : Allocated) : Call → List BlockEntry
  | .find userId => a.findEntries userId
  | .register userId =>
      a.findEntries userId ++
        match a.adds userId with
        | some s => addEntries s (a.pointer userId) a.next
        | none => []

/-- The array of a shard that was full is another one. -/
def regrown (a : Allocated) (userId : UInt64) (s : Shard) : Allocated :=
  if s.capacity ≤ s.count then
    { a with
      sorted := a.sorted.set (a.registry.shardOf userId) (some a.next)
      next := a.next + 1 }
  else a

def step (alloc : Allocator) (a : Allocated) : Call → Option Allocated
  | .find userId => (streamIdFind a.registry userId).map fun _ => a
  | .register userId =>
      (streamIdRegister alloc a.registry userId).map fun out =>
        match a.adds userId with
        | some s => { a.regrown userId s with registry := out.1 }
        | none => { a with registry := out.1 }

/-- `stream_id_register_destroy`: the arrays of the shards, then `m_user_ids`, `m_shards` and the
registry. -/
def destroyEntries (a : Allocated) : List BlockEntry :=
  (a.sorted.filterMap id).map (fun n => .release (.sorted n)) ++
    [.release .userIds, .release .shards, .release .registry]

def ledger (alloc : Allocator) : Allocated → List Call → List BlockEntry
  | _, [] => []
  | a, call :: calls =>
      a.callEntries call ++
        match a.step alloc call with
        | some a' => ledger alloc a' calls
        | none => []

/-- The ledger of a life that ends with `last`. -/
def life (alloc : Allocator) (capacity nShardingBits : ℕ) (calls : List Call)
    (last : Allocated) : List BlockEntry :=
  createEntries ++ (ledger alloc (created capacity nShardingBits) calls ++ last.destroyEntries)

/-- The blocks that are held, by the pointers of the shards. -/
def holding (sorted : List (Option ℕ)) : Block → Bool
  | .sorted n => decide (some n ∈ sorted)
  | _ => true

/-- The arrays of the shards are different ones that were allocated, and a pointer is null as long
as its shard has no array. -/
structure Separate (a : Allocated) : Prop where
  length_eq : a.sorted.length = a.registry.shards.length
  below : ∀ n, some n ∈ a.sorted → n < a.next
  distinct : ∀ i j n : ℕ, a.sorted[i]? = some (some n) → a.sorted[j]? = some (some n) → i = j
  null_iff : ∀ (i : ℕ) s p, a.registry.shards[i]? = some s → a.sorted[i]? = some p →
    (p = none ↔ s.sorted = [])

section Holding

variable {sorted : List (Option ℕ)} {i next : ℕ}

theorem mem_set_some (hi : i < sorted.length) (n : ℕ) : some n ∈ sorted.set i (some next) ↔
    n = next ∨ ∃ j, j ≠ i ∧ sorted[j]? = some (some n) := by
  rw [List.mem_iff_getElem?]
  constructor
  · rintro ⟨j, hj⟩
    rcases eq_or_ne i j with rfl | hne
    · rw [List.getElem?_set_self hi] at hj
      exact .inl (Option.some.inj (Option.some.inj hj)).symm
    · rw [List.getElem?_set_ne hne] at hj
      exact .inr ⟨j, hne.symm, hj⟩
  · rintro (rfl | ⟨j, hne, hj⟩)
    · exact ⟨i, List.getElem?_set_self hi⟩
    · exact ⟨j, by rw [List.getElem?_set_ne hne.symm, hj]⟩

theorem holding_set_of_null (hnull : sorted[i]? = some none) :
    holding (sorted.set i (some next)) = update (holding sorted) (.sorted next) true := by
  have hi := (List.getElem?_eq_some_iff.mp hnull).1
  funext b
  cases b with
  | sorted n =>
      rw [Bool.eq_iff_iff, update_apply, holding, holding, decide_eq_true_iff, mem_set_some hi]
      rcases eq_or_ne n next with rfl | hne
      · simp
      · rw [if_neg (by simpa using hne), decide_eq_true_iff, or_iff_right hne,
          List.mem_iff_getElem?]
        refine ⟨fun ⟨j, _, hj⟩ => ⟨j, hj⟩, fun ⟨j, hj⟩ => ⟨j, ?_, hj⟩⟩
        rintro rfl
        simp [hnull] at hj
  | _ => rfl

theorem holding_set_of_some {m : ℕ} (hold : sorted[i]? = some (some m))
    (hdistinct : ∀ j : ℕ, sorted[j]? = some (some m) → j = i) (hnext : m ≠ next) :
    holding (sorted.set i (some next)) =
      update (update (holding sorted) (.sorted next) true) (.sorted m) false := by
  have hi := (List.getElem?_eq_some_iff.mp hold).1
  funext b
  cases b with
  | sorted n =>
      rw [Bool.eq_iff_iff, update_apply, update_apply, holding, holding, decide_eq_true_iff,
        mem_set_some hi]
      rcases eq_or_ne n m with rfl | hother
      · rw [if_pos rfl]
        refine iff_of_false ?_ Bool.false_ne_true
        rintro (hsame | ⟨j, hne, hj⟩)
        · exact hnext hsame
        · exact hne (hdistinct j hj)
      · rw [if_neg (by simpa using hother)]
        rcases eq_or_ne n next with rfl | hne
        · simp
        · rw [if_neg (by simpa using hne), decide_eq_true_iff, or_iff_right hne,
            List.mem_iff_getElem?]
          refine ⟨fun ⟨j, _, hj⟩ => ⟨j, hj⟩, fun ⟨j, hj⟩ => ⟨j, ?_, hj⟩⟩
          rintro rfl
          rw [hold] at hj
          exact hother (Option.some.inj (Option.some.inj hj)).symm
  | _ => rfl

theorem run_use {held : Block → Bool} {pointer : Option ℕ}
    (hheld : ∀ n, pointer = some n → held (.sorted n) = true) :
    run Ledger.step held (pointer.toList.map fun n => .use (.sorted n)) = some held := by
  cases pointer with
  | none => rfl
  | some n =>
      rw [Option.toList_some, List.map_singleton, run_singleton, Ledger.step_use (hheld n rfl)]

theorem run_readEntries {held : Block → Bool} {pointer : Option ℕ} (s : Shard)
    (hheld : ∀ n, pointer = some n → held (.sorted n) = true) :
    run Ledger.step held (readEntries s pointer) = some held := by
  rw [readEntries]
  split
  · rfl
  · exact run_use hheld

end Holding

section Separate

variable {alloc : Allocator} {a a' : Allocated} {userId : UInt64} {s : Shard} {i : ℕ}
  {pointer : Option ℕ}

theorem Separate.holding_next (h : Separate a) : holding a.sorted (.sorted a.next) = false := by
  rw [holding, decide_eq_false_iff_not]
  exact fun hmem => (h.below _ hmem).false

theorem holding_pointer (hpointer : a.sorted[i]? = some pointer) :
    ∀ n, pointer = some n → holding a.sorted (.sorted n) = true := by
  rintro n rfl
  exact decide_eq_true (List.mem_of_getElem? hpointer)

theorem Separate.run_grow (h : Separate a) (s : Shard) (hpointer : a.sorted[i]? = some pointer) :
    run Ledger.step (holding a.sorted)
        (.acquire (.sorted a.next) :: (readEntries s pointer ++
          pointer.toList.map fun n => .release (.sorted n))) =
      some (holding (a.sorted.set i (some a.next))) := by
  have hheld := holding_pointer hpointer
  rw [run_cons, Ledger.step_acquire h.holding_next, Option.bind_some]
  cases pointer with
  | none =>
      rw [holding_set_of_null hpointer]
      exact Ledger.run_append_of_run (run_readEntries s fun n hn => nomatch hn) rfl
  | some m =>
      have hne : m ≠ a.next := (h.below m (List.mem_of_getElem? hpointer)).ne
      have hm : update (holding a.sorted) (.sorted a.next) true (.sorted m) = true := by
        rw [update_of_ne (by simpa using hne)]
        exact hheld m rfl
      rw [holding_set_of_some hpointer (fun j hj => h.distinct j i m hj hpointer) hne]
      refine Ledger.run_append_of_run (run_readEntries s ?_) ?_
      · rintro n hn
        rwa [← Option.some.inj hn]
      · rw [Option.toList_some, List.map_singleton, run_singleton, Ledger.step_release hm]

theorem Separate.run_addEntries (h : Separate a) (s : Shard)
    (hpointer : a.sorted[a.registry.shardOf userId]? = some pointer) :
    run Ledger.step (holding a.sorted) (addEntries s pointer a.next) =
      some (holding (a.regrown userId s).sorted) := by
  rw [addEntries, regrown]
  split
  · refine Ledger.run_append_of_run (h.run_grow s hpointer) ?_
    rw [run_singleton]
    refine Ledger.step_use (decide_eq_true ?_)
    exact (mem_set_some (List.getElem?_eq_some_iff.mp hpointer).1 _).mpr (.inl rfl)
  · exact run_use (holding_pointer hpointer)

theorem Separate.exists_pointer (h : Separate a)
    (hs : a.registry.shards[a.registry.shardOf userId]? = some s) :
    a.sorted[a.registry.shardOf userId]? = some (a.pointer userId) := by
  have hlt : a.registry.shardOf userId < a.sorted.length := by
    rw [h.length_eq]
    exact (List.getElem?_eq_some_iff.mp hs).1
  rw [Allocated.pointer, List.getElem?_eq_getElem hlt]
  rfl

theorem Separate.run_findEntries (h : Separate a) (userId : UInt64) :
    run Ledger.step (holding a.sorted) (a.findEntries userId) = some (holding a.sorted) := by
  rw [findEntries]
  split
  case h_1 s hs => exact run_readEntries s (holding_pointer (h.exists_pointer hs))
  case h_2 => rfl

theorem Separate.run_callEntries (h : Separate a) (call : Call)
    (hstep : a.step alloc call = some a') :
    run Ledger.step (holding a.sorted) (a.callEntries call) = some (holding a'.sorted) := by
  cases call with
  | find userId =>
      obtain ⟨found, -, rfl⟩ := Option.map_eq_some_iff.mp hstep
      exact h.run_findEntries userId
  | register userId =>
      obtain ⟨out, -, rfl⟩ := Option.map_eq_some_iff.mp hstep
      refine Ledger.run_append_of_run (h.run_findEntries userId) ?_
      cases hadds : a.adds userId with
      | none => rfl
      | some s =>
          rw [adds] at hadds
          split at hadds
          case isTrue => exact h.run_addEntries s (h.exists_pointer hadds)
          case isFalse => cases hadds

theorem Separate.set_next (h : Separate a) {s' : Shard} {r' : StreamIdRegistry}
    (hi : i < a.sorted.length) (hs' : s'.sorted ≠ [])
    (hshards : r'.shards = a.registry.shards.set i s') :
    Separate ⟨r', a.sorted.set i (some a.next), a.next + 1⟩ where
  length_eq := by rw [hshards, List.length_set, List.length_set, h.length_eq]
  below := by
    intro n hmem
    rcases (mem_set_some hi n).mp hmem with rfl | ⟨j, -, hj⟩
    · exact Nat.lt_succ_self _
    · exact Nat.lt_succ_of_lt (h.below n (List.mem_of_getElem? hj))
  distinct := by
    intro j k n hj hk
    dsimp only at hj hk
    have hfresh : ∀ l : ℕ, a.sorted[l]? ≠ some (some a.next) :=
      fun l hl => (h.below _ (List.mem_of_getElem? hl)).false
    rw [List.getElem?_set] at hj hk
    split at hj <;> split at hk
    case isTrue.isTrue hij hik => exact hij.symm.trans hik
    case isTrue.isFalse hij hik =>
        cases hj
        exact absurd hk (hfresh k)
    case isFalse.isTrue hij hik =>
        cases hk
        exact absurd hj (hfresh j)
    case isFalse.isFalse hij hik => exact h.distinct j k n hj hk
  null_iff := by
    intro j s p hs hp
    dsimp only at hs hp
    rw [hshards] at hs
    rcases eq_or_ne i j with rfl | hne
    · rw [List.getElem?_set_self (h.length_eq ▸ hi)] at hs
      rw [List.getElem?_set_self hi] at hp
      cases hs
      cases hp
      exact iff_of_false (Option.some_ne_none _) hs'
    · rw [List.getElem?_set_ne hne] at hs hp
      exact h.null_iff j s p hs hp

theorem Separate.keep (h : Separate a) {s' : Shard} {r' : StreamIdRegistry}
    (hs : a.registry.shards[i]? = some s) (hsome : s.sorted ≠ []) (hs' : s'.sorted ≠ [])
    (hshards : r'.shards = a.registry.shards.set i s') :
    Separate { a with registry := r' } where
  length_eq := by rw [hshards, List.length_set, h.length_eq]
  below := h.below
  distinct := h.distinct
  null_iff := by
    intro j t p ht hp
    dsimp only at ht hp
    rw [hshards] at ht
    rcases eq_or_ne i j with rfl | hne
    · rw [List.getElem?_set_self (List.getElem?_eq_some_iff.mp hs).1] at ht
      cases ht
      exact iff_of_false (fun hp' => hsome ((h.null_iff i s p hs hp).mp hp')) hs'
    · rw [List.getElem?_set_ne hne] at ht
      exact h.null_iff j t p ht hp

theorem Separate.regrown (h : Separate a) {s' : Shard} {r' : StreamIdRegistry}
    {userIds : List UInt64} {index : ℤ}
    (hs : a.registry.shards[a.registry.shardOf userId]? = some s)
    (hadd : s.add alloc userIds index = some s')
    (hshards : r'.shards = a.registry.shards.set (a.registry.shardOf userId) s') :
    Separate { a.regrown userId s with registry := r' } := by
  obtain ⟨hs', hsome⟩ := sorted_ne_nil_of_add hadd
  rw [Allocated.regrown]
  split
  case isTrue =>
      refine h.set_next ?_ hs' hshards
      rw [h.length_eq]
      exact (List.getElem?_eq_some_iff.mp hs).1
  case isFalse hfull => exact h.keep hs (hsome hfull) hs' hshards

theorem Separate.step {call : Call} (h : Separate a) (hstep : a.step alloc call = some a') :
    Separate a' := by
  cases call with
  | find userId =>
      obtain ⟨found, -, rfl⟩ := Option.map_eq_some_iff.mp hstep
      exact h
  | register userId =>
      obtain ⟨out, hregister, rfl⟩ := Option.map_eq_some_iff.mp hstep
      obtain ⟨hfind, hsame⟩ | ⟨hfind, s, s', userIds, hs, hadd, hshards⟩ := register_cases hregister
      · rw [adds, if_neg hfind, hsame]
        exact h
      · rw [adds, if_pos hfind, hs]
        exact h.regrown hs hadd hshards

theorem separate_created (capacity nShardingBits : ℕ) :
    Separate (created capacity nShardingBits) where
  length_eq := by rw [created, emptyRegistry, List.length_replicate, List.length_replicate]
  below := fun n hmem => nomatch List.eq_of_mem_replicate hmem
  distinct := fun i j n hi => nomatch List.eq_of_mem_replicate (List.mem_of_getElem? hi)
  null_iff := by
    intro i s p hs hp
    obtain rfl := List.eq_of_mem_replicate (List.mem_of_getElem? hs)
    obtain rfl := List.eq_of_mem_replicate (List.mem_of_getElem? hp)
    exact iff_of_true rfl rfl

theorem run_createEntries (capacity nShardingBits : ℕ) :
    Machine.run Ledger.step Ledger.nothing createEntries =
      some (holding (created capacity nShardingBits).sorted) := by
  have hrun : Machine.run Ledger.step Ledger.nothing createEntries =
      some (update (update (update (update Ledger.nothing .registry true) .userIds true)
        .streamIds true) .shards true) := rfl
  rw [hrun]
  congr 1
  funext b
  cases b with
  | sorted n =>
      refine (decide_eq_false fun hmem => ?_).symm
      cases List.eq_of_mem_replicate hmem
  | _ => rfl

theorem Separate.run {calls : List Call} (h : Separate a)
    (hrun : run (Allocated.step alloc) a calls = some a') :
    Separate a' ∧
      Machine.run Ledger.step (holding a.sorted) (ledger alloc a calls) =
        some (holding a'.sorted) := by
  induction calls generalizing a with
  | nil =>
      cases hrun
      exact ⟨h, rfl⟩
  | cons call calls ih =>
      obtain ⟨a₁, hstep, hrest⟩ := (run_cons_eq_some (Allocated.step alloc)).mp hrun
      obtain ⟨hseparate, hledger⟩ := ih (h.step hstep) hrest
      refine ⟨hseparate, ?_⟩
      rw [ledger, hstep]
      exact Ledger.run_append_of_run (h.run_callEntries call hstep) hledger

/-- What is given back at the end, one block after the other. -/
def destroyed (a : Allocated) : List Block :=
  (a.sorted.filterMap id).map .sorted ++ [.userIds, .shards, .registry]

theorem destroyEntries_eq : a.destroyEntries = a.destroyed.map .release := by
  rw [destroyEntries, destroyed, List.map_append, List.map_map]
  rfl

theorem mem_destroyed (b : Block) :
    b ∈ a.destroyed ↔ holding a.sorted b = true ∧ b ≠ .streamIds := by
  rw [destroyed, List.mem_append, List.mem_map]
  cases b with
  | sorted n => simp [holding]
  | _ => simp [holding]

theorem Separate.nodup_destroyed (h : Separate a) : a.destroyed.Nodup := by
  have hnumbers : (a.sorted.filterMap id).Nodup := by
    rw [List.Nodup, List.pairwise_filterMap, List.pairwise_iff_getElem]
    intro i j hi hj hij n hn m hm hsame
    subst hsame
    have hi' : a.sorted[i]? = some (some n) := by rw [List.getElem?_eq_getElem hi, ← hn, id]
    have hj' : a.sorted[j]? = some (some n) := by rw [List.getElem?_eq_getElem hj, ← hm, id]
    exact hij.ne (h.distinct i j n hi' hj')
  have hinjective : Injective Block.sorted := fun n m => Block.sorted.inj
  rw [destroyed]
  refine (hnumbers.map hinjective).append (by decide) ?_
  intro b hb hb'
  obtain ⟨n, -, rfl⟩ := List.mem_map.mp hb
  simp at hb'

/-- The end leaves `m_stream_ids`. -/
theorem Separate.run_destroyEntries (h : Separate a) :
    Machine.run Ledger.step (holding a.sorted) a.destroyEntries =
      some fun b => decide (b = .streamIds) := by
  rw [destroyEntries_eq, Ledger.run_release_each h.nodup_destroyed
    fun b hb => ((mem_destroyed b).mp hb).1]
  congr 1
  funext b
  rw [Bool.eq_iff_iff, Bool.and_eq_true, decide_eq_true_iff, decide_eq_true_iff, mem_destroyed]
  constructor
  · rintro ⟨hheld, hnot⟩
    by_contra hne
    exact hnot ⟨hheld, hne⟩
  · rintro rfl
    exact ⟨rfl, fun hgone => hgone.2 rfl⟩

end Separate

end Allocated

open Allocated in
/-- Over every life of a registry that stays inside its arrays, whatever the number of its shards
and whatever the allocator grants: no array of a shard is read, written or deallocated that the
shard does not have, a pointer is null only as long as its shard has no array, and in the end all
is deallocated once that was allocated, but the array of the stream ids, which is left. -/
theorem registry_blocks_freed_once (alloc : Allocator) (capacity nShardingBits : ℕ)
    (calls : List Call) {a : Allocated}
    (hrun : run (Allocated.step alloc) (created capacity nShardingBits) calls = some a) :
    run Ledger.step Ledger.nothing (life alloc capacity nShardingBits calls a) =
        some (fun b => decide (b = .streamIds)) ∧
      (∀ b ≠ Block.streamIds, (life alloc capacity nShardingBits calls a).count (.release b) =
        (life alloc capacity nShardingBits calls a).count (.acquire b)) ∧
      ∀ (i : ℕ) s p, a.registry.shards[i]? = some s → a.sorted[i]? = some p →
        (p = none ↔ s.sorted = []) := by
  obtain ⟨hseparate, hledger⟩ := (separate_created capacity nShardingBits).run hrun
  have hlife := Ledger.run_append_of_run (run_createEntries capacity nShardingBits)
    (Ledger.run_append_of_run hledger hseparate.run_destroyEntries)
  exact ⟨hlife, fun b hb => Ledger.count_release_eq hlife rfl (decide_eq_false hb),
    hseparate.null_iff⟩

def fiveIds : List Call :=
  [.register 5, .register 4, .register 3, .register 2, .register 1]

open Allocated in
/-- A shard that takes its fifth id gives its first array back. -/
theorem registry_blocks_freed_once_fiveIds : ∃ a,
    run (Allocated.step smallAllocator) (created 5 0) fiveIds = some a ∧ a.sorted = [some 1] ∧
      (life smallAllocator 5 0 fiveIds a).count (.release (.sorted 0)) =
        (life smallAllocator 5 0 fiveIds a).count (.acquire (.sorted 0)) :=
  ⟨_, rfl, rfl, (registry_blocks_freed_once smallAllocator 5 0 fiveIds rfl).2.1 _ (by decide)⟩

end Registry

end ConArtist
