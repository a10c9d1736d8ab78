import Mathlib.Data.Int.Cast.Basic
import ConArtist.Foundation.Stock

/-!
# The pools of libuv handles

The TCP handles, the TCP writes and the UDP sends are each in a pool of their own: an array, and the
numbers of its free elements in a stack of `u16`. The three differ in the types of their counts and
of the capacity they are created with. The one for TCP handles takes a `u32`, of which the numbers
keep the low 16 bits.

A handle is a pointer into the array, here the offset of its element. An access outside an array and
the overflow of an `i32` have no result.
-/

namespace ConArtist

namespace Pool

open Machine Stock

/-- The type of `m_free_count` and of `m_capacity`. -/
inductive CountType where
  | i32
  | u16

/-- A count in a member of the type. -/
def CountType.store : CountType → ℤ → Option ℤ
  | .i32, n => if -2147483648 ≤ n ∧ n < 2147483648 then some n else none
  | .u16, n => some (n % 65536)

/-- A `u32` as an `i32`. -/
def toI32 (n : UInt32) : ℤ := Int.bmod n.toNat 4294967296

theorem toI32_eq (n : UInt32) :
    toI32 n = if n.toNat < 2147483648 then (n.toNat : ℤ) else n.toNat - 4294967296 := by
  have hlt := n.toNat_lt
  have hdef := @Int.bmod_def n.toNat 4294967296
  unfold toI32
  generalize Int.bmod n.toNat 4294967296 = count at hdef ⊢
  split <;> omega

/-- `uv_tcp_pool_t`, `uv_tcp_write_pool_t` and `uv_udp_send_pool_t`. -/
structure HandlePool (α : Type) where
  pool : List α
  freeList : List UInt16
  freeCount : ℤ
  capacity : ℤ

section Functions

variable {α : Type}

/-- The arrays of a new pool. The content of the handles is what was in the memory. -/
def HandlePool.create (handles : ℕ → α) (n : ℕ) (capacity : ℤ) : HandlePool α where
  pool := (List.range n).map handles
  freeList := (List.range n).map UInt16.ofNat
  freeCount := capacity
  capacity := capacity

def HandlePool.entry (p : HandlePool α) (i : ℤ) : Option UInt16 :=
  if 0 ≤ i then p.freeList[i.toNat]? else none

/-- Take the number on the top of the free list. -/
def HandlePool.acquire (type : CountType) (p : HandlePool α) :
    Option (Option ℕ × HandlePool α) :=
  if p.freeCount = 0 then some (none, p)
  else do
    let freeCount ← type.store (p.freeCount - 1)
    let index ← p.entry freeCount
    some (some index.toNat, { p with freeCount := freeCount })

/-- Put the number of the handle at an offset on the top of the free list. -/
def HandlePool.release (type : CountType) (p : HandlePool α) (offset : ℤ) :
    Option (HandlePool α) :=
  let index := UInt16.ofNat (offset % 65536).toNat
  if (index.toNat : ℤ) < p.capacity then
    if 0 ≤ p.freeCount ∧ p.freeCount < p.freeList.length then do
      let freeCount ← type.store (p.freeCount + 1)
      some { p with
        freeList := p.freeList.set p.freeCount.toNat index
        freeCount := freeCount }
    else none
  else some p

/-- `uv_tcp_pool_create`. -/
def uvTcpPoolCreate (handles : ℕ → α) (capacity : UInt32) : HandlePool α :=
  .create handles capacity.toNat (toI32 capacity)

/-- `uv_tcp_acquire`. -/
def uvTcpAcquire (p : HandlePool α) : Option (Option ℕ × HandlePool α) := p.acquire .i32

/-- `uv_tcp_release`. -/
def uvTcpRelease (p : HandlePool α) (uv : ℤ) : Option (HandlePool α) := p.release .i32 uv

/-- `uv_tcp_write_pool_create`. -/
def uvTcpWritePoolCreate (handles : ℕ → α) (capacity : UInt16) : HandlePool α :=
  .create handles capacity.toNat capacity.toNat

/-- `uv_tcp_write_acquire`. -/
def uvTcpWriteAcquire (p : HandlePool α) : Option (Option ℕ × HandlePool α) := p.acquire .i32

/-- `uv_tcp_write_release`. -/
def uvTcpWriteRelease (p : HandlePool α) (req : ℤ) : Option (HandlePool α) := p.release .i32 req

/-- `uv_udp_send_pool_create`. -/
def uvUdpSendPoolCreate (handles : ℕ → α) (size : UInt16) : HandlePool α :=
  .create handles size.toNat size.toNat

/-- `uv_udp_send_acquire`, which clears the handle. -/
def uvUdpSendAcquire (cleared : α) (p : HandlePool α) : Option (Option ℕ × HandlePool α) := do
  let (out, p) ← p.acquire .u16
  match out with
  | none => some (none, p)
  | some index =>
      if index < p.pool.length then some (some index, { p with pool := p.pool.set index cleared })
      else none

/-- `uv_udp_send_release`. -/
def uvUdpSendRelease (p : HandlePool α) (item : ℤ) : Option (HandlePool α) := p.release .u16 item

def HandlePool.freeEntries (p : HandlePool α) : List ℕ :=
  (p.freeList.take p.freeCount.toNat).map UInt16.toNat

end Functions

theorem index_toNat (offset : ℤ) :
    ((UInt16.ofNat (offset % 65536).toNat).toNat : ℤ) = offset % 65536 := by
  have htoNat : (UInt16.ofNat (offset % 65536).toNat).toNat = (offset % 65536).toNat :=
    UInt16.toNat_ofNat_of_lt' (by simp only [UInt16.size]; omega)
  rw [htoNat]
  omega

section Stack

variable {α : Type} {n : ℕ} {type : CountType} {p : HandlePool α} {free : List ℕ}

/-- The pool of `n` handles has the handles `free` in its free list, the last one first. -/
structure Keeps (n : ℕ) (p : HandlePool α) (free : List ℕ) : Prop where
  capacity_eq : p.capacity = n
  length_pool : p.pool.length = n
  length_freeList : p.freeList.length = n
  freeCount_eq : p.freeCount = free.length
  length_le : free.length ≤ n
  stack_eq : (stack p.freeList free.length).map UInt16.toNat = free
  lt : ∀ k ∈ free, k < n

theorem Keeps.freeEntries_eq (h : Keeps n p free) : p.freeEntries = free.reverse := by
  rw [HandlePool.freeEntries, h.freeCount_eq, Int.toNat_natCast]
  conv_rhs => rw [← h.stack_eq]
  rw [stack, List.map_reverse, List.reverse_reverse]

theorem Keeps.acquire_nil (h : Keeps n p []) : p.acquire type = some (none, p) :=
  if_pos h.freeCount_eq

/-- The counts of the pool are in the range of their type. -/
def Holds (type : CountType) (n : ℕ) : Prop := ∀ m : ℕ, m ≤ n → type.store m = some (m : ℤ)

theorem Keeps.acquire_cons (htype : Holds type n) {x : ℕ} (h : Keeps n p (x :: free)) :
    ∃ t, p.acquire type = some (some x, t) ∧ Keeps n t free ∧ t.pool = p.pool := by
  have hle := h.length_le
  have hcount := h.freeCount_eq
  rw [List.length_cons] at hle hcount
  have hlt : free.length < p.freeList.length := by rw [h.length_freeList]; omega
  have hstack := h.stack_eq
  rw [List.length_cons, stack_succ hlt, List.map_cons, List.cons.injEq] at hstack
  obtain ⟨htop, hrest⟩ := hstack
  have hpred : p.freeCount - 1 = (free.length : ℤ) := by omega
  refine ⟨{ p with freeCount := free.length }, ?_, ?_, rfl⟩
  · have hentry : p.entry (free.length : ℤ) = some p.freeList[free.length] := by
      rw [HandlePool.entry, if_pos (Int.natCast_nonneg _), Int.toNat_natCast]
      exact List.getElem?_eq_getElem hlt
    rw [HandlePool.acquire, if_neg (by omega), hpred, htype _ (by omega)]
    simp only [Option.bind_eq_bind, Option.bind_some, hentry, htop]
  · exact ⟨h.capacity_eq, h.length_pool, h.length_freeList, rfl, by omega, hrest,
      fun k hk => h.lt k (List.mem_cons_of_mem x hk)⟩

theorem Keeps.release_cons (htype : Holds type n) (hn : n ≤ 65536) (h : Keeps n p free)
    (hlength : free.length < n) {x : ℕ} (hx : x < n) :
    ∃ t, p.release type x = some t ∧ Keeps n t (x :: free) := by
  have hlt : free.length < p.freeList.length := by rwa [h.length_freeList]
  have hindex : (UInt16.ofNat ((x : ℤ) % 65536).toNat).toNat = x := by
    have htoNat := index_toNat x
    omega
  have hsucc : p.freeCount + 1 = ((free.length + 1 : ℕ) : ℤ) := by
    rw [h.freeCount_eq]
    omega
  refine ⟨{ p with
    freeList := p.freeList.set free.length (UInt16.ofNat ((x : ℤ) % 65536).toNat)
    freeCount := (free.length + 1 : ℕ) }, ?_, ?_⟩
  · have hcapacity := h.capacity_eq
    have hcount := h.freeCount_eq
    have hroom : 0 ≤ p.freeCount ∧ p.freeCount < p.freeList.length := by omega
    simp only [HandlePool.release, hindex]
    rw [if_pos (by omega), if_pos hroom, hsucc, htype _ (by omega), hcount, Int.toNat_natCast]
    rfl
  · refine ⟨h.capacity_eq, h.length_pool, ?_, rfl, hlength, ?_, ?_⟩
    · rw [List.length_set, h.length_freeList]
    · rw [List.length_cons, stack_set hlt, List.map_cons, hindex, h.stack_eq]
    · exact List.forall_mem_cons.mpr ⟨hx, h.lt⟩

theorem keeps_create (handles : ℕ → α) (hn : n ≤ 65536) :
    Keeps n (HandlePool.create handles n n) (List.range n).reverse := by
  have hlength : ((List.range n).map UInt16.ofNat).length = n := by
    rw [List.length_map, List.length_range]
  have hentries : ((List.range n).map UInt16.ofNat).map UInt16.toNat = List.range n := by
    rw [List.map_map]
    refine (List.map_congr_left fun k hk => ?_).trans (List.map_id _)
    have hlt := List.mem_range.mp hk
    exact UInt16.toNat_ofNat_of_lt' (by simp only [UInt16.size]; omega)
  have hfree : (List.range n).reverse.length = n := by
    rw [List.length_reverse, List.length_range]
  refine ⟨rfl, ?_, hlength, ?_, Nat.le_of_eq hfree, ?_, ?_⟩
  · rw [HandlePool.create, List.length_map, List.length_range]
  · rw [hfree]
    rfl
  · rw [hfree, stack, HandlePool.create, List.take_of_length_le (Nat.le_of_eq hlength), List.map_reverse,
      hentries]
  · intro k hk
    exact List.mem_range.mp (List.mem_reverse.mp hk)

/-- The pools of `n` handles are stocks of them. -/
theorem implements_pool (htype : Holds type n) (hn : n ≤ 65536) :
    Implements (fun p : HandlePool α => p.acquire type) (fun p (k : ℕ) => p.release type k)
      (Keeps n) (List.range n) where
  acquire_nil := fun p hp => ⟨p, hp.acquire_nil, hp⟩
  acquire_cons := fun p x free hp => by
    obtain ⟨t, ht, hkeeps, -⟩ := hp.acquire_cons htype
    exact ⟨t, ht, hkeeps⟩
  release_cons := fun p x free hp hlt hx => by
    rw [List.length_range] at hlt
    exact hp.release_cons htype hn hlt (List.mem_range.mp hx)

theorem holds_i32 (hn : n ≤ 65536) : Holds .i32 n := fun m hm => by
  rw [CountType.store, if_pos (by omega)]

theorem holds_u16 (hn : n < 65536) : Holds .u16 n := fun m hm => by
  have hmod : (m : ℤ) % 65536 = m := by omega
  rw [CountType.store, hmod]

/-- The pool for UDP sends clears a handle in its array, and the free list is not in it. -/
theorem implements_uvUdpSend (cleared : α) (hn : n < 65536) :
    Implements (uvUdpSendAcquire cleared) (fun p (k : ℕ) => uvUdpSendRelease p k) (Keeps n)
      (List.range n) where
  acquire_nil := fun p hp => ⟨p, by rw [uvUdpSendAcquire, hp.acquire_nil]; rfl, hp⟩
  acquire_cons := fun p x free hp => by
    obtain ⟨t, ht, hkeeps, hpool⟩ := hp.acquire_cons (holds_u16 hn)
    have hx : x < t.pool.length := by
      rw [hkeeps.length_pool]
      exact hp.lt x List.mem_cons_self
    refine ⟨{ t with pool := t.pool.set x cleared }, ?_, ?_⟩
    · rw [uvUdpSendAcquire, ht]
      exact if_pos hx
    · exact { hkeeps with length_pool := by rw [List.length_set, hkeeps.length_pool] }
  release_cons := (implements_pool (holds_u16 hn) (Nat.le_of_lt hn)).release_cons

end Stack

/-- In every run of users that release what they hold, null is handed out only when all `n` handles
are held, and no handle twice. The free entries are distinct and below `n`. -/
structure HandsOut {α : Type} (acquire : HandlePool α → Option (Option ℕ × HandlePool α))
    (release : HandlePool α → ℤ → Option (HandlePool α)) (n : ℕ) (p : HandlePool α) : Prop where
  calls : ∀ ops : List (Op ℕ), Attempts (use acquire fun p k => release p k)
    (Proper acquire (fun p k => release p k) (List.range n)) (p, []) ops
  entries : ∀ ops : List (Op ℕ), Throughout (use acquire fun p k => release p k)
    (fun u => u.1.freeEntries.Nodup ∧ ∀ k ∈ u.1.freeEntries, k < n) (p, []) ops

section HandsOut

variable {α : Type}

theorem handsOut_of_implements {acquire : HandlePool α → Option (Option ℕ × HandlePool α)}
    {release : HandlePool α → ℤ → Option (HandlePool α)} {n : ℕ} {p : HandlePool α}
    (h : Implements acquire (fun p (k : ℕ) => release p k) (Keeps n) (List.range n))
    (hp : Keeps n p (List.range n).reverse) : HandsOut acquire release n p := by
  have haccounts : Accounts (Keeps n) (List.range n) (p, []) :=
    ⟨_, hp, by rw [List.append_nil]; exact List.reverse_perm _⟩
  refine ⟨attempts_proper h List.nodup_range haccounts, throughout_of_accounts h haccounts ?_⟩
  rintro u ⟨free, hkeeps, hperm⟩
  have hnodup := hperm.nodup_iff.mpr List.nodup_range
  rw [hkeeps.freeEntries_eq]
  exact ⟨List.nodup_reverse.mpr (List.nodup_append.mp hnodup).1,
    fun k hk => hkeeps.lt k (List.mem_reverse.mp hk)⟩

theorem freeCount_uvTcpPoolCreate (handles : ℕ → α) (capacity : UInt32) :
    (uvTcpPoolCreate handles capacity).freeCount = toI32 capacity := by
  rw [uvTcpPoolCreate, HandlePool.create]

/-- With more than `2 ^ 16` handles some number is in the free list twice, or the count is
negative. -/
theorem not_handsOut_of_lt (handles : ℕ → α) {capacity : UInt32} (h : 65536 < capacity.toNat) :
    ¬ HandsOut uvTcpAcquire uvTcpRelease capacity.toNat (uvTcpPoolCreate handles capacity) := by
  intro hands
  have hlt := capacity.toNat_lt
  by_cases hsmall : capacity.toNat < 2147483648
  · have hcount : toI32 capacity = capacity.toNat := by rw [toI32_eq, if_pos hsmall]
    have hentries : (uvTcpPoolCreate handles capacity).freeEntries =
        ((List.range capacity.toNat).map UInt16.ofNat).map UInt16.toNat := by
      rw [HandlePool.freeEntries, uvTcpPoolCreate, HandlePool.create, hcount, Int.toNat_natCast,
        List.take_of_length_le (by rw [List.length_map, List.length_range])]
    have hnodup := (hands.entries []).1
    rw [hentries, List.map_map] at hnodup
    -- the numbers 0 and 65536 have the same low bits
    have hlow : (UInt16.toNat ∘ UInt16.ofNat) 0 = (UInt16.toNat ∘ UInt16.ofNat) 65536 := by
      decide +kernel
    have hsame := List.inj_on_of_nodup_map hnodup
      (List.mem_range.mpr (Nat.lt_trans (Nat.zero_lt_succ _) h)) (List.mem_range.mpr h) hlow
    omega
  · have hcount : (uvTcpPoolCreate handles capacity).freeCount < 0 := by
      rw [freeCount_uvTcpPoolCreate, toI32_eq, if_neg hsmall]
      omega
    obtain ⟨x, t, hacquire, -⟩ := (hands.calls [.acquire]).1
    rw [uvTcpAcquire, HandlePool.acquire, if_neg (by omega)] at hacquire
    obtain ⟨freeCount, hstore, hacquire⟩ := Option.bind_eq_some_iff.mp hacquire
    obtain ⟨index, hentry, -⟩ := Option.bind_eq_some_iff.mp hacquire
    have hnegative : freeCount < 0 := by
      rw [CountType.store] at hstore
      split at hstore
      case isTrue =>
        have hpred := Option.some.inj hstore
        omega
      case isFalse => cases hstore
    rw [HandlePool.entry, if_neg (by omega)] at hentry
    cases hentry

end HandsOut

/-- The pool for TCP handles hands each of them to one user exactly when it has at most `2 ^ 16`,
the other two with every capacity they can be created with. -/
theorem pools_handOut_iff {α β γ : Type} (handles : ℕ → α) (writes : ℕ → β) (sends : ℕ → γ)
    (cleared : γ) :
    (∀ capacity : UInt32, HandsOut uvTcpAcquire uvTcpRelease capacity.toNat
        (uvTcpPoolCreate handles capacity) ↔ capacity.toNat ≤ 65536) ∧
      (∀ capacity : UInt16, HandsOut uvTcpWriteAcquire uvTcpWriteRelease capacity.toNat
        (uvTcpWritePoolCreate writes capacity)) ∧
      ∀ size : UInt16, HandsOut (uvUdpSendAcquire cleared) uvUdpSendRelease size.toNat
        (uvUdpSendPoolCreate sends size) := by
  refine ⟨fun capacity => ⟨fun hands => ?_, fun hle => ?_⟩, fun capacity => ?_, fun size => ?_⟩
  · by_contra hlt
    exact not_handsOut_of_lt handles (Nat.lt_of_not_le hlt) hands
  · have hcount : toI32 capacity = capacity.toNat := by rw [toI32_eq, if_pos (by omega)]
    refine handsOut_of_implements (implements_pool (holds_i32 hle) hle) ?_
    rw [uvTcpPoolCreate, hcount]
    exact keeps_create handles hle
  · have hle := Nat.le_of_lt capacity.toNat_lt
    exact handsOut_of_implements (implements_pool (holds_i32 hle) hle) (keeps_create writes hle)
  · exact handsOut_of_implements (implements_uvUdpSend cleared size.toNat_lt)
      (keeps_create sends (Nat.le_of_lt size.toNat_lt))

/-- With one more handle two have the number 0. -/
theorem not_handsOut_65537 : ¬ ∀ (handles : ℕ → Unit) (capacity : UInt32),
    HandsOut uvTcpAcquire uvTcpRelease capacity.toNat (uvTcpPoolCreate handles capacity) :=
  fun h => not_handsOut_of_lt (fun _ => ()) (by decide : 65536 < (65537 : UInt32).toNat)
    (h (fun _ => ()) 65537)

section Foreign

variable {α : Type}

/-- The pointer at an offset is not one of the pool. -/
def Foreign (p : HandlePool α) (offset : ℤ) : Prop := ¬ (0 ≤ offset ∧ offset < p.capacity)

/-- A release that does nothing to the free list. -/
def Harmless (p : HandlePool α) (out : Option (HandlePool α)) : Prop :=
  ∃ t, out = some t ∧ t.freeList = p.freeList ∧ t.freeCount = p.freeCount

theorem CountType.store_succ_ne {type : CountType} {n m : ℤ} (h : type.store (n + 1) = some m) :
    m ≠ n := by
  cases type with
  | i32 =>
      rw [CountType.store] at h
      split at h
      case isTrue =>
        cases h
        omega
      case isFalse => cases h
  | u16 =>
      have hmod : (n + 1) % 65536 = m := Option.some.inj h
      omega

theorem harmless_release_iff (type : CountType) (p : HandlePool α) (offset : ℤ) :
    Harmless p (p.release type offset) ↔ p.capacity ≤ offset % 65536 := by
  simp only [HandlePool.release, index_toNat]
  split
  case isTrue hlt =>
    refine iff_of_false ?_ (Int.not_le.mpr hlt)
    rintro ⟨t, ht, -, hcount⟩
    split at ht
    case isTrue =>
      obtain ⟨freeCount, hstore, ht⟩ := Option.bind_eq_some_iff.mp ht
      cases ht
      exact CountType.store_succ_ne hstore hcount
    case isFalse => cases ht
  case isFalse hle => exact iff_of_true ⟨p, rfl, rfl, rfl⟩ (Int.not_lt.mp hle)

/-- The release of a foreign handle is harmless exactly when the low 16 bits of its offset are not
a number of the pool. -/
theorem release_foreign_iff (p : HandlePool α) (offset : ℤ) (_ : Foreign p offset) :
    (Harmless p (uvTcpRelease p offset) ↔ p.capacity ≤ offset % 65536) ∧
      (Harmless p (uvTcpWriteRelease p offset) ↔ p.capacity ≤ offset % 65536) ∧
      (Harmless p (uvUdpSendRelease p offset) ↔ p.capacity ≤ offset % 65536) :=
  ⟨harmless_release_iff .i32 p offset, harmless_release_iff .i32 p offset,
    harmless_release_iff .u16 p offset⟩

end Foreign

/-- A pool of four handles, of which one is held. -/
def fourHandles : HandlePool Unit := ⟨List.replicate 4 (), [0, 1, 2, 3], 3, 4⟩

/-- The handle behind the last one. -/
theorem release_foreign_four : Foreign fourHandles 4 ∧
    (Harmless fourHandles (uvTcpRelease fourHandles 4) ↔ fourHandles.capacity ≤ 4 % 65536) ∧
    (Harmless fourHandles (uvTcpWriteRelease fourHandles 4) ↔ fourHandles.capacity ≤ 4 % 65536) ∧
    (Harmless fourHandles (uvUdpSendRelease fourHandles 4) ↔ fourHandles.capacity ≤ 4 % 65536) := by
  have hforeign : Foreign fourHandles 4 := fun h => absurd h.2 (by decide)
  exact ⟨hforeign, release_foreign_iff fourHandles 4 hforeign⟩

/-- A pointer `2 ^ 16` elements behind the first handle is released as that handle. -/
theorem release_foreign_65536 : Foreign fourHandles 65536 ∧
    ¬ Harmless fourHandles (uvTcpRelease fourHandles 65536) ∧
    ¬ Harmless fourHandles (uvTcpWriteRelease fourHandles 65536) ∧
    ¬ Harmless fourHandles (uvUdpSendRelease fourHandles 65536) := by
  have hnot : ∀ type : CountType, ¬ Harmless fourHandles (fourHandles.release type 65536) :=
    fun type h => absurd ((harmless_release_iff type fourHandles 65536).mp h) (by decide)
  exact ⟨fun h => absurd h.2 (by decide), hnot .i32, hnot .i32, hnot .u16⟩

end Pool

end ConArtist
