import ConArtist.Pool.Handles

/-!
# The connection manager

`conman.cpp` keeps the numbers of its free connections in a stack of `i32`. The manager that
`tcp_con_mgr_create` sets up gives each connection to one owner, but `tcp_con_mgr_create` returns a
null pointer in its place.

A connection is the offset of its slot.
-/

namespace ConArtist

namespace Pool

open Machine Stock

/-- `tcp_con_t`. -/
structure TcpCon where
  server : ℕ
  handle : ℕ
  lastActive : UInt64
  remoteIp : List UInt8
  remotePort : UInt16
  localPort : UInt16
  flags : List UInt8

/-- A `tcp_con_t` after `memclr`. -/
def zeroTcpCon : TcpCon := ⟨0, 0, 0, List.replicate 16 0, 0, 0, List.replicate 4 0⟩

/-- `tcp_con_mgr_t`. -/
structure TcpConMgr where
  connArray : List TcpCon
  connFree : List ℤ
  numFree : UInt32
  capacity : UInt32

/-- The manager that `tcp_con_mgr_create` sets up. -/
def TcpConMgr.setUp (maxCapacity : UInt32) : TcpConMgr where
  connArray := List.replicate maxCapacity.toNat zeroTcpCon
  connFree := (List.range maxCapacity.toNat).map fun i => toI32 (maxCapacity - 1 - UInt32.ofNat i)
  numFree := maxCapacity
  capacity := maxCapacity

/-- `tcp_con_mgr_create`. It ends with `return 0`. -/
def tcpConMgrCreate (maxCapacity : UInt32) : Option TcpConMgr :=
  let _mgr := TcpConMgr.setUp maxCapacity
  none

/-- `tcp_con_alloc`. -/
def tcpConAlloc (mgr : TcpConMgr) : Option (Option ℤ × TcpConMgr) :=
  if 0 < mgr.numFree then do
    let numFree := mgr.numFree - 1
    let connIndex ← mgr.connFree[numFree.toNat]?
    some (some connIndex, { mgr with numFree := numFree })
  else some (none, mgr)

/-- `tcp_con_free`. -/
def tcpConFree (mgr : TcpConMgr) (info : ℤ) : Option TcpConMgr :=
  if 0 ≤ info ∧ info < mgr.connArray.length ∧ mgr.numFree.toNat < mgr.connFree.length then
    let connIndex := Int.bmod info 4294967296
    some { mgr with
      connArray := mgr.connArray.set info.toNat zeroTcpCon
      connFree := mgr.connFree.set mgr.numFree.toNat connIndex
      numFree := mgr.numFree + 1 }
  else none

/-- The connections of a manager with `n` slots. -/
def connections (n : ℕ) : List ℤ := (List.range n).map Nat.cast

theorem mem_connections {n : ℕ} {k : ℤ} : k ∈ connections n ↔ 0 ≤ k ∧ k < n := by
  rw [connections, List.mem_map]
  constructor
  · rintro ⟨i, hi, rfl⟩
    have hlt := List.mem_range.mp hi
    omega
  · intro hk
    exact ⟨k.toNat, List.mem_range.mpr (by omega), Int.toNat_of_nonneg hk.1⟩

theorem length_connections (n : ℕ) : (connections n).length = n := by
  rw [connections, List.length_map, List.length_range]

theorem nodup_connections (n : ℕ) : (connections n).Nodup :=
  List.nodup_range.map fun _ _ h => Int.ofNat.inj h

/-- Each slot of the manager has one owner, in every run in which only connections that are held
are freed: null is for the case that all `n` are held, and the free entries are distinct and
counted. -/
structure OneOwner (n : ℕ) (mgr : TcpConMgr) : Prop where
  calls : ∀ ops : List (Op ℤ),
    Attempts (use tcpConAlloc tcpConFree) (Proper tcpConAlloc tcpConFree (connections n)) (mgr, [])
      ops
  entries : ∀ ops : List (Op ℤ), Throughout (use tcpConAlloc tcpConFree)
    (fun u => u.1.numFree.toNat + u.2.length = n ∧
      (u.1.connFree.take u.1.numFree.toNat).Nodup) (mgr, []) ops

/-- The manager of `n` slots has the connections `free` in its free stack, the last one first. -/
structure KeepsConns (n : ℕ) (mgr : TcpConMgr) (free : List ℤ) : Prop where
  length_connArray : mgr.connArray.length = n
  length_connFree : mgr.connFree.length = n
  numFree_eq : mgr.numFree.toNat = free.length
  length_le : free.length ≤ n
  stack_eq : stack mgr.connFree free.length = free

section Manager

variable {n : ℕ} {mgr : TcpConMgr} {free : List ℤ}

theorem implements_tcpCon (hn : n ≤ 2147483648) :
    Implements tcpConAlloc tcpConFree (KeepsConns n) (connections n) where
  acquire_nil := fun mgr h => by
    have hzero : ¬ 0 < mgr.numFree := by
      rw [UInt32.lt_iff_toNat_lt, h.numFree_eq]
      exact Nat.lt_irrefl 0
    exact ⟨mgr, if_neg hzero, h⟩
  acquire_cons := fun mgr x free h => by
    have hcount := h.numFree_eq
    have hle := h.length_le
    rw [List.length_cons] at hcount hle
    have hlt : free.length < mgr.connFree.length := by rw [h.length_connFree]; omega
    have hstack := h.stack_eq
    rw [List.length_cons, stack_succ hlt, List.cons.injEq] at hstack
    obtain ⟨htop, hrest⟩ := hstack
    have hzero : (0 : UInt32).toNat = 0 := rfl
    have hpos : 0 < mgr.numFree := by
      rw [UInt32.lt_iff_toNat_lt, hcount, hzero]
      omega
    have hpred : (mgr.numFree - 1).toNat = free.length := by
      have hone : (1 : UInt32).toNat = 1 := rfl
      have hle' : 1 ≤ mgr.numFree := by
        rw [UInt32.le_iff_toNat_le, hcount, hone]
        omega
      rw [UInt32.toNat_sub_of_le _ _ hle', hcount, hone, Nat.add_sub_cancel]
    refine ⟨{ mgr with numFree := mgr.numFree - 1 }, ?_, ?_⟩
    · rw [tcpConAlloc, if_pos hpos]
      simp only [hpred, List.getElem?_eq_getElem hlt, htop, Option.bind_eq_bind, Option.bind_some]
    · exact ⟨h.length_connArray, h.length_connFree, hpred, by omega, hrest⟩
  release_cons := fun mgr x free h hlength hx => by
    rw [length_connections] at hlength
    obtain ⟨hx0, hxn⟩ := mem_connections.mp hx
    have hlt : free.length < mgr.connFree.length := by rwa [h.length_connFree]
    have hin : 0 ≤ x ∧ x < mgr.connArray.length ∧ mgr.numFree.toNat < mgr.connFree.length := by
      rw [h.length_connArray, h.numFree_eq]
      exact ⟨hx0, hxn, hlt⟩
    have hindex : Int.bmod x 4294967296 = x := Int.bmod_eq_of_le (by omega) (by omega)
    have hsucc : (mgr.numFree + 1).toNat = free.length + 1 := by
      have hone : (1 : UInt32).toNat = 1 := rfl
      rw [UInt32.toNat_add, h.numFree_eq, hone]
      omega
    refine ⟨_, if_pos hin, ?_, ?_, hsucc, hlength, ?_⟩
    · rw [List.length_set, h.length_connArray]
    · rw [List.length_set, h.length_connFree]
    · rw [List.length_cons, h.numFree_eq, stack_set hlt, hindex, h.stack_eq]

theorem keepsConns_setUp {maxCapacity : UInt32} (hn : maxCapacity.toNat ≤ 2147483648) :
    KeepsConns maxCapacity.toNat (.setUp maxCapacity) (connections maxCapacity.toNat) := by
  have hentry : ∀ i < maxCapacity.toNat, toI32 (maxCapacity - 1 - UInt32.ofNat i) =
      ((maxCapacity.toNat - 1 - i : ℕ) : ℤ) := by
    intro i hi
    have hi32 : (UInt32.ofNat i).toNat = i :=
      UInt32.toNat_ofNat_of_lt' (Nat.lt_trans hi maxCapacity.toNat_lt)
    have hone : (1 : UInt32).toNat = 1 := rfl
    have hlast : (maxCapacity - 1).toNat = maxCapacity.toNat - 1 := by
      rw [UInt32.toNat_sub_of_le _ _ (by rw [UInt32.le_iff_toNat_le, hone]; omega), hone]
    have hnumber : (maxCapacity - 1 - UInt32.ofNat i).toNat = maxCapacity.toNat - 1 - i := by
      rw [UInt32.toNat_sub_of_le _ _ (by rw [UInt32.le_iff_toNat_le, hlast, hi32]; omega), hlast,
        hi32]
    rw [toI32_eq, hnumber, if_pos (by omega)]
  have hlength : (TcpConMgr.setUp maxCapacity).connFree.length = maxCapacity.toNat := by
    rw [TcpConMgr.setUp, List.length_map, List.length_range]
  have hconnections := length_connections maxCapacity.toNat
  refine ⟨?_, hlength, hconnections.symm, Nat.le_of_eq hconnections, ?_⟩
  · rw [TcpConMgr.setUp, List.length_replicate]
  · rw [hconnections, stack, List.take_of_length_le (Nat.le_of_eq hlength)]
    refine List.ext_getElem (by rw [List.length_reverse, hlength, hconnections]) fun i hi hi' => ?_
    rw [hconnections] at hi'
    rw [List.getElem_reverse]
    simp only [TcpConMgr.setUp, connections, List.getElem_map, List.getElem_range,
      List.length_map, List.length_range]
    rw [hentry _ (by omega)]
    congr 1
    omega

theorem oneOwner_setUp {maxCapacity : UInt32} (hn : maxCapacity.toNat ≤ 2147483648) :
    OneOwner maxCapacity.toNat (.setUp maxCapacity) := by
  have himplements := implements_tcpCon hn
  have haccounts : Accounts (KeepsConns maxCapacity.toNat) (connections maxCapacity.toNat)
      (TcpConMgr.setUp maxCapacity, []) :=
    ⟨_, keepsConns_setUp hn, by rw [List.append_nil]⟩
  refine ⟨attempts_proper himplements (nodup_connections _) haccounts,
    throughout_of_accounts himplements haccounts ?_⟩
  rintro u ⟨free, hkeeps, hperm⟩
  have hnodup := hperm.nodup_iff.mpr (nodup_connections _)
  have hlength := hperm.length_eq
  rw [List.length_append, length_connections] at hlength
  refine ⟨by rw [hkeeps.numFree_eq, hlength], ?_⟩
  have hfree := (List.nodup_append.mp hnodup).1
  rw [← hkeeps.stack_eq, stack, List.nodup_reverse] at hfree
  rwa [hkeeps.numFree_eq]

end Manager

/-- What is returned is no manager, so it has no owners to give its slots to. -/
theorem tcpConMgrCreate_not_oneOwner (maxCapacity : UInt32) :
    ¬ ∃ mgr, tcpConMgrCreate maxCapacity = some mgr ∧ OneOwner maxCapacity.toNat mgr := by
  rintro ⟨mgr, h, -⟩
  cases h

/-- Also for one connection. -/
theorem tcpConMgrCreate_one : ¬ ∀ maxCapacity : UInt32, 0 < maxCapacity →
    ∃ mgr, tcpConMgrCreate maxCapacity = some mgr ∧ OneOwner maxCapacity.toNat mgr := by
  intro h
  obtain ⟨mgr, hcreate, -⟩ := h 1 (by decide)
  cases hcreate

end Pool

end ConArtist
