import Mathlib.Data.Finset.Card
import Mathlib.Logic.Function.Basic
import ConArtist.Foundation.Stock

/-!
# The packet pool

A packet and its data come from two bins of the library. `packet_acquire` writes to the packet
before it looks at what the bin gave, so that it goes through a null pointer when all packets are
held. Until then the two bins move in lock step.

A block is its address. The bins are a parameter, and `Lawful` is what is known of them.
-/

namespace ConArtist

namespace Pool

open Function Machine Stock

/-- `nbin`. `inUse` and `maxItems` say what a bin is, and no function of the program reads them. -/
structure Nbin where
  Bin : Type
  makeBin : ℕ → ℕ → Bin
  alloc : Bin → Option ℕ × Bin
  free : Bin → Option ℕ → Bin
  inUse : Bin → Finset ℕ
  maxItems : Bin → ℕ

/-- An exhausted bin gives null, and another one a block that is not in use. -/
structure Nbin.Lawful (nbin : Nbin) : Prop where
  inUse_makeBin : ∀ size n, nbin.inUse (nbin.makeBin size n) = ∅
  maxItems_makeBin : ∀ size n, nbin.maxItems (nbin.makeBin size n) = n
  alloc_exhausted : ∀ b, (nbin.inUse b).card = nbin.maxItems b → nbin.alloc b = (none, b)
  alloc_room : ∀ b, (nbin.inUse b).card < nbin.maxItems b → ∃ block b',
    nbin.alloc b = (some block, b') ∧ block ∉ nbin.inUse b ∧
      nbin.inUse b' = insert block (nbin.inUse b) ∧ nbin.maxItems b' = nbin.maxItems b
  free_block : ∀ b block, block ∈ nbin.inUse b →
    nbin.inUse (nbin.free b (some block)) = (nbin.inUse b).erase block ∧
      nbin.maxItems (nbin.free b (some block)) = nbin.maxItems b

/-- `packet_t`. -/
structure PacketT where
  conn : ℕ
  dataSize : UInt32
  dataCapacity : UInt32
  data : Option ℕ

/-- `packet_pool_t`, and the packets in the memory of its bin. -/
structure PacketPool (nbin : Nbin) where
  packetBin : nbin.Bin
  packetDataBin : nbin.Bin
  packetDataSize : UInt32
  packets : ℕ → PacketT

variable {nbin : Nbin}

/-- `sizeof(packet_t)`. -/
def sizeofPacket : ℕ := 24

/-- `packet_pool_create`. It does not use the initial size. -/
def packetPoolCreate (nbin : Nbin) (packets : ℕ → PacketT) (_initialPoolSize maxPoolSize : UInt32)
    (packetDataSize : UInt16) : PacketPool nbin where
  packetBin := nbin.makeBin sizeofPacket maxPoolSize.toNat
  packetDataBin := nbin.makeBin packetDataSize.toNat maxPoolSize.toNat
  packetDataSize := packetDataSize.toUInt32
  packets := packets

/-- `packet_acquire`. -/
def packetAcquire (pool : PacketPool nbin) : Option (Option ℕ × PacketPool nbin) :=
  let (pkt, packetBin) := nbin.alloc pool.packetBin
  let (data, packetDataBin) := nbin.alloc pool.packetDataBin
  match pkt with
  | none => none
  | some pkt =>
      some (some pkt, { pool with
        packetBin := packetBin
        packetDataBin := packetDataBin
        packets := update pool.packets pkt { pool.packets pkt with
          data := data
          dataSize := 0
          dataCapacity := pool.packetDataSize } })

/-- `packet_release`. -/
def packetRelease (pool : PacketPool nbin) (pkt : Option ℕ) : PacketPool nbin :=
  match pkt with
  | none => pool
  | some pkt =>
      { pool with
        packetDataBin := nbin.free pool.packetDataBin (pool.packets pkt).data
        packetBin := nbin.free pool.packetBin (some pkt) }

/-- A call of a user, in a state of the pool with the packets that are held. -/
def usePackets : PacketPool nbin × List ℕ → Op ℕ → Option (PacketPool nbin × List ℕ) :=
  use packetAcquire fun pool pkt => some (packetRelease pool (some pkt))

/-- A packet as `packet_acquire` should give it, to users who hold the packets `held`. -/
structure Fresh (pool : PacketPool nbin) (held : List ℕ) (pkt : ℕ) (pool' : PacketPool nbin) :
    Prop where
  notMem : pkt ∉ held
  data : ∃ buffer, (pool'.packets pkt).data = some buffer ∧
    ∀ q ∈ held, (pool.packets q).data ≠ some buffer
  dataSize : (pool'.packets pkt).dataSize = 0
  dataCapacity : (pool'.packets pkt).dataCapacity = pool.packetDataSize

/-- What `packet_acquire` must do in a pool of `n` packets: null and no change when all are held,
and a new packet with a buffer of its own otherwise. -/
def AllOrNothing (n : ℕ) : PacketPool nbin × List ℕ → Op ℕ → Prop
  | (pool, held), .acquire => ∃ pkt pool', packetAcquire pool = some (pkt, pool') ∧
      (held.length = n → pkt = none ∧ pool' = pool) ∧
      (held.length ≠ n → ∃ q, pkt = some q ∧ Fresh pool held q pool')
  | _, .release _ => True

/-- The bins have the same number of blocks in use. -/
def SameNumber (u : PacketPool nbin × List ℕ) : Prop :=
  (nbin.inUse u.1.packetBin).card = (nbin.inUse u.1.packetDataBin).card

/-- A packet is acquired only while less than `n` are held. -/
def LeavesRoom (n : ℕ) : PacketPool nbin × List ℕ → Op ℕ → Prop
  | (_, held), .acquire => held.length < n
  | _, .release _ => True

/-- The packets that are held are those of the one bin, and their buffers those of the other. -/
structure Lockstep (n : ℕ) (u : PacketPool nbin × List ℕ) : Prop where
  nodup : u.2.Nodup
  length_le : u.2.length ≤ n
  packets : nbin.inUse u.1.packetBin = u.2.toFinset
  card_data : (nbin.inUse u.1.packetDataBin).card = u.2.length
  buffers : ∀ p ∈ u.2, ∃ buffer ∈ nbin.inUse u.1.packetDataBin, (u.1.packets p).data = some buffer
  injective : ∀ p ∈ u.2, ∀ q ∈ u.2, (u.1.packets p).data = (u.1.packets q).data → p = q
  maxItems : nbin.maxItems u.1.packetBin = n
  maxItems_data : nbin.maxItems u.1.packetDataBin = n

section Steps

variable {n : ℕ} {pool : PacketPool nbin} {held : List ℕ}

theorem Lockstep.card_packets (h : Lockstep n (pool, held)) :
    (nbin.inUse pool.packetBin).card = held.length := by
  have hpackets : nbin.inUse pool.packetBin = held.toFinset := h.packets
  rw [hpackets, List.toFinset_card_of_nodup h.nodup]

theorem Lockstep.sameNumber {u : PacketPool nbin × List ℕ} (h : Lockstep n u) : SameNumber u :=
  h.card_packets.trans h.card_data.symm

theorem Lockstep.acquire_full (hnbin : nbin.Lawful) (h : Lockstep n (pool, held))
    (hfull : held.length = n) : packetAcquire pool = none := by
  have hnull := hnbin.alloc_exhausted pool.packetBin
    (h.card_packets.trans (hfull.trans h.maxItems.symm))
  rw [packetAcquire, hnull]

/-- With a block of each bin the packet is filled in, and the others are left alone. -/
theorem packetAcquire_spec {pkt buffer : ℕ} {packetBin dataBin : nbin.Bin}
    (halloc : nbin.alloc pool.packetBin = (some pkt, packetBin))
    (hallocData : nbin.alloc pool.packetDataBin = (some buffer, dataBin)) :
    ∃ pool', packetAcquire pool = some (some pkt, pool') ∧ pool'.packetBin = packetBin ∧
      pool'.packetDataBin = dataBin ∧ (pool'.packets pkt).data = some buffer ∧
      (pool'.packets pkt).dataSize = 0 ∧
      (pool'.packets pkt).dataCapacity = pool.packetDataSize ∧
      ∀ q, q ≠ pkt → pool'.packets q = pool.packets q := by
  refine ⟨_, by rw [packetAcquire, halloc, hallocData], rfl, rfl, ?_, ?_, ?_, fun q hq => ?_⟩
  · simp only [update_self]
  · simp only [update_self]
  · simp only [update_self]
  · exact update_of_ne hq _ _

theorem Lockstep.acquire_room (hnbin : nbin.Lawful) (h : Lockstep n (pool, held))
    (hroom : held.length < n) : ∃ pkt pool', packetAcquire pool = some (some pkt, pool') ∧
      Fresh pool held pkt pool' ∧ Lockstep n (pool', pkt :: held) := by
  have hpackets : nbin.inUse pool.packetBin = held.toFinset := h.packets
  have hmax : nbin.maxItems pool.packetBin = n := h.maxItems
  have hmaxData : nbin.maxItems pool.packetDataBin = n := h.maxItems_data
  have hcardData : (nbin.inUse pool.packetDataBin).card = held.length := h.card_data
  obtain ⟨pkt, packetBin, halloc, hnew, hinUse, hmax'⟩ := hnbin.alloc_room pool.packetBin
    (by rwa [h.card_packets, hmax])
  obtain ⟨buffer, dataBin, hallocData, hnewData, hinUseData, hmaxData'⟩ :=
    hnbin.alloc_room pool.packetDataBin (by rwa [hcardData, hmaxData])
  obtain ⟨pool', hacquire, rfl, rfl, hdata, hsize, hcapacity, hframe⟩ :=
    packetAcquire_spec halloc hallocData
  have hnotMem : pkt ∉ held := by rwa [hpackets, List.mem_toFinset] at hnew
  -- the buffers of the packets that are held are in use, and the new one was not
  have hother : ∀ q ∈ held, (pool.packets q).data ≠ some buffer := by
    intro q hq heq
    obtain ⟨buffer', hmem, hdata'⟩ := h.buffers q hq
    obtain rfl : buffer = buffer' := Option.some.inj (heq.symm.trans hdata')
    exact hnewData hmem
  have hold : ∀ q ∈ held, pool'.packets q = pool.packets q := by
    intro q hq
    refine hframe q ?_
    rintro rfl
    exact hnotMem hq
  refine ⟨pkt, pool', hacquire, ⟨hnotMem, ⟨buffer, hdata, hother⟩, hsize, hcapacity⟩, ?_⟩
  refine ⟨List.nodup_cons.mpr ⟨hnotMem, h.nodup⟩, hroom, ?_, ?_, ?_, ?_, hmax'.trans hmax,
    hmaxData'.trans hmaxData⟩
  · rw [List.toFinset_cons, ← hpackets]
    exact hinUse
  · rw [List.length_cons, ← hcardData, ← Finset.card_insert_of_notMem hnewData, ← hinUseData]
  · intro q hq
    rw [hinUseData]
    rcases List.mem_cons.mp hq with rfl | hq
    · exact ⟨buffer, Finset.mem_insert_self _ _, hdata⟩
    · obtain ⟨buffer', hmem, hdata'⟩ := h.buffers q hq
      exact ⟨buffer', Finset.mem_insert_of_mem hmem, (congrArg PacketT.data (hold q hq)).trans hdata'⟩
  · have hne : ∀ q ∈ held, (pool'.packets q).data ≠ (pool'.packets pkt).data := by
      intro q hq
      rw [hold q hq, hdata]
      exact hother q hq
    intro q hq r hr heq
    rcases List.mem_cons.mp hq with rfl | hq'
    · rcases List.mem_cons.mp hr with rfl | hr'
      · rfl
      · exact absurd heq.symm (hne r hr')
    · rcases List.mem_cons.mp hr with rfl | hr'
      · exact absurd heq (hne q hq')
      · refine h.injective q hq' r hr' ?_
        rw [← hold q hq', ← hold r hr']
        exact heq

theorem Lockstep.release (hnbin : nbin.Lawful) (h : Lockstep n (pool, held)) {pkt : ℕ}
    (hpkt : pkt ∈ held) : Lockstep n (packetRelease pool (some pkt), held.erase pkt) := by
  obtain ⟨buffer, hbuffer, hdata⟩ := h.buffers pkt hpkt
  have hdata' : (pool.packets pkt).data = some buffer := hdata
  have hpackets : nbin.inUse pool.packetBin = held.toFinset := h.packets
  obtain ⟨hinUse, hmax⟩ := hnbin.free_block pool.packetBin pkt
    (by rwa [hpackets, List.mem_toFinset])
  obtain ⟨hinUseData, hmaxData⟩ := hnbin.free_block pool.packetDataBin buffer hbuffer
  rw [← hdata'] at hinUseData hmaxData
  refine ⟨h.nodup.erase pkt, List.length_erase_le.trans h.length_le, ?_, ?_, fun q hq => ?_,
    fun q hq r hr heq => ?_, hmax.trans h.maxItems, hmaxData.trans h.maxItems_data⟩
  · refine hinUse.trans ?_
    rw [hpackets]
    ext q
    rw [Finset.mem_erase, List.mem_toFinset, List.mem_toFinset, h.nodup.mem_erase_iff]
  · have hcard : (nbin.inUse pool.packetDataBin).card = held.length := h.card_data
    have herase := Finset.card_erase_of_mem hbuffer
    rw [List.length_erase_of_mem hpkt, ← hcard, ← herase]
    exact congrArg Finset.card hinUseData
  · obtain ⟨hne, hq'⟩ := h.nodup.mem_erase_iff.mp hq
    obtain ⟨buffer', hmem, hdata''⟩ := h.buffers q hq'
    refine ⟨buffer', ?_, hdata''⟩
    have hother : buffer' ≠ buffer := by
      rintro rfl
      exact hne (h.injective q hq' pkt hpkt (hdata''.trans hdata.symm))
    exact (congrArg (buffer' ∈ ·) hinUseData).mpr (Finset.mem_erase.mpr ⟨hother, hmem⟩)
  · exact h.injective q (List.mem_of_mem_erase hq) r (List.mem_of_mem_erase hr) heq

theorem lockstep_create (hnbin : nbin.Lawful) (packets : ℕ → PacketT)
    (initialPoolSize maxPoolSize : UInt32) (packetDataSize : UInt16) :
    Lockstep maxPoolSize.toNat
      (packetPoolCreate nbin packets initialPoolSize maxPoolSize packetDataSize, []) where
  nodup := List.nodup_nil
  length_le := Nat.zero_le _
  packets := hnbin.inUse_makeBin _ _
  card_data := by
    rw [packetPoolCreate, hnbin.inUse_makeBin]
    rfl
  buffers := fun _ hp => absurd hp List.not_mem_nil
  injective := fun _ hp => absurd hp List.not_mem_nil
  maxItems := hnbin.maxItems_makeBin _ _
  maxItems_data := hnbin.maxItems_makeBin _ _

theorem Lockstep.step (hnbin : nbin.Lawful) {u v : PacketPool nbin × List ℕ} {op : Op ℕ}
    (h : Lockstep n u) (hroom : LeavesRoom n u op) (hstep : usePackets u op = some v) :
    Lockstep n v := by
  obtain ⟨pool, held⟩ := u
  cases op with
  | acquire =>
      obtain ⟨pkt, pool', hacquire, -, hnext⟩ := h.acquire_room hnbin hroom
      rw [usePackets, use, hacquire] at hstep
      cases hstep
      exact hnext
  | release pkt =>
      rw [usePackets, use] at hstep
      split at hstep
      case isTrue hpkt =>
        cases hstep
        exact h.release hnbin hpkt
      case isFalse => cases hstep

/-- A call does what it must exactly when it leaves room. -/
theorem Lockstep.allOrNothing_iff (hnbin : nbin.Lawful) {u : PacketPool nbin × List ℕ}
    (h : Lockstep n u) (op : Op ℕ) : AllOrNothing n u op ↔ LeavesRoom n u op := by
  obtain ⟨pool, held⟩ := u
  cases op with
  | acquire =>
      constructor
      · rintro ⟨pkt, pool', hacquire, -⟩
        refine Nat.lt_of_le_of_ne h.length_le fun hfull => ?_
        rw [h.acquire_full hnbin hfull] at hacquire
        cases hacquire
      · intro hroom
        obtain ⟨pkt, pool', hacquire, hfresh, -⟩ := h.acquire_room hnbin hroom
        exact ⟨some pkt, pool', hacquire, fun hfull => absurd hfull (Nat.ne_of_lt hroom),
          fun _ => ⟨pkt, rfl, hfresh⟩⟩
  | release pkt => exact Iff.rfl

end Steps

/-- In every run the calls do what they must, and the bins have the same number of blocks in use,
exactly when no packet is acquired while all are held. -/
theorem packets_allOrNothing_iff (hnbin : nbin.Lawful) (packets : ℕ → PacketT)
    (initialPoolSize maxPoolSize : UInt32) (packetDataSize : UInt16) (ops : List (Op ℕ)) :
    Throughout usePackets SameNumber
        (packetPoolCreate nbin packets initialPoolSize maxPoolSize packetDataSize, []) ops ∧
      Attempts usePackets (AllOrNothing maxPoolSize.toNat)
        (packetPoolCreate nbin packets initialPoolSize maxPoolSize packetDataSize, []) ops ↔
      Attempts usePackets (LeavesRoom maxPoolSize.toNat)
        (packetPoolCreate nbin packets initialPoolSize maxPoolSize packetDataSize, []) ops := by
  have hnew := lockstep_create hnbin packets initialPoolSize maxPoolSize packetDataSize
  rw [throughout_and_attempts_iff, and_iff_right hnew.sameNumber]
  refine attempts_iff_attempts (I := Lockstep maxPoolSize.toNat)
    (fun u op v hu hroom hstep => hu.step hnbin hroom hstep) (fun u op hu => ?_) hnew
  rw [hu.allOrNothing_iff hnbin]
  exact and_iff_left_of_imp fun hroom v hstep => (hu.step hnbin hroom hstep).sameNumber

/-- A bin that gives its first block that is not in use. -/
def firstFit : Nbin where
  Bin := ℕ × Finset ℕ
  makeBin := fun _ n => (n, ∅)
  alloc := fun b =>
    if b.2.card < b.1 then
      match (List.range b.1).find? fun block => block ∉ b.2 with
      | some block => (some block, (b.1, insert block b.2))
      | none => (none, b)
    else (none, b)
  free := fun b block =>
    match block with
    | none => b
    | some block => (b.1, b.2.erase block)
  inUse := Prod.snd
  maxItems := Prod.fst

theorem lawful_firstFit : firstFit.Lawful where
  inUse_makeBin := fun _ _ => rfl
  maxItems_makeBin := fun _ _ => rfl
  alloc_exhausted := fun b hfull => by
    have hcard : b.2.card = b.1 := hfull
    have hnot : ¬ b.2.card < b.1 := by omega
    exact if_neg hnot
  alloc_room := fun b hroom => by
    have hcard : b.2.card < b.1 := hroom
    obtain ⟨k, hk, hnew⟩ := Finset.exists_mem_notMem_of_card_lt_card
      (s := b.2) (t := Finset.range b.1) (by rwa [Finset.card_range])
    have hsome : ((List.range b.1).find? fun block => block ∉ b.2).isSome = true := by
      rw [List.find?_isSome]
      exact ⟨k, List.mem_range.mpr (Finset.mem_range.mp hk), decide_eq_true hnew⟩
    obtain ⟨block, hblock⟩ := Option.isSome_iff_exists.mp hsome
    refine ⟨block, (b.1, insert block b.2), ?_, ?_, rfl, rfl⟩
    · simp only [firstFit, if_pos hcard, hblock]
    · have hfree := List.find?_some hblock
      exact of_decide_eq_true hfree
  free_block := fun _ _ _ => ⟨rfl, rfl⟩

/-- A pool of two packets, of which one is acquired, released and acquired again. -/
theorem packets_allOrNothing_two : firstFit.Lawful ∧
    (Throughout usePackets SameNumber
        (packetPoolCreate firstFit (fun _ => ⟨0, 0, 0, none⟩) 1 2 256, [])
        [.acquire, .release 0, .acquire] ∧
      Attempts usePackets (AllOrNothing (2 : UInt32).toNat)
        (packetPoolCreate firstFit (fun _ => ⟨0, 0, 0, none⟩) 1 2 256, [])
        [.acquire, .release 0, .acquire] ↔
      Attempts usePackets (LeavesRoom (2 : UInt32).toNat)
        (packetPoolCreate firstFit (fun _ => ⟨0, 0, 0, none⟩) 1 2 256, [])
        [.acquire, .release 0, .acquire]) :=
  ⟨lawful_firstFit, packets_allOrNothing_iff lawful_firstFit (fun _ => ⟨0, 0, 0, none⟩) 1 2 256
    [.acquire, .release 0, .acquire]⟩

/-- The packet behind the last one goes through a null pointer. -/
theorem not_allOrNothing_exhausted : ¬ ∀ (nbin : Nbin) (_ : nbin.Lawful) (packets : ℕ → PacketT)
    (initialPoolSize maxPoolSize : UInt32) (packetDataSize : UInt16) (ops : List (Op ℕ)),
    Throughout usePackets SameNumber
        (packetPoolCreate nbin packets initialPoolSize maxPoolSize packetDataSize, []) ops ∧
      Attempts usePackets (AllOrNothing maxPoolSize.toNat)
        (packetPoolCreate nbin packets initialPoolSize maxPoolSize packetDataSize, []) ops := by
  intro h
  have hnew := lockstep_create lawful_firstFit (fun _ => ⟨0, 0, 0, none⟩) 1 1 256
  obtain ⟨pkt, pool', hacquire, -, hfull⟩ :=
    hnew.acquire_room lawful_firstFit (by decide : 0 < (1 : UInt32).toNat)
  have hrun : run usePackets (packetPoolCreate firstFit (fun _ => ⟨0, 0, 0, none⟩) 1 1 256, [])
      [.acquire] = some (pool', [pkt]) := by
    rw [run_cons, usePackets, use, hacquire]
    rfl
  refine not_attempts_append (C := AllOrNothing (1 : UInt32).toNat) hrun ?_
    (h firstFit lawful_firstFit (fun _ => ⟨0, 0, 0, none⟩) 1 1 256 ([.acquire] ++ [.acquire])).2
  rw [hfull.allOrNothing_iff lawful_firstFit]
  exact Nat.lt_irrefl 1

end Pool

end ConArtist
