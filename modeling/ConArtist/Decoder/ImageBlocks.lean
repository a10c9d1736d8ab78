import Mathlib.Data.List.Perm.Subperm
import ConArtist.Decoder.ImageBounds

/-!
# The blocks of an image

`decoder_write_to_stream` counts the packets of an image and not its blocks: with as many packets
as the image has blocks it is deleted, whichever blocks these were, and the context still refers to
it. With fewer packets no image can be complete. So an image is finished as it should be exactly
when it is not finished at all.
-/

namespace ConArtist

namespace Decoder

open Machine Function

/-- Each of the `n` blocks is among the blocks with these indices. -/
def AllReceived (n : ℕ) (indices : List UInt32) : Prop := ∀ i < n, ∃ k ∈ indices, k.toNat = i

theorem le_length_of_allReceived {n : ℕ} {indices : List UInt32} (h : AllReceived n indices) :
    n ≤ indices.length := by
  have hsubset : List.range n ⊆ indices.map UInt32.toNat := by
    intro i hi
    obtain ⟨k, hk, rfl⟩ := h i (List.mem_range.mp hi)
    exact List.mem_map_of_mem hk
  have hle := (List.nodup_range.subperm hsubset).length_le
  rwa [List.length_range, List.length_map] at hle

def blockIndices (packets : List Packet) : List UInt32 :=
  packets.map fun packet => packet.header.imageBlockIndex

/-- The context holds an image at `p` with `count` blocks, and `room` bytes were allocated for it
in the stream. The packets with the blocks `seen` were received, and others are to come. -/
structure InProgress (ctx : Context) (p : ℕ) (count : UInt32) (room : ℕ) (seen : List UInt32) :
    Prop where
  user : ctx.userContext0 = some p
  held : ∃ image item, ctx.images p = some image ∧ ctx.items[image.streamImage]? = some item ∧
    image.totalBlockCount = count ∧ image.receivedBlockCount.toNat = seen.length ∧
    item.data.length = room
  waiting : count = 0 ∨ seen.length < count.toNat

/-- A packet with a block of the image. -/
structure IsBlock (count : UInt32) (room : ℕ) (packet : Packet) : Prop where
  index_lt : packet.header.imageBlockIndex < count
  size_le : packet.header.imageDataSize.toNat ≤ packet.data.length
  room_le : sizeofStreamImage + packet.header.imageDataOffset.toNat +
    packet.header.imageDataSize.toNat ≤ room

/-- After each packet up to the first at which all blocks are there, the image is released if and
only if they are, and the context does not refer to a released image. -/
def FinishesRight (host : Host) (ctx : Context) (p : ℕ) (count : UInt32) (seen : List UInt32)
    (packets : List Packet) : Prop :=
  ∀ done, done <+: packets →
    (∀ before, before <+: done → before ≠ done →
      ¬ AllReceived count.toNat (seen ++ blockIndices before)) →
    ∃ ctx', run (decoderWriteToStream host) ctx done = some ctx' ∧
      (ctx'.images p = none ↔ AllReceived count.toNat (seen ++ blockIndices done)) ∧
      (ctx'.images p = none → ctx'.userContext0 ≠ some p)

section Step

variable {ctx : Context} {p room : ℕ} {count : UInt32} {seen : List UInt32}

/-- A block is counted. The image is released with the last count, and stays in the context. -/
theorem InProgress.step (h : InProgress ctx p count room seen) (host : Host) {packet : Packet}
    (hblock : IsBlock count room packet) :
    ∃ ctx', decoderWriteToStream host ctx packet = some ctx' ∧ ctx'.userContext0 = some p ∧
      (ctx'.images p = none ∧ seen.length + 1 = count.toNat ∨
        InProgress ctx' p count room (seen ++ [packet.header.imageBlockIndex])) := by
  obtain ⟨image, item, himage, hitem, hcount, hreceived, hroom⟩ := h.held
  have hroom' := hblock.room_le
  rw [← hroom] at hroom'
  obtain ⟨data, hlength, hcopy⟩ := copyBlock_of_room himage hitem hblock.size_le hroom'
  rw [decoderWriteToStream_some h.user, hcopy]
  refine ⟨_, rfl, h.user, ?_⟩
  -- the index of a block is below the count, which is not 0
  have hlt : seen.length < count.toNat := by
    have hindex := UInt32.lt_iff_toNat_lt.mp hblock.index_lt
    refine h.waiting.resolve_left fun hzero => ?_
    rw [hzero] at hindex
    exact Nat.not_lt_zero _ hindex
  have hbound := count.toNat_lt
  have hone : (1 : UInt32).toNat = 1 := rfl
  have hsucc : (image.receivedBlockCount + 1).toNat = seen.length + 1 := by
    rw [UInt32.toNat_add, hreceived, hone]
    omega
  by_cases hlast : image.receivedBlockCount + 1 = image.totalBlockCount
  · refine .inl ⟨?_, ?_⟩
    · rw [if_pos hlast]
      exact update_self _ _ _
    · rw [← hsucc, hlast, hcount]
  · have hne : seen.length + 1 ≠ count.toNat := by
      intro heq
      rw [← hsucc, ← hcount] at heq
      exact hlast (UInt32.toNat.inj heq)
    refine .inr ⟨h.user, ⟨{ image with receivedBlockCount := image.receivedBlockCount + 1 },
      { item with data := data }, ?_, ?_, ?_, ?_, ?_⟩, ?_⟩
    · rw [if_neg hlast]
      exact update_self _ _ _
    · exact List.getElem?_set_self (List.getElem?_eq_some_iff.mp hitem).1
    · exact hcount
    · rw [List.length_append, List.length_singleton]
      exact hsucc
    · rw [← hroom]
      exact hlength
    · rw [List.length_append, List.length_singleton]
      omega

theorem InProgress.image_ne_none (h : InProgress ctx p count room seen) : ctx.images p ≠ none := by
  obtain ⟨image, item, himage, -⟩ := h.held
  rw [himage]
  exact Option.some_ne_none image

theorem blockIndices_cons (packet : Packet) (packets : List Packet) :
    seen ++ blockIndices (packet :: packets) =
      seen ++ [packet.header.imageBlockIndex] ++ blockIndices packets := by
  rw [List.append_assoc]
  rfl

theorem length_append_blockIndices (packets : List Packet) :
    (seen ++ blockIndices packets).length = seen.length + packets.length := by
  rw [List.length_append, blockIndices, List.length_map]

theorem InProgress.run_few (h : InProgress ctx p count room seen) (host : Host) {packets : List Packet}
    (hblocks : ∀ packet ∈ packets, IsBlock count room packet)
    (hfew : seen.length + packets.length < count.toNat) :
    ∃ ctx', run (decoderWriteToStream host) ctx packets = some ctx' ∧
      InProgress ctx' p count room (seen ++ blockIndices packets) := by
  induction packets generalizing ctx seen with
  | nil => exact ⟨ctx, rfl, by rwa [blockIndices, List.map_nil, List.append_nil]⟩
  | cons packet packets ih =>
      rw [List.length_cons] at hfew
      obtain ⟨ctx₁, hstep, -, hnext⟩ := h.step host (hblocks packet List.mem_cons_self)
      rcases hnext with ⟨-, hlast⟩ | hnext
      · omega
      · obtain ⟨ctx', hrun, hprogress⟩ := ih hnext
          (fun q hq => hblocks q (List.mem_cons_of_mem packet hq))
          (by rw [List.length_append, List.length_singleton]; omega)
        refine ⟨ctx', (run_cons_eq_some _).mpr ⟨ctx₁, hstep, hrun⟩, ?_⟩
        rwa [blockIndices_cons]

/-- With as many packets as blocks it is released, and the context refers to it. -/
theorem InProgress.run_last (h : InProgress ctx p count room seen) (host : Host) {packets : List Packet}
    (hblocks : ∀ packet ∈ packets, IsBlock count room packet) (hne : packets ≠ [])
    (hall : seen.length + packets.length = count.toNat) :
    ∃ ctx', run (decoderWriteToStream host) ctx packets = some ctx' ∧ ctx'.images p = none ∧
      ctx'.userContext0 = some p := by
  obtain ⟨before, last, rfl⟩ := (List.eq_nil_or_concat packets).resolve_left hne
  rw [List.concat_eq_append] at hblocks hall ⊢
  rw [List.length_append, List.length_singleton] at hall
  obtain ⟨ctx₁, hrun, hprogress⟩ := h.run_few host
    (fun q hq => hblocks q (List.mem_append_left _ hq)) (by omega)
  obtain ⟨ctx', hstep, huser, hnext⟩ := hprogress.step host
    (hblocks last (List.mem_append_right _ List.mem_cons_self))
  refine ⟨ctx', (run_append_eq_some _).mpr ⟨ctx₁, hrun, ?_⟩, ?_, huser⟩
  · rw [run_cons, hstep]
    rfl
  · rcases hnext with ⟨hnone, -⟩ | hnext
    · exact hnone
    · -- the count would be above the number of blocks
      have hwaiting := hnext.waiting
      have hzero : count = 0 ↔ count.toNat = 0 := UInt32.toNat_inj.symm
      rw [hzero, List.length_append, length_append_blockIndices, List.length_singleton] at hwaiting
      omega

end Step

/-- The images are finished as they should be exactly where none is: where the packets received
before and those of the sequence are less than the blocks. -/
theorem finishesRight_iff {host : Host} {ctx : Context} {p room : ℕ} {count : UInt32}
    {seen : List UInt32} {packets : List Packet} (h : InProgress ctx p count room seen)
    (hblocks : ∀ packet ∈ packets, IsBlock count room packet) :
    FinishesRight host ctx p count seen packets ↔
      seen.length + packets.length < count.toNat := by
  constructor
  · intro hright
    by_contra hmany
    rw [Nat.not_lt] at hmany
    rcases h.waiting with hzero | hlt
    · -- all of no blocks are there
      obtain ⟨ctx', hrun, hreleased, -⟩ := hright [] List.nil_prefix
        (fun before hbefore hne => absurd (List.prefix_nil.mp hbefore) hne)
      cases hrun
      refine h.image_ne_none (hreleased.mpr fun i hi => ?_)
      rw [hzero] at hi
      exact absurd hi (Nat.not_lt_zero i)
    · have hlength : (packets.take (count.toNat - seen.length)).length =
          count.toNat - seen.length := by
        rw [List.length_take]
        omega
      have hne : packets.take (count.toNat - seen.length) ≠ [] := by
        rw [← List.length_pos_iff, hlength]
        omega
      obtain ⟨ctx', hrun, hnone, huser⟩ := h.run_last host
        (fun packet hpacket => hblocks packet (List.mem_of_mem_take hpacket)) hne
        (by rw [hlength]; omega)
      obtain ⟨ctx'', hrun', -, hforgets⟩ := hright (packets.take (count.toNat - seen.length))
        (List.take_prefix _ _) (by
          intro before hbefore hne' hall
          have hle := le_length_of_allReceived hall
          rw [length_append_blockIndices] at hle
          refine hne' (hbefore.eq_of_length_le ?_)
          omega)
      obtain rfl : ctx' = ctx'' := Option.some.inj (hrun.symm.trans hrun')
      exact hforgets hnone huser
  · intro hfew done hdone _
    have hle := hdone.length_le
    obtain ⟨ctx', hrun, hprogress⟩ := h.run_few host
      (fun packet hpacket => hblocks packet (hdone.subset hpacket))
      (by omega : seen.length + done.length < count.toNat)
    refine ⟨ctx', hrun, iff_of_false hprogress.image_ne_none fun hall => ?_,
      fun hnone => absurd hnone hprogress.image_ne_none⟩
    have hall' := le_length_of_allReceived hall
    rw [length_append_blockIndices] at hall'
    omega

/-- A context with an image in progress: 4 bytes in blocks of one byte. -/
def quarterContext (received : UInt32) : Context where
  userContext0 := some 1
  images := update (fun _ => none) 1 (some ⟨1, 4, 4, received, 0⟩)
  items := [⟨0, 100, List.replicate 16 0⟩]

/-- The packet with a block of it. -/
def quarter (index : UInt32) : Packet where
  header := ⟨1, 1, [1, 2, 3, 4, 5, 6], 71, 1, 24, 1, 1, 4, index, index, 1, 4⟩
  data := [7]
  time := 100

theorem inProgress_quarterContext {received : UInt32} {seen : List UInt32}
    (hreceived : received.toNat = seen.length) (hlt : seen.length < 4) :
    InProgress (quarterContext received) 1 4 16 seen :=
  ⟨rfl, ⟨⟨1, 4, 4, received, 0⟩, ⟨0, 100, List.replicate 16 0⟩, rfl, rfl, rfl,
    hreceived, rfl⟩, .inr hlt⟩

theorem isBlock_quarter : ∀ index : UInt32, index < 4 → IsBlock 4 16 (quarter index) := by
  intro index hindex
  have hlt := UInt32.lt_iff_toNat_lt.mp hindex
  have hfour : (4 : UInt32).toNat = 4 := rfl
  refine ⟨hindex, le_rfl, ?_⟩
  have hone : (1 : UInt32).toNat = 1 := rfl
  simp only [sizeofStreamImage, quarter, hone]
  omega

/-- A block of the four was there, and two more come. -/
theorem finishesRight_quarters :
    InProgress (quarterContext 1) 1 4 16 [0] ∧
      (∀ packet ∈ [quarter 2, quarter 1], IsBlock 4 16 packet) ∧
      (FinishesRight plainHost (quarterContext 1) 1 4 [0] [quarter 2, quarter 1] ↔
        [(0 : UInt32)].length + [quarter 2, quarter 1].length < (4 : UInt32).toNat) := by
  have hprogress : InProgress (quarterContext 1) 1 4 16 [0] :=
    inProgress_quarterContext rfl (by decide)
  have hblocks : ∀ packet ∈ [quarter 2, quarter 1], IsBlock 4 16 packet := by
    intro packet hpacket
    rcases List.mem_pair.mp hpacket with rfl | rfl
    · exact isBlock_quarter 2 (by decide)
    · exact isBlock_quarter 1 (by decide)
  exact ⟨hprogress, hblocks, finishesRight_iff hprogress hblocks⟩

/-- The fourth packet of an image of four blocks releases it, also if it has a block again. -/
theorem not_finishesRight_again :
    InProgress (quarterContext 3) 1 4 16 [0, 1, 2] ∧ IsBlock 4 16 (quarter 2) ∧
      ¬ FinishesRight plainHost (quarterContext 3) 1 4 [0, 1, 2] [quarter 2] := by
  have hprogress : InProgress (quarterContext 3) 1 4 16 [0, 1, 2] :=
    inProgress_quarterContext rfl (by decide)
  have hblock : IsBlock 4 16 (quarter 2) := isBlock_quarter 2 (by decide)
  refine ⟨hprogress, hblock, fun hright => ?_⟩
  obtain ⟨ctx', hrun, hnone, -⟩ := hprogress.run_last plainHost
    (fun packet hpacket => by rwa [List.mem_singleton.mp hpacket])
    (List.cons_ne_nil (quarter 2) []) rfl
  obtain ⟨ctx'', hrun', hreleased, -⟩ := hright [quarter 2] List.prefix_rfl (by
    intro before hbefore hne hall
    have hlength := le_length_of_allReceived hall
    rw [length_append_blockIndices] at hlength
    have hle := hbefore.length_le
    exact hne (hbefore.eq_of_length_le (by
      simp only [List.length_cons, List.length_nil] at *
      have hfour : (4 : UInt32).toNat = 4 := rfl
      omega)))
  obtain rfl : ctx' = ctx'' := Option.some.inj (hrun.symm.trans hrun')
  obtain ⟨k, hk, hlast⟩ := hreleased.mp hnone 3 (by decide)
  have hmem : ∀ k ∈ [(0 : UInt32), 1, 2, 2], k.toNat ≠ 3 := by
    simp only [List.forall_mem_cons]
    exact ⟨by decide, by decide, by decide, by decide, fun _ hmem => absurd hmem List.not_mem_nil⟩
  exact hmem k hk hlast

end Decoder

end ConArtist
