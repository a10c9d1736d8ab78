import Mathlib.Logic.Function.Basic
import ConArtist.Foundation.ByteMemory
import ConArtist.Foundation.Run

/-!
# Image packets

`decoder_write_to_stream` of `imagepacket.cpp` is called with the blocks of an image, one
after the other. The object that keeps the image between the calls is made by the first of
them, in a variable of the inner block, which hides the one that the copy uses. So the copy
goes through a null pointer, and no image is ever stored.

The heap and the stream of a context are behind interfaces; their calls are parameters. An
access through a null pointer, or outside of an object, has no result.
-/

namespace ConArtist

namespace Decoder

open ByteMemory Machine Function

/-- `image_packet_header_t`. -/
structure ImagePacketHeader where
  valueCount : UInt8
  version : UInt8
  mac : List UInt8
  id : UInt8
  imageType : UInt8
  imageBpp : UInt16
  imageWidth : UInt16
  imageHeight : UInt16
  imageBlockCount : UInt32
  imageBlockIndex : UInt32
  imageDataOffset : UInt32
  imageDataSize : UInt32
  imageTotalSize : UInt32

/-- A packet: its header, the bytes behind it, and the time at which it is decoded. -/
structure Packet where
  header : ImagePacketHeader
  data : List UInt8
  time : UInt64

/-- `image_t`. `m_stream_image` is the place of an item in the stream, and
`m_stream_image_data` is behind the `stream_image_t` there. -/
structure Image where
  imageType : UInt32
  totalSize : UInt32
  totalBlockCount : UInt32
  receivedBlockCount : UInt32
  streamImage : ℕ

/-- An item of variable size in the stream. -/
structure VardataItem where
  userId : UInt64
  time : UInt64
  data : List UInt8

/-- `decoder_context_t`: the user context, the images in the main heap by their addresses, and
the items of the stream. -/
structure Context where
  userContext0 : Option ℕ
  images : ℕ → Option Image
  items : List VardataItem

/-- What is behind the interfaces of a context. `_new<image_t>` gives an address or null, and
`allocate_vardata` the items of the stream afterwards, with the place of the new one. -/
structure Host where
  newImage : (ℕ → Option Image) → Option ℕ
  allocateVardata : List VardataItem → UInt64 → UInt64 → UInt32 → Option (List VardataItem × ℕ)

def idImage : UInt64 := 71

/-- The size of `stream_image_t`. -/
def sizeofStreamImage : ℕ := 12

/-- The user id of a MAC address. -/
def ImagePacketHeader.userId (hdr : ImagePacketHeader) : Option UInt64 :=
  match hdr.mac with
  | [a, b, c, d, e, f] =>
      some (a.toUInt64 <<< 40 ||| b.toUInt64 <<< 32 ||| c.toUInt64 <<< 24 |||
        d.toUInt64 <<< 16 ||| e.toUInt64 <<< 8 ||| f.toUInt64)
  | _ => none

/-- `memcpy` into an object. -/
def memcpy (dest : List UInt8) (offset : ℕ) (bytes : List UInt8) : Option (List UInt8) :=
  if offset + bytes.length ≤ dest.length then
    some (dest.take offset ++ bytes ++ dest.drop (offset + bytes.length))
  else none

namespace Context

/-- The block that makes a new image. There is no context when `_new` gives null and the call
returns. -/
def newImage (host : Host) (ctx : Context) (packet : Packet) : Option (Option Context) :=
  match host.newImage ctx.images with
  | none => some none
  | some p => do
      let hdr := packet.header
      let userId ← hdr.userId
      let (items, k) ← host.allocateVardata ctx.items (userId <<< 16 ||| idImage) packet.time
        (12 + hdr.imageTotalSize)
      let item ← items[k]?
      let data ← memcpy item.data 0 (leBytes 2 hdr.imageType.toNat)
      let data ← memcpy data 8 (leBytes 4 hdr.imageTotalSize.toNat)
      some (some { ctx with
        images := update ctx.images p (some
          { imageType := hdr.imageType.toUInt32
            totalSize := hdr.imageTotalSize
            totalBlockCount := hdr.imageBlockCount
            receivedBlockCount := 0
            streamImage := k })
        items := items.set k { item with data := data } })

/-- The copy of a block into the image at an address, which is deleted with its last block. -/
def copyBlock (ctx : Context) (p : ℕ) (packet : Packet) : Option Context := do
  let image ← ctx.images p
  let item ← ctx.items[image.streamImage]?
  let size := packet.header.imageDataSize.toNat
  if packet.data.length < size then none
  else
    let data ← memcpy item.data (sizeofStreamImage + packet.header.imageDataOffset.toNat)
      (packet.data.take size)
    let received := image.receivedBlockCount + 1
    some { ctx with
      images := update ctx.images p (if received = image.totalBlockCount then none
        else some { image with receivedBlockCount := received })
      items := ctx.items.set image.streamImage { item with data := data } }

end Context

/-- `decoder_write_to_stream`. -/
def decoderWriteToStream (host : Host) (ctx : Context) (packet : Packet) : Option Context := do
  let image := ctx.userContext0
  match ← (if image = none then ctx.newImage host packet else some (some ctx)) with
  | none => some ctx
  | some ctx =>
      -- the new image was in a variable of the block: this one is as it was read
      let p ← image
      ctx.copyBlock p packet

/-- The blocks of an image with their offsets. -/
def cut : ℕ → List (List UInt8) → List (ℕ × List UInt8)
  | _, [] => []
  | offset, part :: parts => (offset, part) :: cut (offset + part.length) parts

/-- The packets of an image, in the order in which they are received: each block of its
bytes once. They agree on the address, the type, the total size and the block count. -/
structure Delivery where
  mac : List UInt8
  imageType : UInt8
  bytes : List UInt8
  parts : List (List UInt8)
  packets : List Packet
  flatten : parts.flatten = bytes
  mac_eq : ∀ p ∈ packets, p.header.mac = mac
  imageType_eq : ∀ p ∈ packets, p.header.imageType = imageType
  totalSize_eq : ∀ p ∈ packets, p.header.imageTotalSize.toNat = bytes.length
  blockCount_eq : ∀ p ∈ packets, p.header.imageBlockCount.toNat = parts.length
  dataSize_eq : ∀ p ∈ packets, p.header.imageDataSize.toNat = p.data.length
  perm : (packets.map fun p => (p.header.imageDataOffset.toNat, p.data)).Perm (cut 0 parts)

/-- One item was added for each image, with its bytes, and the context is idle. -/
structure Stores (ctx : Context) (deliveries : List Delivery) (ctx' : Context) : Prop where
  idle : ctx'.userContext0 = none
  items : ∃ items, ctx'.items = ctx.items ++ items ∧
    items.map (fun item => item.data.drop sizeofStreamImage) = deliveries.map Delivery.bytes

section Idle

variable {host : Host} {ctx ctx' : Context}

theorem decoderWriteToStream_idle (hidle : ctx.userContext0 = none) {packet : Packet}
    (h : decoderWriteToStream host ctx packet = some ctx') : ctx' = ctx := by
  rw [decoderWriteToStream, hidle] at h
  obtain ⟨opened, -, h⟩ := Option.bind_eq_some_iff.mp h
  cases opened with
  | none => exact (Option.some.inj h).symm
  | some opened => cases h

theorem run_idle (hidle : ctx.userContext0 = none) {packets : List Packet}
    (h : run (decoderWriteToStream host) ctx packets = some ctx') : ctx' = ctx :=
  run_invariant (I := fun u => u = ctx) _
    (fun _ _ _ hu hstep => decoderWriteToStream_idle (hu ▸ hidle) (hu ▸ hstep)) packets rfl h

/-- In the idle state a sequence of images is stored, whatever their blocks and the order of
these, if and only if it has no image. -/
theorem stores_iff (hidle : ctx.userContext0 = none) (deliveries : List Delivery) :
    (∃ ctx', run (decoderWriteToStream host) ctx (deliveries.flatMap Delivery.packets) =
        some ctx' ∧ Stores ctx deliveries ctx') ↔ deliveries = [] := by
  constructor
  · rintro ⟨ctx', hrun, hstores⟩
    obtain rfl := run_idle hidle hrun
    obtain ⟨items, hitems, hbytes⟩ := hstores.items
    have hnil : items = [] := List.append_cancel_left (hitems.symm.trans (List.append_nil _).symm)
    rw [hnil, List.map_nil] at hbytes
    exact List.map_eq_nil_iff.mp hbytes.symm
  · rintro rfl
    exact ⟨ctx, rfl, hidle, [], (List.append_nil _).symm, rfl⟩

end Idle

/-- Objects at the next address, and items with zeros. -/
def plainHost : Host where
  newImage := fun _ => some 1
  allocateVardata := fun items userId time size =>
    some (items ++ [⟨userId, time, List.replicate size.toNat 0⟩], items.length)

def newContext : Context := ⟨none, fun _ => none, []⟩

theorem stores_none : ∃ ctx', run (decoderWriteToStream plainHost) newContext [] = some ctx' ∧
    Stores newContext [] ctx' :=
  (stores_iff rfl []).mpr rfl

/-- An image of two bytes in one block. -/
def twoBytes : Delivery where
  mac := [1, 2, 3, 4, 5, 6]
  imageType := 1
  bytes := [7, 8]
  parts := [[7, 8]]
  packets := [⟨⟨1, 1, [1, 2, 3, 4, 5, 6], 71, 1, 24, 1, 1, 1, 0, 0, 2, 2⟩, [7, 8], 100⟩]
  flatten := rfl
  mac_eq := by simp
  imageType_eq := by simp
  totalSize_eq := by simp
  blockCount_eq := by simp
  dataSize_eq := by simp
  perm := .refl _

/-- The first block of the first image goes through a null pointer. -/
theorem first_block_lost :
    run (decoderWriteToStream plainHost) newContext twoBytes.packets = none ∧
    ¬ ∃ ctx', run (decoderWriteToStream plainHost) newContext
      ([twoBytes].flatMap Delivery.packets) = some ctx' ∧ Stores newContext [twoBytes] ctx' := by
  have hnone : run (decoderWriteToStream plainHost) newContext twoBytes.packets = none := by
    decide
  refine ⟨hnone, ?_⟩
  rintro ⟨ctx', hrun, -⟩
  rw [List.flatMap_singleton, hnone] at hrun
  cases hrun

end Decoder

end ConArtist
