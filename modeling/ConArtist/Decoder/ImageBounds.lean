import ConArtist.Decoder.ImagePacket

/-!
# The bounds of an image packet

A packet is received as bytes, of any number and with any content. `decoder_write_to_stream`
takes its header as it is: the size of the packet, the size of the image and the allocation in
the stream are not compared with the block that is copied. A packet stays inside exactly when it
comes to an image in progress and fits there by itself.
-/

namespace ConArtist

namespace Decoder

open ByteMemory Machine Function

/-- `sizeof(image_packet_header_t)`. -/
def sizeofHeader : ℕ := 36

/-- The bytes that are received, and the time at which they are decoded. -/
structure Datagram where
  data : List UInt8
  time : UInt64

section Fields

variable (data : List UInt8)

def byteAt (offset : ℕ) : UInt8 := data[offset]?.getD 0

/-- The word of `n` bytes at an offset. -/
def wordAt (offset n : ℕ) : ℕ := leValue ((data.drop offset).take n)

def u16At (offset : ℕ) : UInt16 := UInt16.ofNat (wordAt data offset 2)

def u32At (offset : ℕ) : UInt32 := UInt32.ofNat (wordAt data offset 4)

/-- The fields at their offsets. A field that is not there has no meaning. -/
def headerAt : ImagePacketHeader where
  valueCount := byteAt data 0
  version := byteAt data 1
  mac := (data.drop 2).take 6
  id := byteAt data 8
  imageType := byteAt data 9
  imageBpp := u16At data 10
  imageWidth := u16At data 12
  imageHeight := u16At data 14
  imageBlockCount := u32At data 16
  imageBlockIndex := u32At data 20
  imageDataOffset := u32At data 24
  imageDataSize := u32At data 28
  imageTotalSize := u32At data 32

end Fields

def Datagram.packet (d : Datagram) : Packet := ⟨headerAt d.data, d.data.drop sizeofHeader, d.time⟩

/-- The end of the fields that are read: all up to `m_image_total_size` for a new image, and up to
`m_image_data_size` for a block of an image in progress. -/
def fieldsRead (host : Host) (ctx : Context) : ℕ :=
  match ctx.userContext0, host.newImage ctx.images with
  | none, none => 0
  | none, some _ => 36
  | some _, _ => 32

/-- `decoder_write_to_stream` on the bytes of a packet. -/
def decodeDatagram (host : Host) (ctx : Context) (d : Datagram) : Option Context :=
  if fieldsRead host ctx ≤ d.data.length then decoderWriteToStream host ctx d.packet else none

def Packet.encode (packet : Packet) : List UInt8 :=
  let hdr := packet.header
  hdr.valueCount :: hdr.version :: hdr.mac ++ hdr.id :: hdr.imageType ::
    (leBytes 2 hdr.imageBpp.toNat ++ (leBytes 2 hdr.imageWidth.toNat ++
    (leBytes 2 hdr.imageHeight.toNat ++ (leBytes 4 hdr.imageBlockCount.toNat ++
    (leBytes 4 hdr.imageBlockIndex.toNat ++ (leBytes 4 hdr.imageDataOffset.toNat ++
    (leBytes 4 hdr.imageDataSize.toNat ++ (leBytes 4 hdr.imageTotalSize.toNat ++
    packet.data))))))))

section Words

variable (rest : List UInt8)

theorem wordAt_cons (c : UInt8) (k n : ℕ) : wordAt (c :: rest) (k + 1) n = wordAt rest k n := rfl

theorem wordAt_append {front : List UInt8} {w k offset : ℕ} (hfront : front.length = w)
    (hoffset : offset = w + k) (n : ℕ) : wordAt (front ++ rest) offset n = wordAt rest k n := by
  rw [hoffset, ← hfront, wordAt, List.drop_length_add_append, wordAt]

theorem wordAt_leBytes_zero {w m : ℕ} (hm : m < 256 ^ w) :
    wordAt (leBytes w m ++ rest) 0 w = m := by
  have htake : (leBytes w m ++ rest).take w = leBytes w m := List.take_left' (length_leBytes w m)
  rw [wordAt, List.drop_zero, htake, leValue_leBytes_of_lt hm]

theorem u16At_leBytes (c : UInt16) : UInt16.ofNat (wordAt (leBytes 2 c.toNat ++ rest) 0 2) = c := by
  rw [wordAt_leBytes_zero rest c.toNat_lt, UInt16.ofNat_toNat]

theorem u32At_leBytes (c : UInt32) : UInt32.ofNat (wordAt (leBytes 4 c.toNat ++ rest) 0 4) = c := by
  rw [wordAt_leBytes_zero rest c.toNat_lt, UInt32.ofNat_toNat]

theorem wordAt_leBytes_two (m k n : ℕ) :
    wordAt (leBytes 2 m ++ rest) (k + 2) n = wordAt rest k n :=
  wordAt_append rest (length_leBytes 2 m) (Nat.add_comm k 2) n

theorem wordAt_leBytes_four (m k n : ℕ) :
    wordAt (leBytes 4 m ++ rest) (k + 4) n = wordAt rest k n :=
  wordAt_append rest (length_leBytes 4 m) (Nat.add_comm k 4) n

end Words

theorem packet_encode {packet : Packet} (hmac : packet.header.mac.length = 6) :
    (⟨packet.encode, packet.time⟩ : Datagram).packet = packet := by
  obtain ⟨⟨valueCount, version, mac, id, imageType, bpp, width, height, count, index, offset, size,
    total⟩, data, time⟩ := packet
  match mac, hmac with
  | [a, b, c, d, e, f], _ =>
      simp only [Datagram.packet, headerAt, Packet.encode, u16At, u32At, List.cons_append,
        List.nil_append, wordAt_cons, wordAt_leBytes_two, wordAt_leBytes_four, u16At_leBytes,
        u32At_leBytes]
      rfl

theorem length_encode {packet : Packet} (hmac : packet.header.mac.length = 6) :
    packet.encode.length = sizeofHeader + packet.data.length := by
  simp only [Packet.encode, List.length_append, List.length_cons, hmac, length_leBytes, sizeofHeader]
  omega

theorem fieldsRead_le (host : Host) (ctx : Context) : fieldsRead host ctx ≤ sizeofHeader := by
  rw [fieldsRead, sizeofHeader]
  split <;> omega

theorem decodeDatagram_encode (host : Host) (ctx : Context) {packet : Packet}
    (hmac : packet.header.mac.length = 6) :
    decodeDatagram host ctx ⟨packet.encode, packet.time⟩ =
      decoderWriteToStream host ctx packet := by
  have hread : fieldsRead host ctx ≤ packet.encode.length := by
    rw [length_encode hmac]
    exact (fieldsRead_le host ctx).trans (Nat.le_add_right _ _)
  rw [decodeDatagram, if_pos hread, packet_encode hmac]

/-- The block of a packet is whole, and inside the image in progress and what was allocated for
it. The sums do not wrap around. -/
def Fits (ctx : Context) (d : Datagram) : Prop :=
  ∃ p image item, ctx.userContext0 = some p ∧ ctx.images p = some image ∧
    ctx.items[image.streamImage]? = some item ∧
    sizeofHeader + (headerAt d.data).imageDataSize.toNat ≤ d.data.length ∧
    (headerAt d.data).imageDataOffset.toNat + (headerAt d.data).imageDataSize.toNat ≤
      image.totalSize.toNat ∧
    sizeofStreamImage + (headerAt d.data).imageDataOffset.toNat +
      (headerAt d.data).imageDataSize.toNat ≤ item.data.length

/-- What is copied is inside, and a packet that does not fit is ignored. -/
def Contained (host : Host) (ctx : Context) (d : Datagram) : Prop :=
  ∃ ctx', decodeDatagram host ctx d = some ctx' ∧ (¬ Fits ctx d → ctx' = ctx)

/-- No image object can be made for a packet that comes to no image, and a packet that comes to
an image in progress fits. -/
def Admits (host : Host) (ctx : Context) (d : Datagram) : Prop :=
  match ctx.userContext0 with
  | none => host.newImage ctx.images = none
  | some _ => Fits ctx d

section Step

variable {host : Host} {ctx ctx' : Context} {d : Datagram}

theorem newImage_ne_some_none {p : ℕ} (hnew : host.newImage ctx.images = some p)
    (packet : Packet) : ctx.newImage host packet ≠ some none := by
  intro h
  rw [Context.newImage, hnew] at h
  obtain ⟨userId, -, h⟩ := Option.bind_eq_some_iff.mp h
  obtain ⟨⟨items, k⟩, -, h⟩ := Option.bind_eq_some_iff.mp h
  obtain ⟨item, -, h⟩ := Option.bind_eq_some_iff.mp h
  obtain ⟨typed, -, h⟩ := Option.bind_eq_some_iff.mp h
  obtain ⟨sized, -, h⟩ := Option.bind_eq_some_iff.mp h
  cases h

/-- A packet that comes to no image is left alone if there is no object for a new one, and goes
through a null pointer otherwise. -/
theorem decodeDatagram_idle (hidle : ctx.userContext0 = none) :
    decodeDatagram host ctx d = if host.newImage ctx.images = none then some ctx else none := by
  cases hnew : host.newImage ctx.images with
  | none =>
      rw [decodeDatagram, fieldsRead, hidle, hnew, if_pos (Nat.zero_le _), if_pos rfl,
        decoderWriteToStream, hidle, if_pos rfl, Context.newImage, hnew]
      rfl
  | some p =>
      rw [if_neg (Option.some_ne_none p), decodeDatagram]
      split
      case isFalse => rfl
      case isTrue =>
        -- a new image would be in the variable of the block, and this one is null
        cases hwrite : decoderWriteToStream host ctx d.packet with
        | none => rfl
        | some ctx' =>
            rw [decoderWriteToStream, hidle, if_pos rfl] at hwrite
            obtain ⟨opened, hopened, hwrite⟩ := Option.bind_eq_some_iff.mp hwrite
            cases opened with
            | none => exact absurd hopened (newImage_ne_some_none hnew d.packet)
            | some opened => cases hwrite

theorem decoderWriteToStream_some {p : ℕ} (huser : ctx.userContext0 = some p) (packet : Packet) :
    decoderWriteToStream host ctx packet = ctx.copyBlock p packet := by
  rw [decoderWriteToStream, huser, if_neg (Option.some_ne_none p)]
  rfl

theorem memcpy_of_le {dest : List UInt8} {offset : ℕ} {bytes : List UInt8}
    (h : offset + bytes.length ≤ dest.length) :
    ∃ data, data.length = dest.length ∧ memcpy dest offset bytes = some data := by
  refine ⟨_, ?_, if_pos h⟩
  simp only [List.length_append, List.length_take, List.length_drop]
  omega

theorem copyBlock_ne {p : ℕ} {packet : Packet} (h : ctx.copyBlock p packet = some ctx') :
    ctx' ≠ ctx := by
  simp only [Context.copyBlock, Option.bind_eq_bind, Option.bind_eq_some_iff] at h
  obtain ⟨image, himage, item, -, h⟩ := h
  split at h
  case isTrue => cases h
  case isFalse =>
    obtain ⟨data, -, h⟩ := Option.bind_eq_some_iff.mp h
    cases h
    intro heq
    have hp : update ctx.images p (if image.receivedBlockCount + 1 = image.totalBlockCount then none
        else some { image with receivedBlockCount := image.receivedBlockCount + 1 }) p =
          ctx.images p := congrArg (fun c => Context.images c p) heq
    rw [update_self, himage] at hp
    split at hp
    case isTrue => cases hp
    case isFalse =>
      have hcount := congrArg Image.receivedBlockCount (Option.some.inj hp)
      simp at hcount

theorem copyBlock_of_room {p : ℕ} {packet : Packet} {image : Image} {item : VardataItem}
    (himage : ctx.images p = some image) (hitem : ctx.items[image.streamImage]? = some item)
    (hsize : packet.header.imageDataSize.toNat ≤ packet.data.length)
    (hroom : sizeofStreamImage + packet.header.imageDataOffset.toNat +
      packet.header.imageDataSize.toNat ≤ item.data.length) :
    ∃ data : List UInt8, data.length = item.data.length ∧ ctx.copyBlock p packet = some { ctx with
      images := update ctx.images p
        (if image.receivedBlockCount + 1 = image.totalBlockCount then none
          else some { image with receivedBlockCount := image.receivedBlockCount + 1 })
      items := ctx.items.set image.streamImage { item with data := data } } := by
  have htake : (packet.data.take packet.header.imageDataSize.toNat).length =
      packet.header.imageDataSize.toNat := by
    rw [List.length_take, min_eq_left hsize]
  obtain ⟨data, hlength, hcopy⟩ := memcpy_of_le
    (by rwa [htake] : sizeofStreamImage + packet.header.imageDataOffset.toNat +
      (packet.data.take packet.header.imageDataSize.toNat).length ≤ item.data.length)
  refine ⟨data, hlength, ?_⟩
  simp only [Context.copyBlock, himage, hitem, Option.bind_eq_bind, Option.bind_some, hcopy,
    if_neg (Nat.not_lt.mpr hsize)]

theorem contained_iff_admits : Contained host ctx d ↔ Admits host ctx d := by
  cases huser : ctx.userContext0 with
  | none =>
      rw [Contained, Admits, huser, decodeDatagram_idle huser]
      constructor
      · rintro ⟨ctx', h, -⟩
        by_contra hnew
        rw [if_neg hnew] at h
        cases h
      · intro hnew
        have hnone : host.newImage ctx.images = none := hnew
        exact ⟨ctx, if_pos hnone, fun _ => rfl⟩
  | some p =>
      have hadmits : Admits host ctx d = Fits ctx d := by
        rw [Admits, huser]
      have hread : fieldsRead host ctx = 32 := by rw [fieldsRead, huser]
      have hwrite : decoderWriteToStream host ctx d.packet = ctx.copyBlock p d.packet :=
        decoderWriteToStream_some huser d.packet
      rw [hadmits]
      constructor
      · rintro ⟨ctx', hdecode, hignored⟩
        by_contra hfits
        rw [decodeDatagram, hwrite] at hdecode
        split at hdecode
        case isTrue => exact copyBlock_ne hdecode (hignored hfits)
        case isFalse => cases hdecode
      · intro hfits
        have hfits' := hfits
        obtain ⟨p', image, item, huser', himage, hitem, hwhole, -, hroom⟩ := hfits'
        obtain rfl : p = p' := Option.some.inj (huser.symm.trans huser')
        rw [sizeofHeader] at hwhole
        have hsize : d.packet.header.imageDataSize.toNat ≤ d.packet.data.length := by
          have hdata : d.packet.data.length = d.data.length - 36 := List.length_drop
          have hheader : d.packet.header = headerAt d.data := rfl
          rw [hdata, hheader]
          omega
        obtain ⟨data, -, hcopy⟩ := copyBlock_of_room himage hitem hsize hroom
        rw [Contained, decodeDatagram, hread, if_pos (by omega), hwrite, hcopy]
        exact ⟨_, rfl, fun h => absurd hfits h⟩

end Step

/-- The packets of a connection stay inside exactly when each of them is admitted in the state it
comes to. -/
theorem contained_iff (host : Host) (ctx : Context) (packets : List Datagram) :
    Attempts (decodeDatagram host) (Contained host) ctx packets ↔
      Attempts (decodeDatagram host) (Admits host) ctx packets :=
  attempts_iff_attempts (I := fun _ => True) (fun _ _ _ _ _ _ => trivial)
    (fun _ _ _ => contained_iff_admits) trivial

/-- On a new connection this is so when no packet is received, or no object can be made. -/
theorem contained_newContext_iff (host : Host) (packets : List Datagram) :
    Attempts (decodeDatagram host) (Contained host) newContext packets ↔
      packets = [] ∨ host.newImage newContext.images = none := by
  induction packets with
  | nil => exact iff_of_true trivial (.inl rfl)
  | cons d packets ih =>
      constructor
      · exact fun h => .inr (contained_iff_admits.mp h.1)
      · intro h
        have hnone := h.resolve_left (List.cons_ne_nil d packets)
        refine ⟨contained_iff_admits.mpr hnone, fun ctx' hstep => ?_⟩
        rw [decodeDatagram_idle rfl, if_pos hnone, Option.some.injEq] at hstep
        subst hstep
        exact ih.mpr (.inr hnone)

/-- The first packet of a connection is copied through a null pointer. -/
theorem not_contained_first_packet : ¬ ∀ (host : Host) (packets : List Datagram),
    Attempts (decodeDatagram host) (Contained host) newContext packets := by
  intro h
  have hfirst := h plainHost [⟨Packet.encode
    ⟨⟨1, 1, [1, 2, 3, 4, 5, 6], 71, 1, 24, 1, 1, 1, 0, 0, 2, 2⟩, [7, 8], 100⟩, 100⟩]
  obtain ⟨ctx', hstep, -⟩ := hfirst.1
  rw [decodeDatagram_idle rfl] at hstep
  cases hstep

end Decoder

end ConArtist
