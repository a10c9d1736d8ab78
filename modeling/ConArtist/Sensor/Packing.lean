import Mathlib.Data.List.Forall2
import ConArtist.Sensor.Bounds

/-!
# Packed sensor packets

A packet as a device packs it: the header, the records one behind the other, and a byte of padding
where the length is odd, as the length byte counts units of two bytes. Both decoders come to the
records that were packed, the one by a division of the length and the other by the size. The user
interface has to name them on the way, which it cannot do from the type `ID_kWAh` on.
-/

namespace ConArtist

namespace Sensor

open UserTypes

def SensorValue.bytes (value : SensorValue) : List UInt8 := [value.mType, value.mH, value.mL]

/-- The records of a packet, one behind the other. -/
def packValues (values : List SensorValue) : List UInt8 := values.flatMap SensorValue.bytes

@[simp] theorem packValues_nil : packValues [] = [] := rfl

@[simp] theorem packValues_cons (value : SensorValue) (values : List SensorValue) :
    packValues (value :: values) = value.mType :: value.mH :: value.mL :: packValues values := rfl

theorem length_packValues (values : List SensorValue) :
    (packValues values).length = values.length * valueSize := by
  induction values with
  | nil => rfl
  | cons value values ih =>
      simp only [packValues_cons, List.length_cons, ih, valueSize]
      omega

/-- The size of a packet with `n` records, with its padding. -/
def packedSize (n : ℕ) : ℕ :=
  headerSize + n * valueSize + (headerSize + n * valueSize) % 2

/-- What a device packs. The length byte can say 510 bytes at most. -/
structure SensorPacket where
  mVersion : UInt8
  mMac : List UInt8
  values : List SensorValue
  padding : UInt8
  mMac_length : mMac.length = 6
  packedSize_le : packedSize values.length ≤ 510

namespace SensorPacket

variable (packet : SensorPacket)

def size : ℕ := packedSize packet.values.length

def pad : List UInt8 :=
  if (headerSize + packet.values.length * valueSize) % 2 = 1 then [packet.padding] else []

def encode : List UInt8 :=
  UInt8.ofNat (packet.size / 2) :: packet.mVersion :: packet.mMac ++
    (packValues packet.values ++ packet.pad)

theorem length_pad : packet.pad.length = (headerSize + packet.values.length * valueSize) % 2 := by
  rw [pad]
  split
  case isTrue hodd => exact hodd.symm
  case isFalse heven =>
    rw [List.length_nil]
    omega

theorem length_encode : packet.encode.length = packet.size := by
  simp only [encode, List.cons_append, List.length_cons, List.length_append, packet.mMac_length,
    length_packValues, length_pad, size, packedSize, headerSize]
  omega

end SensorPacket

section Loops

variable (front rest : List UInt8)

theorem getElem?_front (k : ℕ) : (front ++ rest)[front.length + k]? = rest[k]? := by
  rw [List.getElem?_append_right (Nat.le_add_right _ _), Nat.add_sub_cancel_left]

theorem readBytes_front (bytes : List UInt8) :
    readBytes (fun i => (front ++ (bytes ++ rest))[i]?) front.length bytes.length = some bytes := by
  induction bytes generalizing front with
  | nil => rfl
  | cons c bytes ih =>
      have hhead : (front ++ (c :: bytes ++ rest))[front.length]? = some c :=
        getElem?_front front _ 0
      have hrest := ih (front ++ [c])
      rw [List.append_assoc, List.length_append, List.length_singleton] at hrest
      rw [List.length_cons, readBytes, hhead]
      simp only [Option.bind_eq_bind, Option.bind_some]
      rw [show front ++ (c :: bytes ++ rest) = front ++ ([c] ++ (bytes ++ rest)) from rfl, hrest,
        Option.bind_some]

theorem readValue_front (value : SensorValue) (values : List SensorValue) :
    readValue (fun i => (front ++ (packValues (value :: values) ++ rest))[i]?) front.length =
      some value := by
  have hbyte := getElem?_front front (packValues (value :: values) ++ rest)
  have htype : (front ++ (packValues (value :: values) ++ rest))[front.length]? =
    some value.mType := hbyte 0
  rw [readValue, htype, hbyte 1, hbyte 2]
  rfl

theorem append_packValues_cons (value : SensorValue) (values : List SensorValue) :
    front ++ (packValues (value :: values) ++ rest) =
      front ++ value.bytes ++ (packValues values ++ rest) := by
  rw [List.append_assoc]
  rfl

theorem length_append_bytes (value : SensorValue) :
    (front ++ value.bytes).length = front.length + valueSize := by
  rw [List.length_append]
  rfl

theorem uiLoop_packValues_iff (keyString : UInt8 → Option (List UInt8))
    (unitString : UInt8 → String) (values : List SensorValue) (items : List UiItem) :
    uiLoop (fun i => (front ++ (packValues values ++ rest))[i]?) keyString unitString
      values.length front.length = some items ↔
        List.Forall₂ (fun value item => valueItem keyString unitString value = some item)
          values items := by
  induction values generalizing front items with
  | nil => rw [List.forall₂_nil_left_iff, List.length_nil, uiLoop, Option.some.injEq, eq_comm]
  | cons value values ih =>
      have hnext := fun items => ih (front ++ value.bytes) items
      simp only [← append_packValues_cons, length_append_bytes] at hnext
      rw [List.length_cons, uiLoop, readValue_front]
      simp only [Option.bind_eq_bind, Option.bind_some, Option.bind_eq_some_iff, hnext,
        List.forall₂_cons_left_iff, Option.some.injEq]
      constructor
      · rintro ⟨item, hitem, items', hitems', rfl⟩
        exact ⟨item, items', hitem, hitems', rfl⟩
      · rintro ⟨item, items', hitem, hitems', rfl⟩
        exact ⟨item, hitem, items', hitems', rfl⟩

theorem streamLoop_packValues (hid : UInt32) (lid : UInt16) (values : List SensorValue)
    (hrest : rest.length < valueSize) :
    streamLoop (fun i => (front ++ (packValues values ++ rest))[i]?) hid lid
      (front.length + (values.length * valueSize + rest.length)) front.length =
        some (values.map (visit hid lid)) := by
  induction values generalizing front with
  | nil =>
      rw [streamLoop, if_neg (by rw [List.length_nil]; omega)]
      rfl
  | cons value values ih =>
      have hnext := ih (front ++ value.bytes)
      rw [← append_packValues_cons, length_append_bytes] at hnext
      have hend : front.length + valueSize + (values.length * valueSize + rest.length) =
          front.length + ((value :: values).length * valueSize + rest.length) := by
        rw [List.length_cons, Nat.succ_mul]
        omega
      rw [hend] at hnext
      rw [streamLoop, if_pos (by rw [List.length_cons, Nat.succ_mul]; omega), readValue_front]
      simp only [hnext, Option.map_some, List.map_cons]

end Loops

/-- The length byte gives the number of records back, with and without padding. -/
theorem numValues_packedSize {n : ℕ} (h : packedSize n ≤ 510) :
    (numValues (UInt8.ofNat (packedSize n / 2))).toNat = n := by
  have hhalf : (UInt8.ofNat (packedSize n / 2)).toNat = packedSize n / 2 :=
    UInt8.toNat_ofNat_of_lt' (by simp only [UInt8.size]; omega)
  have hsize : packedSize n = 8 + n * 3 + (8 + n * 3) % 2 := rfl
  rw [numValues_of_le (by omega), hhalf, Int.toNat_natCast]
  omega

theorem two_mul_packedSize {n : ℕ} (h : packedSize n ≤ 510) :
    (UInt8.ofNat (packedSize n / 2)).toNat * 2 = packedSize n := by
  have hhalf : (UInt8.ofNat (packedSize n / 2)).toNat = packedSize n / 2 :=
    UInt8.toNat_ofNat_of_lt' (by simp only [UInt8.size]; omega)
  have hsize : packedSize n = 8 + n * 3 + (8 + n * 3) % 2 := rfl
  omega

section Packet

variable (packet : SensorPacket)

theorem SensorPacket.encode_eq : ∃ a b c d e f, packet.mMac = [a, b, c, d, e, f] ∧
    packet.encode = [UInt8.ofNat (packet.size / 2), packet.mVersion, a, b, c, d, e, f] ++
      (packValues packet.values ++ packet.pad) := by
  match hmac : packet.mMac, packet.mMac_length with
  | [a, b, c, d, e, f], _ =>
      refine ⟨a, b, c, d, e, f, rfl, ?_⟩
      rw [SensorPacket.encode, hmac]

theorem SensorPacket.size_eq :
    packet.size = headerSize + (packet.values.length * valueSize + packet.pad.length) := by
  rw [packet.length_pad, SensorPacket.size, packedSize, Nat.add_assoc]

theorem readBytes_encode :
    readBytes (fun i => packet.encode[i]?) 0 packet.size = some packet.encode := by
  rw [← packet.length_encode]
  simpa only [List.nil_append, List.append_nil, List.length_nil] using readBytes_front [] [] packet.encode

/-- The items of the header of a packet. -/
def SensorPacket.headerItems : List UiItem :=
  [⟨bytesOf "Packet Length", .bytes packet.size⟩,
    ⟨bytesOf "Packet Version", .version packet.mVersion⟩,
    ⟨bytesOf "Device MAC Address", .mac packet.mMac⟩]

/-- The user interface has an item for each record that was packed, in their order. -/
theorem uiElement_encode_iff {keyString : UInt8 → Option (List UInt8)}
    {unitString : UInt8 → String} {items : List UiItem} :
    uiElement (fun i => packet.encode[i]?) keyString unitString =
        some (packet.headerItems ++ items) ↔
      List.Forall₂ (fun value item => valueItem keyString unitString value = some item)
        packet.values items := by
  obtain ⟨a, b, c, d, e, f, hmac, hencode⟩ := packet.encode_eq
  have hvalues := uiLoop_packValues_iff
    [UInt8.ofNat (packet.size / 2), packet.mVersion, a, b, c, d, e, f] packet.pad
    keyString unitString packet.values items
  have hcount : (numValues (UInt8.ofNat (packet.size / 2))).toNat = packet.values.length :=
    numValues_packedSize packet.packedSize_le
  have hlength : ((UInt8.ofNat (packet.size / 2)).toNat : ℤ) * 2 = packet.size := by
    have htwice := two_mul_packedSize packet.packedSize_le
    rw [SensorPacket.size]
    omega
  have hheader : packet.encode[0]? = some (UInt8.ofNat (packet.size / 2)) ∧
      packet.encode[1]? = some packet.mVersion ∧
      readBytes (fun i => packet.encode[i]?) 2 6 = some packet.mMac := by
    rw [hencode, hmac]
    exact ⟨rfl, rfl, rfl⟩
  obtain ⟨hmLength, hmVersion, hmMac⟩ := hheader
  rw [← hencode] at hvalues
  have hstart : [UInt8.ofNat (packet.size / 2), packet.mVersion, a, b, c, d, e, f].length =
      headerSize := rfl
  rw [← hvalues, hstart, uiElement, hmLength, Option.bind_eq_bind, Option.bind_some, hmVersion,
    Option.bind_eq_bind, Option.bind_some, hmMac, Option.bind_eq_bind, Option.bind_some, hcount,
    hlength, Option.bind_eq_some_iff]
  constructor
  · rintro ⟨items', hitems', h⟩
    have happend : packet.headerItems ++ items' = packet.headerItems ++ items := Option.some.inj h
    exact List.append_cancel_left happend ▸ hitems'
  · exact fun h => ⟨items, h, rfl⟩

/-- The streams have a visit for each record that was packed, in their order. -/
theorem decoderWriteToStream_encode (currentTime : UInt64) :
    ∃ hid lid, decoderWriteToStream (fun i => packet.encode[i]?) packet.size currentTime =
      some ⟨currentTime, packet.encode, packet.values.map (visit hid lid)⟩ := by
  obtain ⟨a, b, c, d, e, f, -, hencode⟩ := packet.encode_eq
  have hpad : packet.pad.length < valueSize := by
    rw [packet.length_pad, valueSize]
    omega
  have hvisits := streamLoop_packValues
    [UInt8.ofNat (packet.size / 2), packet.mVersion, a, b, c, d, e, f] packet.pad
    (a.toUInt32 ||| (b.toUInt32 <<< 8) ||| (c.toUInt32 <<< 16) ||| (d.toUInt32 <<< 24))
    ((e.toUInt16 <<< 8) ||| f.toUInt16) packet.values hpad
  have hmac : packet.encode[2]? = some a ∧ packet.encode[3]? = some b ∧
      packet.encode[4]? = some c ∧ packet.encode[5]? = some d ∧ packet.encode[6]? = some e ∧
      packet.encode[7]? = some f := by
    rw [hencode]
    exact ⟨rfl, rfl, rfl, rfl, rfl, rfl⟩
  obtain ⟨ha, hb, hc, hd, he, hf⟩ := hmac
  rw [← hencode] at hvisits
  have hsize : [UInt8.ofNat (packet.size / 2), packet.mVersion, a, b, c, d, e, f].length +
      (packet.values.length * valueSize + packet.pad.length) = packet.size := packet.size_eq.symm
  rw [hsize] at hvisits
  refine ⟨a.toUInt32 ||| (b.toUInt32 <<< 8) ||| (c.toUInt32 <<< 16) ||| (d.toUInt32 <<< 24),
    (e.toUInt16 <<< 8) ||| f.toUInt16, ?_⟩
  simp only [decoderWriteToStream, Option.bind_eq_bind, readBytes_encode, ha, hb, hc, hd, he, hf,
    Option.bind_some]
  exact congrArg (fun visits => Option.bind visits _) hvisits

end Packet

/-- Both decoders visit the records that were packed, in their order, and nothing else. -/
structure VisitsValues (packet : SensorPacket) (unitString : UInt8 → String)
    (currentTime : UInt64) : Prop where
  ui : ∃ items, decoderBuildUiElement (fun i => packet.encode[i]?) unitString =
      some (packet.headerItems ++ items) ∧
    List.Forall₂ (fun value item =>
      valueItem (fun type => toKeyString type.toNat) unitString value =
      some item) packet.values items
  stream : ∃ hid lid, decoderWriteToStream (fun i => packet.encode[i]?) packet.size currentTime =
    some ⟨currentTime, packet.encode, packet.values.map (visit hid lid)⟩

theorem exists_items_iff (keyString : UInt8 → Option (List UInt8)) (unitString : UInt8 → String)
    (values : List SensorValue) :
    (∃ items, List.Forall₂ (fun value item => valueItem keyString unitString value = some item)
      values items) ↔ ∀ value ∈ values, (keyString value.mType).isSome := by
  induction values with
  | nil => exact iff_of_true ⟨[], .nil⟩ fun value hvalue => absurd hvalue List.not_mem_nil
  | cons value values ih =>
      rw [List.forall_mem_cons, ← ih]
      constructor
      · rintro ⟨items, hitems⟩
        obtain ⟨item, items, hitem, hrest, rfl⟩ := List.forall₂_cons_left_iff.mp hitems
        obtain ⟨key, hkey, -⟩ := Option.bind_eq_some_iff.mp hitem
        exact ⟨Option.isSome_iff_exists.mpr ⟨key, hkey⟩, items, hrest⟩
      · rintro ⟨hkey, items, hrest⟩
        obtain ⟨key, hkey⟩ := Option.isSome_iff_exists.mp hkey
        exact ⟨_ :: items, .cons (Option.bind_eq_some_iff.mpr ⟨key, hkey, rfl⟩) hrest⟩

/-- Both decoders visit the records that were packed exactly when the types of all are below the
last one. -/
theorem decoders_visit_values_iff (packet : SensorPacket) (unitString : UInt8 → String)
    (currentTime : UInt64) : VisitsValues packet unitString currentTime ↔
      ∀ value ∈ packet.values, value.mType.toNat < 74 := by
  have hkeys :=
    exists_items_iff (fun type => toKeyString type.toNat) unitString packet.values
  simp only [toKeyString_isSome_iff] at hkeys
  rw [← hkeys]
  constructor
  · intro h
    obtain ⟨items, -, hitems⟩ := h.ui
    exact ⟨items, hitems⟩
  · rintro ⟨items, hitems⟩
    exact ⟨⟨items, (uiElement_encode_iff packet).mpr hitems, hitems⟩,
      decoderWriteToStream_encode packet currentTime⟩

/-- A packet with one record, of an electricity meter. -/
def meterPacket : SensorPacket where
  mVersion := 1
  mMac := [0x8C, 0xCE, 0x4E, 0x50, 0xAF, 0x57]
  values := [⟨74, 0, 5⟩]
  padding := 0
  mMac_length := rfl
  packedSize_le := by decide

/-- The key of an electricity meter is looked up behind the keys. -/
theorem not_visits_meterPacket : ¬ ∀ (packet : SensorPacket) (unitString : UInt8 → String)
    (currentTime : UInt64), VisitsValues packet unitString currentTime := by
  intro h
  obtain ⟨items, hui, -⟩ := (h meterPacket (fun _ => "") 0).ui
  have hnone : decoderBuildUiElement (fun i => meterPacket.encode[i]?) (fun _ => "") = none := by
    decide +kernel
  rw [hnone] at hui
  cases hui

end Sensor

end ConArtist
