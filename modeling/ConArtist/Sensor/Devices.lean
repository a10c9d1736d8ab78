import ConArtist.Foundation.Run
import ConArtist.Sensor.Packing
import ConArtist.Sensor.Readings

/-!
# The streams of the devices

The packets of all devices come to one decoder, one after the other. It registers a stream for
each type of record of each device, by the two parts of the MAC address, the type and the type of
its values. So a stream has the readings of one device and one type and no others, from all
packets of that device, in the order in which they came. The packets are kept as a whole beside
them.

The decoder is handed `register_stream` and the calls that write, and no source file defines them. A
stream is the log of the calls for one registration here, each with its time.
-/

namespace ConArtist

namespace Sensor

open Function Machine UserTypes

/-- `m_mac`. -/
structure Mac where
  mac0 : UInt8
  mac1 : UInt8
  mac2 : UInt8
  mac3 : UInt8
  mac4 : UInt8
  mac5 : UInt8
  deriving DecidableEq

namespace Mac

variable (mac : Mac)

/-- `hid`. -/
def hid : UInt32 :=
  mac.mac0.toUInt32 ||| (mac.mac1.toUInt32 <<< 8) ||| (mac.mac2.toUInt32 <<< 16) |||
    (mac.mac3.toUInt32 <<< 24)

/-- `lid`. -/
def lid : UInt16 := (mac.mac4.toUInt16 <<< 8) ||| mac.mac5.toUInt16

/-- What the stream of a type is registered for. -/
def stream (type : UInt8) : Registration :=
  ⟨mac.hid, mac.lid, getStreamType type.toNat, type.toNat⟩

end Mac

section Numbers

theorem or_shiftLeft {x i : ℕ} (hx : x < 2 ^ i) (y : ℕ) : x ||| y <<< i = x + y * 2 ^ i := by
  rw [Nat.or_comm, ← Nat.shiftLeft_add_eq_or_of_lt hx, Nat.shiftLeft_eq, Nat.add_comm]

theorem toNat_byte_shiftLeft (c : UInt8) {i : UInt32} (hi : i.toNat ≤ 24) :
    (c.toUInt32 <<< i).toNat = c.toNat <<< i.toNat := by
  have hlt : c.toNat * 2 ^ i.toNat < 2 ^ 32 := by
    have hpow : 2 ^ i.toNat ≤ 2 ^ 24 := Nat.pow_le_pow_right (by decide) hi
    have hmul := Nat.mul_lt_mul_of_lt_of_le c.toNat_lt hpow (Nat.two_pow_pos _)
    exact hmul
  have hi' : i.toNat % 32 = i.toNat := Nat.mod_eq_of_lt (by omega)
  rw [UInt32.toNat_shiftLeft, hi', UInt8.toNat_toUInt32, Nat.shiftLeft_eq, Nat.mod_eq_of_lt hlt]

theorem Mac.hid_toNat (mac : Mac) : mac.hid.toNat =
    mac.mac0.toNat + 256 * mac.mac1.toNat + 65536 * mac.mac2.toNat + 16777216 * mac.mac3.toNat := by
  have h0 := mac.mac0.toNat_lt
  have h1 := mac.mac1.toNat_lt
  have h2 := mac.mac2.toNat_lt
  have hshift : ∀ (c : UInt8) (i : UInt32), i.toNat ≤ 24 →
      (c.toUInt32 <<< i).toNat = c.toNat <<< i.toNat := fun c i hi => toNat_byte_shiftLeft c hi
  rw [Mac.hid, UInt32.toNat_or, UInt32.toNat_or, UInt32.toNat_or, hshift _ 8 (by decide),
    hshift _ 16 (by decide), hshift _ 24 (by decide), UInt8.toNat_toUInt32]
  have e8 : (8 : UInt32).toNat = 8 := rfl
  have e16 : (16 : UInt32).toNat = 16 := rfl
  have e24 : (24 : UInt32).toNat = 24 := rfl
  have hor1 := or_shiftLeft (show mac.mac0.toNat < 2 ^ 8 by omega) mac.mac1.toNat
  have hor2 := or_shiftLeft (show mac.mac0.toNat + mac.mac1.toNat * 2 ^ 8 < 2 ^ 16 by omega)
    mac.mac2.toNat
  have hor3 := or_shiftLeft (show mac.mac0.toNat + mac.mac1.toNat * 2 ^ 8 +
    mac.mac2.toNat * 2 ^ 16 < 2 ^ 24 by omega) mac.mac3.toNat
  rw [e8, e16, e24, hor1, hor2, hor3]
  omega

theorem Mac.stream_inj {mac mac' : Mac} {type type' : UInt8} :
    mac.stream type = mac'.stream type' ↔ mac = mac' ∧ type = type' := by
  constructor
  · intro h
    have hhid : mac.hid.toNat = mac'.hid.toNat := congrArg (fun r => r.hid.toNat) h
    have hlid : mac.lid.toNat = mac'.lid.toNat := congrArg (fun r => r.lid.toNat) h
    have htype : type.toNat = type'.toNat := congrArg Registration.userType h
    rw [Mac.hid_toNat, Mac.hid_toNat] at hhid
    rw [Mac.lid, Mac.lid, word_toNat, word_toNat] at hlid
    obtain ⟨a, b, c, d, e, f⟩ := mac
    obtain ⟨a', b', c', d', e', f'⟩ := mac'
    dsimp only at hhid hlid
    have ha := a.toNat_lt
    have hb := b.toNat_lt
    have hc := c.toNat_lt
    have hf := f.toNat_lt
    have ha' := a'.toNat_lt
    have hb' := b'.toNat_lt
    have hc' := c'.toNat_lt
    have hf' := f'.toNat_lt
    refine ⟨?_, UInt8.toNat_inj.mp htype⟩
    rw [Mac.mk.injEq]
    simp only [← UInt8.toNat_inj]
    omega
  · rintro ⟨rfl, rfl⟩
    rfl

end Numbers

section Packet

/-- The address in a packet. -/
def macOf : List UInt8 → Option Mac
  | _ :: _ :: mac0 :: mac1 :: mac2 :: mac3 :: mac4 :: mac5 :: _ =>
      some ⟨mac0, mac1, mac2, mac3, mac4, mac5⟩
  | _ => none

/-- The records, as far as there are three bytes. -/
def recordsOf : List UInt8 → List SensorValue
  | mType :: mH :: mL :: rest => ⟨mType, mH, mL⟩ :: recordsOf rest
  | _ => []

theorem exists_packValues (bytes : List UInt8) :
    ∃ rest, bytes = packValues (recordsOf bytes) ++ rest ∧ rest.length < valueSize := by
  induction bytes using recordsOf.induct with
  | case1 mType mH mL rest ih =>
      obtain ⟨rest', hbytes, hlength⟩ := ih
      refine ⟨rest', ?_, hlength⟩
      conv_lhs => rw [hbytes]
      rfl
  | case2 bytes h =>
      match bytes with
      | [] => exact ⟨[], rfl, by decide⟩
      | [a] => exact ⟨[a], rfl, by simp [valueSize]⟩
      | [a, b] => exact ⟨[a, b], rfl, by simp [valueSize]⟩
      | a :: b :: c :: rest => exact absurd rfl (h a b c rest)

theorem exists_macOf {bytes : List UInt8} (h : 8 ≤ bytes.length) :
    ∃ mLength mVersion mac, macOf bytes = some mac ∧ bytes =
      [mLength, mVersion, mac.mac0, mac.mac1, mac.mac2, mac.mac3, mac.mac4, mac.mac5] ++
        bytes.drop 8 := by
  match bytes with
  | mLength :: mVersion :: a :: b :: c :: d :: e :: f :: _ =>
      exact ⟨mLength, mVersion, ⟨a, b, c, d, e, f⟩, rfl, rfl⟩

/-- A packet with a header is decoded, its records under the address in it. -/
theorem decoderWriteToStream_records {bytes : List UInt8} (h : 8 ≤ bytes.length)
    (currentTime : UInt64) : ∃ mac, macOf bytes = some mac ∧
      decoderWriteToStream (fun i => bytes[i]?) bytes.length currentTime = some ⟨currentTime, bytes,
        (recordsOf (bytes.drop 8)).map (visit mac.hid mac.lid)⟩ := by
  obtain ⟨mLength, mVersion, mac, hmac, hbytes⟩ := exists_macOf h
  obtain ⟨rest, hdrop, hrest⟩ := exists_packValues (bytes.drop 8)
  refine ⟨mac, hmac, ?_⟩
  generalize recordsOf (bytes.drop 8) = values at hdrop
  rw [hdrop] at hbytes
  have hread : readBytes (fun i => bytes[i]?) 0 bytes.length = some bytes := by
    simpa only [List.nil_append, List.append_nil, List.length_nil] using readBytes_front [] [] bytes
  have hbyte : bytes[2]? = some mac.mac0 ∧ bytes[3]? = some mac.mac1 ∧ bytes[4]? = some mac.mac2 ∧
      bytes[5]? = some mac.mac3 ∧ bytes[6]? = some mac.mac4 ∧ bytes[7]? = some mac.mac5 := by
    rw [hbytes]
    exact ⟨rfl, rfl, rfl, rfl, rfl, rfl⟩
  obtain ⟨h0, h1, h2, h3, h4, h5⟩ := hbyte
  have hvisits := streamLoop_packValues
    [mLength, mVersion, mac.mac0, mac.mac1, mac.mac2, mac.mac3, mac.mac4, mac.mac5] rest mac.hid
    mac.lid values hrest
  have hlength : bytes.length = headerSize + (values.length * valueSize + rest.length) := by
    have hlength := congrArg List.length hbytes
    rw [List.length_append, List.length_append, length_packValues] at hlength
    exact hlength
  rw [← hbytes] at hvisits
  simp only [decoderWriteToStream, Option.bind_eq_bind, hread, h0, h1, h2, h3, h4, h5,
    Option.bind_some]
  rw [hlength]
  exact congrArg (fun visits => Option.bind visits _) hvisits

end Packet

/-- A packet, and the time at which it comes. -/
abbrev Received := UInt64 × List UInt8

/-- The streams of the decoder: that of the packets, and those that are registered for records. -/
structure Streams where
  packets : List Received
  items : Registration → List (UInt64 × Reading)

namespace Streams

/-- Nothing was written. -/
def empty : Streams := ⟨[], fun _ => []⟩

/-- The reading of a record is written to the stream that was registered for it. -/
def write (s : Streams) (time : UInt64) (v : Visit) : Streams :=
  match v.reading with
  | some reading =>
      { s with
        items := update s.items v.registration (s.items v.registration ++ [(time, reading)]) }
  | none => s

/-- What is written for a packet. -/
def store (s : Streams) (w : Written) : Streams :=
  w.visits.foldl (fun s v => s.write w.time v)
    { s with packets := s.packets ++ [(w.time, w.packet)] }

def receive (s : Streams) (packet : Received) : Option Streams :=
  (decoderWriteToStream (fun i => packet.2[i]?) packet.2.length packet.1).map s.store

/-- What a visit adds to a stream. -/
def added (r : Registration) (time : UInt64) (v : Visit) : Option (UInt64 × Reading) :=
  if v.registration = r then v.reading.map (time, ·) else none

theorem packets_write (s : Streams) (time : UInt64) (v : Visit) :
    (s.write time v).packets = s.packets := by
  rw [write]
  split <;> rfl

theorem items_write (s : Streams) (time : UInt64) (v : Visit) (r : Registration) :
    (s.write time v).items r = s.items r ++ (added r time v).toList := by
  rw [write, added]
  cases v.reading with
  | none => rw [Option.map_none, ite_self, Option.toList_none, List.append_nil]
  | some reading =>
      dsimp only
      rw [update_apply]
      by_cases h : v.registration = r
      · rw [if_pos h, if_pos h.symm, h]
        rfl
      · rw [if_neg h, if_neg fun hr => h hr.symm, Option.toList_none, List.append_nil]

theorem packets_foldl (s : Streams) (time : UInt64) (vs : List Visit) :
    (vs.foldl (fun s v => s.write time v) s).packets = s.packets := by
  induction vs generalizing s with
  | nil => rfl
  | cons v vs ih => rw [List.foldl_cons, ih, packets_write]

theorem items_foldl (s : Streams) (time : UInt64) (vs : List Visit) (r : Registration) :
    (vs.foldl (fun s v => s.write time v) s).items r =
      s.items r ++ vs.filterMap (added r time) := by
  induction vs generalizing s with
  | nil => rw [List.foldl_nil, List.filterMap_nil, List.append_nil]
  | cons v vs ih =>
      rw [List.foldl_cons, ih, items_write, List.append_assoc]
      cases h : added r time v with
      | none => rw [List.filterMap_cons_none h, Option.toList_none, List.nil_append]
      | some item => rw [List.filterMap_cons_some h]; rfl

end Streams

/-- The readings of one type in a packet, if it is of this device. -/
def readingsOf (mac : Mac) (type : UInt8) (packet : Received) : List (UInt64 × Reading) :=
  if macOf packet.2 = some mac then
    ((recordsOf (packet.2.drop 8)).filter fun value => value.mType = type).filterMap fun value =>
      (readingOf (getStreamType type.toNat) value).map (packet.1, ·)
  else []

/-- The packets are kept, each stream has what is its own, and no other stream has anything. -/
structure DeviceStreams (s : Streams) (packets : List Received) : Prop where
  kept : s.packets = packets
  items : ∀ mac type, s.items (mac.stream type) = packets.flatMap (readingsOf mac type)
  others : ∀ r, s.items r ≠ [] → ∃ mac type, r = mac.stream type ∧
    ∃ packet ∈ packets, macOf packet.2 = some mac

theorem added_visit (mac mac' : Mac) (type : UInt8) (time : UInt64) (value : SensorValue) :
    Streams.added (mac.stream type) time (visit mac'.hid mac'.lid value) =
      if mac' = mac ∧ value.mType = type then
        (readingOf (getStreamType type.toNat) value).map (time, ·) else none := by
  have hregistration : (visit mac'.hid mac'.lid value).registration = mac'.stream value.mType := rfl
  rw [Streams.added, hregistration]
  by_cases h : mac' = mac ∧ value.mType = type
  · obtain ⟨rfl, rfl⟩ := h
    rw [if_pos rfl, if_pos ⟨rfl, rfl⟩]
    rfl
  · rw [if_neg h, if_neg fun hr => h (Mac.stream_inj.mp hr)]

theorem DeviceStreams.receive {s t : Streams} {packets : List Received} {packet : Received}
    (h : DeviceStreams s packets) (ht : s.receive packet = some t) :
    DeviceStreams t (packets ++ [packet]) := by
  rw [Streams.receive, Option.map_eq_some_iff] at ht
  obtain ⟨w, hw, rfl⟩ := ht
  have hlength : 8 ≤ packet.2.length :=
    (decoderWriteToStream_isSome packet.2 packet.1).mp (Option.isSome_of_eq_some hw)
  obtain ⟨mac', hmac', hdecoded⟩ := decoderWriteToStream_records hlength packet.1
  cases hdecoded.symm.trans hw
  have hitems : ∀ r, (s.store ⟨packet.1, packet.2,
      (recordsOf (packet.2.drop 8)).map (visit mac'.hid mac'.lid)⟩).items r = s.items r ++
        ((recordsOf (packet.2.drop 8)).map (visit mac'.hid mac'.lid)).filterMap
          (Streams.added r packet.1) :=
    fun r => Streams.items_foldl _ _ _ r
  refine ⟨?_, fun mac type => ?_, fun r hr => ?_⟩
  · rw [Streams.store, Streams.packets_foldl, h.kept]
  · rw [hitems, h.items, List.flatMap_append, List.flatMap_singleton, List.filterMap_map,
      readingsOf]
    congr 1
    split
    case isTrue heq =>
        obtain rfl : mac' = mac := Option.some_inj.mp (hmac'.symm.trans heq)
        rw [List.filterMap_filter]
        refine List.filterMap_congr fun value _ => ?_
        rw [Function.comp_apply, added_visit]
        simp
    case isFalse hne =>
        refine List.filterMap_eq_nil_iff.mpr fun value _ => ?_
        rw [Function.comp_apply, added_visit, if_neg fun h => hne (hmac'.trans (congrArg some h.1))]
  · rw [hitems] at hr
    by_cases hold : s.items r = []
    · rw [hold, List.nil_append] at hr
      obtain ⟨item, hitem⟩ := List.exists_mem_of_ne_nil _ hr
      obtain ⟨v, hv, hadded⟩ := List.mem_filterMap.mp hitem
      obtain ⟨value, -, rfl⟩ := List.mem_map.mp hv
      rw [Streams.added] at hadded
      split at hadded
      case isTrue hregistration =>
          exact ⟨mac', value.mType, hregistration.symm, packet,
            List.mem_append_right _ (List.mem_singleton_self packet), hmac'⟩
      case isFalse => cases hadded
    · obtain ⟨mac, type, hregistration, packet', hmem, hmac⟩ := h.others r hold
      exact ⟨mac, type, hregistration, packet', List.mem_append_left _ hmem, hmac⟩

/-- Packets with headers of any devices, one after the other, are all taken, and in the end each
stream has the readings of one type and one device, in their order, and the times of the packets
that they came in. -/
theorem device_streams (packets : List Received)
    (hheader : ∀ packet ∈ packets, 8 ≤ packet.2.length) : ∃ s,
    run Streams.receive .empty packets = some s ∧ DeviceStreams s packets := by
  have hrun : ∃ s, run Streams.receive .empty packets = some s := by
    generalize Streams.empty = s
    induction packets generalizing s with
    | nil => exact ⟨s, rfl⟩
    | cons packet packets ih =>
        obtain ⟨mac, -, hdecoded⟩ :=
          decoderWriteToStream_records (hheader packet List.mem_cons_self) packet.1
        obtain ⟨t, ht⟩ := ih (fun p hp => hheader p (List.mem_cons_of_mem packet hp)) (s.store _)
        exact ⟨t, (run_cons_eq_some _).mpr ⟨_, by rw [Streams.receive, hdecoded]; rfl, ht⟩⟩
  obtain ⟨s, hs⟩ := hrun
  have hempty : DeviceStreams .empty [] := ⟨rfl, fun _ _ => rfl, fun r hr => absurd rfl hr⟩
  have hrecords := run_records Streams.receive (R := DeviceStreams) (fun s packet t packets h ht =>
    h.receive ht) packets hempty hs
  rw [List.nil_append, List.flatMap_singleton'] at hrecords
  exact ⟨s, hs, hrecords⟩

/-- The humidity of a second device comes between two temperatures of the first. -/
theorem device_streams_twoDevices : ∃ s,
    run Streams.receive .empty [(0, temperaturePacket 0 55), (1, [6, 1, 1, 2, 3, 4, 5, 6, 2, 0, 40, 0]),
      (60, temperaturePacket 255 251)] = some s ∧
    DeviceStreams s [(0, temperaturePacket 0 55), (1, [6, 1, 1, 2, 3, 4, 5, 6, 2, 0, 40, 0]),
      (60, temperaturePacket 255 251)] :=
  device_streams _ (by decide)

end Sensor

end ConArtist
