import Mathlib.Algebra.Group.Nat.Defs
import ConArtist.Sensor.Decoder

/-!
# The readings

The user interface shows the two bytes of a record as one unsigned number, whatever its type is.
The streams take the width and the sign of the type. `Plain` says when the two are the same number.
-/

namespace ConArtist

namespace Sensor

open UserTypes

section Numbers

variable {h l : UInt8}

theorem toInt8_toInt (c : UInt8) :
    c.toInt8.toInt = if c.toNat < 128 then (c.toNat : ℤ) else c.toNat - 256 := by
  have hbits : c.toInt8.toInt = c.toBitVec.toInt := rfl
  have htoNat : c.toBitVec.toNat = c.toNat := rfl
  rw [hbits, BitVec.toInt_eq_toNat_cond, htoNat]
  simp only [Nat.reducePow]
  split <;> split <;> omega

theorem toInt16_toInt (c : UInt16) :
    c.toInt16.toInt = if c.toNat < 32768 then (c.toNat : ℤ) else c.toNat - 65536 := by
  have hbits : c.toInt16.toInt = c.toBitVec.toInt := rfl
  have htoNat : c.toBitVec.toNat = c.toNat := rfl
  rw [hbits, BitVec.toInt_eq_toNat_cond, htoNat]
  simp only [Nat.reducePow]
  split <;> split <;> omega

theorem word_toNat (h l : UInt8) :
    ((h.toUInt16 <<< 8) ||| l.toUInt16).toNat = 256 * h.toNat + l.toNat := by
  have hor := Nat.shiftLeft_add_eq_or_of_lt (i := 8) l.toNat_lt h.toNat
  rw [Nat.shiftLeft_eq] at hor
  have hshift : (h.toUInt16 <<< 8).toNat = h.toNat * 2 ^ 8 := by
    have hlt := h.toNat_lt
    have height : (8 : UInt16).toNat % 16 = 8 := rfl
    rw [UInt16.toNat_shiftLeft, Nat.shiftLeft_eq, UInt8.toNat_toUInt16, height]
    omega
  rw [UInt16.toNat_or, hshift, UInt8.toNat_toUInt16, ← hor]
  omega

end Numbers

/-- The bytes of the record are the number itself for the type of its stream. -/
def Plain (streamType : ValueType) (value : SensorValue) : Prop :=
  match streamType with
  | .typeU8 => value.mH = 0
  | .typeU16 => True
  | .typeS8 => value.mH = 0 ∧ value.mL < 128
  | .typeS16 => value.mH < 128
  | _ => False

/-- What is shown of a record is what is written of it exactly when its bytes are plain. -/
theorem sensorValue_eq_number_iff {streamType : ValueType} {value : SensorValue}
    {reading : Reading} (h : readingOf streamType value = some reading) :
    sensorValue value = reading.number ↔ Plain streamType value := by
  have hh := value.mH.toNat_lt
  have hl := value.mL.toNat_lt
  have hzero : value.mH = 0 ↔ value.mH.toNat = 0 := UInt8.toNat_inj.symm
  have hword := word_toNat value.mH value.mL
  cases streamType with
  | typeU8 =>
      cases h
      rw [sensorValue, Reading.number, Plain, hzero]
      omega
  | typeU16 =>
      cases h
      rw [sensorValue, Reading.number, Plain, hword]
      exact iff_of_true (by omega) trivial
  | typeS8 =>
      cases h
      rw [sensorValue, Reading.number, Plain, hzero, toInt8_toInt, UInt8.lt_iff_toNat_lt]
      have hbound : (128 : UInt8).toNat = 128 := rfl
      rw [hbound]
      split <;> omega
  | typeS16 =>
      cases h
      rw [sensorValue, Reading.number, Plain, toInt16_toInt, hword, UInt8.lt_iff_toNat_lt]
      have hbound : (128 : UInt8).toNat = 128 := rfl
      rw [hbound]
      split <;> omega
  | typeUnknown => cases h
  | typeU32 => cases h
  | typeU64 => cases h
  | typeS32 => cases h
  | typeS64 => cases h
  | typeF32 => cases h
  | typeF64 => cases h
  | typeData => cases h
  | typeString => cases h

/-- The user interface and the stream have the same number for a record exactly when its bytes are
plain. -/
theorem shown_eq_written_iff {fetch : ℕ → Option UInt8} {keyString : UInt8 → Option (List UInt8)}
    {unitString : UInt8 → String}
    {packetSize : ℕ} {currentTime : UInt64} {items : List UiItem} {written : Written}
    (hui : uiElement fetch keyString unitString = some items)
    (hstream : decoderWriteToStream fetch packetSize currentTime = some written) {k : ℕ}
    {item : UiItem} {v : Visit} {reading : Reading} (hitem : items[k + 3]? = some item)
    (hvisit : written.visits[k]? = some v) (hreading : v.reading = some reading) :
    ∃ value shown, readValue fetch (headerSize + k * valueSize) = some value ∧
      item.mValue = .reading shown (unitString value.mType) ∧
      (shown = reading.number ↔ Plain (getStreamType value.mType.toNat) value) := by
  obtain ⟨mLength, -, hlength, hitems⟩ := uiElement_spec hui
  obtain ⟨hid, lid, -, hvisits⟩ := decoderWriteToStream_spec hstream
  have hk : k < (numValues mLength).toNat := by
    have := (List.getElem?_eq_some_iff.mp hitem).1
    omega
  obtain ⟨value, item', hvalue, hshown, hat⟩ := hitems k hk
  obtain ⟨value', hvalue', hv⟩ := hvisits k (List.getElem?_eq_some_iff.mp hvisit).1
  rw [hvalue] at hvalue'
  cases hvalue'
  cases hitem.symm.trans hat
  obtain ⟨key, -, hshown⟩ := Option.bind_eq_some_iff.mp hshown
  cases hshown
  cases hvisit.symm.trans hv
  exact ⟨value, sensorValue value, hvalue, rfl, sensorValue_eq_number_iff hreading⟩

/-- A packet with one record, of the type `ID_TEMPERATURE`. -/
def temperaturePacket (mH mL : UInt8) : List UInt8 :=
  [6, 1, 0x8C, 0xCE, 0x4E, 0x50, 0xAF, 0x57, 1, mH, mL, 0]

/-- The items of such a packet, without the texts of the units. -/
def temperatureItems (mH mL : UInt8) : List UiItem :=
  [⟨bytesOf "Packet Length", .bytes 12⟩, ⟨bytesOf "Packet Version", .version 1⟩,
    ⟨bytesOf "Device MAC Address", .mac [0x8C, 0xCE, 0x4E, 0x50, 0xAF, 0x57]⟩,
    ⟨bytesOf "co", .reading (sensorValue ⟨1, mH, mL⟩) ""⟩]

/-- What such a packet writes. -/
def temperatureWritten (mH mL : UInt8) : Written :=
  ⟨0, temperaturePacket mH mL, [visit 0x504ECE8C 0xAF57 ⟨1, mH, mL⟩]⟩

/-- 55 degrees. -/
theorem shown_eq_written_iff_temperature :
    decoderBuildUiElement (fun i => (temperaturePacket 0 55)[i]?) (fun _ => "") =
        some (temperatureItems 0 55) ∧
      decoderWriteToStream (fun i => (temperaturePacket 0 55)[i]?) 12 0 =
        some (temperatureWritten 0 55) ∧
      ∃ item v reading, (temperatureItems 0 55)[0 + 3]? = some item ∧
        (temperatureWritten 0 55).visits[0]? = some v ∧ v.reading = some reading ∧
        ∃ value shown,
          readValue (fun i => (temperaturePacket 0 55)[i]?) (headerSize + 0 * valueSize) =
            some value ∧ item.mValue = .reading shown "" ∧
          (shown = reading.number ↔ Plain (getStreamType value.mType.toNat) value) := by
  have hui : decoderBuildUiElement (fun i => (temperaturePacket 0 55)[i]?) (fun _ => "") =
      some (temperatureItems 0 55) := by decide +kernel
  have hstream : decoderWriteToStream (fun i => (temperaturePacket 0 55)[i]?) 12 0 =
      some (temperatureWritten 0 55) := by decide +kernel
  exact ⟨hui, hstream, _, _, .writeS8 55, rfl, rfl, rfl,
    shown_eq_written_iff hui hstream rfl rfl rfl⟩

/-- Five degrees below zero are shown as 65531. -/
theorem shown_ne_written_temperature :
    ¬ ∀ (fetch : ℕ → Option UInt8) (unitString : UInt8 → String) (packetSize : ℕ)
      (currentTime : UInt64) (items : List UiItem) (written : Written) (k : ℕ) (item : UiItem)
      (v : Visit) (reading : Reading),
      decoderBuildUiElement fetch unitString = some items →
      decoderWriteToStream fetch packetSize currentTime = some written →
      items[k + 3]? = some item → written.visits[k]? = some v → v.reading = some reading →
      ∃ unit, item.mValue = .reading reading.number unit := by
  intro h
  have hui : decoderBuildUiElement (fun i => (temperaturePacket 255 251)[i]?) (fun _ => "") =
      some (temperatureItems 255 251) := by decide +kernel
  have hstream : decoderWriteToStream (fun i => (temperaturePacket 255 251)[i]?) 12 0 =
      some (temperatureWritten 255 251) := by decide +kernel
  obtain ⟨unit, hshown⟩ := h _ _ _ _ _ _ 0 _ _ (.writeS8 (-5)) hui hstream rfl rfl rfl
  cases hshown

end Sensor

end ConArtist
