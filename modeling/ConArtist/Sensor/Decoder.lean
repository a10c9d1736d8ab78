import ConArtist.UserTypes.Names

/-!
# The sensor packets

A packet has a header of 8 bytes, with its length in units of two bytes, and behind it records of
three bytes. The two decoders read it on their own: the one for the user interface takes the
number of records from the length byte, the one for the streams from the size of the buffer.

Positions are offsets into the buffer, and a byte that cannot be read is a fault, as is a key that
`to_key_string` looks up behind its tables. The texts of the units are a parameter. A stream id is
given by what it is registered for: `register_stream` and the calls that write are not here.
-/

namespace ConArtist

namespace Sensor

open UserTypes

/-- `sizeof(sensor_packet_t)`. -/
def headerSize : ℕ := 8

/-- `sizeof(sensor_value_t)`. -/
def valueSize : ℕ := 3

/-- `sensor_value_t`. -/
structure SensorValue where
  mType : UInt8
  mH : UInt8
  mL : UInt8
  deriving DecidableEq

/-- The text of an item of the user interface, by its format. -/
inductive UiText where
  | bytes (length : ℤ)
  | version (version : UInt8)
  | mac (bytes : List UInt8)
  | reading (sensorValue : ℤ) (unit : String)
  deriving DecidableEq

/-- `decoder_ui_text_item_t`. -/
structure UiItem where
  mKey : List UInt8
  mValue : UiText
  deriving DecidableEq

/-- What a stream is registered for. -/
structure Registration where
  hid : UInt32
  lid : UInt16
  streamType : ValueType
  userType : ℕ
  deriving DecidableEq

/-- The call that writes a reading. -/
inductive Reading where
  | writeU8 (value : UInt8)
  | writeU16 (value : UInt16)
  | writeS8 (value : Int8)
  | writeS16 (value : Int16)
  deriving DecidableEq

def Reading.number : Reading → ℤ
  | .writeU8 value => value.toNat
  | .writeU16 value => value.toNat
  | .writeS8 value => value.toInt
  | .writeS16 value => value.toInt

/-- What is done for a record: a registration, and a reading for the types that have one. -/
structure Visit where
  registration : Registration
  reading : Option Reading
  deriving DecidableEq

/-- What `decoder_write_to_stream` does: the packet is written as a whole, to a stream of its own,
and the records are visited. -/
structure Written where
  time : UInt64
  packet : List UInt8
  visits : List Visit
  deriving DecidableEq

section Fetch

variable (fetch : ℕ → Option UInt8)

def readValue (p : ℕ) : Option SensorValue := do
  let mType ← fetch p
  let mH ← fetch (p + 1)
  let mL ← fetch (p + 2)
  some ⟨mType, mH, mL⟩

def readBytes : ℕ → ℕ → Option (List UInt8)
  | _, 0 => some []
  | p, n + 1 => do
      let c ← fetch p
      let bytes ← readBytes (p + 1) n
      some (c :: bytes)

/-- `num_values`: the length less the header is a `size_t`. -/
def numValues (mLength : UInt8) : ℤ :=
  toInt (toSizeT (mLength.toNat * 2 - headerSize) / valueSize)

section Ui

variable (keyString : UInt8 → Option (List UInt8)) (unitString : UInt8 → String)

/-- `sensor_value`. Its scalar is always 1. -/
def sensorValue (value : SensorValue) : ℤ := 256 * value.mH.toNat + value.mL.toNat

def valueItem (value : SensorValue) : Option UiItem := do
  let key ← keyString value.mType
  some ⟨key, .reading (sensorValue value) (unitString value.mType)⟩

/-- The loop over the records. -/
def uiLoop : ℕ → ℕ → Option (List UiItem)
  | 0, _ => some []
  | n + 1, p => do
      let value ← readValue fetch p
      let item ← valueItem keyString unitString value
      let items ← uiLoop n (p + valueSize)
      some (item :: items)

/-- The items of a packet, by the keys of the types. -/
def uiElement : Option (List UiItem) := do
  let mLength ← fetch 0
  let mVersion ← fetch 1
  let mMac ← readBytes fetch 2 6
  let items ← uiLoop fetch keyString unitString (numValues mLength).toNat headerSize
  some (⟨bytesOf "Packet Length", .bytes (mLength.toNat * 2)⟩ ::
    ⟨bytesOf "Packet Version", .version mVersion⟩ ::
    ⟨bytesOf "Device MAC Address", .mac mMac⟩ :: items)

/-- `decoder_build_ui_element`: the items. -/
def decoderBuildUiElement : Option (List UiItem) :=
  uiElement fetch (fun type => toKeyString type.toNat) unitString

end Ui

/-- The reading of a record, by the type of its stream. -/
def readingOf (streamType : ValueType) (value : SensorValue) : Option Reading :=
  match streamType with
  | .typeU8 => some (.writeU8 value.mL)
  | .typeU16 => some (.writeU16 ((value.mH.toUInt16 <<< 8) ||| value.mL.toUInt16))
  | .typeS8 => some (.writeS8 value.mL.toInt8)
  | .typeS16 => some (.writeS16 ((value.mH.toUInt16 <<< 8) ||| value.mL.toUInt16).toInt16)
  | _ => none

/-- The body of the loop over the records. -/
def visit (hid : UInt32) (lid : UInt16) (value : SensorValue) : Visit :=
  let streamType := getStreamType value.mType.toNat
  ⟨⟨hid, lid, streamType, value.mType.toNat⟩, readingOf streamType value⟩

/-- The loop over the records, which the end of the buffer ends. -/
def streamLoop (hid : UInt32) (lid : UInt16) (packetSize p : ℕ) : Option (List Visit) :=
  if p + valueSize ≤ packetSize then
    match readValue fetch p with
    | none => none
    | some value =>
        (streamLoop hid lid packetSize (p + valueSize)).map (visit hid lid value :: ·)
  else some []
termination_by packetSize - p
decreasing_by
  simp only [valueSize] at *
  omega

/-- `decoder_write_to_stream`. -/
def decoderWriteToStream (packetSize : ℕ) (currentTime : UInt64) : Option Written := do
  let packet ← readBytes fetch 0 packetSize
  let mac0 ← fetch 2
  let mac1 ← fetch 3
  let mac2 ← fetch 4
  let mac3 ← fetch 5
  let mac4 ← fetch 6
  let mac5 ← fetch 7
  let hid := mac0.toUInt32 ||| (mac1.toUInt32 <<< 8) ||| (mac2.toUInt32 <<< 16) |||
    (mac3.toUInt32 <<< 24)
  let lid := (mac4.toUInt16 <<< 8) ||| mac5.toUInt16
  let visits ← streamLoop fetch hid lid packetSize headerSize
  some ⟨currentTime, packet, visits⟩

end Fetch

section Loops

variable {fetch : ℕ → Option UInt8} {keyString : UInt8 → Option (List UInt8)}
  {unitString : UInt8 → String}

theorem add_succ_mul (p k : ℕ) : p + (k + 1) * valueSize = p + valueSize + k * valueSize := by
  rw [Nat.succ_mul, Nat.add_comm (k * valueSize), Nat.add_assoc]

/-- The items of the records that the user interface reads, one behind the other. -/
theorem uiLoop_spec {n p : ℕ} {items : List UiItem}
    (h : uiLoop fetch keyString unitString n p = some items) :
    items.length = n ∧ ∀ k < n, ∃ value item, readValue fetch (p + k * valueSize) = some value ∧
      valueItem keyString unitString value = some item ∧ items[k]? = some item := by
  induction n generalizing p items with
  | zero =>
      cases h
      exact ⟨rfl, fun k hk => absurd hk (Nat.not_lt_zero k)⟩
  | succ n ih =>
      simp only [uiLoop, Option.bind_eq_bind, Option.bind_eq_some_iff] at h
      obtain ⟨value, hvalue, item, hitem, rest, hrest, h⟩ := h
      cases h
      obtain ⟨hlength, hitems⟩ := ih hrest
      refine ⟨by rw [List.length_cons, hlength], fun k hk => ?_⟩
      cases k with
      | zero => exact ⟨value, item, by rw [Nat.zero_mul, Nat.add_zero, hvalue], hitem, rfl⟩
      | succ k =>
          obtain ⟨value', item', hvalue', hitem', hat⟩ := hitems k (Nat.lt_of_succ_lt_succ hk)
          exact ⟨value', item', by rw [add_succ_mul, hvalue'], hitem', hat⟩

theorem streamLoop_spec {hid : UInt32} {lid : UInt16} {packetSize p : ℕ} {visits : List Visit}
    (h : streamLoop fetch hid lid packetSize p = some visits) :
    visits.length = (packetSize - p) / valueSize ∧
      ∀ k < visits.length, ∃ value, readValue fetch (p + k * valueSize) = some value ∧
        visits[k]? = some (visit hid lid value) := by
  induction p using streamLoop.induct fetch packetSize generalizing visits with
  | case1 p hle hnone =>
      rw [streamLoop, if_pos hle, hnone] at h
      cases h
  | case2 p hle value hvalue ih =>
      rw [streamLoop, if_pos hle, hvalue] at h
      simp only [Option.map_eq_some_iff] at h
      obtain ⟨rest, hrest, rfl⟩ := h
      obtain ⟨hlength, hvisits⟩ := ih hrest
      constructor
      · rw [List.length_cons, hlength]
        simp only [valueSize] at *
        omega
      · intro k hk
        cases k with
        | zero => exact ⟨value, by rw [Nat.zero_mul, Nat.add_zero, hvalue], rfl⟩
        | succ k =>
            obtain ⟨value', hvalue', hvisit⟩ := hvisits k (Nat.lt_of_succ_lt_succ hk)
            exact ⟨value', by rw [add_succ_mul, hvalue'], hvisit⟩
  | case3 p hgt =>
      rw [streamLoop, if_neg hgt] at h
      cases h
      constructor
      · simp only [valueSize, List.length_nil] at *
        omega
      · intro k hk
        cases hk

theorem uiElement_spec {items : List UiItem}
    (h : uiElement fetch keyString unitString = some items) :
    ∃ mLength, fetch 0 = some mLength ∧ items.length = (numValues mLength).toNat + 3 ∧
      ∀ k < (numValues mLength).toNat, ∃ value item,
        readValue fetch (headerSize + k * valueSize) = some value ∧
        valueItem keyString unitString value = some item ∧ items[k + 3]? = some item := by
  simp only [uiElement, Option.bind_eq_bind, Option.bind_eq_some_iff] at h
  obtain ⟨mLength, hmLength, mVersion, -, mMac, -, values, hvalues, h⟩ := h
  cases h
  obtain ⟨hlength, hitems⟩ := uiLoop_spec hvalues
  refine ⟨mLength, hmLength, ?_, fun k hk => ?_⟩
  · simp only [List.length_cons, hlength]
  · obtain ⟨value, item, hvalue, hitem, hat⟩ := hitems k hk
    exact ⟨value, item, hvalue, hitem, hat⟩

theorem decoderWriteToStream_spec {packetSize : ℕ} {currentTime : UInt64} {written : Written}
    (h : decoderWriteToStream fetch packetSize currentTime = some written) :
    ∃ hid lid, written.visits.length = (packetSize - headerSize) / valueSize ∧
      ∀ k < written.visits.length, ∃ value,
        readValue fetch (headerSize + k * valueSize) = some value ∧
        written.visits[k]? = some (visit hid lid value) := by
  simp only [decoderWriteToStream, Option.bind_eq_bind, Option.bind_eq_some_iff] at h
  obtain ⟨packet, -, mac0, -, mac1, -, mac2, -, mac3, -, mac4, -, mac5, -, visits, hvisits, h⟩ := h
  cases h
  exact ⟨_, _, streamLoop_spec hvisits⟩

end Loops

end Sensor

end ConArtist
