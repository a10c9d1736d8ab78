import ConArtist.Sensor.Decoder

/-!
# The bounds of a sensor packet

Neither decoder asks whether there is a header, and the one for the user interface takes the
length byte as it is. A length of less than 8 bytes wraps around as a `size_t`, and a third of it
is still more than 1431655761 as an `int`. This is about the bytes of the packet: all types have
keys here, whatever they are.
-/

namespace ConArtist

namespace Sensor

open UserTypes

/-- What is received. Its size is an `unsigned int`. -/
abbrev Buffer : Type := { data : List UInt8 // data.length < 4294967296 }

section Reads

variable (data : List UInt8)

theorem readValue_isSome (p : ℕ) :
    (readValue (fun i => data[i]?) p).isSome = true ↔ p + valueSize ≤ data.length := by
  simp only [readValue, Option.bind_eq_bind, Option.isSome_iff_exists, Option.bind_eq_some_iff,
    valueSize]
  constructor
  · rintro ⟨value, mType, -, mH, -, mL, hmL, -⟩
    exact (List.getElem?_eq_some_iff.mp hmL).1
  · intro hle
    exact ⟨_, _, List.getElem?_eq_getElem (by omega), _, List.getElem?_eq_getElem (by omega), _,
      List.getElem?_eq_getElem (by omega), rfl⟩

theorem readBytes_isSome (p n : ℕ) :
    (readBytes (fun i => data[i]?) p n).isSome = true ↔ n = 0 ∨ p + n ≤ data.length := by
  induction n generalizing p with
  | zero => exact iff_of_true rfl (.inl rfl)
  | succ n ih =>
      have hrest := ih (p + 1)
      simp only [readBytes, Option.bind_eq_bind, Option.isSome_iff_exists, Option.bind_eq_some_iff]
        at hrest ⊢
      constructor
      · rintro ⟨bytes, c, hc, rest, hrest', -⟩
        have hlt := (List.getElem?_eq_some_iff.mp hc).1
        have := hrest.mp ⟨rest, hrest'⟩
        omega
      · intro hle
        obtain ⟨rest, hrest'⟩ := hrest.mpr (by omega)
        exact ⟨_, _, List.getElem?_eq_getElem (by omega), rest, hrest', rfl⟩

variable (keyString : UInt8 → List UInt8) (unitString : UInt8 → String)

theorem uiLoop_isSome (p n : ℕ) :
    (uiLoop (fun i => data[i]?) (fun type => some (keyString type)) unitString n p).isSome = true ↔
      n = 0 ∨ p + n * valueSize ≤ data.length := by
  induction n generalizing p with
  | zero => exact iff_of_true rfl (.inl rfl)
  | succ n ih =>
      have hrest := ih (p + valueSize)
      have hvalue := readValue_isSome data p
      simp only [uiLoop, Option.bind_eq_bind, Option.isSome_iff_exists, Option.bind_eq_some_iff]
        at hrest hvalue ⊢
      rw [add_succ_mul]
      constructor
      · rintro ⟨items, value, hvalue', item, -, rest, hrest', -⟩
        have := hvalue.mp ⟨value, hvalue'⟩
        have := hrest.mp ⟨rest, hrest'⟩
        simp only [valueSize] at *
        omega
      · intro hle
        simp only [valueSize] at *
        obtain ⟨value, hvalue'⟩ := hvalue.mpr (by omega)
        obtain ⟨rest, hrest'⟩ := hrest.mpr (by omega)
        exact ⟨_, value, hvalue', _, rfl, rest, hrest', rfl⟩

theorem streamLoop_isSome (hid : UInt32) (lid : UInt16) (p : ℕ) :
    (streamLoop (fun i => data[i]?) hid lid data.length p).isSome = true := by
  induction p using streamLoop.induct (fun i => data[i]?) data.length with
  | case1 p hle hnone =>
      have hsome := (readValue_isSome data p).mpr hle
      rw [hnone] at hsome
      cases hsome
  | case2 p hle value hvalue ih =>
      rw [streamLoop, if_pos hle, hvalue]
      simpa using ih
  | case3 p hgt =>
      rw [streamLoop, if_neg hgt]
      rfl

/-- The user interface reads the header, and the records that the length byte says. -/
theorem uiElement_isSome :
    (uiElement (fun i => data[i]?) (fun type => some (keyString type)) unitString).isSome = true ↔
      headerSize ≤ data.length ∧ ∃ mLength, data[0]? = some mLength ∧
        ((numValues mLength).toNat = 0 ∨
          headerSize + (numValues mLength).toNat * valueSize ≤ data.length) := by
  have hmac := readBytes_isSome data 2 6
  simp only [uiElement, Option.bind_eq_bind, Option.isSome_iff_exists,
    Option.bind_eq_some_iff, headerSize] at hmac ⊢
  constructor
  · rintro ⟨items, mLength, hmLength, mVersion, -, mMac, hmMac, values, hvalues, -⟩
    have hsize := hmac.mp ⟨mMac, hmMac⟩
    refine ⟨by omega, mLength, hmLength, ?_⟩
    rw [← uiLoop_isSome data keyString unitString, hvalues]
    rfl
  · rintro ⟨hsize, mLength, hmLength, hvalues⟩
    obtain ⟨mMac, hmMac⟩ := hmac.mpr (.inr hsize)
    obtain ⟨values, hvalues'⟩ := Option.isSome_iff_exists.mp
      ((uiLoop_isSome data keyString unitString _ _).mpr hvalues)
    exact ⟨_, mLength, hmLength, _, List.getElem?_eq_getElem (by omega), mMac, hmMac, values,
      hvalues', rfl⟩

theorem decoderWriteToStream_isSome (currentTime : UInt64) :
    (decoderWriteToStream (fun i => data[i]?) data.length currentTime).isSome = true ↔
      headerSize ≤ data.length := by
  have hpacket := (readBytes_isSome data 0 data.length).mpr (.inr (by omega))
  obtain ⟨packet, hpacket'⟩ := Option.isSome_iff_exists.mp hpacket
  simp only [decoderWriteToStream, Option.bind_eq_bind, Option.isSome_iff_exists,
    Option.bind_eq_some_iff, headerSize]
  constructor
  · rintro ⟨written, -, -, mac0, -, mac1, -, mac2, -, mac3, -, mac4, -, mac5, hmac5, -⟩
    exact (List.getElem?_eq_some_iff.mp hmac5).1
  · intro hsize
    obtain ⟨visits, hvisits⟩ := Option.isSome_iff_exists.mp
      (streamLoop_isSome data _ _ 8)
    exact ⟨_, packet, hpacket', _, List.getElem?_eq_getElem (by omega), _,
      List.getElem?_eq_getElem (by omega), _, List.getElem?_eq_getElem (by omega), _,
      List.getElem?_eq_getElem (by omega), _, List.getElem?_eq_getElem (by omega), _,
      List.getElem?_eq_getElem (by omega), visits, hvisits, rfl⟩

end Reads

theorem numValues_of_lt (mLength : UInt8) (h : mLength.toNat < 4) :
    1431655762 ≤ numValues mLength ∧ (numValues mLength = 1431655762 ↔ mLength = 0) := by
  have hall : ∀ n < 4, 1431655762 ≤ numValues (UInt8.ofNat n) ∧
      (numValues (UInt8.ofNat n) = 1431655762 ↔ UInt8.ofNat n = 0) := by decide +kernel
  simpa using hall mLength.toNat h

theorem numValues_of_le {mLength : UInt8} (h : 4 ≤ mLength.toNat) :
    numValues mLength = ((2 * mLength.toNat - 8) / 3 : ℕ) := by
  have hlt := mLength.toNat_lt
  have hsize : toSizeT (mLength.toNat * 2 - headerSize) = 2 * mLength.toNat - 8 := by
    simp only [toSizeT, headerSize]
    omega
  rw [numValues, hsize, valueSize, toInt_of_lt (by omega)]

/-- Both decoders stay in the buffer, whatever keys the types have, and the number of values is one
that fits. -/
structure Inside (data : Buffer) (keyString : UInt8 → List UInt8) (unitString : UInt8 → String)
    (currentTime : UInt64) : Prop where
  ui : (uiElement (fun i => data.val[i]?) (fun type => some (keyString type))
    unitString).isSome = true
  stream :
    (decoderWriteToStream (fun i => data.val[i]?) data.val.length currentTime).isSome = true
  count : ∀ mLength, data.val[0]? = some mLength →
    0 ≤ numValues mLength ∧ numValues mLength ≤ ((data.val.length : ℤ) - 8) / 3

/-- The decoders are inside exactly for a packet with a header whose length byte is that of a
packet that fits. The length 0 fits as well, in a buffer of `2 ^ 32 - 2` bytes or more. -/
theorem inside_iff (data : Buffer) (keyString : UInt8 → List UInt8) (unitString : UInt8 → String)
    (currentTime : UInt64) : Inside data keyString unitString currentTime ↔
      8 ≤ data.val.length ∧ ∃ mLength, data.val[0]? = some mLength ∧
        (4 ≤ mLength.toNat ∧ (2 * mLength.toNat - 8) / 3 ≤ (data.val.length - 8) / 3 ∨
          mLength = 0 ∧ 4294967294 ≤ data.val.length) := by
  have hbuffer := data.property
  have hfits : ∀ mLength : UInt8, 8 ≤ data.val.length →
      (0 ≤ numValues mLength ∧ numValues mLength ≤ ((data.val.length : ℤ) - 8) / 3 ↔
        4 ≤ mLength.toNat ∧ (2 * mLength.toNat - 8) / 3 ≤ (data.val.length - 8) / 3 ∨
          mLength = 0 ∧ 4294967294 ≤ data.val.length) := by
    intro mLength hsize
    by_cases hlong : 4 ≤ mLength.toNat
    · have hne : mLength ≠ 0 := by
        rintro rfl
        exact absurd hlong (by decide)
      rw [numValues_of_le hlong]
      simp only [hlong, hne, true_and, false_and, or_false]
      omega
    · obtain ⟨hmany, hzero⟩ := numValues_of_lt mLength (Nat.lt_of_not_le hlong)
      rw [← hzero]
      omega
  constructor
  · intro h
    have hsize := (decoderWriteToStream_isSome data.val currentTime).mp h.stream
    rw [headerSize] at hsize
    refine ⟨hsize, data.val[0], List.getElem?_eq_getElem (by omega), ?_⟩
    exact (hfits _ hsize).mp (h.count _ (List.getElem?_eq_getElem (by omega)))
  · rintro ⟨hsize, mLength, hmLength, hlength⟩
    obtain ⟨hnonneg, hle⟩ := (hfits mLength hsize).mpr hlength
    constructor
    · rw [uiElement_isSome, headerSize, valueSize]
      exact ⟨hsize, mLength, hmLength, .inr (by omega)⟩
    · exact (decoderWriteToStream_isSome data.val currentTime).mpr hsize
    · intro mLength' hmLength'
      cases hmLength.symm.trans hmLength'
      exact ⟨hnonneg, hle⟩

/-- A header with the length 0 is read for 1431655762 records. -/
theorem not_inside_zero : ¬ ∀ (data : Buffer) (keyString : UInt8 → List UInt8)
    (unitString : UInt8 → String) (currentTime : UInt64),
      Inside data keyString unitString currentTime := by
  intro h
  have hinside := h ⟨List.replicate 8 0, by decide⟩ (fun _ => []) (fun _ => "") 0
  have hle : numValues 0 ≤ ((8 : ℤ) - 8) / 3 := (hinside.count 0 rfl).2
  have hmany := (numValues_of_lt 0 (by decide)).1
  omega

end Sensor

end ConArtist
