import ConArtist.Sensor.Bounds

/-!
# The labels of the readings

`decoder_build_ui_element` shows each record under the key that `to_key_string` gives for its type,
whatever byte the type is. It has no result where a key is looked up behind the tables.
-/

namespace ConArtist

namespace Sensor

open UserTypes

section Keys

variable {fetch : ℕ → Option UInt8} {keyString : UInt8 → Option (List UInt8)}
  {unitString : UInt8 → String} {n p : ℕ}

/-- The loop comes to its end when the records can be read and their types have keys. -/
theorem uiLoop_isSome_iff (anyKey : UInt8 → List UInt8) :
    (uiLoop fetch keyString unitString n p).isSome ↔
      (uiLoop fetch (fun type => some (anyKey type)) unitString n p).isSome ∧
      ∀ k < n, ∀ value, readValue fetch (p + k * valueSize) = some value →
        (keyString value.mType).isSome := by
  induction n generalizing p with
  | zero => exact iff_of_true rfl ⟨rfl, fun k hk => absurd hk (Nat.not_lt_zero k)⟩
  | succ n ih =>
      cases hvalue : readValue fetch p with
      | none => simp [uiLoop, hvalue]
      | some value =>
          have hany : (uiLoop fetch (fun type => some (anyKey type)) unitString (n + 1) p).isSome ↔
              (uiLoop fetch (fun type => some (anyKey type)) unitString n
                (p + valueSize)).isSome := by
            rw [uiLoop, hvalue]
            cases uiLoop fetch (fun type => some (anyKey type)) unitString n (p + valueSize) <;> rfl
          have hloop : (uiLoop fetch keyString unitString (n + 1) p).isSome ↔
              (keyString value.mType).isSome ∧
                (uiLoop fetch keyString unitString n (p + valueSize)).isSome := by
            rw [uiLoop, hvalue, Option.bind_eq_bind, Option.bind_some, valueItem]
            cases keyString value.mType <;>
              cases uiLoop fetch keyString unitString n (p + valueSize) <;> simp
          rw [hloop, ih, hany]
          constructor
          · rintro ⟨hkey, hread, hrest⟩
            refine ⟨hread, fun k hk value' hvalue' => ?_⟩
            cases k with
            | zero =>
                rw [Nat.zero_mul, Nat.add_zero, hvalue] at hvalue'
                cases hvalue'
                exact hkey
            | succ k =>
                rw [add_succ_mul] at hvalue'
                exact hrest k (Nat.lt_of_succ_lt_succ hk) value' hvalue'
          · rintro ⟨hread, hall⟩
            refine ⟨hall 0 (Nat.succ_pos n) value ?_, hread, fun k hk value' hvalue' => ?_⟩
            · rw [Nat.zero_mul, Nat.add_zero, hvalue]
            · refine hall (k + 1) (Nat.succ_lt_succ hk) value' ?_
              rw [add_succ_mul]
              exact hvalue'

theorem uiElement_isSome_iff (anyKey : UInt8 → List UInt8) :
    (uiElement fetch keyString unitString).isSome ↔
      ∃ items, uiElement fetch (fun type => some (anyKey type)) unitString = some items ∧
        ∀ k < items.length - 3, ∀ value,
          readValue fetch (headerSize + k * valueSize) = some value →
            (keyString value.mType).isSome := by
  constructor
  · intro h
    obtain ⟨items, hitems⟩ := Option.isSome_iff_exists.mp h
    simp only [uiElement, Option.bind_eq_bind, Option.bind_eq_some_iff] at hitems
    obtain ⟨mLength, hmLength, mVersion, hmVersion, mMac, hmMac, values, hloop, -⟩ := hitems
    have hsome : (uiLoop fetch keyString unitString (numValues mLength).toNat
        headerSize).isSome := by
      rw [hloop]
      rfl
    obtain ⟨hread, hall⟩ := (uiLoop_isSome_iff anyKey).mp hsome
    obtain ⟨values', hvalues⟩ := Option.isSome_iff_exists.mp hread
    have hbuild : (uiElement fetch (fun type => some (anyKey type)) unitString).isSome := by
      simp only [uiElement, Option.bind_eq_bind, Option.isSome_iff_exists, Option.bind_eq_some_iff]
      exact ⟨_, mLength, hmLength, mVersion, hmVersion, mMac, hmMac, values', hvalues, rfl⟩
    obtain ⟨items, hitems⟩ := Option.isSome_iff_exists.mp hbuild
    obtain ⟨mLength', hmLength', hlength, -⟩ := uiElement_spec hitems
    obtain rfl : mLength' = mLength := Option.some.inj (hmLength'.symm.trans hmLength)
    refine ⟨items, hitems, fun k hk => hall k ?_⟩
    rwa [hlength, Nat.add_sub_cancel] at hk
  · rintro ⟨items, hitems, hall⟩
    obtain ⟨mLength', hmLength', hlength, -⟩ := uiElement_spec hitems
    simp only [uiElement, Option.bind_eq_bind, Option.bind_eq_some_iff] at hitems
    obtain ⟨mLength, hmLength, mVersion, hmVersion, mMac, hmMac, values, hvalues, -⟩ := hitems
    obtain rfl : mLength' = mLength := Option.some.inj (hmLength'.symm.trans hmLength)
    rw [hlength, Nat.add_sub_cancel] at hall
    have hread : (uiLoop fetch (fun type => some (anyKey type)) unitString
        (numValues mLength').toNat headerSize).isSome := by
      rw [hvalues]
      rfl
    obtain ⟨shown, hshown⟩ := Option.isSome_iff_exists.mp
      ((uiLoop_isSome_iff anyKey).mpr ⟨hread, hall⟩)
    simp only [uiElement, Option.bind_eq_bind, Option.isSome_iff_exists, Option.bind_eq_some_iff]
    exact ⟨_, mLength', hmLength, mVersion, hmVersion, mMac, hmMac, shown, hshown, rfl⟩

end Keys

/-- The records of a packet are shown exactly when the packet holds them and their types are below
the last one. Each is shown under the key of its own type exactly when it is of the water meter,
and from no key that is shown can the type be read back. -/
theorem labels_own_iff (data : List UInt8) (anyKey : UInt8 → List UInt8)
    (unitString : UInt8 → String) :
    ((decoderBuildUiElement (fun i => data[i]?) unitString).isSome ↔
      ∃ items, uiElement (fun i => data[i]?) (fun type => some (anyKey type)) unitString =
          some items ∧
        ∀ k < items.length - 3, ∀ value,
          readValue (fun i => data[i]?) (headerSize + k * valueSize) = some value →
            value.mType.toNat < 74) ∧
    ∀ items, decoderBuildUiElement (fun i => data[i]?) unitString = some items →
      ∀ k < items.length - 3, ∃ value key,
        readValue (fun i => data[i]?) (headerSize + k * valueSize) = some value ∧
        items[k + 3]? = some ⟨key, .reading (sensorValue value) (unitString value.mType)⟩ ∧
        (keyOf value.mType.toNat = some key ↔
          value.mType.toNat = UserType.idWaterM3.number) ∧
        ∀ type : UserType, type.number = value.mType.toNat → fromString key ≠ some type := by
  constructor
  · rw [decoderBuildUiElement, uiElement_isSome_iff anyKey]
    simp only [toKeyString_isSome_iff]
  · intro items hitems k hk
    obtain ⟨mLength, -, hlength, hspec⟩ := uiElement_spec hitems
    obtain ⟨value, item, hvalue, hitem, hat⟩ := hspec k (by omega)
    obtain ⟨key, hname, hshown⟩ := Option.bind_eq_some_iff.mp hitem
    cases hshown
    have hkey : toKeyString value.mType.toNat = some key := hname
    have hlt : value.mType.toNat < 74 := by
      rw [← toKeyString_isSome_iff, hkey]
      rfl
    refine ⟨value, key, hvalue, hat, ?_, fun type htype hback => ?_⟩
    · rw [← toKeyString_eq_keyOf_iff hlt, hkey]
      exact eq_comm
    · refine fromString_toKeyString_ne type ?_
      rw [htype, hkey]
      exact hback

end Sensor

end ConArtist
