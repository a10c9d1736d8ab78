import ConArtist.UserTypes.FromString

/-!
# The names of the user types

`to_key_string` looks the number of a type up in an array of indices, and takes the key at that
index. The indices are no places in the table of the keys: they are the numbers of an enumeration
without its gaps. So most types have the key of another one, and the last type has none, as its
index is the length of the table.
-/

namespace ConArtist

namespace UserTypes

/-- `sUserTypeIndices`, entry by entry. The other entries of the array are zero. -/
def sUserTypeIndices : List (UserType × ℕ) :=
  [(.idBattery, 19), (.idCo, 6), (.idCo2, 7), (.idCurrent, 43), (.idDistance1, 32),
    (.idDistance2, 33), (.idDistance3, 34), (.idKWAh, 51), (.idEnergy, 45), (.idGasM3, 49),
    (.idHcho, 8), (.idHumidity, 2), (.idImage, 48), (.idJson, 47), (.idLight, 4), (.idNoise, 16),
    (.idNox, 10), (.idPerf1, 39), (.idPerf2, 40), (.idPerf3, 41), (.idPm005, 11), (.idPm010, 12),
    (.idPm100, 15), (.idPm025, 13), (.idPm040, 14), (.idPower, 44), (.idPresence1, 29),
    (.idPresence2, 30), (.idPresence3, 31), (.idPressure, 3), (.idPx, 35), (.idPy, 36),
    (.idPz, 37), (.idRssi, 38), (.idSensor, 46), (.idState, 18), (.idSwitch1, 21),
    (.idSwitch2, 22), (.idSwitch3, 23), (.idSwitch4, 24), (.idSwitch5, 25), (.idSwitch6, 26),
    (.idSwitch7, 27), (.idSwitch8, 28), (.idTemperature, 1), (.idUnknown, 0), (.idUv, 5),
    (.idVibration, 17), (.idVoc, 9), (.idVoltage, 42), (.idWaterM3, 50)]

/-- `sUserTypeIndices[type]`. The array ends behind the last number of the enumeration. -/
def userTypeIndex (type : ℕ) : Option ℕ :=
  if type < idCount then
    some (((sUserTypeIndices.find? fun e => e.1.number = type).map Prod.snd).getD 0)
  else none

/-- `to_key_string`. There is no key behind the end of the table. -/
def toKeyString (type : ℕ) : Option (List UInt8) := do
  let index ← userTypeIndex type
  if index < idCount then sUserTypeKeyStrings[index]? else some (bytesOf "unknown")

/-- The key of a type, by the tables that `from_string` reads. -/
def keyOf (type : ℕ) : Option (List UInt8) :=
  ((sUserTypeTypes.zip sUserTypeKeyStrings).find? fun e => e.1.number = type).map Prod.snd

theorem userTypeIndex_of_le {type : ℕ} (h : idCount ≤ type) : userTypeIndex type = none :=
  if_neg (Nat.not_lt.mpr h)

theorem userTypeIndex_lt_iff {type : ℕ} (h : type < idCount) :
    ∃ index, userTypeIndex type = some index ∧ index < idCount ∧ (index < 51 ↔ type < 74) := by
  have hall : ∀ type < idCount, ∃ index < idCount,
      userTypeIndex type = some index ∧ (index < 51 ↔ type < 74) := by
    decide +kernel
  obtain ⟨index, hindex, heq, hiff⟩ := hall type h
  exact ⟨index, heq, hindex, hiff⟩

/-- A key is read from the table exactly when the type is below the last one. -/
theorem toKeyString_isSome_iff (type : ℕ) : (toKeyString type).isSome ↔ type < 74 := by
  have hcount : idCount = 75 := rfl
  have hlength : sUserTypeKeyStrings.length = 51 := rfl
  by_cases hlt : type < idCount
  · obtain ⟨index, heq, hindex, hiff⟩ := userTypeIndex_lt_iff hlt
    rw [toKeyString, heq, Option.bind_eq_bind, Option.bind_some, if_pos hindex, isSome_getElem?,
      hlength]
    exact hiff
  · rw [toKeyString, userTypeIndex_of_le (Nat.not_lt.mp hlt)]
    exact iff_of_false Bool.false_ne_true (by omega)

theorem toKeyString_eq_keyOf_iff {type : ℕ} (h : type < 74) :
    toKeyString type = keyOf type ↔ type = UserType.idWaterM3.number := by
  have hall : ∀ type < 74, toKeyString type = keyOf type ↔ type = 73 := by
    decide +kernel
  exact hall type h

/-- A temperature is named as carbon monoxide. -/
example : toKeyString UserType.idTemperature.number = some (bytesOf "co") := by decide

/-- Of a key `from_string` gives the type, or it reads behind the table. -/
theorem fromString_of_key {i : ℕ} {key : List UInt8} (h : sUserTypeKeyStrings[i]? = some key) :
    i ≤ 37 ∧ fromString key = sUserTypeTypes[i]? ∨ fromString key = none := by
  have hmem : key ∈ sUserTypeKeyStrings := List.mem_of_getElem? h
  have hstr : 0 ∉ key := by
    have hall : ∀ k ∈ sUserTypeKeyStrings, 0 ∉ k := by
      decide +kernel
    exact hall key hmem
  have hself : compared key = key := compared_of_mem hmem
  by_cases hfirst : Below (compared key) firstKey ∨ compared key = firstKey
  · refine .inl ⟨?_, (fromString_spec hstr hfirst).1 i (hself.symm ▸ h)⟩
    rw [hself] at hfirst
    rcases hfirst with hbelow | rfl
    · exact Nat.le_of_lt (index_of_below h hbelow)
    · exact Nat.le_of_eq (index_unique h firstKey_getElem?)
  · exact .inr (fromString_eq_none hstr hfirst)

theorem fromString_toKeyString_ne (type : UserType) :
    (toKeyString type.number).bind fromString ≠ some type := by
  intro h
  obtain ⟨key, hkey, htype⟩ := Option.bind_eq_some_iff.mp h
  obtain ⟨index, hindex, hkey⟩ := Option.bind_eq_some_iff.mp hkey
  split at hkey
  case isTrue hlt =>
      rcases fromString_of_key hkey with ⟨hle, heq⟩ | hnone
      · have hother : ∀ i, userTypeIndex type.number = some i → i ≤ 37 →
            sUserTypeTypes[i]? ≠ some type := by
          rintro i hi
          cases type <;> cases hi <;> decide
        exact hother index hindex hle (heq.symm.trans htype)
      · cases hnone.symm.trans htype
  case isFalse hge =>
      have hcount : type.number < idCount := by
        cases type <;> decide
      obtain ⟨index', hindex', hlt, -⟩ := userTypeIndex_lt_iff hcount
      exact hge (Option.some.inj (hindex'.symm.trans hindex) ▸ hlt)

end UserTypes

end ConArtist
