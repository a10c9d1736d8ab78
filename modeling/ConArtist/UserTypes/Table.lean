import Mathlib.Data.List.Basic

/-!
# The user types

The enumeration of the user types, and the tables over it. The table of key strings and that of
the types have an entry for each type that is in use; the numbers of the enumeration have gaps,
so that `ID_COUNT` is more than the length of these tables.
-/

namespace ConArtist

namespace UserTypes

/-- `ndata::enum_t`. -/
inductive UserType where
  | idUnknown | idTemperature | idHumidity | idPressure | idLight | idUv | idCo | idCo2 | idHcho
  | idVoc | idNox | idPm005 | idPm010 | idPm025 | idPm040 | idPm100 | idNoise | idVibration
  | idState | idBattery | idSwitch1 | idSwitch2 | idSwitch3 | idSwitch4 | idSwitch5 | idSwitch6
  | idSwitch7 | idSwitch8 | idSwitch9 | idPresence1 | idPresence2 | idPresence3 | idDistance1
  | idDistance2 | idDistance3 | idPx | idPy | idPz | idRssi | idPerf1 | idPerf2 | idPerf3
  | idVoltage | idCurrent | idPower | idEnergy | idSensor | idJson | idImage | idGasM3
  | idWaterM3 | idKWAh
  deriving DecidableEq

/-- The numbers of the enumeration. -/
def UserType.number : UserType → ℕ
  | .idUnknown => 0
  | .idTemperature => 1
  | .idHumidity => 2
  | .idPressure => 3
  | .idLight => 4
  | .idUv => 5
  | .idCo => 6
  | .idCo2 => 7
  | .idHcho => 8
  | .idVoc => 9
  | .idNox => 10
  | .idPm005 => 11
  | .idPm010 => 12
  | .idPm025 => 13
  | .idPm040 => 14
  | .idPm100 => 15
  | .idNoise => 16
  | .idVibration => 17
  | .idState => 18
  | .idBattery => 19
  | .idSwitch1 => 21
  | .idSwitch2 => 22
  | .idSwitch3 => 23
  | .idSwitch4 => 24
  | .idSwitch5 => 25
  | .idSwitch6 => 26
  | .idSwitch7 => 27
  | .idSwitch8 => 28
  | .idSwitch9 => 29
  | .idPresence1 => 51
  | .idPresence2 => 52
  | .idPresence3 => 53
  | .idDistance1 => 54
  | .idDistance2 => 55
  | .idDistance3 => 56
  | .idPx => 57
  | .idPy => 58
  | .idPz => 59
  | .idRssi => 60
  | .idPerf1 => 61
  | .idPerf2 => 62
  | .idPerf3 => 63
  | .idVoltage => 65
  | .idCurrent => 66
  | .idPower => 67
  | .idEnergy => 68
  | .idSensor => 69
  | .idJson => 70
  | .idImage => 71
  | .idGasM3 => 72
  | .idWaterM3 => 73
  | .idKWAh => 74

def idCount : ℕ := 75

/-- `nvalue::enum_t`. -/
inductive ValueType where
  | typeUnknown | typeU8 | typeU16 | typeU32 | typeU64 | typeS8 | typeS16 | typeS32 | typeS64
  | typeF32 | typeF64 | typeData | typeString
  deriving DecidableEq

/-- The bytes of a string literal, up to its NUL. -/
def bytesOf (s : String) : List UInt8 := s.toUTF8.data.toList

/-- `sUserTypeKeyStrings`. -/
def sUserTypeKeyStrings : List (List UInt8) :=
  ["battery", "co", "co2", "current", "distance1", "distance2", "distance3", "electricity_meter",
    "energy", "gas_meter", "hcho", "humidity", "image", "json", "light", "noise", "nox", "perf1",
    "perf2", "perf3", "pm0.5", "pm1.0", "pm10.0", "pm2.5", "pm4.0", "power", "presence1",
    "presence2", "presence3", "pressure", "px", "py", "pz", "rssi", "sensor", "state", "switch1",
    "switch2", "switch3", "switch4", "switch5", "switch6", "switch7", "switch8", "temperature",
    "unknown", "uv", "vibration", "voc", "voltage", "water_meter"].map bytesOf

/-- `sUserTypeTypes`. -/
def sUserTypeTypes : List UserType :=
  [.idBattery, .idCo, .idCo2, .idCurrent, .idDistance1, .idDistance2, .idDistance3, .idKWAh,
    .idEnergy, .idGasM3, .idHcho, .idHumidity, .idImage, .idJson, .idLight, .idNoise, .idNox,
    .idPerf1, .idPerf2, .idPerf3, .idPm005, .idPm010, .idPm100, .idPm025, .idPm040, .idPower,
    .idPresence1, .idPresence2, .idPresence3, .idPressure, .idPx, .idPy, .idPz, .idRssi,
    .idSensor, .idState, .idSwitch1, .idSwitch2, .idSwitch3, .idSwitch4, .idSwitch5, .idSwitch6,
    .idSwitch7, .idSwitch8, .idTemperature, .idUnknown, .idUv, .idVibration, .idVoc, .idVoltage,
    .idWaterM3]

/-- `sDataTypeToValueType`, entry by entry. The other entries of the array are zero, which is
`TypeUnknown`. -/
def sDataTypeToValueType : List (UserType × ValueType) :=
  [(.idUnknown, .typeUnknown), (.idTemperature, .typeS8), (.idHumidity, .typeU8),
    (.idPressure, .typeU16), (.idLight, .typeU16), (.idUv, .typeU8), (.idCo, .typeU16),
    (.idCo2, .typeU16), (.idHcho, .typeU16), (.idVoc, .typeU16), (.idNox, .typeU16),
    (.idPm005, .typeU8), (.idPm010, .typeU8), (.idPm025, .typeU8), (.idPm040, .typeU8),
    (.idPm100, .typeU8), (.idNoise, .typeU8), (.idVibration, .typeF32), (.idState, .typeU8),
    (.idSwitch1, .typeU8), (.idSwitch2, .typeU8), (.idSwitch3, .typeU8), (.idSwitch4, .typeU8),
    (.idSwitch5, .typeU8), (.idSwitch6, .typeU8), (.idSwitch7, .typeU8), (.idSwitch8, .typeU8),
    (.idPresence1, .typeU8), (.idPresence2, .typeU8), (.idPresence3, .typeU8),
    (.idDistance1, .typeU8), (.idDistance2, .typeU8), (.idDistance3, .typeU8), (.idPx, .typeU16),
    (.idPy, .typeU16), (.idPz, .typeU16), (.idRssi, .typeS8), (.idBattery, .typeU8),
    (.idPerf1, .typeU16), (.idPerf2, .typeU16), (.idPerf3, .typeU16), (.idVoltage, .typeU8),
    (.idCurrent, .typeU8), (.idPower, .typeF32), (.idEnergy, .typeF64), (.idSensor, .typeData),
    (.idJson, .typeData), (.idImage, .typeData), (.idGasM3, .typeF64), (.idWaterM3, .typeF64),
    (.idKWAh, .typeF64)]

/-- `get_stream_type`. The number need not be one of the enumeration. -/
def getStreamType (type : ℕ) : ValueType :=
  if type < idCount then
    ((sDataTypeToValueType.find? fun entry => entry.1.number = type).map Prod.snd).getD
      .typeUnknown
  else .typeUnknown

end UserTypes

end ConArtist
