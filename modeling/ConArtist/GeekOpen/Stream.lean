import ConArtist.GeekOpen.Spans
import ConArtist.UserTypes.FromString

/-!
# The GeekOpen decoder

`decoder_write_to_stream` over a memory in which the packet stands at 0 and anything behind it.
What it writes to the stream is a list. The conversions of numbers are parameters; they read from
a position of the memory on.
-/

namespace ConArtist

namespace GeekOpen

open UserTypes

/-- The calls of the stream, each with its stream id and its time. `α` is `float` and `β` is
`double`. -/
inductive Write (α β : Type*) where
  | fixData (streamId time : UInt64) (data : List UInt8)
  | u8 (streamId time : UInt64) (value : UInt8)
  | f32 (streamId time : UInt64) (value : α)
  | f64 (streamId time : UInt64) (value : β)

/-- The array on the stack, with what is in it before the call. -/
abbrev PropertyArray : Type := { properties : List Property // properties.length = 64 }

def zeroArray : PropertyArray := ⟨List.replicate 64 ⟨0, 0, 0, 0⟩, rfl⟩

/-- A length as a `uint32_t`. -/
def toUint32 (n : ℕ) : ℕ := n % 4294967296

/-- `ID_SWITCH`, the type of switch 1. -/
def idSwitch : ℕ := UserType.idSwitch1.number

/-- `(user_id << 16) | type`. -/
def streamId (userId : UInt64) (type : ℕ) : UInt64 := (userId <<< 16) ||| UInt64.ofNat type

section Decoder

variable (memory : ℕ → UInt8)

/-- The bytes of the memory from a position on. -/
def bytesAt (p n : ℕ) : List UInt8 := (List.range n).map fun i => memory (p + i)

/-- The test of a key: `key_len == n && strncmp(key_begin, name, n) == 0`. -/
def keyIs (name : List UInt8) (property : Property) : Bool :=
  toUint32 (property.keyEnd - property.keyBegin) = name.length &&
    strncmp (bytesAt memory property.keyBegin name.length) name name.length = 0

/-- An iteration of the loop over the value of `mac`. -/
def macStep (userId : UInt64) (c : UInt8) : UInt64 :=
  let userId := userId <<< 4
  if 0x30 ≤ c ∧ c ≤ 0x39 then userId ||| (c - 0x30).toUInt64
  else if 0x41 ≤ c ∧ c ≤ 0x46 then userId ||| (c - 0x41 + 10).toUInt64
  else if 0x61 ≤ c ∧ c ≤ 0x66 then userId ||| (c - 0x61 + 10).toUInt64
  else userId

/-- The user id of a property `mac`. The bytes begin behind the opening quote, and there are as
many as the span has, with that quote. -/
def macUserId (property : Property) : UInt64 :=
  (bytesAt memory (property.valueBegin + 1)
    (toUint32 (property.valueEnd - property.valueBegin))).foldl macStep 0

/-- The first property `mac`, and what becomes of the context without one. -/
def findMac (properties : List Property) : UInt64 :=
  match properties.find? (keyIs memory (bytesOf "mac")) with
  | some property => macUserId memory property
  | none => 0

/-- `*(const uint32_t*)key_begin`, little endian. -/
def key32 (property : Property) : ℕ :=
  (memory property.keyBegin).toNat + 0x100 * (memory (property.keyBegin + 1)).toNat +
    0x10000 * (memory (property.keyBegin + 2)).toNat +
    0x1000000 * (memory (property.keyBegin + 3)).toNat

/-- `switch_index` of a key that passes the test of its first three bytes. -/
def switchIndex (key : ℕ) : ℕ :=
  let index := (key >>> 24) &&& 0x0F
  if index = 0 then 1 else index

/-- `key_value`: on for `1`, `t` and `T`. -/
def keyValue (property : Property) : UInt8 :=
  if property.valueBegin < property.valueEnd ∧
      (memory property.valueBegin = 0x31 ∨ memory property.valueBegin = 0x74 ∨
        memory property.valueBegin = 0x54) then 1
  else 0

variable {α β : Type*} (strtof : (ℕ → UInt8) → ℕ → α) (strtod : (ℕ → UInt8) → ℕ → β)
  (userId dataTime : UInt64)

/-- What is written for a property. -/
def writeProperty (property : Property) : List (Write α β) :=
  if keyIs memory (bytesOf "voltage") property then
    [.f32 (streamId userId UserType.idVoltage.number) dataTime
      (strtof memory property.valueBegin)]
  else if keyIs memory (bytesOf "current") property then
    [.f32 (streamId userId UserType.idCurrent.number) dataTime
      (strtof memory property.valueBegin)]
  else if keyIs memory (bytesOf "power") property then
    [.f32 (streamId userId UserType.idPower.number) dataTime
      (strtof memory property.valueBegin)]
  else if keyIs memory (bytesOf "energy") property then
    [.f64 (streamId userId UserType.idEnergy.number) dataTime
      (strtod memory property.valueBegin)]
  else if key32 memory property &&& 0x00FFFFFF = 0x0079656B then
    [.u8 (streamId userId (idSwitch + (switchIndex (key32 memory property) - 1))) dataTime
      (keyValue memory property)]
  else []

/-- A call of `s_parse_json` on the packet: the properties that it returns. -/
def parse (size : UInt32) (properties : PropertyArray) : Option (List Property) :=
  match sParseJson (fun p => some (memory p)) size.toNat properties.val 64 with
  | .returns count properties => some (properties.take count)
  | _ => none

/-- `decoder_write_to_stream`, from `m_user_context0` to its new value and what is written. -/
def decoderWriteToStream (size : UInt32) (properties : PropertyArray) (userContext0 now : UInt64) :
    Option (UInt64 × List (Write α β)) :=
  let dataTime := now * 1000
  (if userContext0 = 0 then parse memory size properties else some []).bind fun found =>
    let userContext0 := if userContext0 = 0 then findMac memory found else userContext0
    if userContext0 = 0 then some (userContext0, [])
    else
      (if found = [] then parse memory size properties else some found).bind fun found =>
        some (userContext0,
          .fixData (streamId userContext0 UserType.idJson.number) dataTime
              (bytesAt memory 0 size.toNat) ::
            found.flatMap (writeProperty memory strtof strtod userContext0 dataTime))

end Decoder

section StreamId

theorem streamId_toNat (userId : UInt64) {type : ℕ} (htype : type < 65536) :
    (streamId userId type).toNat = userId.toNat % 281474976710656 * 65536 + type := by
  have hor : userId.toNat % 281474976710656 * 65536 ||| type =
      userId.toNat % 281474976710656 * 65536 + type := by
    have h := Nat.shiftLeft_add_eq_or_of_lt (i := 16) htype (userId.toNat % 281474976710656)
    rw [Nat.shiftLeft_eq] at h
    exact h.symm
  have hshift : (userId <<< 16).toNat = userId.toNat % 281474976710656 * 65536 := by
    rw [UInt64.toNat_shiftLeft, Nat.shiftLeft_eq]
    have hsixteen : (16 : UInt64).toNat % 64 = 16 := rfl
    rw [hsixteen]
    omega
  have hofNat : (UInt64.ofNat type).toNat = type := by
    rw [UInt64.toNat_ofNat']
    exact Nat.mod_eq_of_lt (by omega)
  rw [streamId, UInt64.toNat_or, hshift, hofNat, hor]

theorem streamId_eq_iff (userId userId' : UInt64) {type type' : ℕ} (htype : type < 65536)
    (htype' : type' < 65536) : streamId userId type = streamId userId' type' ↔
      type = type' ∧ userId.toNat % 281474976710656 = userId'.toNat % 281474976710656 := by
  rw [← UInt64.toNat_inj, streamId_toNat userId htype, streamId_toNat userId' htype']
  omega

end StreamId

section Decoder

variable {memory : ℕ → UInt8} {size : UInt32} {properties : PropertyArray} {found : List Property}
  {property : Property}

def keyBytes (memory : ℕ → UInt8) (property : Property) : List UInt8 :=
  bytesAt memory property.keyBegin (property.keyEnd - property.keyBegin)

@[simp] theorem length_bytesAt (memory : ℕ → UInt8) (p n : ℕ) :
    (bytesAt memory p n).length = n := by
  simp [bytesAt]

theorem strncmp_eq_zero_of_length {s t : List UInt8} (hlength : s.length = t.length) :
    strncmp s t t.length = 0 ↔ s = t := by
  induction s generalizing t with
  | nil =>
      rw [List.length_nil] at hlength
      rw [List.eq_nil_of_length_eq_zero hlength.symm]
      exact iff_of_true rfl rfl
  | cons a s ih =>
      cases t with
      | nil => cases hlength
      | cons b t =>
          rw [List.length_cons, strncmp_cons_eq_zero, List.cons.injEq, ih (Nat.succ.inj hlength)]

/-- What `s_parse_json` returns of a packet. -/
theorem parse_spec (h : parse memory size properties = some found) :
    ∀ property ∈ found, PropertyOk (fun p => some (memory p)) size.toNat property := by
  rw [parse] at h
  split at h
  case h_1 count properties' hresult =>
      cases h
      obtain ⟨-, -, hok⟩ := sParseJson_returns properties.property hresult
      intro property hmem
      obtain ⟨i, hi⟩ := List.getElem?_of_mem hmem
      rw [List.getElem?_take] at hi
      split at hi
      · next hlt =>
          obtain ⟨property', hproperty', hok'⟩ := hok i hlt
          rw [hi] at hproperty'
          cases hproperty'
          exact hok'
      · cases hi
  case h_2 => cases h

theorem PropertyOk.keyIs_iff {name : List UInt8}
    (h : PropertyOk (fun p => some (memory p)) size.toNat property) :
    keyIs memory name property = true ↔ keyBytes memory property = name := by
  have hlength : toUint32 (property.keyEnd - property.keyBegin) =
      property.keyEnd - property.keyBegin := by
    have := h.key_lt
    have := size.toNat_lt
    rw [toUint32]
    omega
  rw [keyIs, hlength, Bool.and_eq_true, decide_eq_true_iff, decide_eq_true_iff]
  constructor
  · rintro ⟨hlen, hcmp⟩
    rw [keyBytes, hlen]
    exact (strncmp_eq_zero_of_length (length_bytesAt memory _ _)).mp hcmp
  · intro hkey
    have hlen : property.keyEnd - property.keyBegin = name.length := by
      rw [← hkey, keyBytes, length_bytesAt]
    refine ⟨hlen, (strncmp_eq_zero_of_length (length_bytesAt memory _ _)).mpr ?_⟩
    rw [← hkey, keyBytes, length_bytesAt]

variable {α β : Type*} {strtof : (ℕ → UInt8) → ℕ → α} {strtod : (ℕ → UInt8) → ℕ → β}
  {userContext0 userId now : UInt64} {writes : List (Write α β)}

theorem decoderWriteToStream_known (hknown : userId ≠ 0)
    (h : decoderWriteToStream memory strtof strtod size properties userContext0 now =
      some (userId, writes)) :
    ∃ found, parse memory size properties = some found ∧
      writes = .fixData (streamId userId UserType.idJson.number) (now * 1000)
          (bytesAt memory 0 size.toNat) ::
        found.flatMap (writeProperty memory strtof strtod userId (now * 1000)) := by
  rw [decoderWriteToStream] at h
  simp only [Option.bind_eq_some_iff] at h
  obtain ⟨first, hfirst, h⟩ := h
  by_cases hcontext : userContext0 = 0
  · simp only [hcontext, if_true] at hfirst h
    split at h
    · cases h
      exact absurd ‹_› hknown
    · obtain ⟨found, hfound, h⟩ := Option.bind_eq_some_iff.mp h
      cases h
      refine ⟨found, ?_, rfl⟩
      split at hfound
      · exact hfound
      · exact hfirst.trans hfound
  · simp only [hcontext, if_false] at hfirst h
    cases hfirst
    obtain ⟨found, hfound, h⟩ := Option.bind_eq_some_iff.mp h
    cases h
    exact ⟨found, hfound, rfl⟩

theorem decoderWriteToStream_of_ne (hknown : userContext0 ≠ 0)
    (h : parse memory size properties = some found) :
    decoderWriteToStream memory strtof strtod size properties userContext0 now =
      some (userContext0, .fixData (streamId userContext0 UserType.idJson.number) (now * 1000)
          (bytesAt memory 0 size.toNat) ::
        found.flatMap (writeProperty memory strtof strtod userContext0 (now * 1000))) := by
  simp only [decoderWriteToStream, if_neg hknown, Option.bind_some, if_true, h]

theorem decoderWriteToStream_fresh (h : parse memory size properties = some found) :
    (decoderWriteToStream memory strtof strtod size properties 0 now).map Prod.fst =
      some (findMac memory found) := by
  simp only [decoderWriteToStream, if_true, h, Option.bind_some]
  by_cases hzero : findMac memory found = 0
  · simp [hzero]
  · rw [if_neg hzero]
    split <;> rfl

end Decoder

end GeekOpen

end ConArtist
