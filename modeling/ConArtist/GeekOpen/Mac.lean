import Mathlib.Algebra.Group.Nat.Defs
import ConArtist.GeekOpen.Stream

/-!
# The user id of a device

The bytes of the value of `mac` are read from behind its first quote on, as many as the span has,
and the span has that quote and not the one at the end. So the quote at the end is read as well,
and shifts the digits once more. The user id is 16 times the address, and the stream ids drop the
high bits of it: those of two addresses that are equal modulo 2 ^ 44 are the same.
-/

namespace ConArtist

namespace GeekOpen

open UserTypes

/-- The value of a hexadecimal digit, in any letter case. -/
def hexValue (c : UInt8) : Option ℕ :=
  if 0x30 ≤ c ∧ c ≤ 0x39 then some (c.toNat - 0x30)
  else if 0x41 ≤ c ∧ c ≤ 0x46 then some (c.toNat - 0x41 + 10)
  else if 0x61 ≤ c ∧ c ≤ 0x66 then some (c.toNat - 0x61 + 10)
  else none

/-- The number that digits denote behind a number. -/
def hexNumber : ℕ → List UInt8 → ℕ
  | n, [] => n
  | n, c :: digits => hexNumber (16 * n + (hexValue c).getD 0) digits

/-- A packet that is parsed and has a property `mac`, whose value is a string of 12 digits. Where
there are more properties of that name, it is the first. -/
structure MacPacket where
  memory : ℕ → UInt8
  size : UInt32
  properties : PropertyArray
  found : List Property
  parsed : parse memory size properties = some found
  index : ℕ
  property : Property
  found_index : found[index]? = some property
  key : keyBytes memory property = bytesOf "mac"
  first : ∀ i < index, ∀ other, found[i]? = some other → keyBytes memory other ≠ bytesOf "mac"
  digits : List UInt8
  length : digits.length = 12
  hex : ∀ c ∈ digits, (hexValue c).isSome = true
  value : bytesAt memory property.valueBegin 14 = quote :: (digits ++ [quote])
  inside : property.valueBegin + 13 < size.toNat

def MacPacket.mac (packet : MacPacket) : ℕ := hexNumber 0 packet.digits

section Digits

variable {userId : UInt64} {c d : UInt8} {v : ℕ}

theorem shift_toNat (huserId : userId.toNat < 1152921504606846976) :
    (userId <<< 4).toNat = 16 * userId.toNat := by
  rw [UInt64.toNat_shiftLeft, Nat.shiftLeft_eq]
  have hfour : (4 : UInt64).toNat % 64 = 4 := rfl
  rw [hfour]
  omega

theorem or_digit_toNat (huserId : userId.toNat < 1152921504606846976) (hd : d.toNat < 16) :
    ((userId <<< 4) ||| d.toUInt64).toNat = 16 * userId.toNat + d.toNat := by
  have hor := Nat.shiftLeft_add_eq_or_of_lt (i := 4) hd userId.toNat
  rw [Nat.shiftLeft_eq] at hor
  rw [UInt64.toNat_or, shift_toNat huserId, UInt8.toNat_toUInt64, Nat.mul_comm]
  exact hor.symm

theorem hexValue_lt (h : hexValue c = some v) : v < 16 := by
  rw [hexValue] at h
  simp only [UInt8.le_iff_toNat_le] at h
  have hconst : (0x30 : UInt8).toNat = 48 ∧ (0x39 : UInt8).toNat = 57 ∧ (0x41 : UInt8).toNat = 65 ∧
      (0x46 : UInt8).toNat = 70 ∧ (0x61 : UInt8).toNat = 97 ∧ (0x66 : UInt8).toNat = 102 := by
    decide
  split at h
  · cases h
    omega
  · split at h
    · cases h
      omega
    · split at h
      · cases h
        omega
      · cases h

theorem macStep_toNat (h : hexValue c = some v) (huserId : userId.toNat < 1152921504606846976) :
    (macStep userId c).toNat = 16 * userId.toNat + v := by
  have hv := hexValue_lt h
  rw [hexValue] at h
  rw [macStep]
  split at h
  case isTrue h1 =>
      cases h
      have hd : (c - 0x30).toNat = c.toNat - 0x30 := UInt8.toNat_sub_of_le c 0x30 h1.1
      rw [if_pos h1, or_digit_toNat huserId (hd ▸ hv), hd]
  case isFalse h1 =>
      rw [if_neg h1]
      split at h
      case isTrue h2 =>
          cases h
          have hd : (c - 0x41 + 10).toNat = c.toNat - 0x41 + 10 := by
            rw [UInt8.toNat_add, UInt8.toNat_sub_of_le c 0x41 h2.1]
            exact Nat.mod_eq_of_lt (Nat.lt_trans hv (by decide))
          rw [if_pos h2, or_digit_toNat huserId (hd ▸ hv), hd]
      case isFalse h2 =>
          rw [if_neg h2]
          split at h
          case isTrue h3 =>
              cases h
              have hd : (c - 0x61 + 10).toNat = c.toNat - 0x61 + 10 := by
                rw [UInt8.toNat_add, UInt8.toNat_sub_of_le c 0x61 h3.1]
                exact Nat.mod_eq_of_lt (Nat.lt_trans hv (by decide))
              rw [if_pos h3, or_digit_toNat huserId (hd ▸ hv), hd]
          case isFalse => cases h

theorem macStep_quote (userId : UInt64) : macStep userId quote = userId <<< 4 := rfl

/-- The digits that are read so far denote the user id. -/
theorem foldl_macStep_toNat {digits : List UInt8} {n k : ℕ}
    (hhex : ∀ c ∈ digits, (hexValue c).isSome = true) (hn : userId.toNat = n) (hlt : n < 16 ^ k)
    (hk : k + digits.length ≤ 15) :
    (digits.foldl macStep userId).toNat = hexNumber n digits ∧
      hexNumber n digits < 16 ^ (k + digits.length) := by
  induction digits generalizing userId n k with
  | nil => exact ⟨hn, hlt⟩
  | cons c digits ih =>
      obtain ⟨v, hv⟩ := Option.isSome_iff_exists.mp (hhex c List.mem_cons_self)
      rw [List.length_cons] at hk
      have hpow : (16 : ℕ) ^ k ≤ 16 ^ 15 := Nat.pow_le_pow_right (by decide) (by omega)
      have hmax : (16 : ℕ) ^ 15 = 1152921504606846976 := by decide
      have hstep : (macStep userId c).toNat = 16 * userId.toNat + v :=
        macStep_toNat hv (by omega)
      have hvlt := hexValue_lt hv
      have hnext : 16 * n + v < 16 ^ (k + 1) := by
        rw [Nat.pow_succ]
        omega
      obtain ⟨hfold, hbound⟩ := ih (fun d hd => hhex d (List.mem_cons_of_mem c hd))
        (hstep.trans (by rw [hn])) hnext (by omega)
      rw [List.foldl_cons, hexNumber, hv, Option.getD_some]
      refine ⟨hfold, ?_⟩
      rw [List.length_cons, ← Nat.add_assoc, Nat.add_right_comm]
      exact hbound

end Digits

namespace MacPacket

variable (packet : MacPacket)

theorem propertyOk :
    PropertyOk (fun p => some (packet.memory p)) packet.size.toNat packet.property :=
  parse_spec packet.parsed _ (List.mem_of_getElem? packet.found_index)

theorem memory_value {i : ℕ} (hi : i < 14) :
    (quote :: (packet.digits ++ [quote]))[i]? =
      some (packet.memory (packet.property.valueBegin + i)) := by
  rw [← packet.value]
  simp [bytesAt, hi]

theorem ne_quote {c : UInt8} (hc : c ∈ packet.digits) : c ≠ quote := by
  rintro rfl
  cases packet.hex quote hc

theorem valueEnd_eq : packet.property.valueEnd = packet.property.valueBegin + 13 := by
  have hlength := packet.length
  have hfirst : some (packet.memory packet.property.valueBegin) = some quote :=
    (packet.memory_value (i := 0) (by decide)).symm
  have hlast : packet.memory (packet.property.valueBegin + 13) = quote := by
    have hget := packet.memory_value (i := 13) (by decide)
    rw [List.getElem?_cons_succ, List.getElem?_append_right (by omega), hlength] at hget
    exact (Option.some.inj hget).symm
  have hskipped := packet.propertyOk.value.string hfirst
  have hinside := packet.inside
  have hle := hskipped.le
  rcases Nat.lt_trichotomy packet.property.valueEnd (packet.property.valueBegin + 13) with
    hlt | heq | hgt
  · -- the span would end at a digit
    exfalso
    obtain ⟨c, hc, hstop⟩ := hskipped.stops (by omega)
    obtain ⟨i, hi⟩ := Nat.exists_eq_add_of_le hle
    have hget := packet.memory_value (i := i + 1) (by omega)
    rw [List.getElem?_cons_succ, List.getElem?_append_left (by omega), ← Nat.add_assoc,
      Nat.add_right_comm, ← hi] at hget
    cases hc
    exact packet.ne_quote (List.mem_of_getElem? hget) (by simpa using hstop)
  · exact heq
  · exfalso
    obtain ⟨c, hc, hskip⟩ := hskipped.skips (packet.property.valueBegin + 13) (by omega) hgt
    cases hc
    rw [hlast] at hskip
    simp at hskip

theorem macUserId_eq : macUserId packet.memory packet.property =
    (packet.digits.foldl macStep 0) <<< 4 := by
  have hlen : toUint32 (packet.property.valueEnd - packet.property.valueBegin) = 13 := by
    rw [packet.valueEnd_eq, Nat.add_sub_cancel_left]
    rfl
  have hbytes : bytesAt packet.memory (packet.property.valueBegin + 1) 13 =
      packet.digits ++ [quote] := by
    have hvalue := packet.value
    rw [bytesAt, List.range_succ_eq_map, List.map_cons, List.cons.injEq, List.map_map] at hvalue
    rw [← hvalue.2, bytesAt]
    apply List.map_congr_left
    intro i _
    simp only [Function.comp_apply]
    congr 1
    omega
  rw [macUserId, hlen, hbytes, List.foldl_append, List.foldl_cons, List.foldl_nil, macStep_quote]

theorem findMac_eq : findMac packet.memory packet.found =
    macUserId packet.memory packet.property := by
  have hok := parse_spec packet.parsed
  have hfind : packet.found.find? (keyIs packet.memory (bytesOf "mac")) = some packet.property := by
    rw [List.find?_eq_some_iff_getElem]
    obtain ⟨hin, hget⟩ := List.getElem?_eq_some_iff.mp packet.found_index
    refine ⟨packet.propertyOk.keyIs_iff.mpr packet.key, packet.index, hin, hget, ?_⟩
    intro i hi
    have hother := List.getElem?_eq_getElem (Nat.lt_trans hi hin)
    rw [Bool.not_eq_true', ← Bool.not_eq_true, (hok _ (List.mem_of_getElem? hother)).keyIs_iff]
    exact packet.first i hi _ hother
  rw [findMac, hfind]

theorem findMac_toNat : (findMac packet.memory packet.found).toNat = 16 * packet.mac := by
  have hzero : (0 : UInt64).toNat = 0 := rfl
  obtain ⟨hfold, hlt⟩ := foldl_macStep_toNat (k := 0) packet.hex hzero (by decide)
    (by rw [packet.length]; decide)
  have hmax : (16 : ℕ) ^ (0 + packet.digits.length) = 281474976710656 := by
    rw [packet.length]
    rfl
  rw [packet.findMac_eq, packet.macUserId_eq, shift_toNat (by omega), hfold]
  rfl

end MacPacket

variable {α β : Type*}

/-- The user id of a fresh context is the address exactly when that is 0, and two stream ids
differ exactly when the types do or the addresses differ modulo 2 ^ 44. -/
theorem macPacket_userId_iff (strtof : (ℕ → UInt8) → ℕ → α) (strtod : (ℕ → UInt8) → ℕ → β)
    (packet packet' : MacPacket) (now now' : UInt64) (type type' : UInt16) :
    ∃ userId userId' : UInt64,
      (decoderWriteToStream packet.memory strtof strtod packet.size packet.properties 0 now).map
        Prod.fst = some userId ∧
      (decoderWriteToStream packet'.memory strtof strtod packet'.size packet'.properties 0
        now').map Prod.fst = some userId' ∧
      (userId.toNat = packet.mac ↔ packet.mac = 0) ∧
      (streamId userId type.toNat ≠ streamId userId' type'.toNat ↔
        type ≠ type' ∨ packet.mac % 2 ^ 44 ≠ packet'.mac % 2 ^ 44) := by
  have huserId := packet.findMac_toNat
  have huserId' := packet'.findMac_toNat
  have hpow : (2 : ℕ) ^ 44 = 17592186044416 := by decide
  refine ⟨_, _, decoderWriteToStream_fresh packet.parsed, decoderWriteToStream_fresh packet'.parsed,
    ?_, ?_⟩
  · rw [huserId]
    omega
  · rw [Ne, streamId_eq_iff _ _ type.toNat_lt type'.toNat_lt, UInt16.toNat_inj, huserId, huserId',
      hpow, not_and_or]
    apply or_congr Iff.rfl
    omega

/-- The packet of a device, with nothing but its address. -/
def plugPacket : MacPacket where
  memory := fun p => (bytesOf "\x7b\"mac\":\"8CCE4E50AF57\"\x7d").getD p 0
  size := 22
  properties := zeroArray
  found := [⟨2, 5, 7, 20⟩]
  parsed := by decide +kernel
  index := 0
  property := ⟨2, 5, 7, 20⟩
  found_index := rfl
  key := by decide
  first := fun i hi => absurd hi (Nat.not_lt_zero i)
  digits := bytesOf "8CCE4E50AF57"
  length := by decide
  hex := by decide +kernel
  value := by decide
  inside := by decide

/-- The user id of this packet is not its address. -/
theorem userId_ne_mac : ¬ ∀ packet : MacPacket,
    (decoderWriteToStream packet.memory (fun _ _ => ()) (fun _ _ => ()) packet.size
      packet.properties 0 0).map (fun result => result.1.toNat) = some packet.mac := by
  intro h
  have hfresh : (decoderWriteToStream plugPacket.memory (fun _ _ => ()) (fun _ _ => ())
      plugPacket.size plugPacket.properties 0 0).map Prod.fst =
        some (findMac plugPacket.memory plugPacket.found) :=
    decoderWriteToStream_fresh plugPacket.parsed
  have hmac := congrArg (Option.map UInt64.toNat) hfresh
  rw [Option.map_map, Option.map_some, plugPacket.findMac_toNat] at hmac
  have heq : 16 * plugPacket.mac = plugPacket.mac :=
    Option.some.inj (hmac.symm.trans (h plugPacket))
  have hpos : 0 < plugPacket.mac := by decide
  omega

end GeekOpen

end ConArtist
