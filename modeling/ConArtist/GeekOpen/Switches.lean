import Mathlib.Algebra.Group.Nat.Defs
import ConArtist.GeekOpen.Stream

/-!
# The switches

The test for a switch reads four bytes at the beginning of a key, whatever its length is. The
first three say that it is a switch, and the low bits of the fourth which one. Behind `key` that
is the quote at its end, and behind a longer key it is the next letter of it.
-/

namespace ConArtist

namespace GeekOpen

open UserTypes

def isDigit (c : UInt8) : Bool := 0x30 ≤ c && c ≤ 0x39

/-- The switch of a key: `key` is switch 1, and so is `key0`. -/
def switchOf : List UInt8 → Option ℕ
  | [0x6B, 0x65, 0x79] => some 1
  | [0x6B, 0x65, 0x79, d] => if isDigit d then some (max (d.toNat - 0x30) 1) else none
  | _ => none

/-- The stream id of a write to a switch. -/
def switchStream {α β : Type*} : Write α β → Option UInt64
  | .u8 streamId _ _ => some streamId
  | _ => none

section Switches

variable {α β : Type*} (memory : ℕ → UInt8) (strtof : (ℕ → UInt8) → ℕ → α)
  (strtod : (ℕ → UInt8) → ℕ → β) (userId dataTime : UInt64)

/-- The writes to switches for a property are the one to the switch of its key. -/
def SwitchesRight (property : Property) : Prop :=
  (writeProperty memory strtof strtod userId dataTime property).filterMap switchStream =
    (switchOf (keyBytes memory property)).toList.map fun n => streamId userId (idSwitch + (n - 1))

variable {memory userId} {size : UInt32} {property : Property} {rest : List UInt8}

theorem key32_and_iff : key32 memory property &&& 0x00FFFFFF = 0x0079656B ↔
    memory property.keyBegin = 0x6B ∧ memory (property.keyBegin + 1) = 0x65 ∧
      memory (property.keyBegin + 2) = 0x79 := by
  have hmask : (0x00FFFFFF : ℕ) = 2 ^ 24 - 1 := by decide
  have hpow : (2 : ℕ) ^ 24 = 16777216 := by decide
  have h0 := (memory property.keyBegin).toNat_lt
  have h1 := (memory (property.keyBegin + 1)).toNat_lt
  have h2 := (memory (property.keyBegin + 2)).toNat_lt
  have hconst : (0x6B : UInt8).toNat = 107 ∧ (0x65 : UInt8).toNat = 101 ∧
      (0x79 : UInt8).toNat = 121 := by decide
  rw [hmask, Nat.and_two_pow_sub_one_eq_mod, hpow, key32, ← UInt8.toNat_inj, ← UInt8.toNat_inj,
    ← UInt8.toNat_inj]
  omega

theorem switchIndex_key32 : switchIndex (key32 memory property) =
    max ((memory (property.keyBegin + 3)).toNat % 16) 1 := by
  have h0 := (memory property.keyBegin).toNat_lt
  have h1 := (memory (property.keyBegin + 1)).toNat_lt
  have h2 := (memory (property.keyBegin + 2)).toNat_lt
  have hmask : (0x0F : ℕ) = 2 ^ 4 - 1 := by decide
  have hpow : (2 : ℕ) ^ 4 = 16 := by decide
  have hshift : (2 : ℕ) ^ 24 = 16777216 := by decide
  have hfourth : key32 memory property >>> 24 = (memory (property.keyBegin + 3)).toNat := by
    rw [Nat.shiftRight_eq_div_pow, hshift, key32]
    omega
  rw [switchIndex, hfourth, hmask, Nat.and_two_pow_sub_one_eq_mod, hpow]
  split <;> omega

theorem keyBytes_getElem? (i : ℕ) (hi : i < property.keyEnd - property.keyBegin) :
    (keyBytes memory property)[i]? = some (memory (property.keyBegin + i)) := by
  simp [keyBytes, bytesAt, hi]

/-- The first three bytes are those of a switch exactly when the key begins with them. -/
theorem PropertyOk.prefix_iff (h : PropertyOk (fun p => some (memory p)) size.toNat property) :
    bytesOf "key" <+: keyBytes memory property ↔
      key32 memory property &&& 0x00FFFFFF = 0x0079656B := by
  have hquote : memory property.keyEnd = quote := Option.some.inj h.fetch_keyEnd
  have hle := h.key.skipped.le
  rw [key32_and_iff]
  constructor
  · rintro ⟨rest, hrest⟩
    have hlength := congrArg List.length hrest
    rw [List.length_append, keyBytes, length_bytesAt] at hlength
    have hthree : (bytesOf "key").length = 3 := rfl
    have hget : ∀ i < 3, (bytesOf "key" ++ rest)[i]? = some (memory (property.keyBegin + i)) := by
      intro i hi
      rw [hrest]
      exact keyBytes_getElem? i (by omega)
    exact ⟨(Option.some.inj (hget 0 (by decide))).symm, (Option.some.inj (hget 1 (by decide))).symm,
      (Option.some.inj (hget 2 (by decide))).symm⟩
  · rintro ⟨h0, h1, h2⟩
    -- the quote at the end is none of the three letters
    have hlong : 3 ≤ property.keyEnd - property.keyBegin := by
      by_contra hshort
      obtain ⟨n, hn⟩ := Nat.exists_eq_add_of_le hle
      have hcases : n = 0 ∨ n = 1 ∨ n = 2 := by omega
      rw [hn] at hquote
      rcases hcases with rfl | rfl | rfl
      · cases h0.symm.trans hquote
      · cases h1.symm.trans hquote
      · cases h2.symm.trans hquote
    obtain ⟨n, hn⟩ := Nat.exists_eq_add_of_le hlong
    refine ⟨bytesAt memory (property.keyBegin + 3) n, ?_⟩
    rw [keyBytes, hn, bytesAt, bytesAt, List.range_add, List.map_append, List.map_map]
    congr 1
    · simp only [List.range_succ, List.range_zero, List.map_append, List.map_cons, List.map_nil,
        Nat.add_zero, h0, h1, h2]
      rfl
    · apply List.map_congr_left
      intro i _
      simp only [Function.comp_apply]
      congr 1
      omega

theorem filterMap_writeProperty
    (h : PropertyOk (fun p => some (memory p)) size.toNat property) :
    (writeProperty memory strtof strtod userId dataTime property).filterMap switchStream =
      if bytesOf "key" <+: keyBytes memory property then
        [streamId userId
          (idSwitch + (max ((memory (property.keyBegin + 3)).toNat % 16) 1 - 1))]
      else [] := by
  have hname : ∀ name, ¬ bytesOf "key" <+: name → bytesOf "key" <+: keyBytes memory property →
      ¬ keyIs memory name property = true := by
    intro name hnot hbegins hkey
    rw [h.keyIs_iff] at hkey
    exact hnot (hkey ▸ hbegins)
  rw [writeProperty]
  by_cases hbegins : bytesOf "key" <+: keyBytes memory property
  · rw [if_pos hbegins, if_neg (hname _ (by decide) hbegins), if_neg (hname _ (by decide) hbegins),
      if_neg (hname _ (by decide) hbegins), if_neg (hname _ (by decide) hbegins),
      if_pos (h.prefix_iff.mp hbegins), switchIndex_key32]
    rfl
  · rw [if_neg hbegins, if_neg (h.prefix_iff.not.mp hbegins)]
    split
    · rfl
    · split
      · rfl
      · split
        · rfl
        · split
          · rfl
          · rfl

theorem switchOf_of_not_prefix {key : List UInt8} (h : ¬ bytesOf "key" <+: key) :
    switchOf key = none := by
  unfold switchOf
  split
  · exact absurd (by decide) h
  · next d => exact absurd ⟨[d], rfl⟩ h
  · rfl

theorem isDigit_iff {d : UInt8} : isDigit d = true ↔ 48 ≤ d.toNat ∧ d.toNat ≤ 57 := by
  rw [isDigit, Bool.and_eq_true, decide_eq_true_iff, decide_eq_true_iff, UInt8.le_iff_toNat_le,
    UInt8.le_iff_toNat_le]
  rfl

theorem streamId_switch_eq_iff (userId : UInt64) {m n : ℕ} (hm : m < 16) (hn : n < 16) :
    streamId userId (idSwitch + m) = streamId userId (idSwitch + n) ↔ m = n := by
  have hswitch : idSwitch = 21 := rfl
  rw [streamId_eq_iff _ _ (by omega) (by omega)]
  omega

/-- The fourth byte from the begin of a key is the quote behind the key `key`. -/
theorem PropertyOk.fourth_byte (h : PropertyOk (fun p => some (memory p)) size.toNat property)
    (hkey : bytesOf "key" ++ rest = keyBytes memory property) :
    memory (property.keyBegin + 3) = rest.headD quote := by
  have hthree : (bytesOf "key").length = 3 := rfl
  have hlength := congrArg List.length hkey
  rw [List.length_append, keyBytes, length_bytesAt] at hlength
  cases rest with
  | nil =>
      rw [List.length_nil] at hlength
      have hend : property.keyBegin + 3 = property.keyEnd := by omega
      rw [hend]
      exact Option.some.inj h.fetch_keyEnd
  | cons d tail =>
      rw [List.length_cons] at hlength
      have hget : (keyBytes memory property)[3]? = some (memory (property.keyBegin + 3)) :=
        keyBytes_getElem? 3 (by omega)
      rw [← hkey] at hget
      exact (Option.some.inj hget).symm

/-- The write for a key that begins with `key` is right when there is one digit behind. -/
theorem keyWrite_right_iff (userId : UInt64) (rest : List UInt8) :
    [streamId userId (idSwitch + (max ((rest.headD quote).toNat % 16) 1 - 1))] =
        (switchOf (bytesOf "key" ++ rest)).toList.map (fun n =>
          streamId userId (idSwitch + (n - 1))) ↔
      ∃ d, isDigit d = true ∧ rest = [d] := by
  match rest with
  | [] =>
      -- the quote is `0x22`, so the write is to switch 2
      refine iff_of_false (fun hwrites => ?_) (by simp)
      have hstream : streamId userId (idSwitch + 1) = streamId userId (idSwitch + 0) :=
        (List.cons.inj hwrites).1
      rw [streamId_switch_eq_iff userId (by decide) (by decide)] at hstream
      cases hstream
  | [d] =>
      have hswitch : switchOf (bytesOf "key" ++ [d]) =
          if isDigit d then some (max (d.toNat - 0x30) 1) else none := rfl
      rw [hswitch]
      by_cases hdigit : isDigit d = true
      · refine iff_of_true ?_ ⟨d, hdigit, rfl⟩
        have hlow : d.toNat % 16 = d.toNat - 0x30 := by
          have := isDigit_iff.mp hdigit
          omega
        rw [if_pos hdigit, List.headD_cons, hlow]
        rfl
      · rw [if_neg hdigit]
        refine iff_of_false (by simp) ?_
        rintro ⟨d', hdigit', heq⟩
        cases heq
        exact hdigit hdigit'
  | d :: e :: tail =>
      have hswitch : switchOf (bytesOf "key" ++ d :: e :: tail) = none := rfl
      rw [hswitch]
      exact iff_of_false (by simp) (by simp)

/-- A property is right exactly when its key does not begin like that of a switch, or is `key`
with one digit. -/
theorem PropertyOk.switchesRight_iff
    (h : PropertyOk (fun p => some (memory p)) size.toNat property) :
    SwitchesRight memory strtof strtod userId dataTime property ↔
      (bytesOf "key" <+: keyBytes memory property →
        ∃ d, isDigit d = true ∧ keyBytes memory property = bytesOf "key" ++ [d]) := by
  rw [SwitchesRight, filterMap_writeProperty strtof strtod dataTime h]
  by_cases hbegins : bytesOf "key" <+: keyBytes memory property
  · obtain ⟨rest, hrest⟩ := hbegins
    rw [h.fourth_byte hrest, ← hrest, if_pos (List.prefix_append _ _), keyWrite_right_iff,
      imp_iff_right (List.prefix_append _ _)]
    simp only [List.append_cancel_left_eq]
  · rw [if_neg hbegins, switchOf_of_not_prefix hbegins]
    exact iff_of_true rfl fun hkey => absurd hkey hbegins

end Switches

/-- With a known user id the decoder writes the packet and what it writes for the properties. Of
these a property is right exactly when its key does not begin with `key`, or is `key` with one
digit. -/
theorem decoderWriteToStream_switchesRight_iff {α β : Type*} {memory : ℕ → UInt8}
    {strtof : (ℕ → UInt8) → ℕ → α} {strtod : (ℕ → UInt8) → ℕ → β} {size : UInt32}
    {properties : PropertyArray} {userContext0 userId now : UInt64} {writes : List (Write α β)}
    (hknown : userId ≠ 0)
    (h : decoderWriteToStream memory strtof strtod size properties userContext0 now =
      some (userId, writes)) :
    ∃ found, parse memory size properties = some found ∧
      writes = .fixData (streamId userId UserType.idJson.number) (now * 1000)
          (bytesAt memory 0 size.toNat) ::
        found.flatMap (writeProperty memory strtof strtod userId (now * 1000)) ∧
      ∀ property ∈ found, SwitchesRight memory strtof strtod userId (now * 1000) property ↔
        (bytesOf "key" <+: keyBytes memory property →
          ∃ d, isDigit d = true ∧ keyBytes memory property = bytesOf "key" ++ [d]) := by
  obtain ⟨found, hfound, hwrites⟩ := decoderWriteToStream_known hknown h
  exact ⟨found, hfound, hwrites, fun property hmem =>
    (parse_spec hfound property hmem).switchesRight_iff strtof strtod (now * 1000)⟩

/-- The packet of a plug with a key, which is on. -/
def keyMemory (key : String) (p : ℕ) : UInt8 :=
  (bytesOf "\x7b\"" ++ bytesOf key ++ bytesOf "\":1\x7d").getD p 0

/-- `key2` of a device with the user id 5. -/
theorem decoderWriteToStream_key2 :
    (5 : UInt64) ≠ 0 ∧ ∃ found, parse (keyMemory "key2") 10 zeroArray = some found ∧
      ∀ property ∈ found,
        SwitchesRight (keyMemory "key2") (fun _ _ => ()) (fun _ _ => ()) 5 (0 * 1000) property ↔
          (bytesOf "key" <+: keyBytes (keyMemory "key2") property →
            ∃ d, isDigit d = true ∧
              keyBytes (keyMemory "key2") property = bytesOf "key" ++ [d]) := by
  have hparse : parse (keyMemory "key2") 10 zeroArray = some [⟨2, 6, 8, 9⟩] := by decide +kernel
  have hknown : (5 : UInt64) ≠ 0 := by decide
  obtain ⟨found, hfound, -, hright⟩ := decoderWriteToStream_switchesRight_iff hknown
    (decoderWriteToStream_of_ne hknown hparse)
  exact ⟨hknown, found, hfound, hright⟩

/-- The key `key` of such a device writes to switch 2. -/
theorem not_switchesRight_key :
    ¬ ∀ (memory : ℕ → UInt8) (size : UInt32) (properties : PropertyArray)
      (userContext0 userId now : UInt64) (writes : List (Write Unit Unit)), userId ≠ 0 →
      decoderWriteToStream memory (fun _ _ => ()) (fun _ _ => ()) size properties userContext0 now =
        some (userId, writes) →
      ∀ found, parse memory size properties = some found → ∀ property ∈ found,
        SwitchesRight memory (fun _ _ => ()) (fun _ _ => ()) userId (now * 1000) property := by
  intro h
  have hparse : parse (keyMemory "key") 9 zeroArray = some [⟨2, 5, 7, 8⟩] := by decide +kernel
  have hright := h _ _ _ 5 5 0 _ (by decide) (decoderWriteToStream_of_ne (by decide) hparse) _
    hparse _ List.mem_cons_self
  have hok := parse_spec hparse _ List.mem_cons_self
  rw [hok.switchesRight_iff] at hright
  obtain ⟨d, -, hkey⟩ := hright (by decide)
  have hlength : 3 = (bytesOf "key" ++ [d]).length := congrArg List.length hkey
  rw [List.length_append] at hlength
  cases hlength

end GeekOpen

end ConArtist
