import Mathlib.Data.List.Forall2
import ConArtist.GeekOpen.Connection
import ConArtist.GeekOpen.Grammar

/-!
# The UI of a GeekOpen packet

`decoder_build_ui_element` makes a text item of each property of a packet, with copies of the key
and of the value. It parses the packet on its own, into an array of its own. So the UI shows the
properties that the decoder of the stream writes, one item for each, in the same order, and of a
flat object it shows the members. The text of a quoted value has its opening quote with it, as the
value of the property begins there. The bytes behind a packet are taken as readable.
-/

namespace ConArtist

namespace GeekOpen

open UserTypes

/-- `decoder_ui_text_item_t`, with the strings up to and with their NUL. -/
structure TextItem where
  type : UInt16
  keyLen : UInt16
  valueLen : UInt16
  key : List UInt8
  value : List UInt8

/-- `decoder_ui_element_t`, of text items. -/
structure UiElement where
  count : ℕ
  items : List TextItem

def uiItemText : UInt16 := 1

section Build

variable (memory : ℕ → UInt8)

/-- `string_allocate`, whose length is an `int`. A negative one copies more than there is. -/
def stringAllocate (str strLen : ℕ) : Option (List UInt8) :=
  if 0 ≤ toInt strLen then some (bytesAt memory str (toInt strLen).toNat ++ [0]) else none

/-- An iteration of the loop. -/
def textItem (property : Property) : Option TextItem := do
  let keyLen := toUint32 (property.keyEnd - property.keyBegin)
  let keyStr ← stringAllocate memory property.keyBegin keyLen
  let valueLen := toUint32 (property.valueEnd - property.valueBegin)
  let valueStr ← stringAllocate memory property.valueBegin valueLen
  some
    { type := uiItemText
      keyLen := UInt16.ofNat keyLen
      valueLen := UInt16.ofNat valueLen
      key := keyStr
      value := valueStr }

/-- `decoder_build_ui_element`. -/
def decoderBuildUiElement (size : UInt32) (properties : PropertyArray) : Option UiElement := do
  let found ← parse memory size properties
  let items ← found.mapM (textItem memory)
  some { count := found.length, items := items }

end Build

def valueBytes (memory : ℕ → UInt8) (property : Property) : List UInt8 :=
  bytesAt memory property.valueBegin (property.valueEnd - property.valueBegin)

/-- The lengths of the spans are no negative `int`. -/
structure Property.Short (property : Property) : Prop where
  key : property.keyEnd - property.keyBegin < 2147483648
  value : property.valueEnd - property.valueBegin < 2147483648

/-- The item of a property. -/
structure Shows (memory : ℕ → UInt8) (property : Property) (item : TextItem) : Prop where
  type : item.type = uiItemText
  key : item.key = keyBytes memory property ++ [0]
  value : item.value = valueBytes memory property ++ [0]
  keyLen : item.keyLen = UInt16.ofNat (keyBytes memory property).length
  valueLen : item.valueLen = UInt16.ofNat (valueBytes memory property).length

section Item

variable {memory : ℕ → UInt8} {size : UInt32} {property : Property} {n : ℕ}

theorem toUint32_of_lt (hn : n < 4294967296) : toUint32 n = n := Nat.mod_eq_of_lt hn

theorem toInt_neg (hn : 2147483648 ≤ n) (hlt : n < 4294967296) : toInt n < 0 := by
  have hdef := @Int.bmod_def n 4294967296
  unfold toInt
  generalize Int.bmod n 4294967296 = len at hdef ⊢
  omega

theorem stringAllocate_of_lt (hn : n < 2147483648) (str : ℕ) :
    stringAllocate memory str (toUint32 n) = some (bytesAt memory str n ++ [0]) := by
  have hlt : n < 4294967296 := by omega
  rw [toUint32_of_lt hlt, stringAllocate, toInt_of_lt hn, if_pos (Int.natCast_nonneg n),
    Int.toNat_natCast]

theorem stringAllocate_of_le (hn : 2147483648 ≤ n) (hlt : n < 4294967296) (str : ℕ) :
    stringAllocate memory str (toUint32 n) = none := by
  rw [toUint32_of_lt hlt, stringAllocate, if_neg (Int.not_le.mpr (toInt_neg hn hlt))]

/-- A span is no longer than the packet, but for the quote of a value that begins at its end. -/
theorem PropertyOk.lengths_lt (h : PropertyOk (fun p => some (memory p)) size.toNat property) :
    property.keyEnd - property.keyBegin < 4294967296 ∧
      property.valueEnd - property.valueBegin < 4294967296 := by
  have hsize := size.toNat_lt
  have hkey := h.key_lt
  have hvalue : property.valueEnd ≤ max (property.valueBegin + 1) size.toNat := by
    by_cases hquote : memory property.valueBegin = quote
    · exact (h.value.string (congrArg some hquote)).le_max
    · have hle := (h.value.bare _ rfl hquote).le_max
      omega
  omega

/-- A property has an item exactly when its lengths are no negative `int`. -/
theorem PropertyOk.textItem_cases
    (h : PropertyOk (fun p => some (memory p)) size.toNat property) :
    (property.Short ∧ ∃ item, textItem memory property = some item ∧ Shows memory property item) ∨
      (¬ property.Short ∧ textItem memory property = none) := by
  obtain ⟨hkey, hvalue⟩ := h.lengths_lt
  by_cases hshort : property.keyEnd - property.keyBegin < 2147483648
  · by_cases hshort' : property.valueEnd - property.valueBegin < 2147483648
    · refine .inl ⟨⟨hshort, hshort'⟩, ?_⟩
      simp only [textItem, stringAllocate_of_lt hshort, stringAllocate_of_lt hshort',
        Option.bind_eq_bind, Option.bind_some, Option.some.injEq, exists_eq_left']
      refine ⟨rfl, rfl, rfl, ?_, ?_⟩
      · rw [toUint32_of_lt hkey, keyBytes, length_bytesAt]
      · rw [toUint32_of_lt hvalue, valueBytes, length_bytesAt]
    · refine .inr ⟨fun hboth => hshort' hboth.value, ?_⟩
      simp only [textItem, stringAllocate_of_lt hshort,
        stringAllocate_of_le (Nat.not_lt.mp hshort') hvalue, Option.bind_eq_bind, Option.bind_some,
        Option.bind_none]
  · refine .inr ⟨fun hboth => hshort hboth.key, ?_⟩
    simp only [textItem, stringAllocate_of_le (Nat.not_lt.mp hshort) hkey, Option.bind_eq_bind,
      Option.bind_none]

end Item

section Element

variable {memory : ℕ → UInt8} {size : UInt32} {properties : List Property}

theorem mapM_textItem
    (hok : ∀ property ∈ properties, PropertyOk (fun p => some (memory p)) size.toNat property) :
    ((∀ property ∈ properties, property.Short) ∧
      ∃ items, properties.mapM (textItem memory) = some items ∧
        List.Forall₂ (Shows memory) properties items) ∨
      (¬ (∀ property ∈ properties, property.Short) ∧
        properties.mapM (textItem memory) = none) := by
  induction properties with
  | nil => exact .inl ⟨by simp, [], rfl, .nil⟩
  | cons property properties ih =>
      rw [List.forall_mem_cons] at hok
      rw [List.mapM_cons, List.forall_mem_cons]
      rcases hok.1.textItem_cases with ⟨hshort, item, hitem, hshows⟩ | ⟨hlong, hnone⟩
      · rcases ih hok.2 with ⟨hshorts, items, hitems, hall⟩ | ⟨hlong, hnone⟩
        · rw [hitem, hitems]
          exact .inl ⟨⟨hshort, hshorts⟩, item :: items, rfl, .cons hshows hall⟩
        · rw [hitem, hnone]
          exact .inr ⟨fun h => hlong h.2, rfl⟩
      · rw [hnone]
        exact .inr ⟨fun h => hlong h.1, rfl⟩

end Element

section Measures

variable {α β : Type*} {strtof : (ℕ → UInt8) → ℕ → α} {strtod : (ℕ → UInt8) → ℕ → β}
  {memory : ℕ → UInt8} {size : UInt32} {property : Property}

/-- The keys of the numbers that a plug measures, with their types. -/
def measures : List (String × UserType) :=
  [("voltage", .idVoltage), ("current", .idCurrent), ("power", .idPower), ("energy", .idEnergy)]

theorem streamId_inj (userId : UInt64) {type type' : ℕ} (htype : type < 65536)
    (htype' : type' < 65536) : streamId userId type = streamId userId type' ↔ type = type' := by
  rw [streamId_eq_iff userId userId htype htype', and_iff_left rfl]

theorem measures_inj : ∀ m ∈ measures, ∀ m' ∈ measures,
    m.2.number = m'.2.number ↔ bytesOf m.1 = bytesOf m'.1 := by
  decide

theorem number_of_mem_measures : ∀ m ∈ measures, 37 ≤ m.2.number ∧ m.2.number < 65536 := by
  decide

/-- A property with the key of a number is written to the stream of this number. -/
theorem PropertyOk.streams_of_measured
    (h : PropertyOk (fun p => some (memory p)) size.toNat property) (userId dataTime : UInt64)
    {m : String × UserType} (hm : m ∈ measures) (hkey : keyBytes memory property = bytesOf m.1) :
    (writeProperty memory strtof strtod userId dataTime property).map Write.streamId =
      [streamId userId m.2.number] := by
  have hcurrent : ¬ bytesOf "current" = bytesOf "voltage" := by decide
  have hpower : ¬ bytesOf "power" = bytesOf "voltage" ∧ ¬ bytesOf "power" = bytesOf "current" := by
    decide
  have henergy : ¬ bytesOf "energy" = bytesOf "voltage" ∧ ¬ bytesOf "energy" = bytesOf "current" ∧
      ¬ bytesOf "energy" = bytesOf "power" := by
    decide
  rw [writeProperty]
  simp only [h.keyIs_iff, hkey]
  simp only [measures, List.mem_cons, List.not_mem_nil, or_false] at hm
  rcases hm with rfl | rfl | rfl | rfl
  · rw [if_pos rfl]
    rfl
  · rw [if_neg hcurrent, if_pos rfl]
    rfl
  · rw [if_neg hpower.1, if_neg hpower.2, if_pos rfl]
    rfl
  · rw [if_neg henergy.1, if_neg henergy.2.1, if_neg henergy.2.2, if_pos rfl]
    rfl

/-- Every other property is written to the stream of a switch, or not at all. -/
theorem PropertyOk.streams_of_not_measured
    (h : PropertyOk (fun p => some (memory p)) size.toNat property) (userId dataTime : UInt64)
    (hkey : ∀ m ∈ measures, keyBytes memory property ≠ bytesOf m.1) {id : UInt64}
    (hid : id ∈
      (writeProperty memory strtof strtod userId dataTime property).map Write.streamId) :
    ∃ type < 37, id = streamId userId type := by
  rw [writeProperty] at hid
  simp only [h.keyIs_iff] at hid
  rw [if_neg (hkey ("voltage", .idVoltage) (by decide)),
    if_neg (hkey ("current", .idCurrent) (by decide)),
    if_neg (hkey ("power", .idPower) (by decide)),
    if_neg (hkey ("energy", .idEnergy) (by decide))] at hid
  split at hid
  · have hindex := switchIndex_lt (key32 memory property)
    have hbase : idSwitch = 21 := rfl
    exact ⟨_, by omega, List.mem_singleton.mp hid⟩
  · cases hid

/-- A number is written to its stream for the properties with its key, and for no others. -/
theorem PropertyOk.mem_streams_iff
    (h : PropertyOk (fun p => some (memory p)) size.toNat property) (userId dataTime : UInt64)
    {m : String × UserType} (hm : m ∈ measures) :
    streamId userId m.2.number ∈
        (writeProperty memory strtof strtod userId dataTime property).map Write.streamId ↔
      keyBytes memory property = bytesOf m.1 := by
  obtain ⟨hle, hlt⟩ := number_of_mem_measures m hm
  by_cases hmeasured : ∃ m' ∈ measures, keyBytes memory property = bytesOf m'.1
  · obtain ⟨m', hm', hkey⟩ := hmeasured
    rw [h.streams_of_measured userId dataTime hm' hkey, List.mem_singleton,
      streamId_inj userId hlt (number_of_mem_measures m' hm').2, measures_inj m hm m' hm', hkey]
    exact eq_comm
  · push Not at hmeasured
    refine iff_of_false (fun hmem => ?_) (hmeasured m hm)
    obtain ⟨type, htype, hid⟩ := h.streams_of_not_measured userId dataTime hmeasured hmem
    rw [streamId_inj userId hlt (by omega)] at hid
    omega

end Measures

section Flat

variable {o : FlatObject} {packet : Received}

/-- The packet is the text of an object, whatever is behind it. -/
structure Carries (o : FlatObject) (packet : Received) : Prop where
  size : packet.size.toNat = o.encode.length
  bytes : ∀ p c, o.encode[p]? = some c → packet.memory p = c

theorem slice_eq_bytesAt {text : List UInt8} {memory : ℕ → UInt8}
    (hbytes : ∀ p c, text[p]? = some c → memory p = c) {first last : ℕ}
    (hlast : last ≤ text.length) : slice text first last = bytesAt memory first (last - first) := by
  refine List.ext_getElem ?_ fun i hi hi' => ?_
  · rw [slice, length_bytesAt, List.length_take, List.length_drop]
    omega
  · have hlt : first + i < text.length := by
      rw [length_bytesAt] at hi'
      omega
    simp only [slice, bytesAt, List.getElem_take, List.getElem_drop, List.getElem_map,
      List.getElem_range]
    exact (hbytes _ _ (List.getElem?_eq_getElem hlt)).symm

/-- What is found in the packet of an object: its members, with the spans of their values. -/
theorem Carries.found (h : Carries o packet) (hfew : o.members.length ≤ 64) :
    List.Forall₂ (fun m property => keyBytes packet.memory property = m.key.val ∧
      valueBytes packet.memory property = m.valueSpan) o.members packet.found := by
  have hlength : packet.properties.val.length = 64 := packet.properties.property
  have hroom : o.members.length ≤ packet.properties.val.length := by
    rw [hlength]
    exact hfew
  obtain ⟨properties, hreturns, hholds⟩ := sParseJson_encode o hroom
  obtain ⟨-, hlength', hok⟩ := sParseJson_returns rfl hreturns
  have hgives : ∀ p, Gives (o.encode[p]?) (some (packet.memory p)) := fun p c hc =>
    congrArg some (h.bytes p c hc)
  have hparse := packet.parse_eq
  rw [sParseJson, hlength] at hreturns
  rw [parse_eq_counted, sParseJson, h.size, parseLoop_of_gives hgives hreturns, Result.counted,
    Option.some.injEq] at hparse
  rw [← hparse]
  have hcount : (properties.take o.members.length).length = o.members.length := by
    rw [List.length_take, hlength', hlength]
    omega
  refine List.forall₂_iff_get.mpr ⟨hcount.symm, fun i hi hi' => ?_⟩
  obtain ⟨property, hproperty, hkey⟩ := hholds i _ (List.getElem?_eq_getElem hi)
  obtain ⟨property', hproperty', hspans⟩ := hok i hi
  rw [Nat.zero_add] at hproperty
  obtain rfl : property' = property := Option.some.inj (hproperty'.symm.trans hproperty)
  have hget : (properties.take o.members.length).get ⟨i, hi'⟩ = property' := by
    rw [List.get_eq_getElem, List.getElem_take]
    exact (List.getElem?_eq_some_iff.mp hproperty').2
  rw [hget]
  have hvalue : property'.valueEnd ≤ o.encode.length := by
    obtain ⟨c, hc⟩ := Option.isSome_iff_exists.mp hspans.value.fetches
    exact hspans.value.valueEnd_le (List.getElem?_eq_some_iff.mp hc).1
  constructor
  · rw [keyBytes, ← slice_eq_bytesAt h.bytes (Nat.le_of_lt hspans.key_lt)]
    exact hkey.key
  · rw [valueBytes, ← slice_eq_bytesAt h.bytes hvalue]
    exact hkey.value

end Flat

/-- The UI shows of a packet what the decoder of the stream finds in it. -/
structure DisplayAgrees (packet : Received) (element : UiElement) : Prop where
  count : element.count = element.items.length
  shows : List.Forall₂ (Shows packet.memory) packet.found element.items
  /-- A number is in the UI under its key where it is written to its stream. -/
  measured : ∀ {α β : Type} (strtof : (ℕ → UInt8) → ℕ → α) (strtod : (ℕ → UInt8) → ℕ → β)
    (userId : UInt64) (i : ℕ) property item, packet.found[i]? = some property →
      element.items[i]? = some item → ∀ m ∈ measures,
        (streamId userId m.2.number ∈ (writeProperty packet.memory strtof strtod userId
            (packet.now * 1000) property).map Write.streamId ↔ item.key = bytesOf m.1 ++ [0])
  /-- Of a flat object the members are shown. -/
  members : ∀ o, Carries o packet → o.members.length ≤ 64 →
    element.items.map (fun item => (item.key, item.value)) =
      o.members.map fun m => (m.key.val ++ [0], m.valueSpan ++ [0])

/-- Every packet is shown unless one of its spans is longer than an `int` can tell, and then as
the decoder of the stream sees it, though the two parse it into different arrays. -/
theorem display_shows_stream (packet : Received) (properties : PropertyArray) :
    ((∃ element, decoderBuildUiElement packet.memory packet.size properties = some element) ↔
      ∀ property ∈ packet.found, property.Short) ∧
    ∀ element, decoderBuildUiElement packet.memory packet.size properties = some element →
      DisplayAgrees packet element := by
  have hparse : parse packet.memory packet.size properties = some packet.found := by
    rw [parse_stack_free _ _ packet.properties, packet.parse_eq]
  have hok := parse_spec packet.parse_eq
  have hbuild : decoderBuildUiElement packet.memory packet.size properties =
      (packet.found.mapM (textItem packet.memory)).map fun items => ⟨packet.found.length, items⟩ := by
    rw [decoderBuildUiElement, hparse, Option.map_eq_bind]
    rfl
  rw [hbuild]
  rcases mapM_textItem hok with ⟨hshort, items, hitems, hall⟩ | ⟨hlong, hnone⟩
  · rw [hitems]
    refine ⟨iff_of_true ⟨_, rfl⟩ hshort, ?_⟩
    rintro element ⟨⟩
    refine ⟨hall.length_eq, hall, ?_, ?_⟩
    · intro α β strtof strtod userId i property item hproperty hitem m hm
      have hshows : Shows packet.memory property item := by
        obtain ⟨hi, rfl⟩ := List.getElem?_eq_some_iff.mp hproperty
        obtain ⟨hi', rfl⟩ := List.getElem?_eq_some_iff.mp hitem
        exact hall.get hi hi'
      rw [(hok property (List.mem_of_getElem? hproperty)).mem_streams_iff userId _ hm, hshows.key]
      exact (List.append_left_inj [0]).symm
    · intro o hcarries hfew
      have hfound := hcarries.found hfew
      clear hitems
      generalize packet.found = found at hfound hall
      generalize o.members = ms at hfound ⊢
      induction hfound generalizing items with
      | nil =>
          cases hall
          rfl
      | cons hmember hrest ih =>
          cases hall with
          | cons hshows hall =>
              rw [List.map_cons, List.map_cons, hshows.key, hshows.value, hmember.1, hmember.2]
              exact congrArg (List.cons _) (ih _ hall)
  · rw [hnone]
    refine ⟨iff_of_false (by simp) hlong, ?_⟩
    intro element helement
    cases helement

end GeekOpen

end ConArtist
