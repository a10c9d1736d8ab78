import ConArtist.GeekOpen.Parser

/-!
# The spans of the properties

What the loop has stored of a property: `KeyOk` of the key whose value is still to come, and
`PropertyOk` of a property that is counted. `ScanOk` says it of the whole array, and the moves
preserve it, whatever can be read behind the end.
-/

namespace ConArtist

namespace GeekOpen

variable (fetch : ℕ → Option UInt8) (jsonEnd maxProperties : ℕ)

/-- The key has no quote, and ends at one unless the packet ends. -/
structure KeyOk (property : Property) : Prop where
  skipped : Skipped fetch (fun c => c ≠ quote) property.keyBegin property.keyEnd jsonEnd

/-- The spans of a property that is counted. -/
structure PropertyOk (property : Property) : Prop where
  key : KeyOk fetch jsonEnd property
  key_lt : property.keyEnd < jsonEnd
  value : ValueSpan fetch jsonEnd (property.keyEnd + 1) property.valueBegin property.valueEnd

/-- What the array holds while the loop runs. -/
structure ScanOk (s : Scan) : Prop where
  length : s.properties.length = maxProperties
  le : s.propertyCount ≤ maxProperties
  lt : s.state.IsOpen → s.propertyCount < maxProperties
  stored : s.state.IsOpen → ∀ property, s.properties[s.propertyCount]? = some property →
    KeyOk fetch jsonEnd property ∧ property.keyEnd < s.p
  counted : ∀ i < s.propertyCount, ∀ property, s.properties[i]? = some property →
    PropertyOk fetch jsonEnd property

variable {fetch jsonEnd maxProperties} {s s' : Scan}

theorem ScanOk.moves (hs : ScanOk fetch jsonEnd maxProperties s) (hlt : s.p < jsonEnd)
    (h : Moves fetch jsonEnd maxProperties s (.continues s')) :
    ScanOk fetch jsonEnd maxProperties s' := by
  cases h with
  | skips state p hp hopen =>
      refine ⟨hs.length, hs.le, fun h => hs.lt (hopen h), ?_, hs.counted⟩
      intro h property hproperty
      obtain ⟨hkey, hend⟩ := hs.stored (hopen h) property hproperty
      exact ⟨hkey, Nat.lt_trans hend hp⟩
  | key old keyBegin keyEnd state span lt hold =>
      have hin : s.propertyCount < s.properties.length := (List.getElem?_eq_some_iff.mp hold).1
      refine ⟨by simpa using hs.length, hs.le, fun _ => lt, ?_, ?_⟩
      · intro _ property hproperty
        rw [List.getElem?_set_self hin] at hproperty
        cases hproperty
        exact ⟨⟨span.skipped⟩, Nat.lt_succ_self _⟩
      · intro i hi property hproperty
        rw [List.getElem?_set_ne (Nat.ne_of_gt hi)] at hproperty
        exact hs.counted i hi property hproperty
  | value old p valueBegin valueEnd state le span le_p hold =>
      have hin : s.propertyCount < s.properties.length := (List.getElem?_eq_some_iff.mp hold).1
      have hopen : s.state.IsOpen := .inr state
      refine ⟨by simpa using hs.length, hs.lt hopen, ?_, ?_, ?_⟩
      · simp [EParseState.IsOpen]
      · simp [EParseState.IsOpen]
      · intro i hi property hproperty
        rcases Nat.eq_or_lt_of_le (Nat.le_of_lt_succ hi) with rfl | hi
        · rw [List.getElem?_set_self hin] at hproperty
          cases hproperty
          obtain ⟨hkey, hend⟩ := hs.stored hopen old hold
          refine ⟨⟨hkey.skipped⟩, Nat.lt_trans hend hlt, ?_⟩
          refine ⟨Nat.le_trans hend span.le, ?_, span.string, span.bare, span.fetches⟩
          have := span.le_max
          change valueBegin ≤ max (old.keyEnd + 1) jsonEnd
          omega
        · rw [List.getElem?_set_ne (Nat.ne_of_gt hi)] at hproperty
          exact hs.counted i hi property hproperty

theorem scanOk_start {properties : List Property} (h : properties.length = maxProperties) :
    ScanOk fetch jsonEnd maxProperties ⟨.expectObjectStart, 0, 0, properties⟩ where
  length := h
  le := Nat.zero_le _
  lt := by simp [EParseState.IsOpen]
  stored := by simp [EParseState.IsOpen]
  counted := fun i hi => absurd hi (Nat.not_lt_zero i)

/-- The properties that `s_parse_json` returns. -/
theorem sParseJson_returns {properties properties' : List Property} {count : ℕ}
    (hlength : properties.length = maxProperties)
    (h : sParseJson fetch jsonEnd properties maxProperties = .returns count properties') :
    count ≤ maxProperties ∧ properties'.length = maxProperties ∧
      ∀ i < count, ∃ property, properties'[i]? = some property ∧
        PropertyOk fetch jsonEnd property := by
  obtain ⟨s', hs', rfl, rfl⟩ := parseLoop_returns
    (fun s s' hs hlt hmoves => hs.moves hlt hmoves) (scanOk_start hlength) h
  refine ⟨hs'.le, hs'.length, fun i hi => ?_⟩
  have hin : i < s'.properties.length := by
    have := hs'.length
    have := hs'.le
    omega
  exact ⟨_, List.getElem?_eq_getElem hin, hs'.counted i hi _ (List.getElem?_eq_getElem hin)⟩

section Property

variable {property : Property}

theorem PropertyOk.fetch_keyEnd (h : PropertyOk fetch jsonEnd property) :
    fetch property.keyEnd = some quote := by
  obtain ⟨c, hc, hstop⟩ := h.key.skipped.stops h.key_lt
  rw [hc]
  simpa using hstop

theorem PropertyOk.keyEnd_lt_valueBegin (h : PropertyOk fetch jsonEnd property) :
    property.keyEnd < property.valueBegin := h.value.le

theorem ValueSpan.valueBegin_le {p valueBegin valueEnd : ℕ}
    (h : ValueSpan fetch jsonEnd p valueBegin valueEnd) : valueBegin ≤ valueEnd := by
  obtain ⟨c, hc⟩ := Option.isSome_iff_exists.mp h.fetches
  by_cases hquote : c = quote
  · exact Nat.le_of_succ_le (h.string (hquote ▸ hc)).le
  · exact (h.bare c hc hquote).le

theorem ValueSpan.valueEnd_le {p valueBegin valueEnd : ℕ}
    (h : ValueSpan fetch jsonEnd p valueBegin valueEnd) (hlt : valueBegin < jsonEnd) :
    valueEnd ≤ jsonEnd := by
  obtain ⟨c, hc⟩ := Option.isSome_iff_exists.mp h.fetches
  by_cases hquote : c = quote
  · have := (h.string (hquote ▸ hc)).le_max
    omega
  · have := (h.bare c hc hquote).le_max
    omega

end Property

end GeekOpen

end ConArtist
