import Mathlib.Logic.Relation
import ConArtist.GeekOpen.Spans

/-!
# The end of the parser's loop

The iterations are counted without a bound on them. `EndsIn` says that the loop is over after so
many iterations, of which the last one may return.

The position does not grow in every iteration: behind the colon of an empty value it stays, and
only the state changes. `measure` counts both, and no iteration faults when all bytes can be read,
those from `json_end` on included.
-/

namespace ConArtist

namespace GeekOpen

section Loop

variable (fetch : ℕ → Option UInt8) (jsonEnd maxProperties : ℕ)

/-- An iteration after which the loop goes on. -/
def Continues (s s' : Scan) : Prop :=
  s.p < jsonEnd ∧ iteration fetch jsonEnd maxProperties s = some (.continues s')

/-- The loop is over after `n` iterations, with what is returned. -/
inductive EndsIn : ℕ → Scan → ℕ → List Property → Prop
  | ends {s : Scan} (le : jsonEnd ≤ s.p) : EndsIn 0 s s.propertyCount s.properties
  | returns {s : Scan} {count : ℕ} {properties : List Property} (lt : s.p < jsonEnd)
      (iteration_eq : iteration fetch jsonEnd maxProperties s = some (.returns count properties)) :
      EndsIn 1 s count properties
  | continues {n : ℕ} {s s' : Scan} {count : ℕ} {properties : List Property}
      (continues : Continues fetch jsonEnd maxProperties s s')
      (rest : EndsIn n s' count properties) : EndsIn (n + 1) s count properties

variable {fetch jsonEnd maxProperties} {s : Scan} {n count : ℕ} {properties : List Property}

/-- So many iterations are enough for `parseLoop`. -/
theorem EndsIn.parseLoop_eq (h : EndsIn fetch jsonEnd maxProperties n s count properties)
    {fuel : ℕ} (hfuel : n ≤ fuel) :
    parseLoop fetch jsonEnd maxProperties fuel s = .returns count properties := by
  induction h generalizing fuel with
  | ends le => exact parseLoop_of_le (Nat.not_lt.mpr le)
  | returns lt iteration_eq =>
      obtain ⟨fuel, rfl⟩ := Nat.exists_eq_add_of_le' hfuel
      rw [parseLoop, if_pos lt, iteration_eq]
  | continues continues rest ih =>
      obtain ⟨fuel, rfl⟩ := Nat.exists_eq_add_of_le' (Nat.le_of_add_left_le hfuel)
      rw [parseLoop, if_pos continues.1, continues.2]
      exact ih (by omega)

end Loop

section Total

variable (memory : ℕ → UInt8) {jsonEnd maxProperties : ℕ} {s : Scan}

theorem skipWhile_total (skip : UInt8 → Bool) (n p : ℕ) :
    ∃ q, skipWhile (fun p => some (memory p)) skip n p = some q := by
  induction n generalizing p with
  | zero => exact ⟨p, rfl⟩
  | succ n ih =>
      simp only [skipWhile]
      split
      · exact ih (p + 1)
      · exact ⟨p, rfl⟩

theorem trimWhitespace_total (p jsonEnd : ℕ) :
    ∃ q, trimWhitespace (fun p => some (memory p)) p jsonEnd = some q :=
  skipWhile_total memory isWhitespace (jsonEnd - p) p

theorem setProperty_total {properties : List Property} {i : ℕ} (h : i < properties.length)
    (update : Property → Property) :
    ∃ properties', setProperty properties i update = some properties' :=
  ⟨_, by rw [setProperty, List.getElem?_eq_getElem h, Option.map_some]⟩

theorem expectObjectStart_total :
    ∃ outcome, expectObjectStart (fun p => some (memory p)) jsonEnd s = some outcome := by
  obtain ⟨p, hp⟩ := trimWhitespace_total memory s.p jsonEnd
  simp only [expectObjectStart, hp, Option.bind_eq_bind, Option.bind_some]
  split <;> exact ⟨_, rfl⟩

theorem expectColon_total :
    ∃ outcome, expectColon (fun p => some (memory p)) jsonEnd s = some outcome := by
  obtain ⟨p, hp⟩ := trimWhitespace_total memory s.p jsonEnd
  simp only [expectColon, hp, Option.bind_eq_bind, Option.bind_some]
  split <;> exact ⟨_, rfl⟩

theorem expectCommaOrObjectEnd_total :
    ∃ outcome, expectCommaOrObjectEnd (fun p => some (memory p)) jsonEnd s = some outcome := by
  obtain ⟨p, hp⟩ := trimWhitespace_total memory s.p jsonEnd
  simp only [expectCommaOrObjectEnd, hp, Option.bind_eq_bind, Option.bind_some]
  split
  · exact ⟨_, rfl⟩
  · split <;> exact ⟨_, rfl⟩

theorem expectKeyOrObjectEnd_total (hlength : s.properties.length = maxProperties) :
    ∃ outcome, expectKeyOrObjectEnd (fun p => some (memory p)) jsonEnd maxProperties s =
      some outcome := by
  obtain ⟨p, hp⟩ := trimWhitespace_total memory s.p jsonEnd
  obtain ⟨keyEnd, hkeyEnd⟩ :=
    skipWhile_total memory (fun c => c ≠ quote) (jsonEnd - (p + 1)) (p + 1)
  simp only [expectKeyOrObjectEnd, hp, hkeyEnd, Option.bind_eq_bind, Option.bind_some]
  split
  · exact ⟨_, rfl⟩
  · split
    · split
      case isTrue hlt =>
          -- the array has `max_properties` entries, so the key finds its own
          obtain ⟨properties, hproperties⟩ := setProperty_total (hlength ▸ hlt)
            fun property => { property with keyBegin := p + 1, keyEnd }
          exact ⟨_, by rw [hproperties, Option.bind_some]⟩
      case isFalse => exact ⟨_, rfl⟩
    · exact ⟨_, rfl⟩

theorem expectValue_total (hlt : s.propertyCount < s.properties.length) :
    ∃ outcome, expectValue (fun p => some (memory p)) jsonEnd s = some outcome := by
  obtain ⟨valueBegin, hp⟩ := trimWhitespace_total memory s.p jsonEnd
  simp only [expectValue, hp, Option.bind_eq_bind, Option.bind_some]
  split
  · obtain ⟨valueEnd, hvalueEnd⟩ :=
      skipWhile_total memory (fun c => c ≠ quote) (jsonEnd - (valueBegin + 1)) (valueBegin + 1)
    obtain ⟨properties, hproperties⟩ := setProperty_total hlt
      fun property => { property with valueBegin, valueEnd }
    rw [hvalueEnd, Option.bind_some, hproperties, Option.bind_some]
    exact ⟨_, rfl⟩
  · obtain ⟨valueEnd, hvalueEnd⟩ := skipWhile_total memory
      (fun c => c ≠ comma && c ≠ braceClose) (jsonEnd - valueBegin) valueBegin
    obtain ⟨properties, hproperties⟩ := setProperty_total hlt
      fun property => { property with valueBegin, valueEnd }
    rw [hvalueEnd, Option.bind_some, hproperties, Option.bind_some]
    exact ⟨_, rfl⟩

/-- Where all bytes can be read, no iteration faults: what is written is in the array. -/
theorem iteration_total (ok : ScanOk (fun p => some (memory p)) jsonEnd maxProperties s) :
    ∃ outcome, iteration (fun p => some (memory p)) jsonEnd maxProperties s = some outcome := by
  rw [iteration]
  cases hstate : s.state with
  | expectObjectStart => exact expectObjectStart_total memory
  | expectKeyOrObjectEnd => exact expectKeyOrObjectEnd_total memory ok.length
  | expectColon => exact expectColon_total memory
  | expectValue =>
      have hlt : s.propertyCount < s.properties.length := ok.length.symm ▸ ok.lt (.inr hstate)
      exact expectValue_total memory hlt
  | expectCommaOrObjectEnd => exact expectCommaOrObjectEnd_total memory

/-- The loop is over after as many iterations as the measure says, or before. -/
theorem exists_endsIn {k : ℕ} (hk : measure jsonEnd s ≤ k)
    (ok : ScanOk (fun p => some (memory p)) jsonEnd maxProperties s) :
    ∃ n ≤ k, ∃ count properties,
      EndsIn (fun p => some (memory p)) jsonEnd maxProperties n s count properties := by
  induction k generalizing s with
  | zero =>
      have hge : jsonEnd ≤ s.p := by
        rw [measure] at hk
        omega
      exact ⟨0, Nat.le_refl 0, _, _, .ends hge⟩
  | succ k ih =>
      by_cases hlt : s.p < jsonEnd
      · obtain ⟨outcome, houtcome⟩ := iteration_total memory ok
        cases outcome with
        | returns count properties =>
            exact ⟨1, Nat.le_add_left 1 k, count, properties, .returns hlt houtcome⟩
        | continues s' =>
            have hmoves := moves_of_iteration houtcome
            have hdecreases := measure_lt hmoves hlt
            obtain ⟨n, hn, count, properties, hends⟩ := ih (by omega) (ok.moves hlt hmoves)
            exact ⟨n + 1, Nat.succ_le_succ hn, count, properties, .continues ⟨hlt, houtcome⟩ hends⟩
      · exact ⟨0, Nat.zero_le _, _, _, .ends (Nat.not_lt.mp hlt)⟩

end Total

section Empty

variable {fetch : ℕ → Option UInt8} {jsonEnd maxProperties : ℕ} {s : Scan} {c : UInt8}
  {property : Property}

/-- At a comma or a closing brace the value is empty, and the position stays. -/
theorem continues_empty (hlt : s.p < jsonEnd) (hstate : s.state = .expectValue)
    (hc : fetch s.p = some c) (hends : c = comma ∨ c = braceClose)
    (hproperty : s.properties[s.propertyCount]? = some property) :
    Continues fetch jsonEnd maxProperties s ⟨.expectCommaOrObjectEnd, s.propertyCount + 1, s.p,
      s.properties.set s.propertyCount { property with valueBegin := s.p, valueEnd := s.p }⟩ := by
  obtain ⟨n, hn⟩ := Nat.exists_eq_add_of_lt hlt
  have hroom : jsonEnd - s.p = n + 1 := by omega
  have hwhite : isWhitespace c = false := by rcases hends with rfl | rfl <;> rfl
  have hquote : c ≠ quote := by rcases hends with rfl | rfl <;> decide
  have hbare : (decide (c ≠ comma) && decide (c ≠ braceClose)) = false := by
    rcases hends with rfl | rfl <;> rfl
  have htrim : trimWhitespace fetch s.p jsonEnd = some s.p := by
    simp only [trimWhitespace, hroom, skipWhile, hc, hwhite, Bool.false_eq_true, if_false]
  have hend : skipWhile fetch (fun c => c ≠ comma && c ≠ braceClose) (jsonEnd - s.p) s.p =
      some s.p := by
    simp only [hroom, skipWhile, hc, hbare, Bool.false_eq_true, if_false]
  refine ⟨hlt, ?_⟩
  simp only [iteration, hstate, expectValue, htrim, hc, Option.bind_eq_bind, Option.bind_some,
    if_neg hquote, hend, setProperty, hproperty, Option.map_some]

/-- The packet `{"":,`. -/
def emptyValue (i : ℕ) : UInt8 := [braceOpen, quote, quote, colon, comma].getD i 0

theorem reaches_emptyValue :
    Relation.ReflTransGen (Continues (fun p => some (emptyValue p)) 5 1)
      ⟨.expectObjectStart, 0, 0, [⟨0, 0, 0, 0⟩]⟩ ⟨.expectValue, 0, 4, [⟨2, 2, 0, 0⟩]⟩ := by
  have hobject : Continues (fun p => some (emptyValue p)) 5 1
      ⟨.expectObjectStart, 0, 0, [⟨0, 0, 0, 0⟩]⟩ ⟨.expectKeyOrObjectEnd, 0, 1, [⟨0, 0, 0, 0⟩]⟩ :=
    ⟨by decide, rfl⟩
  have hkey : Continues (fun p => some (emptyValue p)) 5 1
      ⟨.expectKeyOrObjectEnd, 0, 1, [⟨0, 0, 0, 0⟩]⟩ ⟨.expectColon, 0, 3, [⟨2, 2, 0, 0⟩]⟩ :=
    ⟨by decide, rfl⟩
  have hcolon : Continues (fun p => some (emptyValue p)) 5 1
      ⟨.expectColon, 0, 3, [⟨2, 2, 0, 0⟩]⟩ ⟨.expectValue, 0, 4, [⟨2, 2, 0, 0⟩]⟩ :=
    ⟨by decide, rfl⟩
  exact ((Relation.ReflTransGen.single hobject).tail hkey).tail hcolon

end Empty

/-- On every packet, whatever the bytes behind it are, the loop of `s_parse_json` returns after at
most twice as many iterations as there are bytes; not every iteration moves on. -/
theorem sParseJson_endsIn :
    (∀ (memory : ℕ → UInt8) (jsonEnd : ℕ) (properties : List Property),
      ∃ n ≤ 2 * jsonEnd, ∃ count properties',
        EndsIn (fun p => some (memory p)) jsonEnd properties.length n
          ⟨.expectObjectStart, 0, 0, properties⟩ count properties' ∧
        sParseJson (fun p => some (memory p)) jsonEnd properties properties.length =
          .returns count properties') ∧
      ∃ (memory : ℕ → UInt8) (jsonEnd : ℕ) (properties : List Property) (s s' : Scan),
        Relation.ReflTransGen (Continues (fun p => some (memory p)) jsonEnd properties.length)
          ⟨.expectObjectStart, 0, 0, properties⟩ s ∧
        Continues (fun p => some (memory p)) jsonEnd properties.length s s' ∧ s'.p = s.p := by
  constructor
  · intro memory jsonEnd properties
    have hmeasure : measure jsonEnd ⟨.expectObjectStart, 0, 0, properties⟩ ≤ 2 * jsonEnd := by
      simp [measure]
    obtain ⟨n, hn, count, properties', hends⟩ :=
      exists_endsIn memory hmeasure (scanOk_start rfl)
    exact ⟨n, hn, count, properties', hends, hends.parseLoop_eq (Nat.le_succ_of_le hn)⟩
  · have hempty : Continues (fun p => some (emptyValue p)) 5 1
        ⟨.expectValue, 0, 4, [⟨2, 2, 0, 0⟩]⟩ _ :=
      continues_empty (by decide) rfl rfl (.inl rfl) rfl
    exact ⟨emptyValue, 5, [⟨0, 0, 0, 0⟩], _, _, reaches_emptyValue, hempty, rfl⟩

end GeekOpen

end ConArtist
