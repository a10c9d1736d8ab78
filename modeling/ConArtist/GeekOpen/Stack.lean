import ConArtist.GeekOpen.Stream
import ConArtist.GeekOpen.Termination

/-!
# The array on the stack

The callers of `s_parse_json` hand it an array that they have not initialised. Nothing of what was
in the array comes back: a property that is counted had both of its spans written. So two calls
with different arrays, of the decoder of the stream and of that of the UI, find the same properties
in a packet.
-/

namespace ConArtist

namespace GeekOpen

/-- The scans differ only in what the array held before. -/
structure Alike (s s' : Scan) : Prop where
  state : s'.state = s.state
  propertyCount : s'.propertyCount = s.propertyCount
  p : s'.p = s.p
  length : s'.properties.length = s.properties.length
  counted : s'.properties.take s.propertyCount = s.properties.take s.propertyCount
  key : s.state.IsOpen → ∀ property property', s.properties[s.propertyCount]? = some property →
    s'.properties[s.propertyCount]? = some property' →
      property'.keyBegin = property.keyBegin ∧ property'.keyEnd = property.keyEnd

/-- What two iterations come to differs only in what the array held before. -/
inductive OutcomeAlike : Option Outcome → Option Outcome → Prop where
  | faults : OutcomeAlike none none
  | returns (count : ℕ) (properties properties' : List Property)
      (counted : properties'.take count = properties.take count) :
      OutcomeAlike (some (.returns count properties)) (some (.returns count properties'))
  | continues (s s' : Scan) (alike : Alike s s') :
      OutcomeAlike (some (.continues s)) (some (.continues s'))

theorem OutcomeAlike.bind {α : Type*} (x : Option α) {f g : α → Option Outcome}
    (h : ∀ a, OutcomeAlike (f a) (g a)) : OutcomeAlike (x.bind f) (x.bind g) := by
  cases x with
  | none => exact .faults
  | some a => exact h a

theorem OutcomeAlike.ite {c : Prop} [Decidable c] {x y x' y' : Option Outcome}
    (hx : OutcomeAlike x x') (hy : OutcomeAlike y y') :
    OutcomeAlike (if c then x else y) (if c then x' else y') := by
  split
  · exact hx
  · exact hy

section Iteration

variable {fetch : ℕ → Option UInt8} {jsonEnd maxProperties : ℕ} {s s' : Scan}

theorem Alike.enters (h : Alike s s') {state : EParseState} (p : ℕ)
    (hopen : state.IsOpen → s.state.IsOpen) :
    OutcomeAlike (some (.continues { s with state := state, p := p }))
      (some (.continues { s' with state := state, p := p })) :=
  .continues _ _ ⟨rfl, h.propertyCount, rfl, h.length, h.counted, fun hstate => h.key (hopen hstate)⟩

theorem Alike.skips (h : Alike s s') (p : ℕ) :
    OutcomeAlike (some (.continues { s with p := p })) (some (.continues { s' with p := p })) :=
  .continues _ _ ⟨h.state, h.propertyCount, rfl, h.length, h.counted, h.key⟩

theorem Alike.returns (h : Alike s s') :
    OutcomeAlike (some (.returns s.propertyCount s.properties))
      (some (.returns s'.propertyCount s'.properties)) :=
  h.propertyCount ▸ .returns s.propertyCount _ _ h.counted

theorem take_set_self {α : Type*} (xs : List α) (n : ℕ) (x : α) :
    (xs.set n x).take n = xs.take n := by
  rw [List.take_set, List.set_eq_of_length_le (by rw [List.length_take]; omega)]

theorem Alike.stores_key (h : Alike s s') (state : EParseState) (p keyBegin keyEnd : ℕ) :
    OutcomeAlike
      ((setProperty s.properties s.propertyCount fun property =>
        { property with keyBegin, keyEnd }).bind fun properties =>
          some (.continues { s with state := state, p := p, properties }))
      ((setProperty s'.properties s'.propertyCount fun property =>
        { property with keyBegin, keyEnd }).bind fun properties =>
          some (.continues { s' with state := state, p := p, properties })) := by
  obtain ⟨state₀, count₀, p₀, properties⟩ := s
  obtain ⟨state₁, count, p₁, properties'⟩ := s'
  obtain ⟨rfl, rfl, rfl, hlength, hcounted, -⟩ := h
  simp only at hlength hcounted
  rw [setProperty, setProperty]
  by_cases hlt : count < properties.length
  · have hlt' : count < properties'.length := hlength ▸ hlt
    rw [List.getElem?_eq_getElem hlt, List.getElem?_eq_getElem hlt']
    refine .continues _ _ ⟨rfl, rfl, rfl, by simp [hlength], ?_, ?_⟩
    · simpa only [take_set_self] using hcounted
    · rintro - property property' hproperty hproperty'
      simp only [List.getElem?_set_self hlt, Option.some.injEq] at hproperty
      simp only [List.getElem?_set_self hlt', Option.some.injEq] at hproperty'
      subst hproperty hproperty'
      exact ⟨rfl, rfl⟩
  · rw [List.getElem?_eq_none (Nat.not_lt.mp hlt),
      List.getElem?_eq_none (hlength ▸ Nat.not_lt.mp hlt)]
    exact .faults

theorem Alike.stores_value (h : Alike s s') (hopen : s.state.IsOpen) (p valueBegin valueEnd : ℕ) :
    OutcomeAlike
      ((setProperty s.properties s.propertyCount fun property =>
        { property with valueBegin, valueEnd }).bind fun properties =>
          some (.continues ⟨.expectCommaOrObjectEnd, s.propertyCount + 1, p, properties⟩))
      ((setProperty s'.properties s'.propertyCount fun property =>
        { property with valueBegin, valueEnd }).bind fun properties =>
          some (.continues ⟨.expectCommaOrObjectEnd, s'.propertyCount + 1, p, properties⟩)) := by
  obtain ⟨state₀, count₀, p₀, properties⟩ := s
  obtain ⟨state₁, count, p₁, properties'⟩ := s'
  obtain ⟨rfl, rfl, rfl, hlength, hcounted, hkey⟩ := h
  simp only at hlength hcounted hkey
  rw [setProperty, setProperty]
  by_cases hlt : count < properties.length
  · have hlt' : count < properties'.length := hlength ▸ hlt
    obtain ⟨hbegin, hend⟩ := hkey hopen _ _ (List.getElem?_eq_getElem hlt)
      (List.getElem?_eq_getElem hlt')
    rw [List.getElem?_eq_getElem hlt, List.getElem?_eq_getElem hlt']
    refine .continues _ _ ⟨rfl, rfl, rfl, by simp [hlength], ?_, ?_⟩
    · simp only
      rw [List.take_add_one, List.take_add_one, take_set_self, take_set_self, hcounted,
        List.getElem?_set_self hlt, List.getElem?_set_self hlt', hbegin, hend]
    · rintro (hstate | hstate) <;> cases hstate
  · rw [List.getElem?_eq_none (Nat.not_lt.mp hlt),
      List.getElem?_eq_none (hlength ▸ Nat.not_lt.mp hlt)]
    exact .faults

theorem not_isOpen_expectKeyOrObjectEnd : ¬ EParseState.expectKeyOrObjectEnd.IsOpen := by
  rintro (h | h) <;> cases h

theorem Alike.expectObjectStart (h : Alike s s') :
    OutcomeAlike (GeekOpen.expectObjectStart fetch jsonEnd s)
      (GeekOpen.expectObjectStart fetch jsonEnd s') := by
  rw [GeekOpen.expectObjectStart, GeekOpen.expectObjectStart, h.p]
  refine .bind _ fun p => .bind _ fun c => .ite (h.enters _ fun hopen => ?_) (h.skips _)
  exact absurd hopen not_isOpen_expectKeyOrObjectEnd

theorem Alike.expectKeyOrObjectEnd (h : Alike s s') :
    OutcomeAlike (GeekOpen.expectKeyOrObjectEnd fetch jsonEnd maxProperties s)
      (GeekOpen.expectKeyOrObjectEnd fetch jsonEnd maxProperties s') := by
  rw [GeekOpen.expectKeyOrObjectEnd, GeekOpen.expectKeyOrObjectEnd, h.p]
  refine .bind _ fun p => .bind _ fun c => .ite h.returns (.ite ?_ (h.skips _))
  refine .bind _ fun keyEnd => ?_
  rw [h.propertyCount]
  exact .ite (h.propertyCount ▸ h.stores_key .expectColon _ _ _) (h.propertyCount ▸ h.returns)

theorem Alike.expectColon (h : Alike s s') (hstate : s.state = .expectColon) :
    OutcomeAlike (GeekOpen.expectColon fetch jsonEnd s)
      (GeekOpen.expectColon fetch jsonEnd s') := by
  rw [GeekOpen.expectColon, GeekOpen.expectColon, h.p]
  exact .bind _ fun p => .bind _ fun c => .ite (h.enters _ fun _ => .inl hstate) (h.skips _)

theorem Alike.expectValue (h : Alike s s') (hstate : s.state = .expectValue) :
    OutcomeAlike (GeekOpen.expectValue fetch jsonEnd s)
      (GeekOpen.expectValue fetch jsonEnd s') := by
  rw [GeekOpen.expectValue, GeekOpen.expectValue, h.p]
  refine .bind _ fun valueBegin => .bind _ fun c => .ite ?_ ?_
  · exact .bind _ fun valueEnd => h.stores_value (.inr hstate) _ _ _
  · exact .bind _ fun valueEnd => h.stores_value (.inr hstate) _ _ _

theorem Alike.expectCommaOrObjectEnd (h : Alike s s') :
    OutcomeAlike (GeekOpen.expectCommaOrObjectEnd fetch jsonEnd s)
      (GeekOpen.expectCommaOrObjectEnd fetch jsonEnd s') := by
  rw [GeekOpen.expectCommaOrObjectEnd, GeekOpen.expectCommaOrObjectEnd, h.p]
  refine .bind _ fun p => .bind _ fun c => .ite (h.enters _ fun hopen => ?_)
    (.ite h.returns (h.skips _))
  exact absurd hopen not_isOpen_expectKeyOrObjectEnd

theorem Alike.iteration (h : Alike s s') :
    OutcomeAlike (GeekOpen.iteration fetch jsonEnd maxProperties s)
      (GeekOpen.iteration fetch jsonEnd maxProperties s') := by
  rw [GeekOpen.iteration, GeekOpen.iteration, h.state]
  cases hstate : s.state with
  | expectObjectStart => exact h.expectObjectStart
  | expectKeyOrObjectEnd => exact h.expectKeyOrObjectEnd
  | expectColon => exact h.expectColon hstate
  | expectValue => exact h.expectValue hstate
  | expectCommaOrObjectEnd => exact h.expectCommaOrObjectEnd

/-- The properties that a call returns. -/
def Result.counted : Result → Option (List Property)
  | .returns count properties => some (properties.take count)
  | _ => none

theorem Alike.counted_parseLoop (h : Alike s s') (fuel : ℕ) :
    (parseLoop fetch jsonEnd maxProperties fuel s').counted =
      (parseLoop fetch jsonEnd maxProperties fuel s).counted := by
  induction fuel generalizing s s' with
  | zero =>
      rw [parseLoop, parseLoop, h.p]
      split
      · rfl
      · rw [Result.counted, Result.counted, h.propertyCount, h.counted]
  | succ fuel ih =>
      rw [parseLoop, parseLoop, h.p]
      split
      · have hiteration : OutcomeAlike (GeekOpen.iteration fetch jsonEnd maxProperties s)
            (GeekOpen.iteration fetch jsonEnd maxProperties s') := h.iteration
        generalize GeekOpen.iteration fetch jsonEnd maxProperties s = outcome at hiteration ⊢
        generalize GeekOpen.iteration fetch jsonEnd maxProperties s' = outcome' at hiteration ⊢
        cases hiteration with
        | faults => rfl
        | returns count properties properties' counted => exact congrArg some counted
        | continues s s' alike => exact ih alike
      · rw [Result.counted, Result.counted, h.propertyCount, h.counted]

end Iteration

section Parse

variable (memory : ℕ → UInt8) (size : UInt32)

theorem parse_eq_counted (properties : PropertyArray) : parse memory size properties =
    (sParseJson (fun p => some (memory p)) size.toNat properties.val 64).counted := by
  rw [parse]
  cases sParseJson (fun p => some (memory p)) size.toNat properties.val 64 <;> rfl

theorem parse_stack_free (properties properties' : PropertyArray) :
    parse memory size properties' = parse memory size properties := by
  have halike : Alike ⟨.expectObjectStart, 0, 0, properties.val⟩
      ⟨.expectObjectStart, 0, 0, properties'.val⟩ := by
    refine ⟨rfl, rfl, rfl, properties'.property.trans properties.property.symm, rfl, ?_⟩
    rintro (hstate | hstate) <;> cases hstate
  rw [parse_eq_counted, parse_eq_counted]
  exact halike.counted_parseLoop _

theorem exists_counted (n : ℕ) (properties : List Property) : ∃ found,
    (sParseJson (fun p => some (memory p)) n properties properties.length).counted =
      some found := by
  have hmeasure : measure n ⟨.expectObjectStart, 0, 0, properties⟩ ≤ 2 * n + 1 := by
    simp [measure]
  obtain ⟨k, hk, count, properties', hends⟩ :=
    exists_endsIn memory hmeasure (scanOk_start rfl)
  refine ⟨properties'.take count, ?_⟩
  rw [sParseJson, hends.parseLoop_eq hk]
  rfl

theorem exists_parse (properties : PropertyArray) :
    ∃ found, parse memory size properties = some found := by
  obtain ⟨found, hfound⟩ := exists_counted memory size.toNat properties.val
  rw [properties.property] at hfound
  exact ⟨found, (parse_eq_counted memory size properties).trans hfound⟩

end Parse

end GeekOpen

end ConArtist
