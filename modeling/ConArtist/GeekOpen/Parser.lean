import Mathlib.Data.List.Basic

/-!
# The GeekOpen parser

`s_parse_json` over what can be read of a memory. Positions are offsets from `json`, and a byte
that cannot be read is a fault, as is a property that is not in the array. With `json[p]?` only
the bytes of the packet can be read, with `some (memory p)` those behind it as well.

One iteration of the loop is a function, and the loop counts its iterations down.
-/

namespace ConArtist

namespace GeekOpen

abbrev quote : UInt8 := 0x22
abbrev comma : UInt8 := 0x2C
abbrev colon : UInt8 := 0x3A
abbrev braceOpen : UInt8 := 0x7B
abbrev braceClose : UInt8 := 0x7D

/-- The characters that `trim_whitespace` skips: a space, `\n`, `\r` and `\t`. -/
def isWhitespace (c : UInt8) : Bool := c = 0x20 || c = 0x0A || c = 0x0D || c = 0x09

/-- `json_property_t`. -/
structure Property where
  keyBegin : ℕ
  keyEnd : ℕ
  valueBegin : ℕ
  valueEnd : ℕ
  deriving DecidableEq

inductive EParseState where
  | expectObjectStart
  | expectKeyOrObjectEnd
  | expectColon
  | expectValue
  | expectCommaOrObjectEnd
  deriving DecidableEq

/-- The locals of the loop. -/
structure Scan where
  state : EParseState
  propertyCount : ℕ
  p : ℕ
  properties : List Property

/-- What an iteration of the loop comes to. -/
inductive Outcome where
  | continues (s : Scan)
  | returns (count : ℕ) (properties : List Property)

/-- What the loop comes to: `faults` when it reads or writes out of range, `runs` when the
iterations are used up. -/
inductive Result where
  | returns (count : ℕ) (properties : List Property)
  | faults
  | runs
  deriving DecidableEq

section Parser

variable (fetch : ℕ → Option UInt8)

/-- `while (p < end && skip(*p)) p++`, with `n` the distance to the end. -/
def skipWhile (skip : UInt8 → Bool) : ℕ → ℕ → Option ℕ
  | 0, p => some p
  | n + 1, p =>
      match fetch p with
      | none => none
      | some c => if skip c then skipWhile skip n (p + 1) else some p

/-- `trim_whitespace`. -/
def trimWhitespace (p jsonEnd : ℕ) : Option ℕ := skipWhile fetch isWhitespace (jsonEnd - p) p

/-- The update of `properties[i]`. -/
def setProperty (properties : List Property) (i : ℕ) (update : Property → Property) :
    Option (List Property) :=
  properties[i]?.map fun property => properties.set i (update property)

/-- `case StateExpectObjectStart`. -/
def expectObjectStart (jsonEnd : ℕ) (s : Scan) : Option Outcome := do
  let p ← trimWhitespace fetch s.p jsonEnd
  let c ← fetch p
  if c = braceOpen then
    some (.continues { s with state := .expectKeyOrObjectEnd, p := p + 1 })
  else some (.continues { s with p := p + 1 })

/-- `case StateExpectKeyOrObjectEnd`. -/
def expectKeyOrObjectEnd (jsonEnd maxProperties : ℕ) (s : Scan) : Option Outcome := do
  let p ← trimWhitespace fetch s.p jsonEnd
  let c ← fetch p
  if c = braceClose then some (.returns s.propertyCount s.properties)
  else if c = quote then
    let keyBegin := p + 1
    let keyEnd ← skipWhile fetch (fun c => c ≠ quote) (jsonEnd - keyBegin) keyBegin
    if s.propertyCount < maxProperties then
      let properties ← setProperty s.properties s.propertyCount fun property =>
        { property with keyBegin, keyEnd }
      some (.continues { s with state := .expectColon, p := keyEnd + 1, properties })
    else some (.returns s.propertyCount s.properties)
  else some (.continues { s with p := p + 1 })

/-- `case StateExpectColon`. -/
def expectColon (jsonEnd : ℕ) (s : Scan) : Option Outcome := do
  let p ← trimWhitespace fetch s.p jsonEnd
  let c ← fetch p
  if c = colon then some (.continues { s with state := .expectValue, p := p + 1 })
  else some (.continues { s with p := p + 1 })

/-- `case StateExpectValue`. -/
def expectValue (jsonEnd : ℕ) (s : Scan) : Option Outcome := do
  let valueBegin ← trimWhitespace fetch s.p jsonEnd
  let c ← fetch valueBegin
  if c = quote then
    let valueEnd ←
      skipWhile fetch (fun c => c ≠ quote) (jsonEnd - (valueBegin + 1)) (valueBegin + 1)
    let properties ← setProperty s.properties s.propertyCount fun property =>
      { property with valueBegin, valueEnd }
    some (.continues ⟨.expectCommaOrObjectEnd, s.propertyCount + 1, valueEnd + 1, properties⟩)
  else
    let valueEnd ←
      skipWhile fetch (fun c => c ≠ comma && c ≠ braceClose) (jsonEnd - valueBegin) valueBegin
    let properties ← setProperty s.properties s.propertyCount fun property =>
      { property with valueBegin, valueEnd }
    some (.continues ⟨.expectCommaOrObjectEnd, s.propertyCount + 1, valueEnd, properties⟩)

/-- `case StateExpectCommaOrObjectEnd`. -/
def expectCommaOrObjectEnd (jsonEnd : ℕ) (s : Scan) : Option Outcome := do
  let p ← trimWhitespace fetch s.p jsonEnd
  let c ← fetch p
  if c = comma then some (.continues { s with state := .expectKeyOrObjectEnd, p := p + 1 })
  else if c = braceClose then some (.returns s.propertyCount s.properties)
  else some (.continues { s with p := p + 1 })

def iteration (jsonEnd maxProperties : ℕ) (s : Scan) : Option Outcome :=
  match s.state with
  | .expectObjectStart => expectObjectStart fetch jsonEnd s
  | .expectKeyOrObjectEnd => expectKeyOrObjectEnd fetch jsonEnd maxProperties s
  | .expectColon => expectColon fetch jsonEnd s
  | .expectValue => expectValue fetch jsonEnd s
  | .expectCommaOrObjectEnd => expectCommaOrObjectEnd fetch jsonEnd s

/-- The loop, for a number of iterations. -/
def parseLoop (jsonEnd maxProperties : ℕ) : ℕ → Scan → Result
  | fuel, s =>
      if s.p < jsonEnd then
        match fuel with
        | 0 => .runs
        | fuel + 1 =>
            match iteration fetch jsonEnd maxProperties s with
            | none => .faults
            | some (.returns count properties) => .returns count properties
            | some (.continues s') => parseLoop jsonEnd maxProperties fuel s'
      else .returns s.propertyCount s.properties

/-- `s_parse_json`. The array is as it was before the call. -/
def sParseJson (jsonEnd : ℕ) (properties : List Property) (maxProperties : ℕ) : Result :=
  parseLoop fetch jsonEnd maxProperties (2 * jsonEnd + 1) ⟨.expectObjectStart, 0, 0, properties⟩

end Parser

section Skip

variable {fetch : ℕ → Option UInt8} {skip : UInt8 → Bool}

/-- What is between the positions is skipped, and what is behind it, before the end, is not. -/
structure Skipped (fetch : ℕ → Option UInt8) (skip : UInt8 → Bool) (p q jsonEnd : ℕ) : Prop where
  le : p ≤ q
  le_max : q ≤ max p jsonEnd
  skips : ∀ i, p ≤ i → i < q → ∃ c, fetch i = some c ∧ skip c = true
  stops : q < jsonEnd → ∃ c, fetch q = some c ∧ skip c = false

theorem skipped_of_skipWhile {n p q : ℕ} (h : skipWhile fetch skip n p = some q) :
    Skipped fetch skip p q (p + n) := by
  induction n generalizing p with
  | zero =>
      cases h
      exact ⟨Nat.le_refl _, by simp, fun i hi hlt => by omega, fun hlt => by omega⟩
  | succ n ih =>
      rw [skipWhile] at h
      cases hc : fetch p with
      | none =>
          rw [hc] at h
          cases h
      | some c =>
          simp only [hc] at h
          split at h
          case isTrue hskip =>
              have hih := ih h
              refine ⟨by have := hih.le; omega, by have := hih.le_max; omega, ?_, ?_⟩
              · intro i hi hlt
                rcases Nat.eq_or_lt_of_le hi with rfl | hi
                · exact ⟨c, hc, hskip⟩
                · exact hih.skips i hi hlt
              · intro hlt
                exact hih.stops (by omega)
          case isFalse hskip =>
              cases h
              exact ⟨Nat.le_refl _, by omega, fun i hi hlt => by omega,
                fun _ => ⟨c, hc, Bool.eq_false_iff.mpr hskip⟩⟩

theorem skipped_of_skipWhile_sub {p q jsonEnd : ℕ}
    (h : skipWhile fetch skip (jsonEnd - p) p = some q) : Skipped fetch skip p q jsonEnd := by
  have hspec := skipped_of_skipWhile h
  exact ⟨hspec.le, by have := hspec.le_max; omega, hspec.skips, fun hlt => hspec.stops (by omega)⟩

end Skip

section Moves

variable (fetch : ℕ → Option UInt8) (jsonEnd maxProperties : ℕ)

/-- A key is stored whose value is still to come. -/
def EParseState.IsOpen (state : EParseState) : Prop :=
  state = .expectColon ∨ state = .expectValue

/-- The key of a quoted string that begins behind its quote. -/
structure KeySpan (p keyBegin keyEnd : ℕ) : Prop where
  lt : p < keyBegin
  skipped : Skipped fetch (fun c => c ≠ quote) keyBegin keyEnd jsonEnd

/-- The span of a value. That of a string begins at its first quote and ends at its second. -/
structure ValueSpan (p valueBegin valueEnd : ℕ) : Prop where
  le : p ≤ valueBegin
  le_max : valueBegin ≤ max p jsonEnd
  string : fetch valueBegin = some quote →
    Skipped fetch (fun c => c ≠ quote) (valueBegin + 1) valueEnd jsonEnd
  bare : ∀ c, fetch valueBegin = some c → c ≠ quote →
    Skipped fetch (fun c => c ≠ comma && c ≠ braceClose) valueBegin valueEnd jsonEnd
  fetches : (fetch valueBegin).isSome

/-- What an iteration can do. -/
inductive Moves (s : Scan) : Outcome → Prop where
  | skips (state : EParseState) (p : ℕ) (lt : s.p < p) (isOpen : state.IsOpen → s.state.IsOpen) :
      Moves s (.continues { s with state := state, p := p })
  | key (property : Property) (keyBegin keyEnd : ℕ) (state : s.state = .expectKeyOrObjectEnd)
      (span : KeySpan fetch jsonEnd s.p keyBegin keyEnd) (lt : s.propertyCount < maxProperties)
      (getElem? : s.properties[s.propertyCount]? = some property) :
      Moves s (.continues ⟨.expectColon, s.propertyCount, keyEnd + 1,
        s.properties.set s.propertyCount { property with keyBegin, keyEnd }⟩)
  | value (property : Property) (p valueBegin valueEnd : ℕ) (state : s.state = .expectValue)
      (le : s.p ≤ p) (span : ValueSpan fetch jsonEnd s.p valueBegin valueEnd)
      (le_p : valueEnd ≤ p)
      (getElem? : s.properties[s.propertyCount]? = some property) :
      Moves s (.continues ⟨.expectCommaOrObjectEnd, s.propertyCount + 1, p,
        s.properties.set s.propertyCount { property with valueBegin, valueEnd }⟩)
  | returns : Moves s (.returns s.propertyCount s.properties)

variable {fetch jsonEnd maxProperties} {s : Scan} {outcome : Outcome}

theorem setProperty_eq_some {properties properties' : List Property} {i : ℕ}
    {update : Property → Property} (h : setProperty properties i update = some properties') :
    ∃ property, properties[i]? = some property ∧
      properties' = properties.set i (update property) := by
  rw [setProperty, Option.map_eq_some_iff] at h
  obtain ⟨property, hproperty, rfl⟩ := h
  exact ⟨property, hproperty, rfl⟩

theorem moves_of_expectObjectStart (h : expectObjectStart fetch jsonEnd s = some outcome) :
    Moves fetch jsonEnd maxProperties s outcome := by
  simp only [expectObjectStart, Option.bind_eq_bind, Option.bind_eq_some_iff] at h
  obtain ⟨p, hp, c, -, h⟩ := h
  have hlt : s.p < p + 1 := Nat.lt_succ_of_le (skipped_of_skipWhile_sub hp).le
  split at h
  · cases h
    exact .skips _ _ hlt (by simp [EParseState.IsOpen])
  · cases h
    exact .skips _ _ hlt id

theorem moves_of_expectKeyOrObjectEnd
    (h : expectKeyOrObjectEnd fetch jsonEnd maxProperties s = some outcome)
    (hstate : s.state = .expectKeyOrObjectEnd) :
    Moves fetch jsonEnd maxProperties s outcome := by
  simp only [expectKeyOrObjectEnd, Option.bind_eq_bind, Option.bind_eq_some_iff] at h
  obtain ⟨p, hp, c, -, h⟩ := h
  have hlt : s.p < p + 1 := Nat.lt_succ_of_le (skipped_of_skipWhile_sub hp).le
  split at h
  · cases h
    exact .returns
  · split at h
    · rw [Option.bind_eq_some_iff] at h
      obtain ⟨keyEnd, hkeyEnd, h⟩ := h
      split at h
      case isTrue hcount =>
          rw [Option.bind_eq_some_iff] at h
          obtain ⟨properties, hproperties, h⟩ := h
          obtain ⟨property, hproperty, rfl⟩ := setProperty_eq_some hproperties
          cases h
          exact .key property (p + 1) keyEnd hstate ⟨hlt, skipped_of_skipWhile_sub hkeyEnd⟩ hcount
            hproperty
      case isFalse =>
          cases h
          exact .returns
    · cases h
      exact .skips _ _ hlt id

theorem moves_of_expectColon (h : expectColon fetch jsonEnd s = some outcome)
    (hstate : s.state = .expectColon) : Moves fetch jsonEnd maxProperties s outcome := by
  simp only [expectColon, Option.bind_eq_bind, Option.bind_eq_some_iff] at h
  obtain ⟨p, hp, c, -, h⟩ := h
  have hlt : s.p < p + 1 := Nat.lt_succ_of_le (skipped_of_skipWhile_sub hp).le
  split at h
  · cases h
    exact .skips _ _ hlt fun _ => .inl hstate
  · cases h
    exact .skips _ _ hlt id

theorem moves_of_expectValue (h : expectValue fetch jsonEnd s = some outcome)
    (hstate : s.state = .expectValue) : Moves fetch jsonEnd maxProperties s outcome := by
  simp only [expectValue, Option.bind_eq_bind, Option.bind_eq_some_iff] at h
  obtain ⟨valueBegin, hp, c, hc, h⟩ := h
  have htrim := skipped_of_skipWhile_sub hp
  have hsome : (fetch valueBegin).isSome := by rw [hc]; rfl
  split at h
  case isTrue hquote =>
      simp only [Option.bind_eq_some_iff] at h
      obtain ⟨valueEnd, hvalueEnd, properties, hproperties, h⟩ := h
      obtain ⟨property, hproperty, rfl⟩ := setProperty_eq_some hproperties
      cases h
      have hspan := skipped_of_skipWhile_sub hvalueEnd
      refine .value property _ valueBegin valueEnd hstate ?_
        ⟨htrim.le, htrim.le_max, fun _ => hspan, ?_, hsome⟩ (Nat.le_succ _) hproperty
      · have := htrim.le
        have := hspan.le
        omega
      · intro d hd hne
        rw [hc, Option.some.injEq] at hd
        exact absurd (hd.symm.trans hquote) hne
  case isFalse hquote =>
      simp only [Option.bind_eq_some_iff] at h
      obtain ⟨valueEnd, hvalueEnd, properties, hproperties, h⟩ := h
      obtain ⟨property, hproperty, rfl⟩ := setProperty_eq_some hproperties
      cases h
      have hspan := skipped_of_skipWhile_sub hvalueEnd
      refine .value property _ valueBegin valueEnd hstate (Nat.le_trans htrim.le hspan.le)
        ⟨htrim.le, htrim.le_max, ?_, fun _ _ _ => hspan, hsome⟩ (Nat.le_refl _) hproperty
      intro hd
      rw [hc, Option.some.injEq] at hd
      exact absurd hd hquote

theorem moves_of_expectCommaOrObjectEnd
    (h : expectCommaOrObjectEnd fetch jsonEnd s = some outcome) :
    Moves fetch jsonEnd maxProperties s outcome := by
  simp only [expectCommaOrObjectEnd, Option.bind_eq_bind, Option.bind_eq_some_iff] at h
  obtain ⟨p, hp, c, -, h⟩ := h
  have hlt : s.p < p + 1 := Nat.lt_succ_of_le (skipped_of_skipWhile_sub hp).le
  split at h
  · cases h
    exact .skips _ _ hlt (by simp [EParseState.IsOpen])
  · split at h
    · cases h
      exact .returns
    · cases h
      exact .skips _ _ hlt id

theorem moves_of_iteration (h : iteration fetch jsonEnd maxProperties s = some outcome) :
    Moves fetch jsonEnd maxProperties s outcome := by
  rw [iteration] at h
  cases hstate : s.state with
  | expectObjectStart =>
      rw [hstate] at h
      exact moves_of_expectObjectStart h
  | expectKeyOrObjectEnd =>
      rw [hstate] at h
      exact moves_of_expectKeyOrObjectEnd h hstate
  | expectColon =>
      rw [hstate] at h
      exact moves_of_expectColon h hstate
  | expectValue =>
      rw [hstate] at h
      exact moves_of_expectValue h hstate
  | expectCommaOrObjectEnd =>
      rw [hstate] at h
      exact moves_of_expectCommaOrObjectEnd h

/-- At the end the loop returns, whatever the number of iterations left. -/
theorem parseLoop_of_le {fuel : ℕ} (h : ¬ s.p < jsonEnd) :
    parseLoop fetch jsonEnd maxProperties fuel s = .returns s.propertyCount s.properties := by
  cases fuel with
  | zero => rw [parseLoop, if_neg h]
  | succ fuel => rw [parseLoop, if_neg h]

theorem parseLoop_returns {P : Scan → Prop}
    (hmoves : ∀ s s', P s → s.p < jsonEnd → Moves fetch jsonEnd maxProperties s (.continues s') →
      P s') {fuel count : ℕ} {properties : List Property} (hs : P s)
    (h : parseLoop fetch jsonEnd maxProperties fuel s = .returns count properties) :
    ∃ s', P s' ∧ s'.propertyCount = count ∧ s'.properties = properties := by
  induction fuel generalizing s with
  | zero =>
      rw [parseLoop] at h
      split at h
      · cases h
      · cases h
        exact ⟨s, hs, rfl, rfl⟩
  | succ fuel ih =>
      rw [parseLoop] at h
      split at h
      case isTrue hlt =>
          split at h
          · cases h
          · next hiteration =>
              cases h
              cases moves_of_iteration hiteration
              exact ⟨s, hs, rfl, rfl⟩
          · next hiteration => exact ih (hmoves _ _ hs hlt (moves_of_iteration hiteration)) h
      case isFalse =>
          cases h
          exact ⟨s, hs, rfl, rfl⟩

/-- Each iteration but one for each value moves on. -/
def measure (jsonEnd : ℕ) (s : Scan) : ℕ :=
  2 * (jsonEnd - s.p) + if s.state = .expectValue then 1 else 0

theorem measure_lt {s' : Scan} (h : Moves fetch jsonEnd maxProperties s (.continues s'))
    (hlt : s.p < jsonEnd) : measure jsonEnd s' < measure jsonEnd s := by
  cases h with
  | skips state p hp =>
      simp only [measure]
      split <;> split <;> omega
  | key property keyBegin keyEnd state span =>
      have := span.lt
      have := span.skipped.le
      simp only [measure, reduceCtorEq, if_false]
      omega
  | value property p valueBegin valueEnd state le span =>
      simp only [measure, reduceCtorEq, if_false, state, if_true]
      omega

theorem parseLoop_ne_runs {fuel : ℕ} (h : measure jsonEnd s ≤ fuel) :
    parseLoop fetch jsonEnd maxProperties fuel s ≠ .runs := by
  induction fuel generalizing s with
  | zero =>
      have hge : ¬ s.p < jsonEnd := by
        rw [measure] at h
        omega
      rw [parseLoop, if_neg hge]
      simp
  | succ fuel ih =>
      rw [parseLoop]
      split
      case isTrue hlt =>
          split
          · simp
          · simp
          · next hiteration =>
              have := measure_lt (moves_of_iteration hiteration) hlt
              exact ih (by omega)
      case isFalse => simp

theorem sParseJson_ne_runs (properties : List Property) :
    sParseJson fetch jsonEnd properties maxProperties ≠ .runs := by
  apply parseLoop_ne_runs
  simp [measure]

end Moves

/-- What the first gives, the second gives. -/
def Gives {γ : Type*} (x y : Option γ) : Prop := ∀ c, x = some c → y = some c

section Gives

variable {γ δ : Type*}

theorem Gives.refl (x : Option γ) : Gives x x := fun _ h => h

theorem Gives.bind {x y : Option γ} {f g : γ → Option δ} (hx : Gives x y)
    (hf : ∀ c, Gives (f c) (g c)) : Gives (x.bind f) (y.bind g) := by
  intro d hd
  obtain ⟨c, hc, hd⟩ := Option.bind_eq_some_iff.mp hd
  exact Option.bind_eq_some_iff.mpr ⟨c, hx c hc, hf c d hd⟩

theorem Gives.ite {c : Prop} [Decidable c] {x y x' y' : Option γ} (hx : Gives x x')
    (hy : Gives y y') : Gives (if c then x else y) (if c then x' else y') := by
  split
  · exact hx
  · exact hy

variable {fetch fetch' : ℕ → Option UInt8} (hfetch : ∀ p, Gives (fetch p) (fetch' p))
  {jsonEnd maxProperties : ℕ}
include hfetch

theorem gives_skipWhile (skip : UInt8 → Bool) (n p : ℕ) :
    Gives (skipWhile fetch skip n p) (skipWhile fetch' skip n p) := by
  induction n generalizing p with
  | zero => exact .refl _
  | succ n ih =>
      intro q hq
      rw [skipWhile] at hq ⊢
      cases hc : fetch p with
      | none =>
          rw [hc] at hq
          cases hq
      | some c =>
          simp only [hc, hfetch p c hc] at hq ⊢
          split at hq
          case isTrue hskip =>
            rw [if_pos hskip]
            exact ih (p + 1) q hq
          case isFalse hskip =>
            rw [if_neg hskip]
            exact hq

theorem gives_iteration (s : Scan) : Gives (iteration fetch jsonEnd maxProperties s)
    (iteration fetch' jsonEnd maxProperties s) := by
  have htrim : ∀ p, Gives (trimWhitespace fetch p jsonEnd) (trimWhitespace fetch' p jsonEnd) :=
    fun p => gives_skipWhile hfetch _ _ p
  rw [iteration, iteration]
  cases s.state with
  | expectObjectStart =>
      exact (htrim s.p).bind fun p => (hfetch p).bind fun c => .refl _
  | expectKeyOrObjectEnd =>
      refine (htrim s.p).bind fun p => (hfetch p).bind fun c => .ite (.refl _) (.ite ?_ (.refl _))
      exact (gives_skipWhile hfetch _ _ _).bind fun keyEnd => .refl _
  | expectColon =>
      exact (htrim s.p).bind fun p => (hfetch p).bind fun c => .refl _
  | expectValue =>
      refine (htrim s.p).bind fun p => (hfetch p).bind fun c => .ite ?_ ?_
      · exact (gives_skipWhile hfetch _ _ _).bind fun valueEnd => .refl _
      · exact (gives_skipWhile hfetch _ _ _).bind fun valueEnd => .refl _
  | expectCommaOrObjectEnd =>
      exact (htrim s.p).bind fun p => (hfetch p).bind fun c => .refl _

theorem parseLoop_of_gives {fuel count : ℕ} {s : Scan} {properties : List Property}
    (h : parseLoop fetch jsonEnd maxProperties fuel s = .returns count properties) :
    parseLoop fetch' jsonEnd maxProperties fuel s = .returns count properties := by
  induction fuel generalizing s with
  | zero =>
      rw [parseLoop] at h ⊢
      exact h
  | succ fuel ih =>
      rw [parseLoop] at h ⊢
      split at h
      case isTrue hlt =>
        rw [if_pos hlt]
        cases hstep : iteration fetch jsonEnd maxProperties s with
        | none =>
            rw [hstep] at h
            cases h
        | some outcome =>
            rw [gives_iteration hfetch s outcome hstep]
            rw [hstep] at h
            cases outcome with
            | returns count properties => exact h
            | continues s' => exact ih h
      case isFalse hge =>
        rw [if_neg hge]
        exact h

end Gives

end GeekOpen

end ConArtist
