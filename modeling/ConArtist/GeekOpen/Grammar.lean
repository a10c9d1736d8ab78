import ConArtist.GeekOpen.Lexer

/-!
# The grammar of the packets

A packet is a flat object: pairs of a quoted key and a value, a quoted string or a bare token,
with white space between any two tokens. The parser returns all pairs, and the spans of the keys
are the keys. The span of a string begins with its quote, and that of a bare token goes on up to
the comma or the brace.
-/

namespace ConArtist

namespace GeekOpen

def White : Type := { ws : List UInt8 // ∀ c ∈ ws, isWhitespace c = true }

/-- The characters of a quoted string. -/
def Chars : Type := { chars : List UInt8 // ∀ c ∈ chars, c ≠ quote }

/-- No white space, quote, comma or closing brace. -/
def isTokenChar (c : UInt8) : Bool := !isWhitespace c && c ≠ quote && !endsBare c

/-- A bare token. -/
def Token : Type := { token : List UInt8 // token ≠ [] ∧ ∀ c ∈ token, isTokenChar c = true }

inductive Value where
  | string (chars : Chars)
  | bare (token : Token)

structure Member where
  beforeKey : White
  key : Chars
  afterKey : White
  beforeValue : White
  value : Value
  afterValue : White

structure FlatObject where
  lead : White
  opening : White
  members : List Member

/-- A value as it stands in the packet. -/
def Value.encode : Value → List UInt8
  | .string chars => quote :: (chars.val ++ [quote])
  | .bare token => token.val

/-- What the value is: the characters between the quotes, or the token. -/
def Value.text : Value → List UInt8
  | .string chars => chars.val
  | .bare token => token.val

/-- A pair from the quote of its key on, with what follows it. -/
def Member.encode (m : Member) (rest : List UInt8) : List UInt8 :=
  quote :: (m.key.val ++ quote :: (m.afterKey.val ++ colon :: (m.beforeValue.val ++
    (m.value.encode ++ (m.afterValue.val ++ rest)))))

/-- The pairs behind the first one, and the end of the object. -/
def encodeMore : List Member → List UInt8
  | [] => [braceClose]
  | m :: ms => comma :: (m.beforeKey.val ++ m.encode (encodeMore ms))

def encodeMembers : List Member → List UInt8
  | [] => [braceClose]
  | m :: ms => m.beforeKey.val ++ m.encode (encodeMore ms)

def FlatObject.encode (o : FlatObject) : List UInt8 :=
  o.lead.val ++ braceOpen :: (o.opening.val ++ encodeMembers o.members)

def slice (text : List UInt8) (first last : ℕ) : List UInt8 := (text.drop first).take (last - first)

/-- What the parser takes for the value. -/
def Member.valueSpan (m : Member) : List UInt8 :=
  match m.value with
  | .string chars => quote :: chars.val
  | .bare token => token.val ++ m.afterValue.val

/-- A property holds a pair: its key, and for its value what the parser takes for it. -/
structure Holds (text : List UInt8) (m : Member) (property : Property) : Prop where
  key : slice text property.keyBegin property.keyEnd = m.key.val
  value : slice text property.valueBegin property.valueEnd = m.valueSpan

def Finishes (text : List UInt8) (maxProperties : ℕ) (s : Scan) (count : ℕ)
    (properties : List Property) : Prop :=
  ∃ fuel, parseLoop (fun i => text[i]?) text.length maxProperties fuel s =
    .returns count properties

section Loop

variable {text : List UInt8} {maxProperties count : ℕ} {properties : List Property} {s s' : Scan}

theorem Finishes.of_continues (hlt : s.p < text.length)
    (h : iteration (fun i => text[i]?) text.length maxProperties s = some (.continues s'))
    (hs' : Finishes text maxProperties s' count properties) :
    Finishes text maxProperties s count properties := by
  obtain ⟨fuel, hfuel⟩ := hs'
  refine ⟨fuel + 1, ?_⟩
  rw [parseLoop, if_pos hlt]
  simp only [h]
  exact hfuel

theorem finishes_of_returns (hlt : s.p < text.length)
    (h : iteration (fun i => text[i]?) text.length maxProperties s =
      some (.returns count properties)) :
    Finishes text maxProperties s count properties := by
  refine ⟨1, ?_⟩
  rw [parseLoop, if_pos hlt]
  simp only [h]

theorem parseLoop_eq_of_returns {fuel fuel' : ℕ}
    (h : parseLoop (fun i => text[i]?) text.length maxProperties fuel s =
      .returns count properties)
    (hfuel' : parseLoop (fun i => text[i]?) text.length maxProperties fuel' s ≠ .runs) :
    parseLoop (fun i => text[i]?) text.length maxProperties fuel' s =
      .returns count properties := by
  induction fuel generalizing s fuel' with
  | zero =>
      rw [parseLoop] at h
      split at h
      · cases h
      · next hge => rw [parseLoop_of_le hge, h]
  | succ fuel ih =>
      by_cases hlt : s.p < text.length
      · rw [parseLoop, if_pos hlt] at h
        cases fuel' with
        | zero =>
            rw [parseLoop, if_pos hlt] at hfuel'
            exact absurd rfl hfuel'
        | succ fuel' =>
            rw [parseLoop, if_pos hlt] at hfuel' ⊢
            split at h
            · cases h
            · next hiteration => simpa only [hiteration] using h
            · next hiteration =>
                simp only [hiteration] at hfuel' ⊢
                exact ih h hfuel'
      · rw [parseLoop_of_le hlt] at h ⊢
        exact h

end Loop

section Member

variable {text ws rest : List UInt8} {maxProperties count : ℕ} {properties : List Property}
  {s : Scan}

theorem slice_of_drop {pre : List UInt8} {p : ℕ} (h : text.drop p = pre ++ rest) :
    slice text p (p + pre.length) = pre := by
  rw [slice, h, Nat.add_sub_cancel_left, List.take_left]

theorem lt_of_drop {p : ℕ} {c : UInt8} (h : text.drop p = ws ++ c :: rest) : p < text.length := by
  by_contra hge
  rw [List.drop_eq_nil_of_le (Nat.not_lt.mp hge)] at h
  cases ws <;> cases h

theorem ahead_of_drop {c : UInt8} (hws : ∀ c ∈ ws, isWhitespace c = true)
    (hc : isWhitespace c = false) (h : text.drop s.p = ws ++ c :: rest) :
    Ahead text s.p ws (c :: rest) where
  drop := h
  white := hws
  head := fun d hd => by
    cases hd
    exact hc

theorem continues_key (maxProperties : ℕ) {key : List UInt8} {property : Property}
    (hstate : s.state = .expectKeyOrObjectEnd) (hws : ∀ c ∈ ws, isWhitespace c = true)
    (hkey : ∀ c ∈ key, c ≠ quote) (hdrop : text.drop s.p = ws ++ quote :: (key ++ quote :: rest))
    (hlt : s.propertyCount < maxProperties)
    (hproperty : s.properties[s.propertyCount]? = some property) :
    ∃ p keyBegin keyEnd, iteration (fun i => text[i]?) text.length maxProperties s =
        some (.continues ⟨.expectColon, s.propertyCount, p,
          s.properties.set s.propertyCount { property with keyBegin, keyEnd }⟩) ∧
      text.drop p = rest ∧ slice text keyBegin keyEnd = key := by
  have hahead := ahead_of_drop hws rfl hdrop
  refine ⟨_, _, _, ?_, hahead.drop_string, slice_of_drop hahead.drop_succ⟩
  rw [iteration, hstate]
  simp only
  rw [expectKeyOrObjectEnd_key hahead hkey (by simp), if_pos hlt, setProperty, hproperty]
  rfl

theorem continues_colon (maxProperties : ℕ) (hstate : s.state = .expectColon)
    (hws : ∀ c ∈ ws, isWhitespace c = true) (hdrop : text.drop s.p = ws ++ colon :: rest) :
    ∃ p, iteration (fun i => text[i]?) text.length maxProperties s =
        some (.continues ⟨.expectValue, s.propertyCount, p, s.properties⟩) ∧
      text.drop p = rest := by
  have hahead := ahead_of_drop hws rfl hdrop
  have hc : text[s.p + ws.length]? = some colon := hahead.getElem?
  refine ⟨_, ?_, hahead.drop_succ⟩
  rw [iteration, hstate]
  simp [expectColon, hahead.trimWhitespace, hc]

theorem continues_string (maxProperties : ℕ) {chars : List UInt8} {property : Property}
    (hstate : s.state = .expectValue) (hws : ∀ c ∈ ws, isWhitespace c = true)
    (hchars : ∀ c ∈ chars, c ≠ quote)
    (hdrop : text.drop s.p = ws ++ quote :: (chars ++ quote :: rest))
    (hproperty : s.properties[s.propertyCount]? = some property) :
    ∃ p valueBegin valueEnd, iteration (fun i => text[i]?) text.length maxProperties s =
        some (.continues ⟨.expectCommaOrObjectEnd, s.propertyCount + 1, p,
          s.properties.set s.propertyCount { property with valueBegin, valueEnd }⟩) ∧
      text.drop p = rest ∧ slice text valueBegin valueEnd = quote :: chars := by
  have hahead := ahead_of_drop hws rfl hdrop
  have hspan : text.drop (s.p + ws.length) = (quote :: chars) ++ quote :: rest :=
    drop_of_drop_append hdrop
  have hlength :
      s.p + ws.length + 1 + chars.length = s.p + ws.length + (quote :: chars).length := by
    rw [List.length_cons, Nat.add_assoc, Nat.add_comm 1]
  refine ⟨_, s.p + ws.length, s.p + ws.length + 1 + chars.length, ?_, hahead.drop_string, ?_⟩
  · rw [iteration, hstate]
    simp only
    rw [expectValue_string hahead hchars (by simp), setProperty, hproperty, Option.map_some,
      Option.map_some]
  · rw [hlength]
    exact slice_of_drop hspan

theorem continues_bare (maxProperties : ℕ) {c : UInt8} {token tail : List UInt8}
    {property : Property} (hstate : s.state = .expectValue) (hws : ∀ c ∈ ws, isWhitespace c = true)
    (hc : isWhitespace c = false) (hquote : c ≠ quote)
    (htoken : ∀ d ∈ c :: token, endsBare d = false) (htail : ∀ d ∈ tail.head?, endsBare d = true)
    (hdrop : text.drop s.p = ws ++ c :: (token ++ tail))
    (hproperty : s.properties[s.propertyCount]? = some property) :
    ∃ p valueBegin valueEnd, iteration (fun i => text[i]?) text.length maxProperties s =
        some (.continues ⟨.expectCommaOrObjectEnd, s.propertyCount + 1, p,
          s.properties.set s.propertyCount { property with valueBegin, valueEnd }⟩) ∧
      text.drop p = tail ∧ slice text valueBegin valueEnd = c :: token := by
  have hahead := ahead_of_drop hws hc hdrop
  have hspan : text.drop (s.p + ws.length) = (c :: token) ++ tail := drop_of_drop_append hdrop
  refine ⟨_, _, _, ?_, drop_of_drop_append hspan, slice_of_drop hspan⟩
  rw [iteration, hstate]
  simp only
  rw [expectValue_bare hahead hquote rfl htoken htail, setProperty, hproperty, Option.map_some,
    Option.map_some]

theorem endsBare_of_isWhitespace {c : UInt8} (h : isWhitespace c = true) : endsBare c = false := by
  rw [endsBare, Bool.or_eq_false_iff, decide_eq_false_iff_not, decide_eq_false_iff_not]
  constructor
  · rintro rfl
    cases h
  · rintro rfl
    cases h

theorem continues_value (maxProperties : ℕ) {m : Member} {property : Property} {d : UInt8}
    (hstate : s.state = .expectValue)
    (hdrop : text.drop s.p =
      m.beforeValue.val ++ (m.value.encode ++ (m.afterValue.val ++ d :: rest)))
    (hd : endsBare d = true) (hproperty : s.properties[s.propertyCount]? = some property) :
    ∃ p valueBegin valueEnd, iteration (fun i => text[i]?) text.length maxProperties s =
        some (.continues ⟨.expectCommaOrObjectEnd, s.propertyCount + 1, p,
          s.properties.set s.propertyCount { property with valueBegin, valueEnd }⟩) ∧
      (∃ ws, (∀ c ∈ ws, isWhitespace c = true) ∧ text.drop p = ws ++ d :: rest) ∧
      slice text valueBegin valueEnd = m.valueSpan := by
  cases hvalue : m.value with
  | string chars =>
      simp only [hvalue, Value.encode, List.cons_append, List.append_assoc, List.nil_append]
        at hdrop
      obtain ⟨p, valueBegin, valueEnd, hiteration, hp, hslice⟩ :=
        continues_string maxProperties hstate m.beforeValue.property chars.property hdrop hproperty
      refine ⟨p, valueBegin, valueEnd, hiteration, ⟨_, m.afterValue.property, hp⟩, ?_⟩
      rw [hslice, Member.valueSpan, hvalue]
  | bare token =>
      obtain ⟨token, hne, htoken⟩ := token
      obtain ⟨c, tail, rfl⟩ := List.exists_cons_of_ne_nil hne
      have hchars : ∀ e ∈ c :: tail, isWhitespace e = false ∧ e ≠ quote ∧ endsBare e = false := by
        intro e he
        simpa [isTokenChar, and_assoc] using htoken e he
      simp only [hvalue, Value.encode, List.cons_append] at hdrop
      rw [← List.append_assoc] at hdrop
      obtain ⟨hwhite, hquote, -⟩ := hchars c List.mem_cons_self
      have hspan : ∀ e ∈ c :: (tail ++ m.afterValue.val), endsBare e = false := by
        intro e he
        rw [← List.cons_append, List.mem_append] at he
        rcases he with he | he
        · exact (hchars e he).2.2
        · exact endsBare_of_isWhitespace (m.afterValue.property e he)
      have hhead : ∀ e ∈ (d :: rest).head?, endsBare e = true := by
        intro e he
        cases he
        exact hd
      obtain ⟨p, valueBegin, valueEnd, hiteration, hp, hslice⟩ :=
        continues_bare maxProperties hstate m.beforeValue.property hwhite hquote hspan hhead hdrop
          hproperty
      refine ⟨p, valueBegin, valueEnd, hiteration, ⟨[], by simp, hp⟩, ?_⟩
      rw [hslice, Member.valueSpan, hvalue]
      rfl

theorem finishes_member {m : Member} {d : UInt8} (hstate : s.state = .expectKeyOrObjectEnd)
    (hws : ∀ c ∈ ws, isWhitespace c = true) (hdrop : text.drop s.p = ws ++ m.encode (d :: rest))
    (hd : endsBare d = true) (hlt : s.propertyCount < maxProperties)
    (hlength : s.properties.length = maxProperties) :
    ∃ p property, Holds text m property ∧
      (∃ ws, (∀ c ∈ ws, isWhitespace c = true) ∧ text.drop p = ws ++ d :: rest) ∧
      ∀ count properties, Finishes text maxProperties
          ⟨.expectCommaOrObjectEnd, s.propertyCount + 1, p,
            s.properties.set s.propertyCount property⟩ count properties →
        Finishes text maxProperties s count properties := by
  have hin : s.propertyCount < s.properties.length := hlength ▸ hlt
  obtain ⟨p₁, keyBegin, keyEnd, hkey, hdrop₁, hkeySlice⟩ :=
    continues_key maxProperties hstate hws m.key.property hdrop hlt
      (List.getElem?_eq_getElem hin)
  obtain ⟨p₂, hcolon, hdrop₂⟩ := continues_colon maxProperties
    (s := ⟨_, _, _, _⟩) rfl m.afterKey.property hdrop₁
  obtain ⟨p₃, valueBegin, valueEnd, hvalue, hdrop₃, hvalueSlice⟩ :=
    continues_value maxProperties (s := ⟨_, _, _, _⟩) rfl hdrop₂ hd
      (List.getElem?_set_self hin)
  refine ⟨p₃, ⟨keyBegin, keyEnd, valueBegin, valueEnd⟩, ⟨hkeySlice, hvalueSlice⟩, hdrop₃,
    fun count properties hfinishes => ?_⟩
  rw [List.set_set] at hvalue
  obtain ⟨c, tail, hc⟩ : ∃ c tail, m.value.encode ++ (m.afterValue.val ++ d :: rest) = c :: tail :=
    List.exists_cons_of_ne_nil (by simp)
  exact .of_continues (lt_of_drop hdrop) hkey (.of_continues (lt_of_drop hdrop₁) hcolon
    (.of_continues (lt_of_drop (hc ▸ hdrop₂)) hvalue hfinishes))

theorem continues_comma (maxProperties : ℕ) (hstate : s.state = .expectCommaOrObjectEnd)
    (hws : ∀ c ∈ ws, isWhitespace c = true) (hdrop : text.drop s.p = ws ++ comma :: rest) :
    ∃ p, iteration (fun i => text[i]?) text.length maxProperties s =
        some (.continues ⟨.expectKeyOrObjectEnd, s.propertyCount, p, s.properties⟩) ∧
      text.drop p = rest := by
  have hahead := ahead_of_drop hws rfl hdrop
  have hc : text[s.p + ws.length]? = some comma := hahead.getElem?
  refine ⟨_, ?_, hahead.drop_succ⟩
  rw [iteration, hstate]
  simp [expectCommaOrObjectEnd, hahead.trimWhitespace, hc]

theorem finishes_braceClose
    (hstate : s.state = .expectKeyOrObjectEnd ∨ s.state = .expectCommaOrObjectEnd)
    (hws : ∀ c ∈ ws, isWhitespace c = true) (hdrop : text.drop s.p = ws ++ braceClose :: rest) :
    Finishes text maxProperties s s.propertyCount s.properties := by
  have hahead := ahead_of_drop hws rfl hdrop
  have hc : text[s.p + ws.length]? = some braceClose := hahead.getElem?
  have hne : braceClose ≠ comma := by decide
  apply finishes_of_returns (lt_of_drop hdrop)
  rw [iteration]
  rcases hstate with hstate | hstate
  · rw [hstate]
    simp [expectKeyOrObjectEnd, hahead.trimWhitespace, hc]
  · rw [hstate]
    simp [expectCommaOrObjectEnd, hahead.trimWhitespace, hc, hne]

theorem encodeMore_cons (ms : List Member) : ∃ d rest, encodeMore ms = d :: rest ∧
    endsBare d = true := by
  cases ms with
  | nil => exact ⟨_, _, rfl, rfl⟩
  | cons m ms => exact ⟨_, _, rfl, rfl⟩

/-- The properties behind the first ones hold the pairs. -/
def HoldsFrom (text : List UInt8) (first : ℕ) (ms : List Member) (properties : List Property) :
    Prop :=
  ∀ i m, ms[i]? = some m → ∃ property, properties[first + i]? = some property ∧
    Holds text m property

/-- The first pair is stored by its iterations and stays as it is, and the others follow. -/
theorem finishes_cons (m : Member) (ms : List Member) (hstate : s.state = .expectKeyOrObjectEnd)
    (hws : ∀ c ∈ ws, isWhitespace c = true)
    (hdrop : text.drop s.p = ws ++ m.encode (encodeMore ms)) (hlt : s.propertyCount < maxProperties)
    (hlength : s.properties.length = maxProperties)
    (hmore : ∀ s' : Scan, s'.state = .expectCommaOrObjectEnd →
      s'.propertyCount = s.propertyCount + 1 → s'.properties.length = maxProperties →
      (∃ ws, (∀ c ∈ ws, isWhitespace c = true) ∧ text.drop s'.p = ws ++ encodeMore ms) →
      ∃ properties, Finishes text maxProperties s' (s'.propertyCount + ms.length) properties ∧
        (∀ i < s'.propertyCount, properties[i]? = s'.properties[i]?) ∧
        HoldsFrom text s'.propertyCount ms properties) :
    ∃ properties, Finishes text maxProperties s (s.propertyCount + (m :: ms).length) properties ∧
      (∀ i < s.propertyCount, properties[i]? = s.properties[i]?) ∧
      HoldsFrom text s.propertyCount (m :: ms) properties := by
  obtain ⟨d, rest, hcons, hd⟩ := encodeMore_cons ms
  rw [hcons] at hdrop
  obtain ⟨p, property, hholds, hdrop', hfinishes⟩ :=
    finishes_member hstate hws hdrop hd hlt hlength
  rw [← hcons] at hdrop'
  have hin : s.propertyCount < s.properties.length := hlength ▸ hlt
  obtain ⟨properties, hreturns, hsame, hrest⟩ := hmore ⟨_, _, p, _⟩ rfl rfl
    ((List.length_set).trans hlength) hdrop'
  refine ⟨properties, ?_, fun i hi => ?_, fun i n hn => ?_⟩
  · rw [List.length_cons, ← Nat.add_assoc, Nat.add_right_comm]
    exact hfinishes _ _ hreturns
  · rw [hsame i (Nat.lt_succ_of_lt hi), List.getElem?_set_ne (Nat.ne_of_gt hi)]
  · cases i with
    | zero =>
        cases hn
        refine ⟨property, ?_, hholds⟩
        rw [Nat.add_zero, hsame _ (Nat.lt_succ_self _)]
        exact List.getElem?_set_self hin
    | succ i =>
        obtain ⟨q, hq, hqHolds⟩ := hrest i n hn
        exact ⟨q, by rw [← hq]; congr 1; simp only; omega, hqHolds⟩

theorem finishes_more {ms : List Member} (hstate : s.state = .expectCommaOrObjectEnd)
    (hdrop : ∃ ws, (∀ c ∈ ws, isWhitespace c = true) ∧ text.drop s.p = ws ++ encodeMore ms)
    (hle : s.propertyCount + ms.length ≤ maxProperties)
    (hlength : s.properties.length = maxProperties) :
    ∃ properties, Finishes text maxProperties s (s.propertyCount + ms.length) properties ∧
      (∀ i < s.propertyCount, properties[i]? = s.properties[i]?) ∧
      HoldsFrom text s.propertyCount ms properties := by
  obtain ⟨ws, hws, hdrop⟩ := hdrop
  induction ms generalizing s ws with
  | nil =>
      refine ⟨s.properties, finishes_braceClose (.inr hstate) hws hdrop, fun _ _ => rfl, ?_⟩
      intro i m hm
      cases hm
  | cons m ms ih =>
      rw [List.length_cons] at hle
      obtain ⟨p, hcomma, hdrop'⟩ :=
        continues_comma maxProperties hstate hws hdrop
      have hlt : s.propertyCount < maxProperties :=
        Nat.lt_of_lt_of_le (Nat.lt_add_of_pos_right (Nat.succ_pos _)) hle
      obtain ⟨properties, hreturns, hsame, hholds⟩ := finishes_cons m ms
        (s := ⟨_, s.propertyCount, p, _⟩) rfl m.beforeKey.property hdrop' hlt hlength
        fun s' hstate' hcount hlength' ⟨ws', hws', hdrop''⟩ => by
          have hcount' : s'.propertyCount = s.propertyCount + 1 := hcount
          exact ih hstate' (by omega) hlength' ws' hws' hdrop''
      exact ⟨properties, .of_continues (lt_of_drop hdrop) hcomma hreturns, hsame, hholds⟩

end Member

section Object

variable (o : FlatObject) {properties : List Property}

theorem sParseJson_encode (h : o.members.length ≤ properties.length) :
    ∃ properties', sParseJson (fun i => o.encode[i]?) o.encode.length properties
        properties.length = .returns o.members.length properties' ∧
      HoldsFrom o.encode 0 o.members properties' := by
  have hstart : (o.encode).drop 0 = o.lead.val ++ braceOpen :: (o.opening.val ++
      encodeMembers o.members) := rfl
  have hahead := ahead_of_drop (s := ⟨.expectObjectStart, 0, 0, properties⟩) o.lead.property rfl
    hstart
  have hc : o.encode[0 + o.lead.val.length]? = some braceOpen := hahead.getElem?
  have hdrop := hahead.drop_succ
  have hopen : iteration (fun i => o.encode[i]?) o.encode.length properties.length
      ⟨.expectObjectStart, 0, 0, properties⟩ =
        some (.continues ⟨.expectKeyOrObjectEnd, 0, 0 + o.lead.val.length + 1, properties⟩) := by
    rw [iteration]
    simp only
    rw [expectObjectStart, hahead.trimWhitespace, Option.bind_eq_bind, Option.bind_some]
    simp only
    rw [hc]
    rfl
  have hmembers : ∃ properties', Finishes o.encode properties.length
      ⟨.expectKeyOrObjectEnd, 0, 0 + o.lead.val.length + 1, properties⟩ o.members.length
        properties' ∧ HoldsFrom o.encode 0 o.members properties' := by
    cases hmembers : o.members with
    | nil =>
        rw [hmembers] at hdrop
        refine ⟨properties, finishes_braceClose (.inl rfl) o.opening.property hdrop, ?_⟩
        intro i m hm
        cases hm
    | cons m ms =>
        rw [hmembers] at hdrop h
        rw [encodeMembers, ← List.append_assoc] at hdrop
        have hws : ∀ c ∈ o.opening.val ++ m.beforeKey.val, isWhitespace c = true := by
          intro c hc
          rcases List.mem_append.mp hc with hc | hc
          · exact o.opening.property c hc
          · exact m.beforeKey.property c hc
        obtain ⟨properties', hreturns, -, hholds⟩ := finishes_cons m ms
          (s := ⟨_, 0, 0 + o.lead.val.length + 1, _⟩) rfl hws hdrop
          (Nat.lt_of_lt_of_le (Nat.succ_pos _) h) rfl
          fun s' hstate' hcount hlength' hdrop' => by
            rw [List.length_cons] at h
            exact finishes_more hstate' hdrop' (by rw [hcount]; simp only; omega) hlength'
        have hcount : 0 + (m :: ms).length = (m :: ms).length := Nat.zero_add _
        exact ⟨properties', hcount ▸ hreturns, hholds⟩
  obtain ⟨properties', hfinishes, hholds⟩ := hmembers
  obtain ⟨fuel, hfuel⟩ := hfinishes.of_continues (lt_of_drop hstart) hopen
  exact ⟨properties', parseLoop_eq_of_returns hfuel (sParseJson_ne_runs properties), hholds⟩

/-- The parser takes nothing but the value for it: a bare token that the comma or the brace
follows. -/
def Member.IsExact (m : Member) : Prop :=
  match m.value with
  | .string _ => False
  | .bare _ => m.afterValue.val = []

theorem valueSpan_eq_iff (m : Member) : m.valueSpan = m.value.text ↔ m.IsExact := by
  rw [Member.valueSpan, Member.IsExact]
  cases m.value with
  | string chars =>
      simp only [Value.text, iff_false]
      intro h
      have hlength := congrArg List.length h
      rw [List.length_cons] at hlength
      omega
  | bare token => simp [Value.text]

/-- All pairs are returned, with the spans of their keys and of their values. -/
def ReturnsMembers (result : Result) : Prop :=
  ∃ properties, result = .returns o.members.length properties ∧
    ∀ (i : ℕ) (m : Member), o.members[i]? = some m → ∃ property, properties[i]? = some property ∧
      slice o.encode property.keyBegin property.keyEnd = m.key.val ∧
      slice o.encode property.valueBegin property.valueEnd = m.value.text

/-- The spans are right exactly for an object without quoted values in which no white space
follows a bare token. -/
theorem returnsMembers_iff (properties : List Property)
    (h : o.members.length ≤ properties.length) :
    ReturnsMembers o (sParseJson (fun i => o.encode[i]?) o.encode.length properties
      properties.length) ↔ ∀ m ∈ o.members, m.IsExact := by
  obtain ⟨properties', hreturns, hholds⟩ := sParseJson_encode o h
  rw [hreturns]
  constructor
  · rintro ⟨found, hfound, hspans⟩ m hm
    cases hfound
    obtain ⟨i, hi⟩ := List.getElem?_of_mem hm
    obtain ⟨property, hproperty, -, hvalue⟩ := hspans i m hi
    obtain ⟨property', hproperty', hkey⟩ := hholds i m hi
    rw [Nat.zero_add, hproperty] at hproperty'
    cases hproperty'
    exact (valueSpan_eq_iff m).mp (hkey.value.symm.trans hvalue)
  · intro hexact
    refine ⟨properties', rfl, fun i m hi => ?_⟩
    obtain ⟨property, hproperty, hkey⟩ := hholds i m hi
    rw [Nat.zero_add] at hproperty
    refine ⟨property, hproperty, hkey.key, ?_⟩
    rw [hkey.value]
    exact (valueSpan_eq_iff m).mpr (hexact m (List.mem_of_getElem? hi))

end Object

/-- A pair with the key `a`, and no white space. -/
def pairOf (value : Value) : Member where
  beforeKey := ⟨[], by simp⟩
  key := ⟨[0x61], by decide +kernel⟩
  afterKey := ⟨[], by simp⟩
  beforeValue := ⟨[], by simp⟩
  value := value
  afterValue := ⟨[], by simp⟩

/-- The object of one pair. -/
def objectOf (value : Value) : FlatObject := ⟨⟨[], by simp⟩, ⟨[], by simp⟩, [pairOf value]⟩

theorem returnsMembers_iff_bare :
    ReturnsMembers (objectOf (.bare ⟨[0x31], by decide +kernel⟩))
      (sParseJson (fun i => (objectOf (.bare ⟨[0x31], by decide +kernel⟩)).encode[i]?)
        (objectOf (.bare ⟨[0x31], by decide +kernel⟩)).encode.length [⟨0, 0, 0, 0⟩] 1) ↔
      ∀ m ∈ (objectOf (.bare ⟨[0x31], by decide +kernel⟩)).members, m.IsExact :=
  returnsMembers_iff (objectOf (.bare ⟨[0x31], by decide +kernel⟩)) [⟨0, 0, 0, 0⟩] (by decide)

/-- The span of an empty string is its first quote. -/
theorem not_returnsMembers_string :
    ¬ ∀ (o : FlatObject) (properties : List Property), o.members.length ≤ properties.length →
      ReturnsMembers o (sParseJson (fun i => o.encode[i]?) o.encode.length properties
        properties.length) := by
  intro h
  obtain ⟨properties, hresult, hspans⟩ :=
    h (objectOf (.string ⟨[], by simp⟩)) [⟨0, 0, 0, 0⟩] (by decide)
  cases hresult
  obtain ⟨property, hproperty, -, hvalue⟩ := hspans 0 _ rfl
  cases hproperty
  cases hvalue

end GeekOpen

end ConArtist
