import ConArtist.GeekOpen.Spans

/-!
# What the parser reads

A byte at a time, a text moves a `Lexer` from one place of an object to the next. The parser
skips white space wherever it looks for a token, and reads the byte behind the white space
without a look at the end. So it reads behind the packet exactly when the packet ends in white
space at such a place.
-/

namespace ConArtist

namespace GeekOpen

/-- The places of a text. -/
inductive Mode where
  | start
  | keyOrEnd
  | inKey
  | colon
  | value
  | inString
  | inBare
  | commaOrEnd
  | done
  deriving DecidableEq

/-- A place, with the number of values up to it. -/
structure Lexer where
  mode : Mode
  count : ℕ
  deriving DecidableEq

/-- The place behind a value, or in it, where a comma or the end of the object may come. -/
def Lexer.close (mode : Mode) (values count : ℕ) (c : UInt8) : Lexer :=
  if c = comma then ⟨.keyOrEnd, values⟩
  else if c = braceClose then ⟨.done, values⟩
  else ⟨mode, count⟩

/-- The place behind a byte. An object with more than `maxProperties` keys is left at the end of
the first key that is too many. -/
def Lexer.step (maxProperties : ℕ) (l : Lexer) (c : UInt8) : Lexer :=
  match l.mode with
  | .start => if c = braceOpen then ⟨.keyOrEnd, l.count⟩ else l
  | .keyOrEnd =>
      if c = braceClose then ⟨.done, l.count⟩
      else if c = quote then ⟨.inKey, l.count⟩
      else l
  | .inKey =>
      if c = quote then ⟨if l.count < maxProperties then .colon else .done, l.count⟩ else l
  | .colon => if c = GeekOpen.colon then ⟨.value, l.count⟩ else l
  | .value =>
      if isWhitespace c then l
      else if c = quote then ⟨.inString, l.count⟩
      else Lexer.close .inBare (l.count + 1) l.count c
  | .inString => if c = quote then ⟨.commaOrEnd, l.count + 1⟩ else l
  | .inBare => Lexer.close .inBare (l.count + 1) l.count c
  | .commaOrEnd => Lexer.close .commaOrEnd l.count l.count c
  | .done => l

/-- The place behind a text. -/
def Lexer.run (maxProperties : ℕ) (l : Lexer) (text : List UInt8) : Lexer :=
  text.foldl (Lexer.step maxProperties) l

/-- The places where the parser looks for a token. -/
def Mode.IsBetween (mode : Mode) : Prop :=
  mode = .start ∨ mode = .keyOrEnd ∨ mode = .colon ∨ mode = .value ∨ mode = .commaOrEnd

/-- The text ends in white space where a token is looked for. -/
structure CutOff (maxProperties : ℕ) (l : Lexer) (text : List UInt8) : Prop where
  white : ∃ c, text.getLast? = some c ∧ isWhitespace c = true
  between : (l.run maxProperties text).mode.IsBetween

section CutOff

variable {maxProperties : ℕ} {l l' : Lexer} {text pre : List UInt8} {c : UInt8}

theorem not_cutOff_nil : ¬ CutOff maxProperties l [] := by
  rintro ⟨⟨c, hc, -⟩, -⟩
  cases hc

theorem run_of_stay (h : ∀ c ∈ pre, l.step maxProperties c = l) :
    l.run maxProperties pre = l := by
  induction pre with
  | nil => rfl
  | cons c pre ih =>
      rw [Lexer.run, List.foldl_cons, h c List.mem_cons_self]
      exact ih fun d hd => h d (List.mem_cons_of_mem c hd)

theorem not_cutOff_of_stay (h : ∀ c ∈ text, l.step maxProperties c = l)
    (hbetween : ¬ l.mode.IsBetween) : ¬ CutOff maxProperties l text := by
  rintro ⟨-, hmode⟩
  rw [run_of_stay h] at hmode
  exact hbetween hmode

theorem not_cutOff_done (count : ℕ) (text : List UInt8) :
    ¬ CutOff maxProperties ⟨.done, count⟩ text :=
  not_cutOff_of_stay (fun _ _ => rfl) (by simp [Mode.IsBetween])

/-- A byte that is not white space, and what stands before it, can be left out. -/
theorem cutOff_append_cons (hc : isWhitespace c = false) (hrun : l.run maxProperties pre = l') :
    CutOff maxProperties l (pre ++ c :: text) ↔
      CutOff maxProperties (l'.step maxProperties c) text := by
  have hfold : l.run maxProperties (pre ++ c :: text) =
      (l'.step maxProperties c).run maxProperties text := by
    rw [← hrun, Lexer.run, Lexer.run, Lexer.run, List.foldl_append, List.foldl_cons]
  have hlast : (pre ++ c :: text).getLast? = some (text.getLast?.getD c) := by
    rw [List.getLast?_append, List.getLast?_cons, Option.some_or]
  constructor
  · rintro ⟨⟨d, hd, hwhite⟩, hbetween⟩
    rw [hfold] at hbetween
    rw [hlast] at hd
    refine ⟨?_, hbetween⟩
    cases htext : text.getLast? with
    | none =>
        rw [htext] at hd
        cases hd
        exact absurd (hc.symm.trans hwhite) Bool.false_ne_true
    | some e =>
        rw [htext] at hd
        cases hd
        exact ⟨_, rfl, hwhite⟩
  · rintro ⟨⟨d, hd, hwhite⟩, hbetween⟩
    exact ⟨⟨d, by rw [hlast, hd]; rfl, hwhite⟩, hfold ▸ hbetween⟩

theorem cutOff_cons (hc : isWhitespace c = false) :
    CutOff maxProperties l (c :: text) ↔ CutOff maxProperties (l.step maxProperties c) text :=
  cutOff_append_cons hc (rfl : l.run maxProperties [] = l)

theorem step_whitespace (hbetween : l.mode.IsBetween) (hc : isWhitespace c = true) :
    l.step maxProperties c = l := by
  have hne : c ≠ braceOpen ∧ c ≠ braceClose ∧ c ≠ quote ∧ c ≠ colon ∧ c ≠ comma := by
    refine ⟨?_, ?_, ?_, ?_, ?_⟩ <;>
      · rintro rfl
        cases hc
  obtain ⟨hopen, hclose, hquote, hcolon, hcomma⟩ := hne
  rcases l with ⟨mode, count⟩
  rcases hbetween with h | h | h | h | h
  · cases h
    simp [Lexer.step, hopen]
  · cases h
    simp [Lexer.step, hclose, hquote]
  · cases h
    simp [Lexer.step, hcolon]
  · cases h
    simp [Lexer.step, hc]
  · cases h
    simp [Lexer.step, Lexer.close, hcomma, hclose]

end CutOff

section Text

variable {text ws rest pre : List UInt8} {c : UInt8} {p maxProperties : ℕ} {s : Scan}

theorem getElem?_of_drop (h : text.drop p = rest) : text[p]? = rest.head? := by
  rw [← h, List.head?_drop]

theorem drop_of_drop_append (h : text.drop p = pre ++ rest) :
    text.drop (p + pre.length) = rest := by
  rw [← List.drop_drop, h, List.drop_left]

theorem drop_succ_of_drop (h : text.drop p = c :: rest) : text.drop (p + 1) = rest := by
  rw [← List.drop_drop, h, List.drop_one, List.tail_cons]

theorem skipWhile_text (skip : UInt8 → Bool) (h : text.drop p = pre ++ rest)
    (hpre : ∀ c ∈ pre, skip c = true) (hrest : ∀ c ∈ rest.head?, skip c = false) :
    skipWhile (fun i => text[i]?) skip (text.length - p) p = some (p + pre.length) := by
  have hlength : text.length - p = (pre ++ rest).length := by rw [← h, List.length_drop]
  rw [hlength]
  clear hlength
  induction pre generalizing p with
  | nil =>
      cases rest with
      | nil => rfl
      | cons c rest =>
          have hc : text[p]? = some c := getElem?_of_drop h
          have hstop : skip c = false := hrest c rfl
          simp [skipWhile, hc, hstop]
  | cons c pre ih =>
      have hc : text[p]? = some c := getElem?_of_drop h
      have hskip : skip c = true := hpre c List.mem_cons_self
      have hdrop : text.drop (p + 1) = pre ++ rest := drop_succ_of_drop h
      rw [List.cons_append, List.length_cons, skipWhile]
      simp only [hc, hskip, if_true]
      rw [ih hdrop fun d hd => hpre d (List.mem_cons_of_mem c hd), List.length_cons, Nat.add_assoc,
        Nat.add_comm 1]

theorem exists_span (skip : UInt8 → Bool) (text : List UInt8) : ∃ pre rest, text = pre ++ rest ∧
    (∀ c ∈ pre, skip c = true) ∧ ∀ c ∈ rest.head?, skip c = false := by
  refine ⟨text.takeWhile skip, text.dropWhile skip, List.takeWhile_append_dropWhile.symm,
    List.all_eq_true.mp List.all_takeWhile, fun c hc => ?_⟩
  have hnot := List.head?_dropWhile_not skip text
  rw [Option.mem_def.mp hc] at hnot
  exact hnot

/-- Behind white space there is the rest of the text. -/
structure Ahead (text : List UInt8) (p : ℕ) (ws rest : List UInt8) : Prop where
  drop : text.drop p = ws ++ rest
  white : ∀ c ∈ ws, isWhitespace c = true
  head : ∀ c ∈ rest.head?, isWhitespace c = false

theorem exists_ahead (text : List UInt8) (p : ℕ) : ∃ ws rest, Ahead text p ws rest := by
  obtain ⟨ws, rest, hdrop, hwhite, hhead⟩ := exists_span isWhitespace (text.drop p)
  exact ⟨ws, rest, hdrop, hwhite, hhead⟩

theorem Ahead.trimWhitespace (h : Ahead text p ws rest) :
    trimWhitespace (fun i => text[i]?) p text.length = some (p + ws.length) :=
  skipWhile_text isWhitespace h.drop h.white h.head

theorem Ahead.getElem? (h : Ahead text p ws rest) : text[p + ws.length]? = rest.head? :=
  getElem?_of_drop (drop_of_drop_append h.drop)

theorem Ahead.drop_succ (h : Ahead text p ws (c :: rest)) :
    text.drop (p + ws.length + 1) = rest :=
  drop_succ_of_drop (drop_of_drop_append h.drop)

/-- Where nothing is left but white space, the byte behind the text is read. -/
theorem iteration_of_white (h : Ahead text s.p ws []) :
    iteration (fun i => text[i]?) text.length maxProperties s = none := by
  have htrim := h.trimWhitespace
  have hnone : text[s.p + ws.length]? = none := h.getElem?
  rw [iteration]
  cases s.state with
  | expectObjectStart => simp [expectObjectStart, htrim, hnone]
  | expectKeyOrObjectEnd => simp [expectKeyOrObjectEnd, htrim, hnone]
  | expectColon => simp [expectColon, htrim, hnone]
  | expectValue => simp [expectValue, htrim, hnone]
  | expectCommaOrObjectEnd => simp [expectCommaOrObjectEnd, htrim, hnone]

variable {key chars bare tail : List UInt8}

theorem expectKeyOrObjectEnd_key (h : Ahead text s.p ws (quote :: (key ++ tail)))
    (hkey : ∀ d ∈ key, d ≠ quote) (htail : ∀ d ∈ tail.head?, d = quote) :
    expectKeyOrObjectEnd (fun i => text[i]?) text.length maxProperties s =
      if s.propertyCount < maxProperties then
        (setProperty s.properties s.propertyCount fun property => { property with
          keyBegin := s.p + ws.length + 1
          keyEnd := s.p + ws.length + 1 + key.length }).map fun properties =>
            .continues ⟨.expectColon, s.propertyCount, s.p + ws.length + 1 + key.length + 1,
              properties⟩
      else some (.returns s.propertyCount s.properties) := by
  have hc : text[s.p + ws.length]? = some quote := h.getElem?
  have hskip := skipWhile_text (fun c => c ≠ quote) h.drop_succ
    (fun d hd => by simpa using hkey d hd) (fun d hd => by simpa using htail d hd)
  have hne : quote ≠ braceClose := by decide
  simp only [expectKeyOrObjectEnd, Option.bind_eq_bind, h.trimWhitespace, Option.bind_some, hc,
    if_neg hne, if_true, hskip, Option.bind_some]
  split
  · cases setProperty s.properties s.propertyCount _ <;> rfl
  · rfl

theorem expectValue_string (h : Ahead text s.p ws (quote :: (chars ++ tail)))
    (hchars : ∀ d ∈ chars, d ≠ quote) (htail : ∀ d ∈ tail.head?, d = quote) :
    expectValue (fun i => text[i]?) text.length s =
      (setProperty s.properties s.propertyCount fun property => { property with
        valueBegin := s.p + ws.length
        valueEnd := s.p + ws.length + 1 + chars.length }).map fun properties =>
          .continues ⟨.expectCommaOrObjectEnd, s.propertyCount + 1,
            s.p + ws.length + 1 + chars.length + 1, properties⟩ := by
  have hc : text[s.p + ws.length]? = some quote := h.getElem?
  have hskip := skipWhile_text (fun c => c ≠ quote) h.drop_succ
    (fun d hd => by simpa using hchars d hd) (fun d hd => by simpa using htail d hd)
  simp only [expectValue, Option.bind_eq_bind, h.trimWhitespace, Option.bind_some, hc, if_true,
    hskip]
  cases setProperty s.properties s.propertyCount _ <;> rfl

/-- What ends a bare value. -/
def endsBare (c : UInt8) : Bool := c = comma || c = braceClose

theorem expectValue_bare (h : Ahead text s.p ws (c :: rest)) (hc : c ≠ quote)
    (hrest : c :: rest = bare ++ tail) (hbare : ∀ d ∈ bare, endsBare d = false)
    (htail : ∀ d ∈ tail.head?, endsBare d = true) :
    expectValue (fun i => text[i]?) text.length s =
      (setProperty s.properties s.propertyCount fun property => { property with
        valueBegin := s.p + ws.length
        valueEnd := s.p + ws.length + bare.length }).map fun properties =>
          .continues ⟨.expectCommaOrObjectEnd, s.propertyCount + 1,
            s.p + ws.length + bare.length, properties⟩ := by
  have hget : text[s.p + ws.length]? = some c := h.getElem?
  have hdrop : text.drop (s.p + ws.length) = bare ++ tail :=
    (drop_of_drop_append h.drop).trans hrest
  have hskip := skipWhile_text (fun c => c ≠ comma && c ≠ braceClose) hdrop
    (fun d hd => by simpa [endsBare] using hbare d hd)
    (fun d hd => by simpa [endsBare, Decidable.imp_iff_not_or] using htail d hd)
  simp only [expectValue, Option.bind_eq_bind, h.trimWhitespace, Option.bind_some, hget, if_neg hc,
    hskip]
  cases setProperty s.properties s.propertyCount _ <;> rfl

end Text

def EParseState.mode : EParseState → Mode
  | .expectObjectStart => .start
  | .expectKeyOrObjectEnd => .keyOrEnd
  | .expectColon => .colon
  | .expectValue => .value
  | .expectCommaOrObjectEnd => .commaOrEnd

/-- The place of the loop in the text. -/
def Scan.lexer (s : Scan) : Lexer := ⟨s.state.mode, s.propertyCount⟩

section Iteration

variable {text ws rest : List UInt8} {c : UInt8} {p maxProperties : ℕ} {s : Scan}

/-- What an iteration comes to agrees with the place in the text. -/
def Agrees (text : List UInt8) (maxProperties : ℕ) (s : Scan) : Option Outcome → Prop
  | none => False
  | some (.returns _ _) => ¬ CutOff maxProperties s.lexer (text.drop s.p)
  | some (.continues s') => CutOff maxProperties s.lexer (text.drop s.p) ↔
      CutOff maxProperties s'.lexer (text.drop s'.p)

theorem isBetween_mode (state : EParseState) : state.mode.IsBetween := by
  cases state <;> simp [EParseState.mode, Mode.IsBetween]

theorem cutOff_of_ahead (h : Ahead text s.p ws (c :: rest)) :
    CutOff maxProperties s.lexer (text.drop s.p) ↔
      CutOff maxProperties (s.lexer.step maxProperties c) rest := by
  rw [h.drop]
  exact cutOff_append_cons (h.head c rfl)
    (run_of_stay fun d hd => step_whitespace (isBetween_mode s.state) (h.white d hd))

theorem agrees_expectObjectStart (h : Ahead text s.p ws (c :: rest))
    (hstate : s.state = .expectObjectStart) :
    Agrees text maxProperties s (expectObjectStart (fun i => text[i]?) text.length s) := by
  have hc : text[s.p + ws.length]? = some c := h.getElem?
  have hcut : CutOff maxProperties s.lexer (text.drop s.p) ↔ _ := cutOff_of_ahead h
  simp only [expectObjectStart, Option.bind_eq_bind, h.trimWhitespace, Option.bind_some, hc]
  by_cases hopen : c = braceOpen
  · simp only [hopen, if_true, Agrees]
    rw [hcut, h.drop_succ]
    simp [Scan.lexer, EParseState.mode, Lexer.step, hstate, hopen]
  · simp only [hopen, if_false, Agrees]
    rw [hcut, h.drop_succ]
    simp [Scan.lexer, EParseState.mode, Lexer.step, hstate, hopen]

theorem agrees_expectColon (h : Ahead text s.p ws (c :: rest)) (hstate : s.state = .expectColon) :
    Agrees text maxProperties s (expectColon (fun i => text[i]?) text.length s) := by
  have hc : text[s.p + ws.length]? = some c := h.getElem?
  have hcut : CutOff maxProperties s.lexer (text.drop s.p) ↔ _ := cutOff_of_ahead h
  simp only [expectColon, Option.bind_eq_bind, h.trimWhitespace, Option.bind_some, hc]
  by_cases hcolon : c = colon
  · simp only [hcolon, if_true, Agrees]
    rw [hcut, h.drop_succ]
    simp [Scan.lexer, EParseState.mode, Lexer.step, hstate, hcolon]
  · simp only [hcolon, if_false, Agrees]
    rw [hcut, h.drop_succ]
    simp [Scan.lexer, EParseState.mode, Lexer.step, hstate, hcolon]

theorem agrees_expectCommaOrObjectEnd (h : Ahead text s.p ws (c :: rest))
    (hstate : s.state = .expectCommaOrObjectEnd) :
    Agrees text maxProperties s
      (expectCommaOrObjectEnd (fun i => text[i]?) text.length s) := by
  have hc : text[s.p + ws.length]? = some c := h.getElem?
  have hcut : CutOff maxProperties s.lexer (text.drop s.p) ↔ _ := cutOff_of_ahead h
  simp only [expectCommaOrObjectEnd, Option.bind_eq_bind, h.trimWhitespace, Option.bind_some, hc]
  by_cases hcomma : c = comma
  · simp only [hcomma, if_true, Agrees]
    rw [hcut, h.drop_succ]
    simp [Scan.lexer, EParseState.mode, Lexer.step, Lexer.close, hstate, hcomma]
  · by_cases hclose : c = braceClose
    · simp only [if_neg hcomma, if_pos hclose, Agrees]
      rw [hcut]
      simpa [Scan.lexer, EParseState.mode, Lexer.step, Lexer.close, hstate, if_neg hcomma,
        if_pos hclose] using not_cutOff_done s.propertyCount rest
    · simp only [hcomma, hclose, if_false, Agrees]
      rw [hcut, h.drop_succ]
      simp [Scan.lexer, EParseState.mode, Lexer.step, Lexer.close, hstate, hcomma, hclose]

theorem setProperty_of_lt {properties : List Property} {i : ℕ} (hi : i < properties.length)
    (update : Property → Property) :
    ∃ properties', setProperty properties i update = some properties' := by
  rw [setProperty, List.getElem?_eq_getElem hi]
  exact ⟨_, rfl⟩

theorem exists_string (text : List UInt8) : ∃ chars tail, text = chars ++ tail ∧
    (∀ c ∈ chars, c ≠ quote) ∧ ∀ c ∈ tail.head?, c = quote := by
  obtain ⟨chars, tail, htext, hchars, htail⟩ := exists_span (fun c => c ≠ quote) text
  exact ⟨chars, tail, htext, fun c hc => by simpa using hchars c hc,
    fun c hc => by simpa using htail c hc⟩

theorem cutOff_string {l l' : Lexer} {chars tail : List UInt8}
    (hstay : ∀ d, d ≠ quote → l.step maxProperties d = l) (hend : l.step maxProperties quote = l')
    (hbetween : ¬ l.mode.IsBetween) (hchars : ∀ d ∈ chars, d ≠ quote)
    (htail : ∀ d ∈ tail.head?, d = quote) :
    CutOff maxProperties l (chars ++ tail) ↔ CutOff maxProperties l' (tail.drop 1) := by
  have hchars' : ∀ d ∈ chars, l.step maxProperties d = l := fun d hd => hstay d (hchars d hd)
  cases tail with
  | nil =>
      rw [List.append_nil]
      exact iff_of_false (not_cutOff_of_stay hchars' hbetween) not_cutOff_nil
  | cons d tail =>
      obtain rfl : d = quote := htail d rfl
      rw [cutOff_append_cons rfl (run_of_stay hchars'), hend]
      rfl

theorem Ahead.drop_string {chars tail : List UInt8} (h : Ahead text p ws (c :: (chars ++ tail))) :
    text.drop (p + ws.length + 1 + chars.length + 1) = tail.drop 1 := by
  rw [← List.drop_drop, drop_of_drop_append h.drop_succ]

theorem agrees_expectKeyOrObjectEnd (ok : s.properties.length = maxProperties)
    (h : Ahead text s.p ws (c :: rest)) (hstate : s.state = .expectKeyOrObjectEnd) :
    Agrees text maxProperties s
      (expectKeyOrObjectEnd (fun i => text[i]?) text.length maxProperties s) := by
  have hc : text[s.p + ws.length]? = some c := h.getElem?
  have hcut : CutOff maxProperties s.lexer (text.drop s.p) ↔ _ := cutOff_of_ahead h
  by_cases hclose : c = braceClose
  · simp only [expectKeyOrObjectEnd, Option.bind_eq_bind, h.trimWhitespace, Option.bind_some, hc,
      hclose, if_true, Agrees]
    rw [hcut]
    simpa [Scan.lexer, EParseState.mode, Lexer.step, hstate, hclose] using
      not_cutOff_done s.propertyCount rest
  · by_cases hquote : c = quote
    · subst hquote
      obtain ⟨key, tail, rfl, hkey, htail⟩ := exists_string rest
      have hstep : s.lexer.step maxProperties quote = ⟨.inKey, s.propertyCount⟩ := by
        simp [Scan.lexer, EParseState.mode, Lexer.step, hstate, if_neg hclose]
      rw [hstep, cutOff_string (fun d hd => by simp [Lexer.step, hd]) rfl
        (by simp [Mode.IsBetween]) hkey htail] at hcut
      rw [expectKeyOrObjectEnd_key h hkey htail]
      split
      case isTrue hlt =>
          obtain ⟨properties, hset⟩ := setProperty_of_lt (ok ▸ hlt) fun property =>
            { property with
              keyBegin := s.p + ws.length + 1
              keyEnd := s.p + ws.length + 1 + key.length }
          simp only [hset, Option.map_some, Agrees]
          rw [hcut, h.drop_string]
          simp [Scan.lexer, EParseState.mode, Lexer.step, hlt]
      case isFalse hlt =>
          simp only [Agrees]
          rw [hcut]
          simpa [Lexer.step, hlt] using not_cutOff_done s.propertyCount _
    · simp only [expectKeyOrObjectEnd, Option.bind_eq_bind, h.trimWhitespace, Option.bind_some,
        hc, hclose, hquote, if_false, Agrees]
      rw [hcut, h.drop_succ]
      simp [Scan.lexer, EParseState.mode, Lexer.step, hstate, hclose, hquote]

theorem close_of_endsBare {mode mode' : Mode} {values count count' : ℕ} (h : endsBare c = true) :
    Lexer.close mode values count c = Lexer.close mode' values count' c := by
  rw [endsBare, Bool.or_eq_true, decide_eq_true_iff, decide_eq_true_iff] at h
  rcases h with rfl | rfl
  · rfl
  · rfl

theorem step_bare {count : ℕ} (h : endsBare c = false) :
    Lexer.step maxProperties ⟨.inBare, count⟩ c = ⟨.inBare, count⟩ := by
  rw [endsBare, Bool.or_eq_false_iff, decide_eq_false_iff_not, decide_eq_false_iff_not] at h
  simp [Lexer.step, Lexer.close, h.1, h.2]

/-- A bare value leads behind itself as the parser does, which stays at its end. -/
theorem cutOff_bare {count : ℕ} {bare tail : List UInt8} (hwhite : isWhitespace c = false)
    (hquote : c ≠ quote) (hrest : c :: rest = bare ++ tail)
    (hbare : ∀ d ∈ bare, endsBare d = false) (htail : ∀ d ∈ tail.head?, endsBare d = true) :
    CutOff maxProperties (Lexer.step maxProperties ⟨.value, count⟩ c) rest ↔
      CutOff maxProperties ⟨.commaOrEnd, count + 1⟩ tail := by
  have hstep : Lexer.step maxProperties ⟨.value, count⟩ c =
      Lexer.step maxProperties ⟨.inBare, count⟩ c := by
    simp [Lexer.step, hwhite, hquote]
  have hends : ∀ d tail', tail = d :: tail' → isWhitespace d = false := by
    rintro d tail' rfl
    have hd := htail d rfl
    rw [endsBare, Bool.or_eq_true, decide_eq_true_iff, decide_eq_true_iff] at hd
    rcases hd with rfl | rfl
    · rfl
    · rfl
  have hfirst : CutOff maxProperties (Lexer.step maxProperties ⟨.inBare, count⟩ c) rest ↔
      CutOff maxProperties ⟨.inBare, count⟩ (c :: rest) :=
    (cutOff_cons hwhite).symm
  rw [hstep, hfirst, hrest]
  have hstay : ∀ d ∈ bare, Lexer.step maxProperties ⟨.inBare, count⟩ d = ⟨.inBare, count⟩ :=
    fun d hd => step_bare (hbare d hd)
  cases tail with
  | nil =>
      rw [List.append_nil]
      exact iff_of_false (not_cutOff_of_stay hstay (by simp [Mode.IsBetween])) not_cutOff_nil
  | cons d tail =>
      have hd := hends d tail rfl
      have hclose : Lexer.step maxProperties ⟨.inBare, count⟩ d =
          Lexer.step maxProperties ⟨.commaOrEnd, count + 1⟩ d := close_of_endsBare (htail d rfl)
      rw [cutOff_append_cons hd (run_of_stay hstay), hclose]
      exact (cutOff_cons hd).symm

theorem agrees_expectValue (ok : s.properties.length = maxProperties)
    (hlt : s.propertyCount < maxProperties) (h : Ahead text s.p ws (c :: rest))
    (hstate : s.state = .expectValue) :
    Agrees text maxProperties s (expectValue (fun i => text[i]?) text.length s) := by
  have hwhite : isWhitespace c = false := h.head c rfl
  have hlexer : s.lexer = ⟨.value, s.propertyCount⟩ := by rw [Scan.lexer, hstate]; rfl
  have hcut : CutOff maxProperties s.lexer (text.drop s.p) ↔ _ := cutOff_of_ahead h
  rw [hlexer] at hcut
  by_cases hquote : c = quote
  · subst hquote
    obtain ⟨chars, tail, rfl, hchars, htail⟩ := exists_string rest
    have hstep : Lexer.step maxProperties ⟨.value, s.propertyCount⟩ quote =
        ⟨.inString, s.propertyCount⟩ := rfl
    rw [hstep, cutOff_string (fun d hd => by simp [Lexer.step, hd]) rfl
      (by simp [Mode.IsBetween]) hchars htail] at hcut
    obtain ⟨properties, hset⟩ := setProperty_of_lt (ok ▸ hlt) fun property =>
      { property with
        valueBegin := s.p + ws.length
        valueEnd := s.p + ws.length + 1 + chars.length }
    rw [expectValue_string h hchars htail, hset]
    simp only [Option.map_some, Agrees]
    rw [hlexer, hcut, h.drop_string]
    rfl
  · obtain ⟨bare, tail, hrest, hbare, htail⟩ := exists_span (fun d => !endsBare d) (c :: rest)
    have hbare' : ∀ d ∈ bare, endsBare d = false := fun d hd => by simpa using hbare d hd
    have htail' : ∀ d ∈ tail.head?, endsBare d = true := fun d hd => by simpa using htail d hd
    have hdrop : text.drop (s.p + ws.length) = bare ++ tail :=
      (drop_of_drop_append h.drop).trans hrest
    obtain ⟨properties, hset⟩ := setProperty_of_lt (ok ▸ hlt) fun property =>
      { property with
        valueBegin := s.p + ws.length
        valueEnd := s.p + ws.length + bare.length }
    rw [expectValue_bare h hquote hrest hbare' htail', hset]
    simp only [Option.map_some, Agrees]
    rw [hlexer, hcut, drop_of_drop_append hdrop]
    exact cutOff_bare hwhite hquote hrest hbare' htail'

/-- An iteration agrees with the text, unless nothing is left of it but white space. -/
theorem agrees_iteration (ok : ScanOk (fun i => text[i]?) text.length maxProperties s)
    (h : Ahead text s.p ws (c :: rest)) :
    Agrees text maxProperties s
      (iteration (fun i => text[i]?) text.length maxProperties s) := by
  rw [iteration]
  cases hstate : s.state with
  | expectObjectStart => exact agrees_expectObjectStart h hstate
  | expectKeyOrObjectEnd => exact agrees_expectKeyOrObjectEnd ok.length h hstate
  | expectColon => exact agrees_expectColon h hstate
  | expectValue => exact agrees_expectValue ok.length (ok.lt (.inr hstate)) h hstate
  | expectCommaOrObjectEnd => exact agrees_expectCommaOrObjectEnd h hstate

/-- The loop faults exactly when the text is cut off. -/
theorem parseLoop_faults_iff {fuel : ℕ}
    (ok : ScanOk (fun i => text[i]?) text.length maxProperties s)
    (hfuel : measure text.length s ≤ fuel) :
    parseLoop (fun i => text[i]?) text.length maxProperties fuel s = .faults ↔
      CutOff maxProperties s.lexer (text.drop s.p) := by
  induction fuel generalizing s with
  | zero =>
      have hge : ¬ s.p < text.length := by
        rw [measure] at hfuel
        omega
      rw [parseLoop, if_neg hge, List.drop_eq_nil_of_le (Nat.not_lt.mp hge)]
      exact iff_of_false (by simp) not_cutOff_nil
  | succ fuel ih =>
      rw [parseLoop]
      split
      case isTrue hlt =>
          obtain ⟨ws, rest, hahead⟩ := exists_ahead text s.p
          cases rest with
          | nil =>
              rw [iteration_of_white hahead]
              refine iff_of_true rfl ?_
              have hdrop : text.drop s.p = ws := hahead.drop.trans (List.append_nil ws)
              have hne : ws ≠ [] := by
                rw [← hdrop]
                simpa using hlt
              refine ⟨⟨ws.getLast hne, ?_, hahead.white _ (List.getLast_mem hne)⟩, ?_⟩
              · rw [hdrop, List.getLast?_eq_some_getLast hne]
              · rw [hdrop, run_of_stay fun c hc =>
                  step_whitespace (isBetween_mode s.state) (hahead.white c hc)]
                exact isBetween_mode s.state
          | cons c rest =>
              have hagrees := agrees_iteration ok hahead
              cases hiteration : iteration (fun i => text[i]?) text.length maxProperties s with
              | none =>
                  rw [hiteration] at hagrees
                  exact hagrees.elim
              | some outcome =>
                  rw [hiteration] at hagrees
                  cases outcome with
                  | returns count properties => exact iff_of_false (by simp) hagrees
                  | continues s' =>
                      have hmoves := moves_of_iteration hiteration
                      have := measure_lt hmoves hlt
                      exact (ih (ok.moves hlt hmoves) (by omega)).trans hagrees.symm
      case isFalse hge =>
          rw [List.drop_eq_nil_of_le (Nat.not_lt.mp hge)]
          exact iff_of_false (by simp) not_cutOff_nil

end Iteration

/-- The spans of a property are in order and in the packet. -/
structure Property.Ordered (jsonEnd : ℕ) (property : Property) : Prop where
  key : property.keyBegin ≤ property.keyEnd
  between : property.keyEnd ≤ property.valueBegin
  value : property.valueBegin ≤ property.valueEnd
  inside : property.valueEnd ≤ jsonEnd

/-- Nothing was read or written out of range, and what is returned is in order. -/
def Safe (jsonEnd maxProperties : ℕ) (result : Result) : Prop :=
  ∃ count properties, result = .returns count properties ∧ count ≤ maxProperties ∧
    ∀ i < count, ∃ property, properties[i]? = some property ∧ property.Ordered jsonEnd

theorem PropertyOk.ordered {text : List UInt8} {property : Property}
    (h : PropertyOk (fun i => text[i]?) text.length property) : property.Ordered text.length where
  key := h.key.skipped.le
  between := Nat.le_of_lt h.keyEnd_lt_valueBegin
  value := h.value.valueBegin_le
  inside := by
    apply h.value.valueEnd_le
    have hsome : (text[property.valueBegin]?).isSome := h.value.fetches
    simpa using hsome

/-- The parser is safe unless the packet ends in white space where a token is looked for. -/
theorem sParseJson_safe_iff (text : List UInt8) (properties : List Property) :
    Safe text.length properties.length
        (sParseJson (fun i => text[i]?) text.length properties properties.length) ↔
      ¬ CutOff properties.length ⟨.start, 0⟩ text := by
  have hfaults : sParseJson (fun i => text[i]?) text.length properties properties.length =
      .faults ↔ CutOff properties.length ⟨.start, 0⟩ text :=
    parseLoop_faults_iff (scanOk_start rfl) (by simp [measure])
  rw [← hfaults]
  constructor
  · rintro ⟨count, properties', hresult, -⟩
    rw [hresult]
    simp
  · intro hne
    cases hresult : sParseJson (fun i => text[i]?) text.length properties properties.length with
    | runs => exact absurd hresult (sParseJson_ne_runs properties)
    | faults => exact absurd hresult hne
    | returns count properties' =>
        obtain ⟨hcount, -, hproperties⟩ := sParseJson_returns rfl hresult
        refine ⟨count, properties', rfl, hcount, fun i hi => ?_⟩
        obtain ⟨property, hproperty, hok⟩ := hproperties i hi
        exact ⟨property, hproperty, hok.ordered⟩

/-- A packet that is a line end is read behind its end. -/
theorem not_safe_newline :
    ¬ ∀ (text : List UInt8) (properties : List Property), Safe text.length properties.length
      (sParseJson (fun i => text[i]?) text.length properties properties.length) := by
  intro h
  obtain ⟨count, properties', hresult, -⟩ := h [0x0A] []
  cases hresult

end GeekOpen

end ConArtist
