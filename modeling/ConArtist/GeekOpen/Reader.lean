import ConArtist.GeekOpen.Lexer
import ConArtist.GeekOpen.Stack

/-!
# The parser a byte at a time

`s_parse_json` goes through its packet in loops within a loop, and comes to the same byte more than
once. A `Reader` takes each byte once: it knows the place in the text, the spans that are not
finished and the properties that are. `read` is what a reader finds in a text, and the parser
finds just that, in every text it does not read behind.

A reader does not look ahead. So of a packet that was cut off anywhere the parser finds what it
finds of the whole one, up to a last value that may go on behind the cut. Cut off in the white space
behind a colon, the packet has no value there, and the parser takes the byte behind it for one.
-/

namespace ConArtist

namespace GeekOpen

/-- A place in a text, with the key and the value that are not finished, and the properties that
are. -/
structure Reader where
  mode : Mode
  keyBegin : ℕ
  keyEnd : ℕ
  valueBegin : ℕ
  found : List Property

namespace Reader

/-- Before the first byte. -/
def begin : Reader := ⟨.start, 0, 0, 0, []⟩

/-- The value ends here, and the property with it. -/
def finishValue (r : Reader) (valueEnd : ℕ) (mode : Mode) : Reader :=
  { r with mode, found := r.found ++ [⟨r.keyBegin, r.keyEnd, r.valueBegin, valueEnd⟩] }

/-- A byte of a bare value, or the one behind it. -/
def bare (r : Reader) (p : ℕ) (c : UInt8) : Reader :=
  if c = comma then r.finishValue p .keyOrEnd
  else if c = braceClose then r.finishValue p .done
  else r

/-- The reader behind the byte at `p`. -/
def step (maxProperties : ℕ) (r : Reader) (p : ℕ) (c : UInt8) : Reader :=
  match r.mode with
  | .start => if c = braceOpen then { r with mode := .keyOrEnd } else r
  | .keyOrEnd =>
      if c = braceClose then { r with mode := .done }
      else if c = quote then { r with mode := .inKey, keyBegin := p + 1 }
      else r
  | .inKey =>
      if c = quote then
        if r.found.length < maxProperties then { r with mode := .colon, keyEnd := p }
        else { r with mode := .done }
      else r
  | .colon => if c = GeekOpen.colon then { r with mode := .value } else r
  | .value =>
      if isWhitespace c then r
      else if c = quote then { r with mode := .inString, valueBegin := p }
      else { r with mode := .inBare, valueBegin := p }.bare p c
  | .inString => if c = quote then r.finishValue p .commaOrEnd else r
  | .inBare => r.bare p c
  | .commaOrEnd =>
      if c = comma then { r with mode := .keyOrEnd }
      else if c = braceClose then { r with mode := .done }
      else r
  | .done => r

/-- The reader behind a text that begins at `p`. -/
def run (maxProperties : ℕ) : Reader → ℕ → List UInt8 → Reader
  | r, _, [] => r
  | r, p, c :: text => run maxProperties (r.step maxProperties p c) (p + 1) text

/-- The property whose value goes up to the end of the text. -/
def last (r : Reader) (jsonEnd : ℕ) : Option Property :=
  if r.mode = .inString ∨ r.mode = .inBare then
    some ⟨r.keyBegin, r.keyEnd, r.valueBegin, jsonEnd⟩
  else none

/-- What was found when the text ends. -/
def finish (r : Reader) (jsonEnd : ℕ) : List Property := r.found ++ (r.last jsonEnd).toList

end Reader

/-- What a reader finds in a text. -/
def read (maxProperties : ℕ) (text : List UInt8) : List Property :=
  (Reader.begin.run maxProperties 0 text).finish text.length

namespace Reader

variable {maxProperties p : ℕ} {r r' : Reader} {text pre : List UInt8} {c : UInt8}

theorem run_append (r : Reader) (p : ℕ) (pre text : List UInt8) :
    r.run maxProperties p (pre ++ text) =
      (r.run maxProperties p pre).run maxProperties (p + pre.length) text := by
  induction pre generalizing r p with
  | nil => rfl
  | cons c pre ih =>
      rw [List.cons_append, run, run, ih, List.length_cons, Nat.add_right_comm, Nat.add_assoc]

theorem run_of_stay (h : ∀ c ∈ pre, ∀ p, r.step maxProperties p c = r) (p : ℕ) :
    r.run maxProperties p pre = r := by
  induction pre generalizing p with
  | nil => rfl
  | cons c pre ih =>
      rw [run, h c List.mem_cons_self]
      exact ih (fun d hd => h d (List.mem_cons_of_mem c hd)) (p + 1)

theorem run_skip (h : ∀ c ∈ pre, ∀ p, r.step maxProperties p c = r) (p : ℕ) (c : UInt8)
    (text : List UInt8) : r.run maxProperties p (pre ++ c :: text) =
      (r.step maxProperties (p + pre.length) c).run maxProperties (p + pre.length + 1) text := by
  rw [run_append, run_of_stay h, run]

theorem run_done (h : r.mode = .done) (p : ℕ) (text : List UInt8) :
    r.run maxProperties p text = r :=
  run_of_stay (fun c _ p => by rw [step, h]) p

theorem step_white (hbetween : r.mode.IsBetween) (hc : isWhitespace c = true) (p : ℕ) :
    r.step maxProperties p c = r := by
  have hne : c ≠ braceOpen ∧ c ≠ braceClose ∧ c ≠ quote ∧ c ≠ GeekOpen.colon ∧ c ≠ comma := by
    refine ⟨?_, ?_, ?_, ?_, ?_⟩ <;>
      · rintro rfl
        cases hc
  obtain ⟨hopen, hclose, hquote, hcolon, hcomma⟩ := hne
  rcases hbetween with h | h | h | h | h <;> simp [step, h, hopen, hclose, hquote, hcolon, hcomma, hc]

theorem finish_not_in_value (hmode : ¬ (r.mode = .inString ∨ r.mode = .inBare)) (jsonEnd : ℕ) :
    r.finish jsonEnd = r.found := by
  rw [finish, last, if_neg hmode, Option.toList_none, List.append_nil]

theorem finish_of_between (hbetween : r.mode.IsBetween) (jsonEnd : ℕ) :
    r.finish jsonEnd = r.found := by
  refine finish_not_in_value ?_ jsonEnd
  rcases hbetween with h | h | h | h | h <;> simp [h]

theorem finish_done (h : r.mode = .done) (jsonEnd : ℕ) : r.finish jsonEnd = r.found :=
  finish_not_in_value (by simp [h]) jsonEnd

theorem finish_finishValue (r : Reader) (valueEnd jsonEnd : ℕ) :
    (r.finishValue valueEnd .commaOrEnd).finish jsonEnd =
      r.found ++ [⟨r.keyBegin, r.keyEnd, r.valueBegin, valueEnd⟩] :=
  finish_of_between (.inr (.inr (.inr (.inr rfl)))) jsonEnd

end Reader

/-- The reader is where the loop is, and has found the properties that are counted. -/
structure Tracks (s : Scan) (r : Reader) : Prop where
  mode : r.mode = s.state.mode
  count : s.propertyCount ≤ s.properties.length
  found : s.properties.take s.propertyCount = r.found
  key : s.state.IsOpen → ∀ property, s.properties[s.propertyCount]? = some property →
    property.keyBegin = r.keyBegin ∧ property.keyEnd = r.keyEnd

section Iteration

variable {text ws rest : List UInt8} {c : UInt8} {maxProperties : ℕ} {s : Scan} {r : Reader}

/-- Two readers come to the same when the text ends. -/
def SameEnd (jsonEnd : ℕ) (r r' : Reader) : Prop :=
  r.finish jsonEnd = r'.finish jsonEnd ∧ (r'.mode = .value → r = r')

@[refl] theorem SameEnd.refl (jsonEnd : ℕ) (r : Reader) : SameEnd jsonEnd r r :=
  ⟨rfl, fun _ => rfl⟩

/-- An iteration comes to what the reader finds. -/
def Follows (text : List UInt8) (maxProperties : ℕ) (s : Scan) (r : Reader) :
    Option Outcome → Prop
  | none => True
  | some (.returns count properties) =>
      (r.run maxProperties s.p (text.drop s.p)).finish text.length = properties.take count ∧
        count ≤ properties.length
  | some (.continues s') => ∃ r', Tracks s' r' ∧
      SameEnd text.length (r.run maxProperties s.p (text.drop s.p))
        (r'.run maxProperties s'.p (text.drop s'.p))

theorem Tracks.length (h : Tracks s r) : r.found.length = s.propertyCount := by
  rw [← h.found, List.length_take, Nat.min_eq_left h.count]

theorem Tracks.enters (h : Tracks s r) (state : EParseState) (p : ℕ)
    (hopen : state.IsOpen → s.state.IsOpen) :
    Tracks { s with state := state, p := p } { r with mode := state.mode } :=
  ⟨rfl, h.count, h.found, fun hstate => h.key (hopen hstate)⟩

theorem Tracks.run_ahead (h : Tracks s r) (hahead : Ahead text s.p ws (c :: rest)) :
    r.run maxProperties s.p (text.drop s.p) =
      (r.step maxProperties (s.p + ws.length) c).run maxProperties (s.p + ws.length + 1)
        (text.drop (s.p + ws.length + 1)) := by
  have hbetween : r.mode.IsBetween := h.mode ▸ isBetween_mode s.state
  rw [hahead.drop_succ, hahead.drop]
  exact Reader.run_skip (fun d hd => Reader.step_white hbetween (hahead.white d hd)) _ c rest

theorem follows_expectObjectStart (h : Tracks s r) (hahead : Ahead text s.p ws (c :: rest))
    (hstate : s.state = .expectObjectStart) :
    Follows text maxProperties s r
      (expectObjectStart (fun i => text[i]?) text.length s) := by
  have hc : text[s.p + ws.length]? = some c := hahead.getElem?
  have hmode : r.mode = .start := h.mode.trans (by rw [hstate]; rfl)
  have hrun : r.run maxProperties s.p (text.drop s.p) = _ := h.run_ahead hahead
  simp only [expectObjectStart, Option.bind_eq_bind, hahead.trimWhitespace, Option.bind_some, hc]
  by_cases hopen : c = braceOpen
  · rw [if_pos hopen]
    refine ⟨{ r with mode := .keyOrEnd }, h.enters .expectKeyOrObjectEnd _
      fun hopen => absurd hopen not_isOpen_expectKeyOrObjectEnd, ?_⟩
    rw [hrun, Reader.step, hmode]
    dsimp only
    rw [if_pos hopen]
  · rw [if_neg hopen]
    refine ⟨r, ⟨h.mode, h.count, h.found, h.key⟩, ?_⟩
    rw [hrun, Reader.step, hmode]
    dsimp only
    rw [if_neg hopen]

theorem follows_expectColon (h : Tracks s r) (hahead : Ahead text s.p ws (c :: rest))
    (hstate : s.state = .expectColon) :
    Follows text maxProperties s r (expectColon (fun i => text[i]?) text.length s) := by
  have hc : text[s.p + ws.length]? = some c := hahead.getElem?
  have hmode : r.mode = .colon := h.mode.trans (by rw [hstate]; rfl)
  have hrun : r.run maxProperties s.p (text.drop s.p) = _ := h.run_ahead hahead
  simp only [expectColon, Option.bind_eq_bind, hahead.trimWhitespace, Option.bind_some, hc]
  by_cases hcolon : c = colon
  · rw [if_pos hcolon]
    refine ⟨{ r with mode := .value }, h.enters .expectValue _
      fun _ => .inl hstate, ?_⟩
    rw [hrun, Reader.step, hmode]
    dsimp only
    rw [if_pos hcolon]
  · rw [if_neg hcolon]
    refine ⟨r, ⟨h.mode, h.count, h.found, h.key⟩, ?_⟩
    rw [hrun, Reader.step, hmode]
    dsimp only
    rw [if_neg hcolon]

theorem follows_expectCommaOrObjectEnd (h : Tracks s r) (hahead : Ahead text s.p ws (c :: rest))
    (hstate : s.state = .expectCommaOrObjectEnd) :
    Follows text maxProperties s r
      (expectCommaOrObjectEnd (fun i => text[i]?) text.length s) := by
  have hc : text[s.p + ws.length]? = some c := hahead.getElem?
  have hmode : r.mode = .commaOrEnd := h.mode.trans (by rw [hstate]; rfl)
  have hrun : r.run maxProperties s.p (text.drop s.p) = _ := h.run_ahead hahead
  simp only [expectCommaOrObjectEnd, Option.bind_eq_bind, hahead.trimWhitespace, Option.bind_some,
    hc]
  by_cases hcomma : c = comma
  · rw [if_pos hcomma]
    refine ⟨{ r with mode := .keyOrEnd }, h.enters .expectKeyOrObjectEnd _
      fun hopen => absurd hopen not_isOpen_expectKeyOrObjectEnd, ?_⟩
    rw [hrun, Reader.step, hmode]
    dsimp only
    rw [if_pos hcomma]
  · rw [if_neg hcomma]
    by_cases hclose : c = braceClose
    · rw [if_pos hclose]
      refine ⟨?_, h.count⟩
      rw [hrun, Reader.step, hmode]
      dsimp only
      rw [if_neg hcomma, if_pos hclose, Reader.run_done rfl, Reader.finish_done rfl]
      exact h.found.symm
    · rw [if_neg hclose]
      refine ⟨r, ⟨h.mode, h.count, h.found, h.key⟩, ?_⟩
      rw [hrun, Reader.step, hmode]
      dsimp only
      rw [if_neg hcomma, if_neg hclose]

theorem Tracks.stores_key (h : Tracks s r) {keyBegin keyEnd : ℕ} (p : ℕ) {properties : List Property}
    (hset : setProperty s.properties s.propertyCount (fun property =>
      { property with keyBegin, keyEnd }) = some properties) :
    Tracks ⟨.expectColon, s.propertyCount, p, properties⟩
      { r with mode := .colon, keyBegin, keyEnd } := by
  obtain ⟨property, hproperty, rfl⟩ := setProperty_eq_some hset
  obtain ⟨hlt, -⟩ := List.getElem?_eq_some_iff.mp hproperty
  refine ⟨rfl, ?_, ?_, fun _ property' hproperty' => ?_⟩
  · rw [List.length_set]
    exact h.count
  · rw [take_set_self]
    exact h.found
  · rw [List.getElem?_set_self hlt] at hproperty'
    cases hproperty'
    exact ⟨rfl, rfl⟩

theorem Tracks.stores_value (h : Tracks s r) (hopen : s.state.IsOpen) {valueBegin valueEnd : ℕ}
    (p : ℕ) {properties : List Property}
    (hset : setProperty s.properties s.propertyCount (fun property =>
      { property with valueBegin, valueEnd }) = some properties) :
    Tracks ⟨.expectCommaOrObjectEnd, s.propertyCount + 1, p, properties⟩
      ({ r with valueBegin }.finishValue valueEnd .commaOrEnd) := by
  obtain ⟨property, hproperty, rfl⟩ := setProperty_eq_some hset
  obtain ⟨hlt, -⟩ := List.getElem?_eq_some_iff.mp hproperty
  obtain ⟨hbegin, hend⟩ := h.key hopen property hproperty
  refine ⟨rfl, ?_, ?_, ?_⟩
  · rw [List.length_set]
    exact hlt
  · rw [List.take_add_one, take_set_self, h.found, List.getElem?_set_self hlt, hbegin, hend]
    rfl
  · rintro (hstate | hstate) <;> cases hstate

theorem Reader.sameEnd_string {r' : Reader} {p jsonEnd : ℕ} {chars tail : List UInt8}
    (hstay : ∀ d, d ≠ quote → ∀ p, r.step maxProperties p d = r)
    (hend : r.step maxProperties (p + chars.length) quote = r')
    (hchars : ∀ d ∈ chars, d ≠ quote) (htail : ∀ d ∈ tail.head?, d = quote)
    (hsame : tail = [] → SameEnd jsonEnd r r') :
    SameEnd jsonEnd (r.run maxProperties p (chars ++ tail))
      (r'.run maxProperties (p + chars.length + 1) (tail.drop 1)) := by
  have hskip : ∀ d ∈ chars, ∀ p, r.step maxProperties p d = r :=
    fun d hd => hstay d (hchars d hd)
  cases tail with
  | nil =>
      rw [List.append_nil, Reader.run_of_stay hskip]
      exact hsame rfl
  | cons d tail =>
      obtain rfl : d = quote := htail d rfl
      rw [Reader.run_skip hskip, hend]
      exact .refl _ _

theorem length_of_ahead {chars : List UInt8} (hahead : Ahead text s.p ws (c :: (chars ++ []))) :
    text.length = s.p + ws.length + 1 + chars.length := by
  have hlength := congrArg List.length hahead.drop
  simp only [List.length_drop, List.length_append, List.length_cons, List.length_nil] at hlength
  omega

theorem follows_key {key tail : List UInt8} (h : Tracks s r)
    (ok : s.properties.length = maxProperties)
    (hahead : Ahead text s.p ws (quote :: (key ++ tail))) (hstate : s.state = .expectKeyOrObjectEnd)
    (hkey : ∀ d ∈ key, d ≠ quote) (htail : ∀ d ∈ tail.head?, d = quote) :
    Follows text maxProperties s r
      (expectKeyOrObjectEnd (fun i => text[i]?) text.length maxProperties s) := by
  have hmode : r.mode = .keyOrEnd := h.mode.trans (by rw [hstate]; rfl)
  have hrun : r.run maxProperties s.p (text.drop s.p) = _ := h.run_ahead hahead
  have hne : quote ≠ braceClose := by decide
  have hstep : r.step maxProperties (s.p + ws.length) quote =
      { r with mode := .inKey, keyBegin := s.p + ws.length + 1 } := by
    rw [Reader.step, hmode]
    dsimp only
    rw [if_neg hne, if_pos rfl]
  rw [hstep, hahead.drop_succ] at hrun
  have hstay : ∀ d, d ≠ quote → ∀ p,
      Reader.step maxProperties { r with mode := .inKey, keyBegin := s.p + ws.length + 1 } p d =
        { r with mode := .inKey, keyBegin := s.p + ws.length + 1 } :=
    fun d hd p => if_neg hd
  have hfinish : ∀ jsonEnd,
      Reader.finish { r with mode := .inKey, keyBegin := s.p + ws.length + 1 } jsonEnd = r.found :=
    fun jsonEnd => List.append_nil r.found
  rw [expectKeyOrObjectEnd_key hahead hkey htail]
  split
  case isTrue hlt =>
      obtain ⟨properties, hset⟩ := setProperty_of_lt (ok ▸ hlt) fun property =>
        { property with
          keyBegin := s.p + ws.length + 1
          keyEnd := s.p + ws.length + 1 + key.length }
      rw [hset]
      refine ⟨_, h.stores_key _ hset, ?_⟩
      rw [hrun, hahead.drop_string]
      refine Reader.sameEnd_string hstay ?_ hkey htail fun _ => ⟨?_, fun hvalue => by cases hvalue⟩
      · rw [Reader.step]
        dsimp only
        rw [if_pos rfl, if_pos (h.length ▸ hlt)]
      · rw [hfinish, Reader.finish_of_between (.inr (.inr (.inl rfl)))]
  case isFalse hlt =>
      have hend : ∀ p, Reader.step maxProperties
          { r with mode := .inKey, keyBegin := s.p + ws.length + 1 } p quote =
            { r with mode := .done, keyBegin := s.p + ws.length + 1 } := by
        intro p
        rw [Reader.step]
        dsimp only
        rw [if_pos rfl, if_neg (h.length ▸ hlt)]
      refine ⟨?_, h.count⟩
      rw [hrun, (Reader.sameEnd_string hstay (hend _) hkey htail fun _ => ?_).1,
        Reader.run_done rfl, Reader.finish_done rfl, h.found]
      refine ⟨?_, fun hvalue => by cases hvalue⟩
      rw [hfinish, Reader.finish_done rfl]

theorem follows_expectKeyOrObjectEnd (h : Tracks s r) (ok : s.properties.length = maxProperties)
    (hahead : Ahead text s.p ws (c :: rest)) (hstate : s.state = .expectKeyOrObjectEnd) :
    Follows text maxProperties s r
      (expectKeyOrObjectEnd (fun i => text[i]?) text.length maxProperties s) := by
  by_cases hquote : c = quote
  · subst hquote
    obtain ⟨key, tail, rfl, hkey, htail⟩ := exists_string rest
    exact follows_key h ok hahead hstate hkey htail
  · have hc : text[s.p + ws.length]? = some c := hahead.getElem?
    have hmode : r.mode = .keyOrEnd := h.mode.trans (by rw [hstate]; rfl)
    have hrun : r.run maxProperties s.p (text.drop s.p) = _ := h.run_ahead hahead
    simp only [expectKeyOrObjectEnd, Option.bind_eq_bind, hahead.trimWhitespace, Option.bind_some,
      hc]
    by_cases hclose : c = braceClose
    · rw [if_pos hclose]
      refine ⟨?_, h.count⟩
      rw [hrun, Reader.step, hmode]
      dsimp only
      rw [if_pos hclose, Reader.run_done rfl, Reader.finish_done rfl]
      exact h.found.symm
    · rw [if_neg hclose, if_neg hquote]
      refine ⟨r, ⟨h.mode, h.count, h.found, h.key⟩, ?_⟩
      rw [hrun, Reader.step, hmode]
      dsimp only
      rw [if_neg hclose, if_neg hquote]

theorem follows_string {chars tail : List UInt8} (h : Tracks s r)
    (hlt : s.propertyCount < s.properties.length)
    (hahead : Ahead text s.p ws (quote :: (chars ++ tail))) (hstate : s.state = .expectValue)
    (hchars : ∀ d ∈ chars, d ≠ quote) (htail : ∀ d ∈ tail.head?, d = quote) :
    Follows text maxProperties s r (expectValue (fun i => text[i]?) text.length s) := by
  have hmode : r.mode = .value := h.mode.trans (by rw [hstate]; rfl)
  have hrun : r.run maxProperties s.p (text.drop s.p) = _ := h.run_ahead hahead
  have hstep : r.step maxProperties (s.p + ws.length) quote =
      { r with mode := .inString, valueBegin := s.p + ws.length } := by
    rw [Reader.step, hmode]
    rfl
  rw [hstep, hahead.drop_succ] at hrun
  obtain ⟨properties, hset⟩ := setProperty_of_lt hlt fun property =>
    { property with
      valueBegin := s.p + ws.length
      valueEnd := s.p + ws.length + 1 + chars.length }
  rw [expectValue_string hahead hchars htail, hset]
  refine ⟨_, h.stores_value (.inr hstate) _ hset, ?_⟩
  rw [hrun, hahead.drop_string]
  refine Reader.sameEnd_string (fun d hd p => if_neg hd) ?_ hchars htail ?_
  · rw [Reader.step]
    dsimp only
    rw [if_pos rfl]
    rfl
  · rintro rfl
    refine ⟨?_, fun hvalue => by cases hvalue⟩
    rw [Reader.finish_finishValue, length_of_ahead hahead]
    rfl

theorem step_bare_of_not_ends {p : ℕ} (hmode : r.mode = .inBare) (hc : endsBare c = false) :
    r.step maxProperties p c = r := by
  rw [endsBare, Bool.or_eq_false_iff, decide_eq_false_iff_not, decide_eq_false_iff_not] at hc
  rw [Reader.step, hmode]
  dsimp only
  rw [Reader.bare, if_neg hc.1, if_neg hc.2]

theorem step_bare_of_ends {p : ℕ} (hmode : r.mode = .inBare) (hc : endsBare c = true) :
    r.step maxProperties p c = (r.finishValue p .commaOrEnd).step maxProperties p c := by
  rw [endsBare, Bool.or_eq_true, decide_eq_true_iff, decide_eq_true_iff] at hc
  rw [Reader.step, hmode]
  rcases hc with rfl | rfl <;> rfl

theorem follows_bare {bare tail : List UInt8} (h : Tracks s r)
    (hlt : s.propertyCount < s.properties.length) (hahead : Ahead text s.p ws (c :: rest))
    (hstate : s.state = .expectValue) (hquote : c ≠ quote) (hrest : c :: rest = bare ++ tail)
    (hbare : ∀ d ∈ bare, endsBare d = false) (htail : ∀ d ∈ tail.head?, endsBare d = true) :
    Follows text maxProperties s r (expectValue (fun i => text[i]?) text.length s) := by
  have hmode : r.mode = .value := h.mode.trans (by rw [hstate]; rfl)
  have hwhite : isWhitespace c = false := hahead.head c rfl
  have hdrop : text.drop (s.p + ws.length) = bare ++ tail :=
    (drop_of_drop_append hahead.drop).trans hrest
  obtain ⟨properties, hset⟩ := setProperty_of_lt hlt fun property =>
    { property with
      valueBegin := s.p + ws.length
      valueEnd := s.p + ws.length + bare.length }
  rw [expectValue_bare hahead hquote hrest hbare htail, hset]
  refine ⟨_, h.stores_value (.inr hstate) _ hset, ?_⟩
  -- the reader goes through the value from its first byte
  have hrun : r.run maxProperties s.p (text.drop s.p) =
      Reader.run maxProperties { r with mode := .inBare, valueBegin := s.p + ws.length }
        (s.p + ws.length) (bare ++ tail) := by
    rw [h.run_ahead hahead, hahead.drop_succ, ← hrest, Reader.run, Reader.step, hmode]
    dsimp only
    rw [hwhite, if_neg Bool.false_ne_true, if_neg hquote]
    rfl
  rw [hrun, drop_of_drop_append hdrop]
  have hstay : ∀ d ∈ bare, ∀ p, Reader.step maxProperties
      { r with mode := .inBare, valueBegin := s.p + ws.length } p d =
        { r with mode := .inBare, valueBegin := s.p + ws.length } :=
    fun d hd p => step_bare_of_not_ends rfl (hbare d hd)
  cases tail with
  | nil =>
      have hlength : text.length = s.p + ws.length + bare.length := by
        have hlength := congrArg List.length hahead.drop
        rw [hrest] at hlength
        simp only [List.length_drop, List.length_append, List.length_nil] at hlength
        have hne : 0 < bare.length := by
          rw [List.append_nil] at hrest
          rw [← hrest]
          exact Nat.succ_pos _
        omega
      rw [List.append_nil, Reader.run_of_stay hstay, Reader.run]
      refine ⟨?_, fun hvalue => by cases hvalue⟩
      rw [Reader.finish_finishValue, hlength]
      rfl
  | cons d tail =>
      rw [Reader.run_skip hstay, Reader.run, step_bare_of_ends rfl (htail d rfl)]
      exact .refl _ _

theorem follows_iteration (h : Tracks s r)
    (ok : ScanOk (fun i => text[i]?) text.length maxProperties s)
    (hahead : Ahead text s.p ws (c :: rest)) : Follows text maxProperties s r
      (iteration (fun i => text[i]?) text.length maxProperties s) := by
  rw [iteration]
  cases hstate : s.state with
  | expectObjectStart => exact follows_expectObjectStart h hahead hstate
  | expectKeyOrObjectEnd => exact follows_expectKeyOrObjectEnd h ok.length hahead hstate
  | expectColon => exact follows_expectColon h hahead hstate
  | expectCommaOrObjectEnd => exact follows_expectCommaOrObjectEnd h hahead hstate
  | expectValue =>
      have hlt : s.propertyCount < s.properties.length := ok.length ▸ ok.lt (.inr hstate)
      by_cases hquote : c = quote
      · subst hquote
        obtain ⟨chars, tail, rfl, hchars, htail⟩ := exists_string rest
        exact follows_string h hlt hahead hstate hchars htail
      · obtain ⟨bare, tail, hrest, hbare, htail⟩ := exists_span (fun d => !endsBare d) (c :: rest)
        exact follows_bare h hlt hahead hstate hquote hrest (fun d hd => by simpa using hbare d hd)
          fun d hd => by simpa using htail d hd

/-- What the loop finds: what the reader finds, and where the text ends in white space behind a
colon a value behind the text. -/
def Finds (fetch : ℕ → Option UInt8) (jsonEnd : ℕ) (r : Reader) (found : List Property) : Prop :=
  found = r.finish jsonEnd ∨ r.mode = .value ∧ ∃ c, fetch jsonEnd = some c ∧
    found = r.found ++
      [⟨r.keyBegin, r.keyEnd, jsonEnd, if c = quote then jsonEnd + 1 else jsonEnd⟩]

theorem Finds.of_sameEnd {fetch : ℕ → Option UInt8} {jsonEnd : ℕ} {r' : Reader}
    {found : List Property} (h : Finds fetch jsonEnd r' found) (hsame : SameEnd jsonEnd r r') :
    Finds fetch jsonEnd r found := by
  rcases h with rfl | hbehind
  · exact .inl hsame.1.symm
  · exact hsame.2 hbehind.1 ▸ .inr hbehind

section Behind

variable {fetch : ℕ → Option UInt8} {jsonEnd : ℕ}

/-- The byte behind the text is read as a value, and as the quote of a string if it is one. -/
theorem expectValue_behind (htrim : trimWhitespace fetch s.p jsonEnd = some jsonEnd)
    (hc : fetch jsonEnd = some c) :
    expectValue fetch jsonEnd s =
      (setProperty s.properties s.propertyCount fun property => { property with
        valueBegin := jsonEnd
        valueEnd := if c = quote then jsonEnd + 1 else jsonEnd }).map fun properties =>
          .continues ⟨.expectCommaOrObjectEnd, s.propertyCount + 1,
            if c = quote then jsonEnd + 1 + 1 else jsonEnd, properties⟩ := by
  have hnone : jsonEnd - (jsonEnd + 1) = 0 := by omega
  simp only [expectValue, Option.bind_eq_bind, htrim, Option.bind_some, hc]
  split
  case isTrue hquote =>
      rw [hnone, skipWhile, Option.bind_some]
      cases setProperty s.properties s.propertyCount _ <;> rfl
  case isFalse hquote =>
      rw [Nat.sub_self, skipWhile, Option.bind_some]
      cases setProperty s.properties s.propertyCount _ <;> rfl

theorem le_of_iteration_behind (htrim : trimWhitespace fetch s.p jsonEnd = some jsonEnd)
    (hstate : s.state ≠ .expectValue) {s' : Scan}
    (hiteration : iteration fetch jsonEnd maxProperties s = some (.continues s')) :
    jsonEnd ≤ s'.p := by
  have hnext : jsonEnd ≤ jsonEnd + 1 := Nat.le_succ jsonEnd
  rw [iteration] at hiteration
  cases hs : s.state with
  | expectValue => exact absurd hs hstate
  | expectObjectStart =>
      simp only [hs, expectObjectStart, htrim, Option.bind_eq_bind, Option.bind_some,
        Option.bind_eq_some_iff] at hiteration
      obtain ⟨c, -, hiteration⟩ := hiteration
      split at hiteration <;> cases hiteration <;> exact hnext
  | expectColon =>
      simp only [hs, expectColon, htrim, Option.bind_eq_bind, Option.bind_some,
        Option.bind_eq_some_iff] at hiteration
      obtain ⟨c, -, hiteration⟩ := hiteration
      split at hiteration <;> cases hiteration <;> exact hnext
  | expectCommaOrObjectEnd =>
      simp only [hs, expectCommaOrObjectEnd, htrim, Option.bind_eq_bind, Option.bind_some,
        Option.bind_eq_some_iff] at hiteration
      obtain ⟨c, -, hiteration⟩ := hiteration
      split at hiteration
      · cases hiteration
        exact hnext
      · split at hiteration <;> cases hiteration
        exact hnext
  | expectKeyOrObjectEnd =>
      simp only [hs, expectKeyOrObjectEnd, htrim, Option.bind_eq_bind, Option.bind_some,
        Option.bind_eq_some_iff] at hiteration
      obtain ⟨c, -, hiteration⟩ := hiteration
      split at hiteration
      · cases hiteration
      · split at hiteration
        · obtain ⟨keyEnd, hkeyEnd, hiteration⟩ := Option.bind_eq_some_iff.mp hiteration
          have hle := (skipped_of_skipWhile_sub hkeyEnd).le
          split at hiteration
          · obtain ⟨properties, -, hiteration⟩ := Option.bind_eq_some_iff.mp hiteration
            cases hiteration
            exact Nat.le_succ_of_le (Nat.le_trans hnext hle)
          · cases hiteration
        · cases hiteration
          exact hnext

theorem trimWhitespace_of_white (hfetch : ∀ p, Gives (text[p]?) (fetch p))
    (hahead : Ahead text s.p ws []) (hlt : s.p < text.length) :
    trimWhitespace fetch s.p text.length = some text.length := by
  have hlength : s.p + ws.length = text.length := by
    have hdrop := congrArg List.length hahead.drop
    rw [List.length_drop, List.append_nil] at hdrop
    omega
  have hgives : Gives _ (trimWhitespace fetch s.p text.length) :=
    gives_skipWhile hfetch isWhitespace (text.length - s.p) s.p
  exact hgives _ (hlength ▸ hahead.trimWhitespace)

/-- The last iteration. -/
theorem parseLoop_of_ends {fuel : ℕ} {s' : Scan} (hlt : s.p < jsonEnd)
    (hiteration : iteration fetch jsonEnd maxProperties s = some (.continues s'))
    (hle : jsonEnd ≤ s'.p) :
    parseLoop fetch jsonEnd maxProperties (fuel + 1) s =
      .returns s'.propertyCount s'.properties := by
  rw [parseLoop, if_pos hlt, hiteration]
  exact parseLoop_of_le (Nat.not_lt.mpr hle)

theorem Tracks.finds (h : Tracks s r) :
    Finds fetch jsonEnd r (s.properties.take s.propertyCount) :=
  .inl (by rw [Reader.finish_of_between (h.mode ▸ isBetween_mode s.state), h.found])

theorem Tracks.finds_at_end (h : Tracks s r) (hge : ¬ s.p < text.length) :
    Finds fetch text.length (r.run maxProperties s.p (text.drop s.p))
      (s.properties.take s.propertyCount) ∧ s.propertyCount ≤ s.properties.length := by
  rw [List.drop_eq_nil_of_le (Nat.not_lt.mp hge), Reader.run]
  exact ⟨h.finds, h.count⟩

/-- Where a value is looked for and none is left, the byte behind the text begins it. -/
theorem Tracks.finds_behind (h : Tracks s r) (hstate : s.state = .expectValue)
    (htrim : trimWhitespace fetch s.p jsonEnd = some jsonEnd) (hlt : s.p < jsonEnd)
    {fuel count : ℕ} {properties : List Property}
    (hreturns : parseLoop fetch jsonEnd maxProperties (fuel + 1) s = .returns count properties) :
    Finds fetch jsonEnd r (properties.take count) ∧ count ≤ properties.length := by
  have hvalue : iteration fetch jsonEnd maxProperties s = expectValue fetch jsonEnd s := by
    rw [iteration, hstate]
  cases hc : fetch jsonEnd with
  | none =>
      have hfault : expectValue fetch jsonEnd s = none := by simp [expectValue, htrim, hc]
      rw [parseLoop, if_pos hlt, hvalue, hfault] at hreturns
      cases hreturns
  | some c =>
      rw [expectValue_behind htrim hc] at hvalue
      cases hset : setProperty s.properties s.propertyCount fun property => { property with
          valueBegin := jsonEnd
          valueEnd := if c = quote then jsonEnd + 1 else jsonEnd } with
      | none =>
          rw [hset, Option.map_none] at hvalue
          rw [parseLoop, if_pos hlt, hvalue] at hreturns
          cases hreturns
      | some properties' =>
          rw [hset, Option.map_some] at hvalue
          have hle : jsonEnd ≤ if c = quote then jsonEnd + 1 + 1 else jsonEnd := by
            split <;> omega
          rw [parseLoop_of_ends hlt hvalue hle] at hreturns
          cases hreturns
          have hstored := h.stores_value (.inr hstate)
            (if c = quote then jsonEnd + 1 + 1 else jsonEnd) hset
          exact ⟨.inr ⟨h.mode.trans (by rw [hstate]; rfl), c, hc, hstored.found⟩, hstored.count⟩

/-- What is found where nothing is left but white space. -/
theorem Tracks.finds_of_white (hfetch : ∀ p, Gives (text[p]?) (fetch p)) (h : Tracks s r)
    (hahead : Ahead text s.p ws []) (hlt : s.p < text.length) {fuel count : ℕ}
    {properties : List Property}
    (hreturns : parseLoop fetch text.length maxProperties (fuel + 1) s =
      .returns count properties) :
    Finds fetch text.length r (properties.take count) ∧ count ≤ properties.length := by
  have htrim := trimWhitespace_of_white hfetch hahead hlt
  by_cases hstate : s.state = .expectValue
  · exact h.finds_behind hstate htrim hlt hreturns
  · cases hiteration : iteration fetch text.length maxProperties s with
    | none =>
        rw [parseLoop, if_pos hlt, hiteration] at hreturns
        cases hreturns
    | some outcome =>
        cases outcome with
        | returns count' properties' =>
            rw [parseLoop, if_pos hlt, hiteration] at hreturns
            cases moves_of_iteration hiteration
            cases hreturns
            exact ⟨h.finds, h.count⟩
        | continues s' =>
            have hle := le_of_iteration_behind htrim hstate hiteration
            rw [parseLoop_of_ends hlt hiteration hle] at hreturns
            cases hreturns
            cases moves_of_iteration hiteration with
            | skips => exact ⟨h.finds, h.count⟩
            | key =>
                dsimp only
                rw [take_set_self, List.length_set]
                exact ⟨h.finds, h.count⟩
            | value _ _ _ _ hvalue => exact absurd hvalue hstate

/-- When the loop returns, it has found what the reader finds, whatever is behind the text. -/
theorem Tracks.finds_of_returns (hfetch : ∀ p, Gives (text[p]?) (fetch p)) (h : Tracks s r)
    (ok : ScanOk (fun i => text[i]?) text.length maxProperties s) {fuel count : ℕ}
    {properties : List Property}
    (hreturns : parseLoop fetch text.length maxProperties fuel s = .returns count properties) :
    Finds fetch text.length (r.run maxProperties s.p (text.drop s.p)) (properties.take count) ∧
      count ≤ properties.length := by
  induction fuel generalizing s r with
  | zero =>
      rw [parseLoop] at hreturns
      split at hreturns
      case isTrue => cases hreturns
      case isFalse hge =>
          cases hreturns
          exact h.finds_at_end hge
  | succ fuel ih =>
      by_cases hlt : s.p < text.length
      case neg =>
          rw [parseLoop_of_le hlt] at hreturns
          cases hreturns
          exact h.finds_at_end hlt
      case pos =>
          obtain ⟨ws, rest, hahead⟩ := exists_ahead text s.p
          cases rest with
          | nil =>
              have hbetween : r.mode.IsBetween := h.mode ▸ isBetween_mode s.state
              rw [hahead.drop, List.append_nil, Reader.run_of_stay fun d hd =>
                Reader.step_white hbetween (hahead.white d hd)]
              exact h.finds_of_white hfetch hahead hlt hreturns
          | cons c rest =>
              have hfollows := follows_iteration h ok hahead
              have hagrees := agrees_iteration ok hahead
              rw [parseLoop, if_pos hlt] at hreturns
              cases hiteration : iteration (fun i => text[i]?) text.length maxProperties s with
              | none =>
                  rw [hiteration] at hagrees
                  exact hagrees.elim
              | some outcome =>
                  -- behind the white space the iteration reads inside the text only
                  rw [gives_iteration hfetch s outcome hiteration] at hreturns
                  rw [hiteration] at hfollows
                  cases outcome with
                  | returns count' properties' =>
                      cases hreturns
                      exact ⟨.inl hfollows.1.symm, hfollows.2⟩
                  | continues s' =>
                      obtain ⟨r', htracks, hsame⟩ := hfollows
                      have ok' := ok.moves hlt (moves_of_iteration hiteration)
                      obtain ⟨hfinds, hcount⟩ := ih htracks ok' hreturns
                      exact ⟨hfinds.of_sameEnd hsame, hcount⟩

end Behind

end Iteration

theorem finds_of_counted {fetch : ℕ → Option UInt8} {text : List UInt8}
    {properties found : List Property} (hfetch : ∀ p, Gives (text[p]?) (fetch p))
    (hfound : (sParseJson fetch text.length properties properties.length).counted = some found) :
    Finds fetch text.length (Reader.begin.run properties.length 0 text) found := by
  have htracks : Tracks ⟨.expectObjectStart, 0, 0, properties⟩ Reader.begin :=
    ⟨rfl, Nat.zero_le _, rfl, by rintro (hstate | hstate) <;> cases hstate⟩
  rw [sParseJson] at hfound
  cases hresult : parseLoop fetch text.length properties.length (2 * text.length + 1)
      ⟨.expectObjectStart, 0, 0, properties⟩ with
  | runs | faults =>
      rw [hresult] at hfound
      cases hfound
  | returns count properties' =>
      rw [hresult] at hfound
      cases hfound
      exact (htracks.finds_of_returns hfetch (scanOk_start rfl) hresult).1

/-- The parser finds what a reader finds, unless it reads behind the packet. -/
theorem sParseJson_finds_read (text : List UInt8) (properties found : List Property) :
    (sParseJson (fun i => text[i]?) text.length properties properties.length).counted =
        some found ↔
      ¬ CutOff properties.length ⟨.start, 0⟩ text ∧ found = read properties.length text := by
  have ok : ScanOk (fun i => text[i]?) text.length properties.length
      ⟨.expectObjectStart, 0, 0, properties⟩ := scanOk_start rfl
  have hfaults : sParseJson (fun i => text[i]?) text.length properties properties.length =
      .faults ↔ CutOff properties.length ⟨.start, 0⟩ text :=
    parseLoop_faults_iff ok (by simp [measure])
  have hread : ∀ found, (sParseJson (fun i => text[i]?) text.length properties
      properties.length).counted = some found → found = read properties.length text := by
    intro found hfound
    rcases finds_of_counted (fun _ => .refl _) hfound with hread | ⟨-, c, hc, -⟩
    · exact hread
    · cases (List.getElem?_eq_none (Nat.le_refl _)).symm.trans hc
  rw [← hfaults]
  cases hresult : sParseJson (fun i => text[i]?) text.length properties properties.length with
  | runs => exact absurd hresult (sParseJson_ne_runs properties)
  | faults => simp [Result.counted]
  | returns count properties' =>
      have hfound := hread _ (congrArg Result.counted hresult)
      rw [Result.counted, hfound]
      simp [eq_comm]

section Cut

variable {maxProperties : ℕ}

end Cut

end GeekOpen

end ConArtist
