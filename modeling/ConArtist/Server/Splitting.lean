import ConArtist.Server.Segmentation

/-!
# Where the stream of a client may be split

`Faithful` says that the calls on a connection frame what arrives as its bytes say.
It holds as long as `EAGAIN` finds the stream between two messages. Once `EAGAIN` has
come within a message, there are bytes to follow with which it fails: the message
that the bytes before and after complete is longer than any that the bytes after hold
on their own.
-/

namespace ConArtist

namespace Server

open Framing

/-- The calls dispatch the messages of the stream and end where its framing does. -/
def Faithful (connection : UsConn) (arrivals : List Arrival) : Prop :=
  ∃ served, serve (weight arrivals + 1) connection arrivals = some served ∧
    served.messages = (frameStream connection.cap (streamOf arrivals)).frames ∧
    served.EndsWith arrivals (frameStream connection.cap (streamOf arrivals)).tail

/-- `EAGAIN` comes between two messages only, up to the end of what is framed. -/
def AgainBetweenMessages (cap : UInt32) (arrivals : List Arrival) : Prop :=
  ∀ before after, arrivals = before ++ .again :: after → ending before = none →
    ∀ start, (frameStream cap (streamOf before)).tail = .waiting start → start = []

section Arriving

variable {cap : UInt32}

theorem frameStream_nil : frameStream cap [] = ⟨[], .waiting []⟩ :=
  frame_of_short headerSize_pos headerSize_pos

theorem frameStream_append (bs cs : List UInt8) :
    frameStream cap (bs ++ cs) = extendStream cap (frameStream cap bs) cs :=
  frame_append headerSize_pos bs cs

theorem forget_eq_self {f : Framed UInt8} (h : ∀ start, f.tail = .waiting start → start = []) :
    forget f = f := by
  obtain ⟨frames, start | unread⟩ := f
  · rw [h start rfl]
    rfl
  · rfl

@[simp] theorem forget_frames (f : Framed UInt8) : (forget f).frames = f.frames := by
  obtain ⟨frames, start | unread⟩ := f <;> rfl

theorem forget_arrive (f : Framed UInt8) (arrivals : List Arrival) :
    forget (arrive cap f arrivals) = arrive cap f arrivals := by
  induction arrivals generalizing f with
  | nil => rw [arrive, forget_forget]
  | cons arrival arrivals ih =>
      cases arrival with
      | data b bs => exact ih _
      | again => exact ih _
      | intr => exact ih _
      | eof => rw [arrive, forget_forget]
      | fail => rw [arrive, forget_forget]

theorem streamOf_append {before : List Arrival} (h : ending before = none) (after : List Arrival) :
    streamOf (before ++ after) = streamOf before ++ streamOf after := by
  induction before with
  | nil => rfl
  | cons arrival before ih =>
      cases arrival with
      | data b bs =>
          rw [List.cons_append, streamOf, streamOf, ih h, List.append_assoc]
      | again => exact ih h
      | intr => exact ih h
      | eof => cases h
      | fail => cases h

theorem ending_append {before : List Arrival} (h : ending before = none) (after : List Arrival) :
    ending (before ++ after) = ending after := by
  induction before with
  | nil => rfl
  | cons arrival before ih =>
      cases arrival with
      | data b bs => exact ih h
      | again => exact ih h
      | intr => exact ih h
      | eof => cases h
      | fail => cases h

/-- After `EAGAIN` the calls go on from what they made of the arrivals before it. -/
theorem arrive_append_again {before : List Arrival} (h : ending before = none) (f : Framed UInt8)
    (after : List Arrival) :
    arrive cap f (before ++ .again :: after) = arrive cap (arrive cap f before) after := by
  induction before generalizing f with
  | nil => rfl
  | cons arrival before ih =>
      cases arrival with
      | data b bs => exact ih h _
      | again => exact ih h _
      | intr => exact ih h _
      | eof => cases h
      | fail => cases h

/-- Nothing is lost when `EAGAIN` comes between messages only. `stream` is what has
arrived before. -/
theorem arrive_eq_frameStream (stream : List UInt8) {arrivals : List Arrival}
    (h : ∀ before after, arrivals = before ++ .again :: after → ending before = none →
      ∀ start, (frameStream cap (stream ++ streamOf before)).tail = .waiting start → start = []) :
    arrive cap (frameStream cap stream) arrivals =
      forget (frameStream cap (stream ++ streamOf arrivals)) := by
  induction arrivals generalizing stream with
  | nil => rw [arrive, streamOf, List.append_nil]
  | cons arrival arrivals ih =>
      cases arrival with
      | data b bs =>
          rw [arrive, ← frameStream_append, streamOf, ← List.append_assoc]
          refine ih _ fun before after hsplit hended => ?_
          have hbefore := h (.data b bs :: before) after (by rw [hsplit]; rfl) hended
          rwa [streamOf, ← List.append_assoc] at hbefore
      | again =>
          have hnow := h [] arrivals rfl rfl
          rw [streamOf, List.append_nil] at hnow
          rw [arrive, forget_eq_self hnow, streamOf]
          exact ih stream fun before after hsplit hended =>
            h (.again :: before) after (by rw [hsplit]; rfl) hended
      | intr =>
          exact ih stream fun before after hsplit hended =>
            h (.intr :: before) after (by rw [hsplit]; rfl) hended
      | eof => rw [arrive, streamOf, List.append_nil]
      | fail => rw [arrive, streamOf, List.append_nil]

end Arriving

section Faithful

variable {connection : UsConn}

theorem Served.endsWith_forget {served : Served} {arrivals : List Arrival} (f : Framed UInt8) :
    served.EndsWith arrivals (forget f).tail ↔ served.EndsWith arrivals f.tail := by
  obtain ⟨frames, start | unread⟩ := f <;> rfl

theorem Served.EndsWith.closed_eq_false_iff {served : Served} {arrivals : List Arrival}
    {tail : Tail UInt8} (h : served.EndsWith arrivals tail) (hended : ending arrivals = none) :
    served.closed = false ↔ ∃ start, tail = .waiting start := by
  cases tail with
  | waiting start =>
      rw [Served.EndsWith, hended] at h
      exact iff_of_true h ⟨start, rfl⟩
  | bad unread =>
      rw [Served.EndsWith] at h
      refine iff_of_false (by rw [h.1]; exact Bool.noConfusion) ?_
      rintro ⟨start, hstart⟩
      cases hstart

theorem AgainBetweenMessages.faithful (hconn : Receiving connection) {arrivals : List Arrival}
    (h : AgainBetweenMessages connection.cap arrivals) : Faithful connection arrivals := by
  have harrived := arrive_eq_frameStream [] h
  rw [frameStream_nil, List.nil_append] at harrived
  obtain ⟨served, tail, hserve, harrive, hends⟩ :=
    serve_spec hconn (Nat.lt_succ_self (weight arrivals))
  specialize harrive []
  rw [harrived, List.nil_append] at harrive
  have hframes := congrArg Framed.frames harrive
  have htail := congrArg Framed.tail harrive
  refine ⟨served, hserve, ?_, ?_⟩
  · rw [forget_frames] at hframes
    exact hframes.symm
  · rw [← Served.endsWith_forget, htail]
    exact hends

/-- What the calls make of arrivals without an end when they are faithful to them. -/
theorem Faithful.arrive_eq (hconn : Receiving connection) {arrivals : List Arrival}
    (h : Faithful connection arrivals) (hended : ending arrivals = none) :
    ∃ tail, arrive connection.cap ⟨[], .waiting []⟩ arrivals =
        ⟨(frameStream connection.cap (streamOf arrivals)).frames, tail⟩ ∧
      ((∃ start, tail = .waiting start) ↔
        ∃ start, (frameStream connection.cap (streamOf arrivals)).tail = .waiting start) := by
  obtain ⟨served, hserve, hmessages, hends⟩ := h
  obtain ⟨served', tail, hserve', harrive, hends'⟩ :=
    serve_spec hconn (Nat.lt_succ_self (weight arrivals))
  rw [hserve] at hserve'
  cases hserve'
  refine ⟨tail, ?_, ?_⟩
  · rw [harrive, List.nil_append, hmessages]
  · rw [← hends'.closed_eq_false_iff hended, ← hends.closed_eq_false_iff hended]

/-- Bytes to follow an `EAGAIN` within a message show what was lost. -/
theorem exists_not_faithful (hconn : Receiving connection) {before : List Arrival}
    (hended : ending before = none) (hbefore : Faithful connection before) {start : List UInt8}
    (hstart : start ≠ [])
    (htail : (frameStream connection.cap (streamOf before)).tail = .waiting start) :
    ∃ b bs, ¬ Faithful connection (before ++ [.again] ++ [.data b bs]) := by
  obtain ⟨more, hmore, htold⟩ :=
    exists_completion headerSize_pos hstart
      (frame_of_waiting headerSize_pos htail)
  obtain ⟨b, bs, rfl⟩ := List.exists_cons_of_ne_nil hmore
  refine ⟨b, bs, fun hfaithful => ?_⟩
  rw [List.append_assoc, List.singleton_append] at hfaithful
  obtain ⟨tail, harrive, hwaits⟩ := hbefore.arrive_eq hconn hended
  obtain ⟨start', rfl⟩ := hwaits.mpr ⟨start, htail⟩
  have hforget : forget (arrive connection.cap ⟨[], .waiting []⟩ before) =
      arrive connection.cap ⟨[], .waiting []⟩ before := forget_arrive _ before
  rw [harrive] at hforget
  obtain ⟨frames, hframes⟩ : ∃ frames,
      (frameStream connection.cap (streamOf before)).frames = frames := ⟨_, rfl⟩
  -- the calls frame the bytes on their own, the stream goes on from `start`
  have hcalls : arrive connection.cap ⟨[], .waiting []⟩ (before ++ .again :: [.data b bs]) =
      forget ⟨frames ++ (frameStream connection.cap (b :: bs)).frames,
        (frameStream connection.cap (b :: bs)).tail⟩ := by
    rw [arrive_append_again hended, harrive, ← hforget, ← hframes]
    rfl
  have hstream : frameStream connection.cap (streamOf (before ++ .again :: [.data b bs])) =
      ⟨frames ++ (frameStream connection.cap (start ++ b :: bs)).frames,
        (frameStream connection.cap (start ++ b :: bs)).tail⟩ := by
    rw [streamOf_append hended, streamOf, streamOf, streamOf, List.append_nil, frameStream_append,
      extendStream, Framed.extend, htail, ← hframes]
    rfl
  obtain ⟨tail, harrive', hwaits'⟩ :=
    hfaithful.arrive_eq hconn (by rw [ending_append hended]; rfl)
  rw [hcalls, hstream] at harrive'
  rw [hstream] at hwaits'
  rcases htold with ⟨⟨unread, hbad⟩, hshort⟩ | hmessage
  · have hopen : frameStream connection.cap (b :: bs) = ⟨[], .waiting (b :: bs)⟩ :=
      frame_of_short headerSize_pos hshort
    rw [hopen] at harrive'
    obtain ⟨start'', hwait⟩ := hwaits'.mp ⟨[], (congrArg Framed.tail harrive').symm⟩
    rw [frameStream, hbad] at hwait
    cases hwait
  · have hsame := congrArg Framed.frames harrive'
    rw [forget_frames] at hsame
    have hown := List.append_cancel_left hsame
    rw [frameStream, frameStream, hmessage] at hown
    have hle : (start ++ b :: bs).length ≤ (b :: bs).length :=
      length_le_of_mem_frames headerSize_pos (by rw [hown]; exact List.mem_singleton_self _)
    have hpos := List.length_pos_iff.mpr hstart
    rw [List.length_append] at hle
    omega

end Faithful

section Between

variable {cap : UInt32}

theorem AgainBetweenMessages.of_append {arrivals more : List Arrival}
    (h : AgainBetweenMessages cap (arrivals ++ more)) : AgainBetweenMessages cap arrivals := by
  intro before after hsplit
  exact h before (after ++ more) (by rw [hsplit, List.append_assoc, List.cons_append])

theorem AgainBetweenMessages.append_data {arrivals : List Arrival}
    (h : AgainBetweenMessages cap arrivals) (b : UInt8) (bs : List UInt8) :
    AgainBetweenMessages cap (arrivals ++ [.data b bs]) := by
  intro before after hsplit
  rcases List.eq_nil_or_concat after with rfl | ⟨after, last, rfl⟩
  · have hlast := congrArg List.getLast? hsplit
    simp at hlast
  · rw [List.concat_eq_append, ← List.cons_append, ← List.append_assoc] at hsplit
    exact h before after (List.append_inj_left' hsplit rfl)

end Between

/-- The calls on a connection frame what arrives as its bytes say, at every point and
whatever bytes come next, if and only if `EAGAIN` comes between two messages only. -/
theorem read_from_client_faithful_iff {connection : UsConn} (hconn : Receiving connection)
    (arrivals : List Arrival) :
    (∀ before, before <+: arrivals → Faithful connection before ∧
      ∀ b bs, Faithful connection (before ++ [.data b bs])) ↔
    AgainBetweenMessages connection.cap arrivals := by
  constructor
  · intro h before after hsplit hended start htail
    by_contra hstart
    have hbefore := (h before ⟨_, hsplit.symm⟩).1
    obtain ⟨b, bs, hnot⟩ := exists_not_faithful hconn hended hbefore hstart htail
    have hagain : before ++ [.again] <+: arrivals :=
      ⟨after, by rw [hsplit, List.append_assoc, List.singleton_append]⟩
    exact hnot ((h _ hagain).2 b bs)
  · rintro h before ⟨after, rfl⟩
    have hbefore := h.of_append
    exact ⟨hbefore.faithful hconn, fun b bs => (hbefore.append_data b bs).faithful hconn⟩

/-- A connection with a buffer for payloads of up to four bytes. -/
def smallConnection : UsConn where
  kind := 0x434F4E4E
  fd := 5
  server := some 0
  buf := .block (List.replicate 36 0)
  cap := 36
  used := 0

/-- The header of a message with a payload of two bytes, as one arrival. -/
def headerOfTwo : Arrival :=
  .data 0x55 ([0x43, 0x4F, 0x4E, 0, 0, 0, 2] ++ List.replicate 24 0)

theorem smallConnection_receiving : Receiving smallConnection :=
  ⟨by decide, List.replicate 36 0, rfl, rfl⟩

/-- The payload comes after an interrupted `read`, `EAGAIN` behind it. -/
theorem read_from_client_faithful_smallConnection :
    Faithful smallConnection [headerOfTwo, .intr, .data 1 [2], .again] := by
  refine ((read_from_client_faithful_iff smallConnection_receiving _).mpr ?_ _
    (List.prefix_refl _)).1
  intro before after hsplit _ start htail
  have hwhole : (frameStream smallConnection.cap
      (streamOf [headerOfTwo, .intr, .data 1 [2]])).tail = .waiting [] := rfl
  rcases before with _ | ⟨a, _ | ⟨b, _ | ⟨c, _ | ⟨d, before⟩⟩⟩⟩ <;>
    simp only [List.nil_append, List.cons_append, List.cons.injEq, headerOfTwo,
      reduceCtorEq, false_and, and_false] at hsplit
  · obtain ⟨rfl, rfl, rfl, -, -⟩ := hsplit
    exact Tail.waiting.inj (htail.symm.trans hwhole)
  · have hlength := congrArg List.length hsplit.2.2.2.2
    simp at hlength

/-- When `EAGAIN` comes between a header and its payload, the message is lost. -/
theorem read_from_client_loses_header :
    Receiving smallConnection ∧
      ¬ Faithful smallConnection [headerOfTwo, .again, .data 1 [2]] := by
  refine ⟨smallConnection_receiving, ?_⟩
  rintro ⟨served, hserve, hmessages, -⟩
  have hserved : serve 36 smallConnection [headerOfTwo, .again, .data 1 [2]] =
      some ⟨false, [], []⟩ := rfl
  have hlength : (frameStream smallConnection.cap
      (streamOf [headerOfTwo, .again, .data 1 [2]])).frames.length = 1 := by
    decide
  cases hserved.symm.trans hserve
  rw [← hmessages] at hlength
  cases hlength

end Server

end ConArtist
