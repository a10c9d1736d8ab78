import ConArtist.Server.Handling
import ConArtist.Server.Splitting

/-!
# When the peer closes

`us_loop_run` closes a connection on an event with `EV_EOF` without reading from it, and
reads on every other event, until `read_from_client` returns -1. So what the peer sent is
lost when it is still unread at an event with `EV_EOF`, as well as when `EAGAIN` comes
within a message. Otherwise all messages are dispatched before the connection is closed.

Each message that is dispatched takes its bytes from the stream, so that a run that loses
some cannot make up for them by others.
-/

namespace ConArtist

namespace Server

open Framing

/-- The body of the loop of `us_loop_run` for an event of a connection, with `EV_EOF` or
without: whether it closes the connection, the messages it dispatches and what it leaves. -/
def serveEvent (connection : UsConn) (arrivals : List Arrival) (eof : Bool) :
    Option (Served × UsConn) :=
  if eof then some (⟨true, [], arrivals⟩, connection)
  else
    match readFromClient connection arrivals with
    | some (⟨.returns rc, _, messages, arrivals⟩, connection) =>
        some (⟨decide (rc < 0), messages, arrivals⟩, connection)
    | _ => none

/-- The events of a connection, each with `EV_EOF` or without, until one closes it. -/
def serveEvents : UsConn → List Arrival → List Bool → Option Served
  | _, arrivals, [] => some ⟨false, [], arrivals⟩
  | connection, arrivals, eof :: eofs => do
      let (served, connection) ← serveEvent connection arrivals eof
      if served.closed then some served
      else
        let rest ← serveEvents connection served.arrivals eofs
        some { rest with messages := served.messages ++ rest.messages }

/-- The messages among the effects of a loop. -/
def messagesOf (effects : List Effect) : List (List UInt8) :=
  effects.filterMap fun e =>
    match e with
    | .message _ _ _ data _ => some data
    | _ => none

theorem messagesOf_append (effects effects' : List Effect) :
    messagesOf (effects ++ effects') = messagesOf effects ++ messagesOf effects' :=
  List.filterMap_append

section Loop

variable {loop loop' : UsLoop} {table j : ℕ} {conns : List UsConn} {connection : UsConn}

/-- A dispatch passes its messages to `m_on_msg`. -/
theorem dispatch_messages {messages : List (List UInt8)}
    (h : loop.dispatch connection messages = some loop') :
    ∃ effects, loop'.log = loop.log ++ effects ∧ messagesOf effects = messages := by
  rw [UsLoop.dispatch] at h
  split at h
  case isTrue hempty =>
    cases h
    exact ⟨[], (List.append_nil _).symm, (List.isEmpty_iff.mp hempty).symm⟩
  case isFalse =>
    obtain ⟨i, -, h⟩ := Option.bind_eq_some_iff.mp h
    obtain ⟨server, -, h⟩ := Option.bind_eq_some_iff.mp h
    obtain ⟨fn, -, h⟩ := Option.bind_eq_some_iff.mp h
    cases h
    refine ⟨_, rfl, ?_⟩
    rw [messagesOf, List.filterMap_map]
    exact List.filterMap_some

/-- The event in the whole loop: `serveEvent` on the record of the slot, which changes in
place, its messages to `m_on_msg`, and the end of the connection if it closes it. -/
theorem handleEvent_serves {event : Event} (htable : loop.tables table = some conns)
    (hconn : conns[j]? = some connection) (hkind : connection.kind = usKindConn)
    (hudata : event.udata = some (.conn table j)) (h : loop.handleEvent event = some loop') :
    ∃ served connection' loop₁ effects,
      serveEvent connection event.arrivals event.eof = some (served, connection') ∧
      UsLoop.Prepares loop loop₁ table j conns connection connection' ∧
      loop₁.log = loop.log ++ effects ∧ messagesOf effects = served.messages ∧
      if served.closed then loop₁.endConn table j connection' event.granted = some loop'
      else loop' = loop₁ := by
  rw [UsLoop.handleEvent, hudata] at h
  simp only [htable, hconn, Option.bind_eq_bind, Option.bind_some, if_pos hkind] at h
  split at h
  case isTrue heof =>
    exact ⟨_, connection, loop, [], if_pos heof, UsLoop.prepares_self htable hconn hkind,
      (List.append_nil _).symm, rfl, h⟩
  case isFalse heof =>
    obtain ⟨⟨rc, connection', loop₁⟩, hread, h⟩ := Option.bind_eq_some_iff.mp h
    obtain ⟨hprepares, -, ⟨exit, buf, messages, arrivals⟩, hcall, rfl⟩ :=
      UsLoop.readConn_spec htable hconn hkind hread
    simp only [UsLoop.readConn, hcall, Option.bind_eq_bind, Option.bind_some] at hread
    obtain ⟨loop₂, hdispatch, hread⟩ := Option.bind_eq_some_iff.mp hread
    cases hread
    obtain ⟨effects, hlog, hmessages⟩ := dispatch_messages hdispatch
    refine ⟨⟨decide (rc < 0), messages, arrivals⟩, connection', loop₁,
      [.reads connection'.fd] ++ effects, ?_, hprepares, ?_, ?_, ?_⟩
    · simp only [serveEvent, if_neg heof, hcall]
    · rw [hlog, ← List.append_assoc]
      rfl
    · rw [messagesOf_append, hmessages]
      rfl
    · by_cases hrc : rc < 0
      · rw [decide_eq_true hrc, if_pos rfl]
        rwa [if_pos hrc] at h
      · rw [decide_eq_false hrc, if_neg Bool.false_ne_true]
        rw [if_neg hrc] at h
        exact (Option.some.inj h).symm

end Loop

/-- What a call of `read_from_client` that reads all there is leaves: what comes after the
first `EAGAIN`, or the end of the stream or the error before it. -/
def afterCall : List Arrival → List Arrival
  | [] => []
  | .data _ _ :: arrivals => afterCall arrivals
  | .again :: arrivals => arrivals
  | .intr :: arrivals => afterCall arrivals
  | .eof :: arrivals => .eof :: arrivals
  | .fail :: arrivals => .fail :: arrivals

/-- Nothing that has arrived is unread when an event with `EV_EOF` comes. -/
def EofAfterData : List Arrival → List Bool → Prop
  | _, [] => True
  | arrivals, true :: _ => streamOf arrivals = []
  | arrivals, false :: eofs => EofAfterData (afterCall arrivals) eofs

/-- The number of bytes before the first `EAGAIN`. -/
def available : List Arrival → ℕ
  | .data _ bs :: arrivals => bs.length + 1 + available arrivals
  | .intr :: arrivals => available arrivals
  | _ => 0

section Bytes

variable {arrivals arrivals' : List Arrival}

theorem available_add (arrivals : List Arrival) :
    available arrivals + (streamOf (afterCall arrivals)).length = (streamOf arrivals).length := by
  induction arrivals with
  | nil => rfl
  | cons arrival arrivals ih =>
      cases arrival with
      | data b bs =>
          rw [available, afterCall, streamOf, List.length_append, List.length_cons, ← ih,
            Nat.add_assoc]
      | again => exact Nat.zero_add _
      | intr => exact ih
      | eof => rfl
      | fail => rfl

theorem eofAfterData_of_nil (h : streamOf arrivals = []) (eofs : List Bool) :
    EofAfterData arrivals eofs := by
  induction eofs generalizing arrivals with
  | nil => trivial
  | cons eof eofs ih =>
      cases eof with
      | true => exact h
      | false =>
          refine ih (List.length_eq_zero_iff.mp ?_)
          have hadd := available_add arrivals
          rw [h, List.length_nil] at hadd
          omega

/-- What a `read` does to the bytes before the first `EAGAIN`. -/
inductive ReadLeaves (arrivals arrivals' : List Arrival) : ReadResult → Prop where
  | bytes (bs : List UInt8) (hbytes : available arrivals' + bs.length = available arrivals)
      (hcall : afterCall arrivals' = afterCall arrivals) : ReadLeaves arrivals arrivals' (.bytes bs)
  | again (hcall : arrivals' = afterCall arrivals) : ReadLeaves arrivals arrivals' .again
  | intr (hbytes : available arrivals' = available arrivals)
      (hcall : afterCall arrivals' = afterCall arrivals) : ReadLeaves arrivals arrivals' .intr
  | eof : ReadLeaves arrivals arrivals' .eof
  | fail : ReadLeaves arrivals arrivals' .fail

theorem readLeaves_read (n : ℕ) (arrivals : List Arrival) :
    ReadLeaves arrivals (read n arrivals).2 (read n arrivals).1 := by
  cases arrivals with
  | nil => exact .again rfl
  | cons arrival arrivals =>
      cases arrival with
      | data b bs =>
          rcases hdrop : (b :: bs).drop n with _ | ⟨c, cs⟩
          · simp only [read, hdrop]
            exact .bytes _ (by rw [available, List.length_cons, Nat.add_comm]) rfl
          · have hlength := congrArg List.length (List.take_append_drop n (b :: bs))
            rw [hdrop, List.length_append, List.length_cons, List.length_cons] at hlength
            simp only [read, hdrop]
            refine .bytes _ ?_ rfl
            rw [available, available]
            omega
      | again => exact .again rfl
      | intr => exact .intr rfl rfl
      | eof => exact .eof
      | fail => exact .fail

/-- What a loop that has `n` bytes to read does to the bytes before the first `EAGAIN`,
which ends it. -/
structure LoopLeaves (n : ℕ) (arrivals arrivals' : List Arrival) (exit : Exit) : Prop where
  filled : exit = .filled → available arrivals' + n ≤ available arrivals ∧
    afterCall arrivals' = afterCall arrivals
  again : exit = .returns 0 → arrivals' = afterCall arrivals

theorem LoopLeaves.of_fails {n : ℕ} {exit : Exit} (hfilled : exit ≠ .filled)
    (hagain : exit ≠ .returns 0) : LoopLeaves n arrivals arrivals' exit :=
  ⟨fun h => absurd h hfilled, fun h => absurd h hagain⟩

theorem loopLeaves_readLoop {base size fuel got : ℕ} {buf buf' : List UInt8} {exit : Exit}
    (h : readLoop base size fuel got buf arrivals = some (exit, buf', arrivals')) :
    LoopLeaves (size - got) arrivals arrivals' exit := by
  induction fuel generalizing got buf arrivals with
  | zero => cases h
  | succ fuel ih =>
      rw [readLoop] at h
      split at h
      case isTrue hlt =>
        obtain ⟨result, rest, hresult⟩ :
          ∃ result rest, read (size - got) arrivals = (result, rest) := ⟨_, _, rfl⟩
        have hread := readLeaves_read (size - got) arrivals
        rw [hresult] at h hread
        dsimp only at hread
        cases hread with
        | bytes bs hbytes hcall =>
            simp only at h
            split at h
            case h_1 =>
              obtain ⟨hfilled, hagain⟩ := ih h
              rw [hcall] at hfilled hagain
              refine ⟨fun hexit => ⟨?_, (hfilled hexit).2⟩, hagain⟩
              have hle := (hfilled hexit).1
              omega
            case h_2 =>
              cases h
              exact .of_fails (by decide) (by decide)
        | again hcall =>
            cases h
            exact ⟨fun hexit => absurd hexit (by decide), fun _ => hcall⟩
        | intr hbytes hcall =>
            obtain ⟨hfilled, hagain⟩ := ih h
            rw [hbytes, hcall] at hfilled
            rw [hcall] at hagain
            exact ⟨hfilled, hagain⟩
        | eof =>
            cases h
            exact .of_fails (by decide) (by decide)
        | fail =>
            cases h
            exact .of_fails (by decide) (by decide)
      case isFalse hge =>
        cases h
        exact ⟨fun _ => ⟨by omega, rfl⟩, fun hexit => absurd hexit (by decide)⟩

/-- What a call of `read_from_client` does to the bytes before the first `EAGAIN`, which
ends it: its messages are made of them. -/
structure CallLeaves (arrivals : List Arrival) (out : Received) : Prop where
  length_le : out.messages.flatten.length ≤ available arrivals
  again : out.exit = .returns 0 → out.arrivals = afterCall arrivals

theorem CallLeaves.of_fails {out : Received} (hmessages : out.messages = [])
    (hexit : out.exit ≠ .returns 0) : CallLeaves arrivals out := by
  refine ⟨?_, fun hagain => absurd hagain hexit⟩
  rw [hmessages]
  exact Nat.zero_le _

theorem CallLeaves.cons {rest : Received} (h : CallLeaves arrivals' rest)
    (hcall : afterCall arrivals' = afterCall arrivals) {message : List UInt8}
    (hused : available arrivals' + message.length ≤ available arrivals) :
    CallLeaves arrivals { rest with messages := message :: rest.messages } := by
  refine ⟨?_, fun hagain => (h.again hagain).trans hcall⟩
  have hle := h.length_le
  rw [List.flatten_cons, List.length_append]
  omega

theorem readFromClientLoop_leaves {cap : UInt32} {fuel : ℕ} {buf : List UInt8} {out : Received}
    (h : readFromClientLoop cap fuel buf arrivals = some out) : CallLeaves arrivals out := by
  induction fuel generalizing buf arrivals out with
  | zero => cases h
  | succ fuel ih =>
      rw [readFromClientLoop] at h
      split at h
      case h_1 => cases h
      case h_2 rc _ _ hloop =>
        cases h
        exact ⟨Nat.zero_le _, (loopLeaves_readLoop hloop).again⟩
      case h_3 =>
        cases h
        exact .of_fails rfl (by simp)
      case h_4 buf₁ arrivals₁ hloop =>
        obtain ⟨hheader, hcall⟩ := (loopLeaves_readLoop hloop).filled rfl
        simp only at h
        split at h
        case isTrue =>
          cases h
          exact .of_fails rfl (by simp)
        case isFalse =>
          split at h
          case isTrue =>
            cases h
            exact .of_fails rfl (by simp)
          case isFalse =>
            split at h
            case h_1 => cases h
            case h_2 hloop₂ =>
              cases h
              exact ⟨Nat.zero_le _, fun hexit =>
                ((loopLeaves_readLoop hloop₂).again hexit).trans hcall⟩
            case h_3 =>
              cases h
              exact .of_fails rfl (by simp)
            case h_4 buf₂ arrivals₂ hloop₂ =>
              obtain ⟨hpayload, hcall₂⟩ := (loopLeaves_readLoop hloop₂).filled rfl
              obtain ⟨rest, hrest, rfl⟩ := Option.map_eq_some_iff.mp h
              refine (ih hrest).cons (hcall₂.trans hcall) ?_
              have hmessage := List.length_take_le
                (UInt32.ofNat usMessageHeaderSize + readU32Be buf₁ usMessageOffsetLen).toNat buf₂
              have hused : (UInt32.ofNat usMessageHeaderSize +
                  readU32Be buf₁ usMessageOffsetLen).toNat ≤
                  usMessageHeaderSize + (readU32Be buf₁ usMessageOffsetLen).toNat := by
                rw [UInt32.toNat_add]
                exact Nat.mod_le _ _
              omega

end Bytes

section Lengths

variable {cap : UInt32} {arrivals : List Arrival}

/-- Forgetting the start of a message leaves the framing of a shorter stream. -/
theorem exists_forget (stream : List UInt8) : ∃ stream',
    forget (frameStream cap stream) = frameStream cap stream' ∧
      stream'.length ≤ stream.length ∧ (stream.length ≤ stream'.length → stream' = stream ∧
        ∀ start, (frameStream cap stream).tail = .waiting start → start = []) := by
  rcases hframe : frameStream cap stream with ⟨frames, start | unread⟩
  · obtain ⟨hstream, hflatten⟩ := eq_flatten_append headerSize_pos hframe
    have hlength := congrArg List.length hstream
    rw [List.length_append] at hlength
    refine ⟨frames.flatten, hflatten.symm, by omega, fun hle => ?_⟩
    obtain rfl : start = [] := List.length_eq_zero_iff.mp (by omega)
    rw [List.append_nil] at hstream
    exact ⟨hstream.symm, fun start' hstart => (Tail.waiting.inj hstart).symm⟩
  · exact ⟨stream, hframe.symm, Nat.le_refl _, fun _ => ⟨rfl, fun start hstart => by cases hstart⟩⟩

theorem length_forget_le (stream : List UInt8) :
    (forget (frameStream cap stream)).frames.flatten.length ≤ stream.length := by
  rw [forget_frames]
  exact length_flatten_le headerSize_pos stream

/-- The calls make messages of bytes that have arrived, and of each byte once. -/
theorem length_arrive_le (stream : List UInt8) (arrivals : List Arrival) :
    (arrive cap (frameStream cap stream) arrivals).frames.flatten.length ≤
      stream.length + (streamOf arrivals).length := by
  induction arrivals generalizing stream with
  | nil => exact length_forget_le stream
  | cons arrival arrivals ih =>
      cases arrival with
      | data b bs =>
          have hrest := ih (stream ++ b :: bs)
          rw [arrive, ← frameStream_append, streamOf, List.length_append]
          rwa [List.length_append, Nat.add_assoc] at hrest
      | again =>
          obtain ⟨stream', hforget, hle, -⟩ := exists_forget stream
          rw [arrive, hforget, streamOf]
          exact (ih stream').trans (Nat.add_le_add_right hle _)
      | intr => exact ih stream
      | eof => exact length_forget_le stream
      | fail => exact length_forget_le stream

/-- When all bytes end up in messages, `EAGAIN` came between messages only. -/
theorem betweenMessages_of_length (stream : List UInt8)
    (h : stream.length + (streamOf arrivals).length ≤
      (arrive cap (frameStream cap stream) arrivals).frames.flatten.length) :
    ∀ before after, arrivals = before ++ .again :: after → ending before = none →
      ∀ start, (frameStream cap (stream ++ streamOf before)).tail = .waiting start →
        start = [] := by
  intro before after hsplit hended
  induction before generalizing stream arrivals with
  | nil =>
      cases hsplit
      obtain ⟨stream', hforget, -, hsame⟩ := exists_forget stream
      rw [List.nil_append, arrive, hforget, streamOf] at h
      have hle := h.trans (length_arrive_le stream' after)
      rw [streamOf, List.append_nil]
      exact (hsame (by omega)).2
  | cons arrival before ih =>
      cases hsplit
      cases arrival with
      | data b bs =>
          rw [streamOf, ← List.append_assoc]
          refine ih (stream ++ b :: bs) ?_ rfl hended
          rw [List.cons_append, arrive, ← frameStream_append, streamOf, List.length_append] at h
          rwa [List.length_append, Nat.add_assoc]
      | again =>
          obtain ⟨stream', hforget, -, hsame⟩ := exists_forget stream
          rw [List.cons_append, arrive, hforget, streamOf] at h
          have hle := h.trans (length_arrive_le stream' _)
          obtain rfl := (hsame (by omega)).1
          exact ih stream' h rfl hended
      | intr =>
          rw [List.cons_append, arrive, streamOf] at h
          exact ih stream h rfl hended
      | eof => cases hended
      | fail => cases hended

end Lengths

section Events

variable {connection : UsConn} {arrivals : List Arrival}

theorem arrive_of_nil {cap : UInt32} (h : streamOf arrivals = []) (frames : List (List UInt8)) :
    arrive cap ⟨frames, .waiting []⟩ arrivals = ⟨frames, .waiting []⟩ := by
  induction arrivals with
  | nil => rfl
  | cons arrival arrivals ih =>
      cases arrival with
      | data b bs => cases h
      | again => exact ih h
      | intr => exact ih h
      | eof => rfl
      | fail => rfl

/-- What comes of an event without `EV_EOF`. -/
structure EventServes (connection : UsConn) (arrivals : List Arrival) (served : Served)
    (connection' : UsConn) : Prop where
  eq_some : serveEvent connection arrivals false = some (served, connection')
  receiving : Receiving connection'
  cap_eq : connection'.cap = connection.cap
  length_le : served.messages.flatten.length ≤ available arrivals
  ofOpen : served.closed = false → served.arrivals = afterCall arrivals ∧
    ∀ frames, arrive connection.cap ⟨frames, .waiting []⟩ arrivals =
      arrive connection.cap ⟨frames ++ served.messages, .waiting []⟩ served.arrivals
  ofClosed : served.closed = true → ∀ frames, ∃ tail,
    arrive connection.cap ⟨frames, .waiting []⟩ arrivals = ⟨frames ++ served.messages, tail⟩

theorem exists_eventServes (hconn : Receiving connection) (arrivals : List Arrival) :
    ∃ served connection', EventServes connection arrivals served connection' := by
  obtain ⟨⟨exit, buf, messages, arrivals'⟩, connection', hcall, hconn', hcap, hends⟩ :=
    readFromClient_spec hconn arrivals
  have hleaves : CallLeaves arrivals ⟨exit, buf, messages, arrivals'⟩ := by
    obtain ⟨-, buf₀, hbuf, -⟩ := hconn
    rw [readFromClient, hbuf] at hcall
    obtain ⟨out, hout, heq⟩ := Option.map_eq_some_iff.mp hcall
    cases heq
    exact readFromClientLoop_leaves hout
  have hserve : ∀ rc, exit = .returns rc → serveEvent connection arrivals false =
      some (⟨decide (rc < 0), messages, arrivals'⟩, connection') := by
    rintro rc rfl
    simp only [serveEvent, hcall, Bool.false_eq_true, if_false]
  cases hends with
  | again hexit _ _ harrive =>
      exact ⟨_, connection', hserve 0 hexit, hconn', hcap, hleaves.length_le,
        fun _ => ⟨hleaves.again hexit, harrive⟩, fun hclosed => by cases hclosed⟩
  | ended hexit _ harrive =>
      exact ⟨_, connection', hserve (-1) hexit, hconn', hcap, hleaves.length_le,
        fun hopen => (by cases hopen), fun _ frames => ⟨_, harrive frames⟩⟩
  | bad hexit harrive =>
      exact ⟨_, connection', hserve (-1) hexit, hconn', hcap, hleaves.length_le,
        fun hopen => (by cases hopen), fun _ frames => ⟨_, harrive frames⟩⟩

theorem serveEvents_cons_of_closed {eof : Bool} {served : Served} {connection' : UsConn}
    (h : serveEvent connection arrivals eof = some (served, connection'))
    (hclosed : served.closed = true) (eofs : List Bool) :
    serveEvents connection arrivals (eof :: eofs) = some served := by
  simp only [serveEvents, h, Option.bind_eq_bind, Option.bind_some, if_pos hclosed]

theorem serveEvents_cons_of_open {eof : Bool} {served rest : Served} {connection' : UsConn}
    {eofs : List Bool} (h : serveEvent connection arrivals eof = some (served, connection'))
    (hopen : served.closed = false)
    (hrest : serveEvents connection' served.arrivals eofs = some rest) :
    serveEvents connection arrivals (eof :: eofs) =
      some { rest with messages := served.messages ++ rest.messages } := by
  simp only [serveEvents, h, Option.bind_eq_bind, Option.bind_some, hopen, Bool.false_eq_true,
    if_false, hrest]

/-- What the events of a connection come to: they dispatch what the calls make of the
arrivals unless an event with `EV_EOF` comes too early, and it does not when all that has
arrived is in the messages. -/
theorem serveEvents_spec (hconn : Receiving connection) (arrivals : List Arrival)
    (eofs : List Bool) : ∃ served, serveEvents connection arrivals eofs = some served ∧
      (served.closed = true → EofAfterData arrivals eofs → ∀ frames, ∃ tail,
        arrive connection.cap ⟨frames, .waiting []⟩ arrivals = ⟨frames ++ served.messages, tail⟩) ∧
      ((streamOf arrivals).length ≤ served.messages.flatten.length →
        EofAfterData arrivals eofs) := by
  induction eofs generalizing connection arrivals with
  | nil => exact ⟨_, rfl, fun hclosed => (by cases hclosed), fun _ => trivial⟩
  | cons eof eofs ih =>
      cases eof with
      | true =>
          refine ⟨⟨true, [], arrivals⟩, rfl, fun _ hdata frames => ⟨.waiting [], ?_⟩, fun hle => ?_⟩
          · rw [arrive_of_nil hdata, List.append_nil]
          · exact List.length_eq_zero_iff.mp (Nat.le_zero.mp hle)
      | false =>
          obtain ⟨served, connection', hserves⟩ := exists_eventServes hconn arrivals
          have hadd := available_add arrivals
          have hle := hserves.length_le
          rcases hclosed : served.closed with _ | _
          · obtain ⟨hleft, harrive⟩ := hserves.ofOpen hclosed
            obtain ⟨rest, hrest, hframes, hdata⟩ := ih hserves.receiving served.arrivals
            refine ⟨_, serveEvents_cons_of_open hserves.eq_some hclosed hrest,
              fun hend hafter frames => ?_, fun hlong => ?_⟩
            · rw [EofAfterData, ← hleft] at hafter
              obtain ⟨tail, htail⟩ := hframes hend hafter (frames ++ served.messages)
              rw [hserves.cap_eq] at htail
              exact ⟨tail, by rw [harrive, htail, List.append_assoc]⟩
            · rw [EofAfterData, ← hleft]
              rw [List.flatten_append, List.length_append] at hlong
              rw [← hleft] at hadd
              exact hdata (by omega)
          · refine ⟨served, serveEvents_cons_of_closed hserves.eq_some hclosed eofs,
              fun _ _ => hserves.ofClosed hclosed, fun hlong => ?_⟩
            exact eofAfterData_of_nil (List.length_eq_zero_iff.mp (by omega)) eofs

end Events

/-- A run of the events of a connection that ends with the connection closed has dispatched
all messages of the peer, in order, if and only if `EAGAIN` came between two messages only
and no event with `EV_EOF` came while bytes were unread. -/
theorem peer_messages_served_iff {connection : UsConn} (hconn : Receiving connection)
    {arrivals : List Arrival} {eofs : List Bool} {frames : List (List UInt8)}
    (hsent : frameStream connection.cap (streamOf arrivals) = ⟨frames, .waiting []⟩)
    {served : Served} (hrun : serveEvents connection arrivals eofs = some served)
    (hclosed : served.closed = true) :
    served.messages = frames ↔
      AgainBetweenMessages connection.cap arrivals ∧ EofAfterData arrivals eofs := by
  obtain ⟨served', hserve, hframes, hdata⟩ := serveEvents_spec hconn arrivals eofs
  obtain rfl : served = served' := Option.some.inj (hrun.symm.trans hserve)
  constructor
  · intro hmessages
    have hstream := (eq_flatten_append headerSize_pos hsent).1
    rw [List.append_nil] at hstream
    have hafter : EofAfterData arrivals eofs :=
      hdata (Nat.le_of_eq (by rw [hstream, hmessages]))
    refine ⟨?_, hafter⟩
    obtain ⟨tail, htail⟩ := hframes hclosed hafter []
    have hlength : ([] : List UInt8).length + (streamOf arrivals).length ≤
        (arrive connection.cap (frameStream connection.cap []) arrivals).frames.flatten.length := by
      rw [frameStream_nil, htail, List.nil_append, hmessages, ← hstream, List.length_nil,
        Nat.zero_add]
    exact betweenMessages_of_length [] hlength
  · rintro ⟨hbetween, hafter⟩
    obtain ⟨tail, htail⟩ := hframes hclosed hafter []
    have harrived := arrive_eq_frameStream [] hbetween
    rw [frameStream_nil, List.nil_append, htail, hsent] at harrived
    exact congrArg Framed.frames harrived

/-- A message of two bytes and the end of the stream are there when an event without
`EV_EOF` comes: the message is dispatched before the connection is closed. -/
theorem peer_messages_served_smallConnection : ∃ served,
    serveEvents smallConnection [headerOfTwo, .data 1 [2], .eof] [false] = some served ∧
      served.closed = true ∧ served.messages.map List.length = [34] := by
  have hrun : serveEvents smallConnection [headerOfTwo, .data 1 [2], .eof] [false] =
    some ⟨true, [streamOf [headerOfTwo, .data 1 [2]]], [.eof]⟩ := rfl
  refine ⟨_, hrun, rfl, ?_⟩
  have hsent : frameStream smallConnection.cap (streamOf [headerOfTwo, .data 1 [2], .eof]) =
    ⟨[streamOf [headerOfTwo, .data 1 [2]]], .waiting []⟩ := rfl
  have hbetween : AgainBetweenMessages smallConnection.cap [headerOfTwo, .data 1 [2], .eof] := by
    intro before after hsplit
    have hagain : Arrival.again ∈ [headerOfTwo, .data 1 [2], .eof] := by
      rw [hsplit]
      simp
    simp [headerOfTwo] at hagain
  rw [(peer_messages_served_iff smallConnection_receiving hsent hrun rfl).mpr ⟨hbetween, trivial⟩]
  rfl

/-- The same arrivals and an event with `EV_EOF`: the connection is closed and the message
is lost. -/
theorem eof_drops_message : Receiving smallConnection ∧ ∃ frames served,
    frameStream smallConnection.cap (streamOf [headerOfTwo, .data 1 [2], .eof]) =
      ⟨frames, .waiting []⟩ ∧
    serveEvents smallConnection [headerOfTwo, .data 1 [2], .eof] [true] = some served ∧
    served.closed = true ∧ frames.length = 1 ∧ served.messages = [] :=
  ⟨smallConnection_receiving, [streamOf [headerOfTwo, .data 1 [2]]], _, rfl, rfl, rfl, rfl, rfl⟩

end Server

end ConArtist
