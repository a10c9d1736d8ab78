import ConArtist.Server.Handling

/-!
# The callbacks of the clients

The calls of `m_on_connect` and `m_on_disconnect` are counted for each client from what a loop
lets others see. A client begins when its descriptor is accepted and ends when that is closed;
`close_conn` calls `m_on_disconnect` right after it. Of an event for a connection it is said
here that reading shows no more than traffic and leaves the buffer where it is.
-/

namespace ConArtist

namespace Server

open Function

/-- How often the callbacks were called for a client. -/
structure ClientCalls where
  connects : ℕ
  disconnects : ℕ

/-- The calls of `m_on_connect` for the client of each open descriptor, and the calls for the
clients that have ended, the last one first. A call of `m_on_disconnect` is for the client whose
descriptor was closed last; calls for no client are strays. -/
structure Tally where
  live : ℤ → Option ℕ
  ended : List ClientCalls
  closing : Bool
  strays : ℕ

namespace Tally

/-- Before anything happens. -/
def start : Tally := ⟨fun _ => none, [], false, 0⟩

def note (t : Tally) : Effect → Tally
  | .accepts fd => { t with live := update t.live fd (some 0) }
  | .reads _ => t
  | .closes fd =>
      match t.live fd with
      | some n =>
          { t with live := update t.live fd none, ended := ⟨n, 0⟩ :: t.ended, closing := true }
      | none => { t with closing := false }
  | .connect _ _ fd _ =>
      match t.live fd with
      | some n => { t with live := update t.live fd (some (n + 1)) }
      | none => { t with strays := t.strays + 1 }
  | .message .. => t
  | .disconnect .. =>
      match t.closing, t.ended with
      | true, client :: clients =>
          { t with ended := { client with disconnects := client.disconnects + 1 } :: clients }
      | _, _ => { t with strays := t.strays + 1 }

def ofLog (log : List Effect) : Tally := log.foldl note start

end Tally

/-- Neither callback, and no descriptor that comes or goes. -/
def Effect.isTraffic : Effect → Bool
  | .reads _ => true
  | .message .. => true
  | _ => false

def UsServer.connectCalls (server : UsServer) : ℕ := server.onConnect.toList.length

def UsServer.disconnectCalls (server : UsServer) : ℕ := server.onDisconnect.toList.length

namespace Tally

variable {t : Tally} {fd : ℤ} {n : ℕ}

theorem ofLog_append (log effects : List Effect) :
    ofLog (log ++ effects) = effects.foldl note (ofLog log) := List.foldl_append

theorem foldl_of_isTraffic {effects : List Effect} (h : ∀ e ∈ effects, e.isTraffic = true) :
    effects.foldl note t = t := by
  induction effects generalizing t with
  | nil => rfl
  | cons e effects ih =>
      have hnote : t.note e = t := by
        have he := h e List.mem_cons_self
        cases e with
        | reads | message => rfl
        | accepts | closes | connect | disconnect => cases he
      rw [List.foldl_cons, hnote]
      exact ih fun e he => h e (List.mem_cons_of_mem _ he)

/-- The end of a client, with `m_on_disconnect`. -/
theorem foldl_end (hlive : t.live fd = some n) (server : UsServer) (client : Slot) :
    (Effect.closes fd :: disconnects server client).foldl note t =
      { t with
        live := update t.live fd none
        ended := ⟨n, server.disconnectCalls⟩ :: t.ended
        closing := true } := by
  rw [List.foldl_cons, note, hlive, disconnects, UsServer.disconnectCalls]
  cases server.onDisconnect <;> rfl

/-- The end of a client without `m_on_disconnect`. -/
theorem note_closes (hlive : t.live fd = some n) :
    t.note (.closes fd) =
      { t with live := update t.live fd none, ended := ⟨n, 0⟩ :: t.ended, closing := true } := by
  rw [note, hlive]

theorem note_closes_none (hlive : t.live fd = none) :
    t.note (.closes fd) = { t with closing := false } := by
  rw [note, hlive]

theorem note_connect (hlive : t.live fd = some n) (fn : ℕ) (serverId : ℤ) (user : ℕ) :
    t.note (.connect fn serverId fd user) =
      { t with live := update t.live fd (some (n + 1)) } := by
  rw [note, hlive]

theorem note_accepts_live (t : Tally) (fd : ℤ) : (t.note (.accepts fd)).live fd = some 0 :=
  update_self _ _ _

theorem foldl_closes_none {effects : List Effect}
    (h : ∀ e ∈ effects, ∃ fd, e = .closes fd ∧ t.live fd = none) :
    (effects.foldl note t).live = t.live ∧ (effects.foldl note t).ended = t.ended ∧
      (effects.foldl note t).strays = t.strays := by
  induction effects generalizing t with
  | nil => exact ⟨rfl, rfl, rfl⟩
  | cons e effects ih =>
      obtain ⟨fd, rfl, hlive⟩ := h e List.mem_cons_self
      rw [List.foldl_cons, note_closes_none hlive]
      exact ih fun e he => h e (List.mem_cons_of_mem _ he)

theorem foldl_take (server : UsServer) (fd : ℤ) :
    (Effect.accepts fd :: connects server fd).foldl note t =
      { t with live := update t.live fd (some server.connectCalls) } := by
  rw [List.foldl_cons, connects, UsServer.connectCalls]
  cases server.onConnect with
  | none => rfl
  | some fn =>
      rw [List.foldl_cons, note_connect (note_accepts_live t fd), List.foldl_nil, note]
      dsimp only
      rw [update_idem]
      rfl

theorem update_accepts (hlive : t.live fd = none) :
    update (t.note (.accepts fd)).live fd none = t.live := by
  rw [note]
  dsimp only
  rw [update_idem, ← hlive, update_eq_self]

end Tally

namespace UsLoop

/-- A record is read into, if at all, and keeps its buffer. -/
structure Reads (loop loop' : UsLoop) (table j : ℕ) (conns : List UsConn)
    (connection connection' : UsConn) : Prop where
  prepares : Prepares loop loop' table j conns connection connection'
  log_eq : ∃ effects, loop'.log = loop.log ++ effects ∧ ∀ e ∈ effects, e.isTraffic = true
  buf : connection' = connection ∨ ∃ bytes bytes', connection.buf = .block bytes ∧
    connection'.buf = .block bytes'

section Reading

variable {loop loop' : UsLoop} {granted : Bool} {i table j : ℕ} {server : UsServer}
  {conns : List UsConn} {connection connection' : UsConn} {rc : ℤ}

theorem readFromClient_buf {arrivals : List Arrival} {out : Received}
    (h : readFromClient connection arrivals = some (out, connection')) :
    ∃ bytes bytes', connection.buf = .block bytes ∧ connection'.buf = .block bytes' := by
  rw [readFromClient] at h
  split at h
  case h_1 => cases h
  case h_2 => cases h
  case h_3 bytes hbuf =>
    obtain ⟨out', -, heq⟩ := Option.map_eq_some_iff.mp h
    cases heq
    exact ⟨bytes, _, hbuf, rfl⟩

theorem reads_self (htable : loop.tables table = some conns) (hconn : conns[j]? = some connection)
    (hkind : connection.kind = usKindConn) : Reads loop loop table j conns connection connection :=
  ⟨prepares_self htable hconn hkind,
    ⟨[], (List.append_nil _).symm, fun _ he => absurd he List.not_mem_nil⟩, .inl rfl⟩

theorem readConn_reads {arrivals : List Arrival} (htable : loop.tables table = some conns)
    (hconn : conns[j]? = some connection) (hkind : connection.kind = usKindConn)
    (h : loop.readConn table j conns connection arrivals = some (rc, connection', loop')) :
    Reads loop loop' table j conns connection connection' := by
  obtain ⟨hprepares, ⟨effects, hlog, heffects⟩, out, hcall, -⟩ :=
    readConn_spec htable hconn hkind h
  refine ⟨hprepares, ⟨_, hlog, fun e he => ?_⟩, .inr (readFromClient_buf hcall)⟩
  rcases List.mem_cons.mp he with rfl | he
  · rfl
  · obtain ⟨fn, serverId, fd, data, user, rfl⟩ := heffects e he
    rfl

/-- An event for the record of a connection: it is read into, if at all, and ends then, or
not. -/
theorem handleEvent_reads {event : Event} (hudata : event.udata = some (.conn table j))
    (htable : loop.tables table = some conns) (hconn : conns[j]? = some connection)
    (hkind : connection.kind = usKindConn) (h : loop.handleEvent event = some loop') :
    ∃ loop₁ connection', Reads loop loop₁ table j conns connection connection' ∧
      ((endsConn connection event = false ∧ loop' = loop₁) ∨
        (endsConn connection event = true ∧
          loop₁.endConn table j connection' event.granted = some loop')) := by
  rcases handleEvent_conn htable hconn hkind hudata h with hends |
    ⟨rc, connection', loop₁, hread, hcases⟩
  · exact ⟨loop, connection, reads_self htable hconn hkind, .inr hends⟩
  · exact ⟨loop₁, connection', readConn_reads htable hconn hkind hread, hcases⟩

theorem endConn_frees (htable : loop.tables table = some conns)
    (hconn : conns[j]? = some connection) (hkind : connection.kind = usKindConn)
    (hi : connection.server = some i) (hserver : loop.servers[i]? = some server)
    (hlost : server.conns ≠ some table) (hbuf : connection.buf ≠ .null)
    (h : loop.endConn table j connection granted = some loop') :
    connection.buf ≠ .freed ∧
      Abandons loop loop' table j conns connection { connection with buf := .freed } := by
  rw [endConn, hi, Option.bind_eq_bind, Option.bind_some, hserver, Option.bind_eq_bind,
    Option.bind_some, if_neg fun hfound => hlost hfound.1] at h
  simp only at h
  split at h
  case h_1 => cases h
  case h_2 hnull => exact absurd hnull hbuf
  case h_3 bytes hblock =>
    obtain ⟨conns', hconns', h⟩ := Option.bind_eq_some_iff.mp h
    obtain rfl : conns = conns' := Option.some.inj (htable.symm.trans hconns')
    cases h
    refine ⟨fun hfreed => ?_, ⟨htable, hconn, hkind, hkind, rfl, rfl, rfl, rfl, ?_, rfl, rfl⟩, rfl,
      update_idem _ _ _, rfl⟩
    · rw [hfreed] at hblock
      cases hblock
    · rw [hi]
      rfl

end Reading

end UsLoop

end Server

end ConArtist
