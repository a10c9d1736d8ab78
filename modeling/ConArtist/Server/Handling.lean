import ConArtist.Foundation.Run
import ConArtist.Server.Opening

/-!
# Handling events

What an event of `us_loop_run` does to the records and registrations: a listening
descriptor accepts clients, and the record that the slot of a connection holds is read
into and closed. Every action keeps a loop sound (`sound_step`).
-/

namespace ConArtist

namespace Server

open Function

namespace UsLoop

/-- The record of a connection is written in place: its buffer and `m_used` only. -/
structure Rewrites (loop loop' : UsLoop) (table j : ℕ) (conns : List UsConn)
    (connection connection' : UsConn) : Prop where
  table_eq : loop.tables table = some conns
  conn_eq : conns[j]? = some connection
  kind_eq : connection.kind = usKindConn
  kind_eq' : connection'.kind = usKindConn
  fd_eq : connection'.fd = connection.fd
  server_eq : connection'.server = connection.server
  servers_eq : loop'.servers = loop.servers
  serversCount_eq : loop'.serversCount = loop.serversCount
  tables_eq : loop'.tables = update loop.tables table (some (conns.set j connection'))
  nextTable_eq : loop'.nextTable = loop.nextTable
  nextServerId_eq : loop'.nextServerId = loop.nextServerId

section Rewrites

variable {loop loop' : UsLoop} {table j : ℕ} {conns : List UsConn}
  {connection connection' : UsConn}

theorem zeroConn_kind_ne : zeroConn.kind ≠ usKindConn := by decide

/-- A record of kind `CONN` is below the count of the server that owns it. -/
theorem lt_connsCount {i : ℕ} {server : UsServer} (hshape : Shape loop)
    (howns : Owns loop i table server conns) (hconn : conns[j]? = some connection)
    (hkind : connection.kind = usKindConn) : j < server.connsCount := by
  by_contra hge
  have hzero := (howns.filled hshape).2.2.vacant j connection (by omega) hconn
  rw [hzero] at hkind
  exact zeroConn_kind_ne hkind

theorem Rewrites.conn?_eq (h : Rewrites loop loop' table j conns connection connection')
    (table' j' : ℕ) :
    loop'.conn? table' j' =
      if table' = table ∧ j' = j then some connection' else loop.conn? table' j' := by
  have hlt := (List.getElem?_eq_some_iff.mp h.conn_eq).1
  rw [conn?, conn?, h.tables_eq]
  rcases eq_or_ne table' table with rfl | htable
  · rw [update_self, Option.bind_some, h.table_eq, Option.bind_some, List.getElem?_set]
    rcases eq_or_ne j' j with rfl | hj
    · rw [if_pos rfl, if_pos hlt, if_pos ⟨rfl, rfl⟩]
    · rw [if_neg hj.symm, if_neg (fun h => hj h.2)]
  · rw [update_of_ne htable, if_neg (fun h => htable h.1)]

theorem Rewrites.slotsBy_eq (h : Rewrites loop loop' table j conns connection connection')
    (g : UsConn → Option ℤ) :
    loop'.slotsBy g = update (loop.slotsBy g) (.conn table j) (g connection') := by
  funext slot
  cases slot with
  | server i => rw [slotsBy_server, h.servers_eq, update_of_ne (by simp), slotsBy_server]
  | conn table' j' =>
      rw [slotsBy_conn, h.conn?_eq]
      split
      case isTrue heq =>
        obtain ⟨rfl, rfl⟩ := heq
        rw [update_self, Option.bind_some]
      case isFalse hne => rw [update_of_ne (by simpa using hne), slotsBy_conn]

theorem Rewrites.slotsBy_of_eq (h : Rewrites loop loop' table j conns connection connection')
    {g : UsConn → Option ℤ} (hg : g connection' = g connection) :
    loop'.slotsBy g = loop.slotsBy g := by
  have hslot : loop.slotsBy g (.conn table j) = g connection := by
    rw [slotsBy_conn, conn?_of_table h.table_eq, h.conn_eq, Option.bind_some]
  rw [h.slotsBy_eq, hg, ← hslot, update_eq_self]

theorem Rewrites.holds_eq (h : Rewrites loop loop' table j conns connection connection') :
    loop'.directory.holds = loop.directory.holds := by
  rw [directory_holds, directory_holds]
  refine h.slotsBy_of_eq ?_
  rw [UsConn.held, UsConn.held, if_pos h.kind_eq, if_pos h.kind_eq', h.fd_eq]

theorem Rewrites.shape (hshape : Shape loop)
    (h : Rewrites loop loop' table j conns connection connection') : Shape loop' := by
  refine ⟨?_, ?_, ?_, ?_, ?_, ?_, ?_⟩
  · rw [h.serversCount_eq, h.servers_eq]
    exact hshape.count_le
  · rw [h.serversCount_eq, h.servers_eq]
    intro i server hi hserver
    have hserves := hshape.serves i server hi hserver
    refine ⟨hserves.kind_eq, hserves.active_eq, hserves.listenFd_nonneg, ?_, hserves.count_le,
      hserves.no_conns, fun table' htable' => ?_⟩
    · rw [h.nextServerId_eq]
      exact hserves.id_lt
    · rw [h.tables_eq]
      rcases eq_or_ne table' table with rfl | hne
      · have howns : Owns loop i table' server conns := ⟨hi, hserver, htable', h.table_eq⟩
        obtain ⟨hlength, hle, hfilled⟩ := howns.filled hshape
        have hj := lt_connsCount hshape howns h.conn_eq h.kind_eq
        refine ⟨_, update_self _ _ _, by rwa [List.length_set], ?_, ?_⟩
        · intro k c hk hc
          rw [List.getElem?_set] at hc
          split at hc
          · rw [if_pos (by omega)] at hc
            cases hc
            rw [h.fd_eq]
            exact ⟨h.kind_eq', (hfilled.taken j connection hj h.conn_eq).2⟩
          · exact hfilled.taken k c hk hc
        · intro k c hk hc
          rw [List.getElem?_set_ne (by omega)] at hc
          exact hfilled.vacant k c hk hc
      · rw [update_of_ne hne]
        exact hserves.filled table' htable'
  · rw [h.serversCount_eq, h.servers_eq]
    exact hshape.vacant
  · rw [h.serversCount_eq, h.servers_eq]
    exact hshape.id_inj
  · rw [h.servers_eq]
    exact hshape.conns_inj
  · intro table' htable'
    rw [h.tables_eq] at htable'
    rw [h.nextTable_eq]
    exact hshape.table_lt_update h.table_eq htable'
  · intro table' j' c hc hkind
    rw [h.servers_eq]
    rw [h.conn?_eq] at hc
    split at hc
    case isTrue heq =>
      rw [heq.1]
      exact hshape.owned table j connection (by rw [conn?_of_table h.table_eq, h.conn_eq]) h.kind_eq
    case isFalse => exact hshape.owned table' j' c hc hkind

end Rewrites

/-- The record of a connection may be read into, and nothing else changes. -/
structure Prepares (loop loop' : UsLoop) (table j : ℕ) (conns : List UsConn)
    (connection connection' : UsConn) : Prop where
  rewrites : Rewrites loop loop' table j conns connection connection'
  isOpen_eq : loop'.isOpen = loop.isOpen
  registered_eq : loop'.registered = loop.registered
  log_eq : ∃ effects, loop'.log = loop.log ++ effects ∧
    ∀ e ∈ effects, e.isCallback = true ∨ e = .reads connection.fd

/-- The end of a connection that is not found in the table of its `m_server`: its
descriptor and buffer go, the record stays. -/
structure Abandons (loop loop' : UsLoop) (table j : ℕ) (conns : List UsConn)
    (connection connection' : UsConn) : Prop where
  rewrites : Rewrites loop loop' table j conns connection connection'
  isOpen_eq : loop'.isOpen = update loop.isOpen connection.fd false
  registered_eq : loop'.registered = update loop.registered connection.fd none
  log_eq : loop'.log = loop.log ++ [.closes connection.fd]

section Events

variable {loop loop' : UsLoop} {table j : ℕ} {conns : List UsConn}
  {connection connection' : UsConn} {arrivals : List Arrival} {rc : ℤ} {granted : Bool}

theorem readFromClient_record {out : Received}
    (h : readFromClient connection arrivals = some (out, connection')) :
    connection'.kind = connection.kind ∧ connection'.fd = connection.fd ∧
      connection'.server = connection.server := by
  rw [readFromClient] at h
  split at h
  · cases h
  · cases h
  · obtain ⟨out', -, heq⟩ := Option.map_eq_some_iff.mp h
    cases heq
    exact ⟨rfl, rfl, rfl⟩

theorem dispatch_spec {messages : List (List UInt8)}
    (h : loop.dispatch connection messages = some loop') :
    ∃ effects, loop' = loop.emit effects ∧
      ∀ e ∈ effects, ∃ fn serverId fd data user, e = .message fn serverId fd data user := by
  rw [dispatch] at h
  split at h
  · cases h
    refine ⟨[], ?_, fun e he => absurd he List.not_mem_nil⟩
    rw [emit, List.append_nil]
  · obtain ⟨i, -, h⟩ := Option.bind_eq_some_iff.mp h
    obtain ⟨server, -, h⟩ := Option.bind_eq_some_iff.mp h
    obtain ⟨fn, -, h⟩ := Option.bind_eq_some_iff.mp h
    cases h
    refine ⟨_, rfl, fun e he => ?_⟩
    obtain ⟨data, -, rfl⟩ := List.mem_map.mp he
    exact ⟨_, _, _, _, _, rfl⟩

/-- `read_from_client` on the record of a slot reads and dispatches messages. -/
theorem readConn_spec (htable : loop.tables table = some conns)
    (hconn : conns[j]? = some connection) (hkind : connection.kind = usKindConn)
    (h : loop.readConn table j conns connection arrivals = some (rc, connection', loop')) :
    Prepares loop loop' table j conns connection connection' ∧
      (∃ effects, loop'.log = loop.log ++ .reads connection.fd :: effects ∧
        ∀ e ∈ effects, ∃ fn serverId fd data user, e = .message fn serverId fd data user) ∧
      ∃ out, readFromClient connection arrivals = some (out, connection') ∧
        out.exit = .returns rc := by
  rw [readConn] at h
  obtain ⟨⟨out, c⟩, hcall, h⟩ := Option.bind_eq_some_iff.mp h
  simp only at h
  split at h
  case h_1 rc' hexit =>
    obtain ⟨loop₁, hdispatch, h⟩ := Option.bind_eq_some_iff.mp h
    cases h
    obtain ⟨hkind', hfd, hserver⟩ := readFromClient_record hcall
    obtain ⟨effects, rfl, heffects⟩ := dispatch_spec hdispatch
    have hlog : (((loop.emit [.reads connection'.fd]).setConns table
        (conns.set j connection')).emit effects).log =
        loop.log ++ .reads connection.fd :: effects := by
      rw [← hfd]
      exact List.append_assoc _ _ _
    refine ⟨⟨⟨htable, hconn, hkind, hkind'.trans hkind, hfd, hserver, rfl, rfl, rfl, rfl, rfl⟩, rfl,
      rfl, _, hlog, fun e he => ?_⟩, ⟨effects, hlog, heffects⟩, out, hcall, hexit⟩
    rcases List.mem_cons.mp he with rfl | he
    · exact Or.inr rfl
    · obtain ⟨fn, serverId, fd, data, user, rfl⟩ := heffects e he
      exact Or.inl rfl
  case h_2 => cases h

/-- The end of a connection: closed by `close_conn` where the table of its `m_server` is
that of its slot, else abandoned. -/
theorem endConn_cases (hshape : Shape loop) (htable : loop.tables table = some conns)
    (hconn : conns[j]? = some connection) (hkind : connection.kind = usKindConn)
    (h : loop.endConn table j connection granted = some loop') :
    ∃ i server, connection.server = some i ∧ loop.servers[i]? = some server ∧
      ((server.conns = some table ∧ j < server.connsCount ∧
          ∃ last moved,
            Closes loop loop' granted i j table last server conns connection moved) ∨
        (server.conns ≠ some table ∧
          ∃ connection', Abandons loop loop' table j conns connection connection')) := by
  rw [endConn] at h
  obtain ⟨i, hi, h⟩ := Option.bind_eq_some_iff.mp h
  obtain ⟨server, hserver, h⟩ := Option.bind_eq_some_iff.mp h
  refine ⟨i, server, hi, hserver, ?_⟩
  have howns : server.conns = some table → Owns loop i table server conns := fun hconns => by
    refine ⟨?_, hserver, hconns, htable⟩
    by_contra hge
    rw [hshape.vacant i server (by omega) hserver] at hconns
    cases hconns
  split at h
  case isTrue hfound =>
    refine Or.inl ⟨hfound.1, hfound.2, ?_⟩
    obtain ⟨table', last, conns', connection', moved, hcloses⟩ :=
      closeConn_spec hshape (howns hfound.1).lt hserver hfound.2 h
    obtain rfl : table = table' := Option.some.inj (hfound.1.symm.trans hcloses.owns.conns_eq)
    obtain rfl : conns = conns' := Option.some.inj (htable.symm.trans hcloses.owns.table_eq)
    obtain rfl : connection = connection' := Option.some.inj (hconn.symm.trans hcloses.conn_eq)
    exact ⟨last, moved, hcloses⟩
  case isFalse hlost =>
    refine Or.inr
      ⟨fun hconns => hlost ⟨hconns, lt_connsCount hshape (howns hconns) hconn hkind⟩, ?_⟩
    simp only at h
    split at h
    case h_1 => cases h
    case h_2 =>
      cases h
      refine ⟨connection, ⟨htable, hconn, hkind, hkind, rfl, rfl, rfl, rfl, ?_, rfl, rfl⟩, rfl,
        update_idem _ _ _, rfl⟩
      rw [set_of_getElem?_eq hconn, ← htable, update_eq_self]
      rfl
    case h_3 =>
      obtain ⟨conns', hconns', h⟩ := Option.bind_eq_some_iff.mp h
      obtain rfl : conns = conns' := Option.some.inj (htable.symm.trans hconns')
      cases h
      exact ⟨{ connection with buf := .freed },
        ⟨htable, hconn, hkind, hkind, rfl, rfl, rfl, rfl, rfl, rfl, rfl⟩, rfl,
        update_idem _ _ _, rfl⟩

end Events

/-- Whether an event ends the connection it is handled for. -/
def endsConn (connection : UsConn) (event : Event) : Bool :=
  event.eof ||
    match readFromClient connection event.arrivals with
    | some (⟨.returns rc, _, _, _⟩, _) => decide (rc < 0)
    | _ => false

/-- An event with `EV_EOF` leaves the record as it is. -/
theorem prepares_self {loop : UsLoop} {table j : ℕ} {conns : List UsConn} {connection : UsConn}
    (htable : loop.tables table = some conns) (hconn : conns[j]? = some connection)
    (hkind : connection.kind = usKindConn) :
    Prepares loop loop table j conns connection connection := by
  refine ⟨⟨htable, hconn, hkind, hkind, rfl, rfl, rfl, rfl, ?_, rfl, rfl⟩, rfl, rfl, [],
    (List.append_nil _).symm, fun e he => absurd he List.not_mem_nil⟩
  rw [set_of_getElem?_eq hconn, ← htable, update_eq_self]

/-- What `us_loop_run` does with an event for a slot that holds a connection. -/
inductive HandlesConn (loop loop' : UsLoop) (table j : ℕ) (conns : List UsConn)
    (connection : UsConn) (event : Event) : Prop where
  | stays (connection' : UsConn) (hends : endsConn connection event = false)
      (hprepares : Prepares loop loop' table j conns connection connection')
      (hreads : .reads connection.fd ∈ loop'.log.drop loop.log.length)
  | ends (loop₁ : UsLoop) (connection' : UsConn) (hends : endsConn connection event = true)
      (hprepares : Prepares loop loop₁ table j conns connection connection')
      (hend : loop₁.endConn table j connection' event.granted = some loop')

/-- What `us_loop_run` does with an event: nothing when its slot is vacant. -/
inductive Handles (loop loop' : UsLoop) (event : Event) : Prop where
  | ignores (hvacant : ∀ slot, event.udata = some slot → loop.directory.holds slot = none)
      (hsame : loop' = loop)
  | accepts (i : ℕ) (rc : ℤ) (hudata : event.udata = some (.server i))
      (hi : i < loop.serversCount)
      (haccept : acceptNewClients i loop event.accepted = some (rc, loop'))
  | conn (table j : ℕ) (conns : List UsConn) (connection : UsConn)
      (hudata : event.udata = some (.conn table j)) (htable : loop.tables table = some conns)
      (hconn : conns[j]? = some connection) (hkind : connection.kind = usKindConn)
      (hhandles : HandlesConn loop loop' table j conns connection event)

section Handle

variable {loop loop' : UsLoop} {event : Event}

/-- An event for the record of a connection: it ends at once, or is read into and ends then or
not. -/
theorem handleEvent_conn {table j : ℕ} {conns : List UsConn} {connection : UsConn}
    (htable : loop.tables table = some conns) (hconn : conns[j]? = some connection)
    (hkind : connection.kind = usKindConn) (hudata : event.udata = some (.conn table j))
    (h : loop.handleEvent event = some loop') :
    (endsConn connection event = true ∧
        loop.endConn table j connection event.granted = some loop') ∨
      ∃ rc connection' loop₁,
        loop.readConn table j conns connection event.arrivals = some (rc, connection', loop₁) ∧
          ((endsConn connection event = false ∧ loop' = loop₁) ∨
            (endsConn connection event = true ∧
              loop₁.endConn table j connection' event.granted = some loop')) := by
  rw [handleEvent, hudata] at h
  simp only [htable, hconn, Option.bind_eq_bind, Option.bind_some, if_pos hkind] at h
  split at h
  case isTrue heof => exact Or.inl ⟨by rw [endsConn, heof, Bool.true_or], h⟩
  case isFalse heof =>
    rw [Bool.not_eq_true] at heof
    obtain ⟨⟨rc, connection', loop₁⟩, hread, h⟩ := Option.bind_eq_some_iff.mp h
    obtain ⟨-, -, out, hcall, hexit⟩ := readConn_spec htable hconn hkind hread
    have hends : endsConn connection event = decide (rc < 0) := by
      obtain ⟨exit, buf, messages, arrivals⟩ := out
      cases hexit
      simp only [endsConn, heof, hcall, Bool.false_or]
    refine Or.inr ⟨rc, connection', loop₁, hread, ?_⟩
    simp only at h
    split at h
    case isTrue hrc => exact Or.inr ⟨hends.trans (decide_eq_true hrc), h⟩
    case isFalse hrc =>
      cases h
      exact Or.inl ⟨hends.trans (decide_eq_false hrc), rfl⟩

theorem handlesConn_of_eq {table j : ℕ} {conns : List UsConn} {connection : UsConn}
    (htable : loop.tables table = some conns) (hconn : conns[j]? = some connection)
    (hkind : connection.kind = usKindConn) (hudata : event.udata = some (.conn table j))
    (h : loop.handleEvent event = some loop') :
    HandlesConn loop loop' table j conns connection event := by
  rcases handleEvent_conn htable hconn hkind hudata h with ⟨hends, hend⟩ |
    ⟨rc, connection', loop₁, hread, hcases⟩
  · exact .ends loop connection hends (prepares_self htable hconn hkind) hend
  · obtain ⟨hprepares, ⟨effects, hlog, -⟩, -⟩ := readConn_spec htable hconn hkind hread
    rcases hcases with ⟨hstays, rfl⟩ | ⟨hends, hend⟩
    · refine .stays connection' hstays hprepares ?_
      rw [hlog, List.drop_left]
      exact List.mem_cons_self
    · exact .ends loop₁ connection' hends hprepares hend

theorem handles_of_eq (hshape : Shape loop) (h : loop.handleEvent event = some loop') :
    Handles loop loop' event := by
  rcases hudata : event.udata with _ | ⟨i | ⟨table, j⟩⟩
  · rw [handleEvent, hudata] at h
    cases h
    exact .ignores (fun slot hslot => by rw [hudata] at hslot; cases hslot) rfl
  · rw [handleEvent, hudata] at h
    obtain ⟨server, hserver, h⟩ := Option.bind_eq_some_iff.mp h
    split at h
    case isTrue hkind =>
      obtain ⟨⟨rc, loop₁⟩, haccept, heq⟩ := Option.map_eq_some_iff.mp h
      cases heq
      refine .accepts i rc hudata ?_ haccept
      by_contra hge
      rw [hshape.vacant i server (by omega) hserver] at hkind
      exact absurd hkind (by decide)
    case isFalse hkind =>
      cases h
      refine .ignores (fun slot hslot => ?_) rfl
      rw [hudata] at hslot
      cases hslot
      rw [holds_server, hserver, Option.bind_some, UsServer.held, if_neg hkind]
  · have hcopy := h
    rw [handleEvent, hudata] at h
    obtain ⟨conns, htable, h⟩ := Option.bind_eq_some_iff.mp h
    obtain ⟨connection, hconn, h⟩ := Option.bind_eq_some_iff.mp h
    by_cases hkind : connection.kind = usKindConn
    · exact .conn table j conns connection hudata htable hconn hkind
        (handlesConn_of_eq htable hconn hkind hudata hcopy)
    · rw [if_neg hkind] at h
      cases h
      refine .ignores (fun slot hslot => ?_) rfl
      rw [hudata] at hslot
      cases hslot
      rw [holds_conn, conn?_of_table htable, hconn, Option.bind_some, UsConn.held, if_neg hkind]

end Handle

section Calls

variable {loop loop' : UsLoop} {serverId clientFd rc : ℤ} {granted : Bool}

theorem findServerById_spec {i : ℕ} (hshape : Shape loop)
    (h : loop.findServerById serverId = some i) :
    i < loop.serversCount ∧ ∃ server, loop.servers[i]? = some server := by
  obtain ⟨hlt, -⟩ := List.findIdx?_eq_some_iff_getElem.mp h
  have hcount := hshape.count_le
  rw [List.length_take] at hlt
  exact ⟨by omega, loop.servers[i], List.getElem?_eq_getElem (by omega)⟩

theorem findConnByFd_lt {server : UsServer} {idx : ℕ}
    (h : loop.findConnByFd server clientFd = some idx) : idx < server.connsCount := by
  obtain ⟨hlt, -⟩ := List.findIdx?_eq_some_iff_getElem.mp h
  rw [List.length_take] at hlt
  omega

/-- `us_client_close` closes the connection it finds. -/
theorem usClientClose_cases (hshape : Shape loop)
    (h : loop.usClientClose serverId clientFd granted = some (rc, loop')) :
    (loop' = loop ∧ ∀ i server, loop.findServerById serverId = some i →
        loop.servers[i]? = some server → loop.findConnByFd server clientFd = none) ∨
      ∃ i server idx, loop.findServerById serverId = some i ∧
      loop.servers[i]? = some server ∧ loop.findConnByFd server clientFd = some idx ∧
      ∃ table last conns connection moved,
        Closes loop loop' granted i idx table last server conns connection moved := by
  rw [usClientClose] at h
  split at h
  case h_1 hnone =>
    cases h
    exact Or.inl ⟨rfl, fun i server hfind => nomatch hnone.symm.trans hfind⟩
  case h_2 i hfind =>
    obtain ⟨hi, -⟩ := findServerById_spec hshape hfind
    obtain ⟨server, hserver, h⟩ := Option.bind_eq_some_iff.mp h
    split at h
    case h_1 hnone =>
      cases h
      refine Or.inl ⟨rfl, fun i' server' hfind' hserver' => ?_⟩
      obtain rfl : i = i' := Option.some.inj (hfind.symm.trans hfind')
      obtain rfl : server = server' := Option.some.inj (hserver.symm.trans hserver')
      exact hnone
    case h_2 idx hidx =>
      obtain ⟨loop₁, hclose, h⟩ := Option.bind_eq_some_iff.mp h
      cases h
      exact Or.inr ⟨i, server, idx, hfind, hserver, hidx,
        closeConn_spec hshape hi hserver (findConnByFd_lt hidx) hclose⟩

/-- `us_server_close` closes the connections of the server it finds and removes it. -/
theorem usServerClose_cases (hshape : Shape loop)
    (h : loop.usServerClose serverId granted = some (rc, loop')) :
    (loop' = loop ∧ loop.findServerById serverId = none) ∨
      ∃ idx server loop₁, loop.findServerById serverId = some idx ∧
        idx < loop.serversCount ∧ loop.servers[idx]? = some server ∧
        closeConns idx server.connsCount loop = some loop₁ ∧
        loop₁.removeServer granted idx = some loop' := by
  rw [usServerClose] at h
  split at h
  case h_1 hnone =>
    cases h
    exact Or.inl ⟨rfl, hnone⟩
  case h_2 idx hfind =>
    obtain ⟨hidx, -⟩ := findServerById_spec hshape hfind
    obtain ⟨server, hserver, h⟩ := Option.bind_eq_some_iff.mp h
    obtain ⟨loop₁, hconns, h⟩ := Option.bind_eq_some_iff.mp h
    obtain ⟨loop₂, hremove, h⟩ := Option.bind_eq_some_iff.mp h
    cases h
    exact Or.inr ⟨idx, server, loop₁, hfind, hidx, hserver, hconns, hremove⟩

end Calls

section Sound

variable {loop loop' : UsLoop} {table j : ℕ} {conns : List UsConn}
  {connection connection' : UsConn} {event : Event}

theorem Prepares.directory_eq (h : Prepares loop loop' table j conns connection connection') :
    loop'.directory = loop.directory :=
  Directory.ext h.rewrites.holds_eq h.registered_eq

theorem Prepares.sound (hsound : Sound loop)
    (h : Prepares loop loop' table j conns connection connection') : Sound loop' := by
  refine ⟨h.rewrites.shape hsound.toShape, ?_, ?_⟩
  · rw [h.directory_eq]
    exact hsound.found
  · rw [h.isOpen_eq, h.registered_eq]
    exact hsound.open_of_registered

theorem Abandons.directory_eq (h : Abandons loop loop' table j conns connection connection') :
    loop'.directory = loop.directory.forget connection.fd :=
  Directory.ext h.rewrites.holds_eq h.registered_eq

theorem Abandons.sound (hsound : Sound loop)
    (h : Abandons loop loop' table j conns connection connection') : Sound loop' := by
  refine ⟨h.rewrites.shape hsound.toShape, ?_, fun fd hfd => ?_⟩
  · rw [h.directory_eq]
    exact hsound.found.forget _
  · rw [h.registered_eq] at hfd
    have hne : fd ≠ connection.fd := by
      rintro rfl
      exact hfd (update_self _ _ _)
    rw [update_of_ne hne] at hfd
    rw [h.isOpen_eq, update_of_ne hne]
    exact hsound.open_of_registered fd hfd

theorem Prepares.getElem?_eq (h : Prepares loop loop' table j conns connection connection') :
    loop'.tables table = some (conns.set j connection') ∧
      (conns.set j connection')[j]? = some connection' := by
  refine ⟨by rw [h.rewrites.tables_eq, update_self], List.getElem?_set_self ?_⟩
  exact (List.getElem?_eq_some_iff.mp h.rewrites.conn_eq).1

theorem HandlesConn.sound (hsound : Sound loop)
    (h : HandlesConn loop loop' table j conns connection event) : Sound loop' := by
  cases h with
  | stays connection' _ hprepares _ => exact hprepares.sound hsound
  | ends loop₁ connection' _ hprepares hend =>
      have hsound₁ := hprepares.sound hsound
      obtain ⟨htable, hconn⟩ := hprepares.getElem?_eq
      obtain ⟨i, server, -, -, ⟨-, hj, last, moved, hcloses⟩ | ⟨-, connection'', habandons⟩⟩ :=
        endConn_cases hsound₁.toShape htable hconn hprepares.rewrites.kind_eq' hend
      · exact hcloses.sound hsound₁ hj
      · exact habandons.sound hsound₁

theorem handleEvent_sound (hsound : Sound loop) (h : loop.handleEvent event = some loop') :
    Sound loop' := by
  cases handles_of_eq hsound.toShape h with
  | ignores _ hsame => exact hsame ▸ hsound
  | accepts i rc _ hi haccept =>
      exact (acceptNewClients_induct (P := fun _ => True) (fun _ _ _ _ _ _ _ => trivial)
        (fun _ _ _ _ _ _ _ _ _ _ _ => trivial) hsound hi trivial haccept).1
  | conn table j conns connection _ _ _ _ hhandles => exact hhandles.sound hsound

theorem sound_step (hsound : Sound loop) {action : Action} (h : loopStep loop action = some loop') :
    Sound loop' := by
  cases action with
  | create args meets =>
      obtain ⟨⟨rc, loop₁⟩, hcreate, rfl⟩ := Option.map_eq_some_iff.mp h
      obtain ⟨-, ⟨ok, hsame, hopen, hregistered⟩ | ⟨fd, ok, hfd, -, hadds⟩⟩ :=
        usServerCreate_cases hsound hcreate
      · have hdirectory := allocConns_directory hsound.table_lt ok
        refine Sound.of_same
          ⟨allocConns_shape hsound.toShape ok, ?_, hsound.open_of_registered⟩ hsame hopen
          hregistered
        rw [hdirectory]
        exact hsound.found
      · exact hadds.sound hsound hfd
  | clientClose serverId clientFd granted =>
      obtain ⟨⟨rc, loop₁⟩, hclose, rfl⟩ := Option.map_eq_some_iff.mp h
      rcases usClientClose_cases hsound.toShape hclose with ⟨hsame, -⟩ |
        ⟨i, server, idx, -, -, hidx, table, last, conns, connection, moved, hcloses⟩
      · exact hsame ▸ hsound
      · exact hcloses.sound hsound (findConnByFd_lt hidx)
  | serverClose serverId granted =>
      obtain ⟨⟨rc, loop₁⟩, hclose, rfl⟩ := Option.map_eq_some_iff.mp h
      rcases usServerClose_cases hsound.toShape hclose with ⟨hsame, -⟩ |
        ⟨idx, server, loop₂, -, hidx, hserver, hconns, hremove⟩
      · exact hsame ▸ hsound
      · obtain ⟨hsound₂, -, -, -, last, moved, hremoves⟩ :=
          closeServer_spec (P := fun _ => True) (fun _ _ _ _ _ _ _ _ _ _ _ _ => trivial) hsound hidx
            hserver trivial hconns hremove
        exact hremoves.sound hsound₂ rfl
  | event event => exact handleEvent_sound hsound h

theorem sound_usLoopCreate : Sound usLoopCreate := by
  refine ⟨⟨Nat.zero_le _, fun i server hi => absurd hi (Nat.not_lt_zero i), ?_, ?_, ?_, ?_, ?_⟩,
    ?_, ?_⟩
  · intro i server _ hserver
    exact List.eq_of_mem_replicate (List.mem_of_getElem? hserver)
  · exact fun i i' server server' hi => absurd hi (Nat.not_lt_zero i)
  · intro i i' server server' table hserver _ hconns
    rw [List.eq_of_mem_replicate (List.mem_of_getElem? hserver)] at hconns
    cases hconns
  · exact fun table htable => absurd rfl htable
  · exact fun table j connection hconn => nomatch hconn
  · exact fun fd slot hfinds => nomatch hfinds
  · exact fun fd hfd => absurd rfl hfd

end Sound

end UsLoop

end Server

end ConArtist
