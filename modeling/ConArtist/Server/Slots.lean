import ConArtist.Foundation.Directory
import ConArtist.Server.Loop

/-!
# What the slots hold

The slots of a loop and the registrations of its kqueue are a `Directory`: a slot holds
a descriptor when its `m_kind` says that it is taken. `Shape` is what the records of
every reachable loop have in common, and `Sound` adds that the kernel has only open
descriptors registered, each under a slot that holds it.
-/

namespace ConArtist

namespace Server

open Function

def UsServer.held (server : UsServer) : Option ℤ :=
  if server.kind = usKindServer then some server.listenFd else none

def UsConn.held (connection : UsConn) : Option ℤ :=
  if connection.kind = usKindConn then some connection.fd else none

/-- The first `n` slots of a connection table are taken. -/
structure Filled (conns : List UsConn) (n : ℕ) : Prop where
  taken : ∀ j connection, j < n → conns[j]? = some connection →
    connection.kind = usKindConn ∧ 0 ≤ connection.fd
  vacant : ∀ j connection, n ≤ j → conns[j]? = some connection → connection = zeroConn

namespace UsLoop

/-- The record at a place of a connection table. -/
def conn? (loop : UsLoop) (table j : ℕ) : Option UsConn :=
  (loop.tables table).bind fun conns => conns[j]?

/-- The slots of a loop and the registrations of its kqueue. -/
def directory (loop : UsLoop) : Directory Slot ℤ where
  holds
    | .server i => loop.servers[i]?.bind UsServer.held
    | .conn table j => (loop.conn? table j).bind UsConn.held
  finds := loop.registered

@[simp] theorem directory_finds (loop : UsLoop) : loop.directory.finds = loop.registered := rfl

theorem holds_server (loop : UsLoop) (i : ℕ) :
    loop.directory.holds (.server i) = loop.servers[i]?.bind UsServer.held := rfl

theorem holds_conn (loop : UsLoop) (table j : ℕ) :
    loop.directory.holds (.conn table j) = (loop.conn? table j).bind UsConn.held := rfl

/-- The slots of a loop, with what `g` reads off the record of a connection. -/
def slotsBy (loop : UsLoop) (g : UsConn → Option ℤ) : Slot → Option ℤ
  | .server i => loop.servers[i]?.bind UsServer.held
  | .conn table j => (loop.conn? table j).bind g

theorem slotsBy_server (loop : UsLoop) (g : UsConn → Option ℤ) (i : ℕ) :
    loop.slotsBy g (.server i) = loop.servers[i]?.bind UsServer.held := rfl

theorem slotsBy_conn (loop : UsLoop) (g : UsConn → Option ℤ) (table j : ℕ) :
    loop.slotsBy g (.conn table j) = (loop.conn? table j).bind g := rfl

theorem directory_holds (loop : UsLoop) : loop.directory.holds = loop.slotsBy UsConn.held := by
  funext slot
  cases slot <;> rfl

theorem conn?_of_table {loop : UsLoop} {table : ℕ} {conns : List UsConn}
    (h : loop.tables table = some conns) (j : ℕ) : loop.conn? table j = conns[j]? := by
  rw [conn?, h, Option.bind_some]

/-- A server record below the count. -/
structure Serves (loop : UsLoop) (server : UsServer) : Prop where
  kind_eq : server.kind = usKindServer
  active_eq : server.active = true
  listenFd_nonneg : 0 ≤ server.listenFd
  id_lt : server.serverId < loop.nextServerId
  count_le : server.connsCount ≤ server.connsCap
  no_conns : server.conns = none → server.connsCount = 0
  filled : ∀ table, server.conns = some table → ∃ conns, loop.tables table = some conns ∧
    conns.length = server.connsCap ∧ Filled conns server.connsCount

/-- The records of a loop: the servers below the count serve, the slots above it are
zero, no two servers share their id or connection table, and a taken slot of a
connection table has a server. -/
structure Shape (loop : UsLoop) : Prop where
  count_le : loop.serversCount ≤ loop.servers.length
  serves : ∀ i server, i < loop.serversCount → loop.servers[i]? = some server →
    loop.Serves server
  vacant : ∀ i server, loop.serversCount ≤ i → loop.servers[i]? = some server →
    server = zeroServer
  id_inj : ∀ i i' (server server' : UsServer), i < loop.serversCount → i' < loop.serversCount →
    loop.servers[i]? = some server → loop.servers[i']? = some server' →
    server.serverId = server'.serverId → i = i'
  conns_inj : ∀ (i i' : ℕ) (server server' : UsServer) (table : ℕ), loop.servers[i]? = some server →
    loop.servers[i']? = some server' → server.conns = some table → server'.conns = some table →
    i = i'
  table_lt : ∀ table, loop.tables table ≠ none → table < loop.nextTable
  owned : ∀ (table j : ℕ) (connection : UsConn), loop.conn? table j = some connection →
    connection.kind = usKindConn →
    ∃ (i : ℕ) (server : UsServer), loop.servers[i]? = some server ∧ server.conns = some table

/-- The records and registrations of a loop that can be reached. -/
structure Sound (loop : UsLoop) : Prop extends Shape loop where
  found : loop.directory.Sound
  open_of_registered : ∀ fd, loop.registered fd ≠ none → loop.isOpen fd = true

/-- Two loops with the same records. -/
structure SameRecords (loop loop' : UsLoop) : Prop where
  servers_eq : loop'.servers = loop.servers
  serversCount_eq : loop'.serversCount = loop.serversCount
  tables_eq : loop'.tables = loop.tables
  nextTable_eq : loop'.nextTable = loop.nextTable
  nextServerId_le : loop.nextServerId ≤ loop'.nextServerId

/-- A step writes the connection table of the server at `i`, and its count. -/
structure Retables (loop loop' : UsLoop) (i table : ℕ) (server : UsServer) (conns : List UsConn)
    (n : ℕ) : Prop where
  servers_eq : loop'.servers = loop.servers.set i { server with connsCount := n }
  serversCount_eq : loop'.serversCount = loop.serversCount
  tables_eq : loop'.tables = update loop.tables table (some conns)
  nextTable_eq : loop'.nextTable = loop.nextTable
  nextServerId_eq : loop'.nextServerId = loop.nextServerId

/-- A server below the count, with its connection table. -/
structure Owns (loop : UsLoop) (i table : ℕ) (server : UsServer) (conns : List UsConn) : Prop where
  lt : i < loop.serversCount
  server_eq : loop.servers[i]? = some server
  conns_eq : server.conns = some table
  table_eq : loop.tables table = some conns

section Records

variable {loop loop' : UsLoop} {i table n : ℕ} {server : UsServer} {conns conns' : List UsConn}

theorem Serves.of_tables (h : Serves loop server)
    (htables : ∀ table, server.conns = some table → loop'.tables table = loop.tables table)
    (hid : loop.nextServerId ≤ loop'.nextServerId) : Serves loop' server := by
  refine ⟨h.kind_eq, h.active_eq, h.listenFd_nonneg, lt_of_lt_of_le h.id_lt hid, h.count_le,
    h.no_conns, fun table htable => ?_⟩
  rw [htables table htable]
  exact h.filled table htable

theorem SameRecords.shape (h : SameRecords loop loop') (hshape : Shape loop) : Shape loop' := by
  have hconn? : ∀ table j, loop'.conn? table j = loop.conn? table j := fun table j => by
    rw [conn?, conn?, h.tables_eq]
  obtain ⟨hservers, hcount, htables, hnext, hid⟩ := h
  refine ⟨?_, ?_, ?_, ?_, ?_, ?_, ?_⟩
  · rw [hcount, hservers]
    exact hshape.count_le
  · rw [hcount, hservers]
    intro i server hi hserver
    exact (hshape.serves i server hi hserver).of_tables (fun table _ => by rw [htables]) hid
  · rw [hcount, hservers]
    exact hshape.vacant
  · rw [hcount, hservers]
    exact hshape.id_inj
  · rw [hservers]
    exact hshape.conns_inj
  · rw [htables, hnext]
    exact hshape.table_lt
  · intro table j connection hconn
    rw [hconn?] at hconn
    rw [hservers]
    exact hshape.owned table j connection hconn

theorem lt_serversCount (hshape : Shape loop)
    (hserver : loop.servers[i]? = some server) (hconns : server.conns = some table) :
    i < loop.serversCount := by
  by_contra hge
  rw [hshape.vacant i server (by omega) hserver] at hconns
  cases hconns

theorem Serves.held_eq (h : Serves loop server) : server.held = some server.listenFd := by
  rw [UsServer.held, if_pos h.kind_eq]

theorem holds_conn_eq_some {j : ℕ} {fd : ℤ} :
    loop.directory.holds (.conn table j) = some fd ↔ ∃ connection : UsConn,
      loop.conn? table j = some connection ∧ connection.kind = usKindConn ∧ connection.fd = fd := by
  rw [holds_conn, Option.bind_eq_some_iff]
  refine exists_congr fun connection => and_congr_right fun _ => ?_
  rw [UsConn.held]
  split
  case isTrue hkind => simp [hkind]
  case isFalse hkind => simp [hkind]

/-- The taken slots of `m_servers`. -/
theorem holds_server_eq_some (hshape : Shape loop) {fd : ℤ} :
    loop.directory.holds (.server i) = some fd ↔ ∃ server : UsServer, i < loop.serversCount ∧
      loop.servers[i]? = some server ∧ server.listenFd = fd := by
  rw [holds_server, Option.bind_eq_some_iff]
  refine exists_congr fun server => ?_
  constructor
  · rintro ⟨hserver, hheld⟩
    rcases Nat.lt_or_ge i loop.serversCount with hlt | hge
    · rw [(hshape.serves i server hlt hserver).held_eq] at hheld
      exact ⟨hlt, hserver, Option.some.inj hheld⟩
    · rw [hshape.vacant i server hge hserver] at hheld
      cases hheld
  · rintro ⟨hlt, hserver, rfl⟩
    exact ⟨hserver, (hshape.serves i server hlt hserver).held_eq⟩

theorem SameRecords.slotsBy_eq (h : SameRecords loop loop') (g : UsConn → Option ℤ) :
    loop'.slotsBy g = loop.slotsBy g := by
  funext slot
  cases slot with
  | server i => rw [slotsBy_server, slotsBy_server, h.servers_eq]
  | conn table j => rw [slotsBy_conn, slotsBy_conn, conn?, conn?, h.tables_eq]

theorem SameRecords.holds_eq (h : SameRecords loop loop') :
    loop'.directory.holds = loop.directory.holds := by
  rw [directory_holds, directory_holds, h.slotsBy_eq]

theorem Owns.filled (hshape : Shape loop) (h : Owns loop i table server conns) :
    conns.length = server.connsCap ∧ server.connsCount ≤ server.connsCap ∧
      Filled conns server.connsCount := by
  have hserves := hshape.serves i server h.lt h.server_eq
  obtain ⟨conns', htable, hlength, hfilled⟩ := hserves.filled table h.conns_eq
  rw [h.table_eq] at htable
  cases htable
  exact ⟨hlength, hserves.count_le, hfilled⟩

theorem Owns.conns_ne (hshape : Shape loop) (h : Owns loop i table server conns) {i' : ℕ}
    {server' : UsServer} (hi' : i' ≠ i) (hserver' : loop.servers[i']? = some server') :
    server'.conns ≠ some table := fun hconns' =>
  hi' (hshape.conns_inj i' i server' server table hserver' h.server_eq hconns' h.conns_eq)

theorem Retables.getElem?_servers (h : Retables loop loop' i table server conns' n)
    (howns : Owns loop i table server conns) (i' : ℕ) :
    loop'.servers[i']? =
      if i' = i then some { server with connsCount := n } else loop.servers[i']? := by
  rw [h.servers_eq, List.getElem?_set]
  have hlt := (List.getElem?_eq_some_iff.mp howns.server_eq).1
  rcases eq_or_ne i' i with rfl | hne
  · rw [if_pos rfl, if_pos rfl, if_pos hlt]
  · rw [if_neg hne.symm, if_neg hne]

theorem Retables.getElem?_servers_cases (h : Retables loop loop' i table server conns' n)
    (howns : Owns loop i table server conns) {i' : ℕ} {server' : UsServer}
    (hserver' : loop'.servers[i']? = some server') :
    (i' = i ∧ server' = { server with connsCount := n }) ∨
      (i' ≠ i ∧ loop.servers[i']? = some server') := by
  rw [h.getElem?_servers howns] at hserver'
  split at hserver'
  case isTrue hi => exact Or.inl ⟨hi, (Option.some.inj hserver').symm⟩
  case isFalse hi => exact Or.inr ⟨hi, hserver'⟩

theorem Retables.conn?_eq (h : Retables loop loop' i table server conns' n) (table' j : ℕ) :
    loop'.conn? table' j = if table' = table then conns'[j]? else loop.conn? table' j := by
  rw [conn?, conn?, h.tables_eq]
  split
  case isTrue heq => rw [heq, update_self, Option.bind_some]
  case isFalse hne => rw [update_of_ne hne]

theorem Shape.table_lt_update (hshape : Shape loop) (htable : loop.tables table = some conns)
    {table' : ℕ} (h : update loop.tables table (some conns') table' ≠ none) :
    table' < loop.nextTable := by
  rcases eq_or_ne table' table with rfl | hne
  · refine hshape.table_lt table' ?_
    rw [htable]
    exact Option.some_ne_none _
  · rw [update_of_ne hne] at h
    exact hshape.table_lt table' h

theorem Retables.serves_self (h : Retables loop loop' i table server conns' n)
    (hshape : Shape loop) (howns : Owns loop i table server conns)
    (hlength : conns'.length = conns.length) (hn : n ≤ server.connsCap)
    (hfilled : Filled conns' n) :
    Serves loop' { server with connsCount := n } := by
  have hserves := hshape.serves i server howns.lt howns.server_eq
  refine ⟨hserves.kind_eq, hserves.active_eq, hserves.listenFd_nonneg, ?_, hn, ?_, ?_⟩
  · rw [h.nextServerId_eq]
    exact hserves.id_lt
  · intro hnone
    exact absurd (howns.conns_eq.symm.trans hnone) (Option.some_ne_none _)
  · intro table' htable'
    obtain rfl : table = table' := Option.some.inj (howns.conns_eq.symm.trans htable')
    refine ⟨conns', ?_, hlength.trans (howns.filled hshape).1, hfilled⟩
    rw [h.tables_eq, update_self]

/-- The servers other than the one whose table is written are as they were, and so is that
one, its count apart. -/
theorem Retables.record_eq (h : Retables loop loop' i table server conns' n)
    (howns : Owns loop i table server conns) {i' : ℕ} {server' : UsServer}
    (hserver' : loop'.servers[i']? = some server') :
    ∃ server₀ : UsServer, loop.servers[i']? = some server₀ ∧
      server'.serverId = server₀.serverId ∧ server'.conns = server₀.conns := by
  rcases h.getElem?_servers_cases howns hserver' with ⟨rfl, rfl⟩ | ⟨-, hsame⟩
  · exact ⟨server, howns.server_eq, rfl, rfl⟩
  · exact ⟨server', hsame, rfl, rfl⟩

theorem Retables.owned (h : Retables loop loop' i table server conns' n) (hshape : Shape loop)
    (howns : Owns loop i table server conns) {table' j : ℕ} {connection : UsConn}
    (hconn : loop'.conn? table' j = some connection) (hkind : connection.kind = usKindConn) :
    ∃ (i' : ℕ) (server' : UsServer), loop'.servers[i']? = some server' ∧
      server'.conns = some table' := by
  rw [h.conn?_eq] at hconn
  obtain ⟨i', server', hserver', hconns'⟩ : ∃ (i' : ℕ) (server' : UsServer),
      loop.servers[i']? = some server' ∧ server'.conns = some table' := by
    split at hconn
    case isTrue heq =>
      rw [heq]
      exact ⟨i, server, howns.server_eq, howns.conns_eq⟩
    case isFalse => exact hshape.owned table' j connection hconn hkind
  have hget := h.getElem?_servers howns i'
  split at hget
  case isTrue heq =>
    rw [heq, howns.server_eq] at hserver'
    cases hserver'
    exact ⟨i', _, hget, hconns'⟩
  case isFalse => exact ⟨i', server', hget.trans hserver', hconns'⟩

theorem Retables.shape (h : Retables loop loop' i table server conns' n) (hshape : Shape loop)
    (howns : Owns loop i table server conns) (hlength : conns'.length = conns.length)
    (hn : n ≤ server.connsCap) (hfilled : Filled conns' n) : Shape loop' := by
  refine ⟨?_, ?_, ?_, ?_, ?_, ?_, ?_⟩
  · rw [h.serversCount_eq, h.servers_eq, List.length_set]
    exact hshape.count_le
  · rw [h.serversCount_eq]
    intro i' server' hi' hserver'
    rcases h.getElem?_servers_cases howns hserver' with ⟨rfl, rfl⟩ | ⟨hne, hsame⟩
    · exact h.serves_self hshape howns hlength hn hfilled
    · refine (hshape.serves i' server' hi' hsame).of_tables (fun table' htable' => ?_)
        h.nextServerId_eq.ge
      have htables : table' ≠ table := by
        rintro rfl
        exact howns.conns_ne hshape hne hsame htable'
      rw [h.tables_eq, update_of_ne htables]
  · rw [h.serversCount_eq]
    intro i' server' hi' hserver'
    rcases h.getElem?_servers_cases howns hserver' with ⟨rfl, -⟩ | ⟨-, hsame⟩
    · exact absurd howns.lt (by omega)
    · exact hshape.vacant i' server' hi' hsame
  · rw [h.serversCount_eq]
    intro i₁ i₂ server₁ server₂ hi₁ hi₂ hserver₁ hserver₂ hid
    obtain ⟨server₁', hserver₁', hid₁, -⟩ := h.record_eq howns hserver₁
    obtain ⟨server₂', hserver₂', hid₂, -⟩ := h.record_eq howns hserver₂
    exact hshape.id_inj i₁ i₂ server₁' server₂' hi₁ hi₂ hserver₁' hserver₂'
      (hid₁.symm.trans (hid.trans hid₂))
  · intro i₁ i₂ server₁ server₂ table' hserver₁ hserver₂ hconns₁ hconns₂
    obtain ⟨server₁', hserver₁', -, hc₁⟩ := h.record_eq howns hserver₁
    obtain ⟨server₂', hserver₂', -, hc₂⟩ := h.record_eq howns hserver₂
    exact hshape.conns_inj i₁ i₂ server₁' server₂' table' hserver₁' hserver₂'
      (hc₁.symm.trans hconns₁) (hc₂.symm.trans hconns₂)
  · intro table' htable'
    rw [h.tables_eq] at htable'
    rw [h.nextTable_eq]
    exact hshape.table_lt_update howns.table_eq htable'
  · exact fun table' j connection hconn hkind => h.owned hshape howns hconn hkind

theorem Retables.slotsBy_server (h : Retables loop loop' i table server conns' n)
    (howns : Owns loop i table server conns) (g : UsConn → Option ℤ) (i' : ℕ) :
    loop'.slotsBy g (.server i') = loop.slotsBy g (.server i') := by
  rw [UsLoop.slotsBy_server, UsLoop.slotsBy_server, h.getElem?_servers howns]
  split
  case isTrue hi =>
    rw [hi, howns.server_eq]
    rfl
  case isFalse => rfl

end Records

end UsLoop

end Server

end ConArtist
