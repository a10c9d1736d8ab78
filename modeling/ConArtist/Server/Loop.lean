import Mathlib.Data.List.Basic
import Mathlib.Logic.Function.Basic
import ConArtist.Server.Receive

/-!
# The event loop

The model of `us_loop` and of the functions of `unix_socket_server.cpp` that open,
close and serve its servers and connections, together with what the kernel knows of
their descriptors: which are open, and under which slot each is registered with the
kqueue.

What the kernel answers is part of an action: descriptors it hands out, calls it
refuses, what `read` and `accept` meet. Callbacks are observed and not entered. A call
has no result (`none`) when the source would use a null or dangling pointer, write
outside an array or overflow an `i32`, and when the kernel would hand out a descriptor
that is open already.
-/

namespace ConArtist

namespace Server

open Function

def usKindServer : UInt32 := 0x53525652

def usKindConn : UInt32 := 0x434F4E4E

def usServerConnCap : ℕ := 64

def usLoopServerCap : ℕ := 32

/-- The address of a slot of `m_servers` or of a connection table. Connection tables
are numbered in the order of their allocation. -/
inductive Slot where
  | server (i : ℕ)
  | conn (table j : ℕ)
  deriving DecidableEq

/-- `us_server`. Callbacks are function pointers, `none` where null. -/
structure UsServer where
  kind : UInt32
  serverId : ℤ
  listenFd : ℤ
  ip : UInt32
  port : UInt16
  type : UInt8
  active : Bool
  recvBufSize : UInt32
  onMsg : Option ℕ
  onConnect : Option ℕ
  onDisconnect : Option ℕ
  user : ℕ
  conns : Option ℕ
  connsCount : ℕ
  connsCap : ℕ

/-- A `us_conn` after `memset`. -/
def zeroConn : UsConn := ⟨0, 0, none, .null, 0, 0⟩

/-- A `us_server` after `memset`. -/
def zeroServer : UsServer := ⟨0, 0, 0, 0, 0, 0, false, 0, none, none, none, 0, none, 0, 0⟩

/-- What a call does that others can see. -/
inductive Effect where
  | accepts (fd : ℤ)
  | reads (fd : ℤ)
  | closes (fd : ℤ)
  | connect (fn : ℕ) (serverId fd : ℤ) (user : ℕ)
  | message (fn : ℕ) (serverId fd : ℤ) (data : List UInt8) (user : ℕ)
  | disconnect (fn : ℕ) (client : Slot) (user : ℕ)

/-- The call of `m_on_connect` for a client, if there is one. -/
def connects (server : UsServer) (fd : ℤ) : List Effect :=
  match server.onConnect with
  | some fn => [.connect fn server.serverId fd server.user]
  | none => []

/-- The call of `m_on_disconnect` for a client, if there is one. -/
def disconnects (server : UsServer) (client : Slot) : List Effect :=
  match server.onDisconnect with
  | some fn => [.disconnect fn client server.user]
  | none => []

/-- `us_loop`, the connection tables its servers point to, the descriptors of the
process and the kqueue. -/
structure UsLoop where
  nextServerId : ℤ
  servers : List UsServer
  serversCount : ℕ
  serversCap : ℕ
  tables : ℕ → Option (List UsConn)
  nextTable : ℕ
  isOpen : ℤ → Bool
  registered : ℤ → Option Slot
  log : List Effect

/-- `us_loop_create`. -/
def usLoopCreate : UsLoop where
  nextServerId := 1
  servers := List.replicate usLoopServerCap zeroServer
  serversCount := 0
  serversCap := usLoopServerCap
  tables := fun _ => none
  nextTable := 0
  isOpen := fun _ => false
  registered := fun _ => none
  log := []

namespace UsLoop

def emit (loop : UsLoop) (effects : List Effect) : UsLoop :=
  { loop with log := loop.log ++ effects }

def setServer (loop : UsLoop) (i : ℕ) (server : UsServer) : UsLoop :=
  { loop with servers := loop.servers.set i server }

def setConns (loop : UsLoop) (table : ℕ) (conns : List UsConn) : UsLoop :=
  { loop with tables := update loop.tables table (some conns) }

/-- `kq_add_read`. The kernel knows open descriptors only. -/
def kqAddRead (loop : UsLoop) (granted : Bool) (fd : ℤ) (udata : Slot) : Bool × UsLoop :=
  if granted && loop.isOpen fd then
    (true, { loop with registered := update loop.registered fd (some udata) })
  else (false, loop)

/-- `kq_del_read`. -/
def kqDelRead (loop : UsLoop) (fd : ℤ) : UsLoop :=
  { loop with registered := update loop.registered fd none }

/-- A descriptor the kernel hands out. -/
def openFd (loop : UsLoop) (fd : ℤ) : UsLoop :=
  { loop with isOpen := update loop.isOpen fd true }

/-- `close`. The kernel drops the registration of the descriptor. -/
def closeFd (loop : UsLoop) (fd : ℤ) : UsLoop :=
  { loop with
    isOpen := update loop.isOpen fd false
    registered := update loop.registered fd none
    log := loop.log ++ [.closes fd] }

/-- `kq_del_read` and `kq_add_read`, whatever they return, for a record that moved. -/
def kqMove (loop : UsLoop) (granted : Bool) (fd : ℤ) (udata : Slot) : UsLoop :=
  ((loop.kqDelRead fd).kqAddRead granted fd udata).2

/-- `close_conn`. `granted` is the answer to the registration of the moved record. -/
def closeConn (loop : UsLoop) (granted : Bool) (i idx : ℕ) : Option UsLoop := do
  let server ← loop.servers[i]?
  let table ← server.conns
  let conns ← loop.tables table
  let connection ← conns[idx]?
  let loop :=
    if 0 ≤ connection.fd then (loop.kqDelRead connection.fd).closeFd connection.fd else loop
  let loop := loop.emit (disconnects server (.conn table idx))
  match connection.buf, server.connsCount with
  | .freed, _ => none
  | _, 0 => none
  | _, last + 1 =>
      let moved ← conns[last]?
      let loop := if idx ≠ last then loop.kqMove granted moved.fd (.conn table idx) else loop
      let conns := (if idx ≠ last then conns.set idx moved else conns).set last zeroConn
      some ((loop.setConns table conns).setServer i { server with connsCount := last })

/-- What `accept` meets next. For a client: its descriptor, whether the descriptor
flags can be set, the buffer allocated and the descriptor registered. -/
inductive Accepted where
  | client (fd : ℤ) (flagsOk bufOk kqOk : Bool)
  | again
  | intr
  | fail

/-- The record of a client that `accept_new_clients` takes. -/
def newConn (server : UsServer) (i : ℕ) (fd : ℤ) (bufOk : Bool) : UsConn where
  kind := usKindConn
  fd := fd
  server := some i
  buf := if bufOk then .block (List.replicate server.recvBufSize.toNat 0) else .null
  cap := server.recvBufSize
  used := 0

/-- The body of the loop of `accept_new_clients` once `accept` gave a descriptor. -/
def acceptClient (loop : UsLoop) (i : ℕ) (fd : ℤ) (flagsOk bufOk kqOk : Bool) :
    Option UsLoop :=
  if fd < 0 ∨ loop.isOpen fd = true then none
  else do
    let loop := (loop.openFd fd).emit [.accepts fd]
    if flagsOk = false then some (loop.closeFd fd)
    else
      let server ← loop.servers[i]?
      if server.connsCap ≤ server.connsCount then some (loop.closeFd fd)
      else
        let table ← server.conns
        let conns ← loop.tables table
        let j := server.connsCount
        if conns.length ≤ j then none
        else
          let loop := (loop.setConns table (conns.set j (newConn server i fd bufOk))).setServer i
            { server with connsCount := j + 1 }
          if bufOk = false then loop.closeConn false i j
          else
            match loop.kqAddRead kqOk fd (.conn table j) with
            | (false, loop) => loop.closeConn false i j
            | (true, loop) => some (loop.emit (connects server fd))

/-- `accept_new_clients`. When no more is to be met, `accept` would block. -/
def acceptNewClients (i : ℕ) : UsLoop → List Accepted → Option (ℤ × UsLoop)
  | loop, [] => some (0, loop)
  | loop, .client fd flagsOk bufOk kqOk :: meets => do
      let loop ← loop.acceptClient i fd flagsOk bufOk kqOk
      acceptNewClients i loop meets
  | loop, .again :: _ => some (0, loop)
  | loop, .intr :: meets => acceptNewClients i loop meets
  | loop, .fail :: _ => some (-1, loop)

/-- `find_server_by_id`: the index of the server. -/
def findServerById (loop : UsLoop) (serverId : ℤ) : Option ℕ :=
  (loop.servers.take loop.serversCount).findIdx? fun server =>
    server.active && server.serverId == serverId

end UsLoop

/-- The arguments of `us_server_create`. -/
structure CreateArgs where
  type : UInt8
  ip : UInt32
  port : UInt16
  recvBufSize : UInt64
  onMsg : Option ℕ
  onConnect : Option ℕ
  onDisconnect : Option ℕ
  user : ℕ

/-- What `us_server_create` meets: the descriptor `socket` gives, and whether the other
calls succeed. -/
structure CreateMeets where
  socket : Option ℤ
  flagsOk : Bool
  bindOk : Bool
  listenOk : Bool
  connsOk : Bool
  kqOk : Bool

namespace UsLoop

/-- The record that `us_server_create` fills in. -/
def newServer (loop : UsLoop) (args : CreateArgs) (fd : ℤ) (conns : Option ℕ) : UsServer where
  kind := usKindServer
  serverId := loop.nextServerId
  listenFd := fd
  ip := args.ip
  port := args.port
  type := args.type
  active := true
  recvBufSize := args.recvBufSize.toUInt32
  onMsg := args.onMsg
  onConnect := args.onConnect
  onDisconnect := args.onDisconnect
  user := args.user
  conns := conns
  connsCount := 0
  connsCap := usServerConnCap

/-- `g_allocate_array_and_clear` of a connection table, which may fail. -/
def allocConns (loop : UsLoop) (ok : Bool) : Option ℕ × UsLoop :=
  (if ok then some loop.nextTable else none,
    { loop with
      tables :=
        if ok then
          update loop.tables loop.nextTable (some (List.replicate usServerConnCap zeroConn))
        else loop.tables
      nextTable := if ok then loop.nextTable + 1 else loop.nextTable })

/-- `us_server_create` from the place where the socket listens. -/
def addServer (loop : UsLoop) (args : CreateArgs) (fd : ℤ) (connsOk kqOk : Bool) :
    Option (ℤ × UsLoop) :=
  let i := loop.serversCount
  if loop.servers.length ≤ i ∨ 2147483647 ≤ loop.nextServerId then none
  else
    let server := loop.newServer args fd (loop.allocConns connsOk).1
    let loop := (loop.allocConns connsOk).2
    let loop :=
      { loop.setServer i server with
        serversCount := i + 1
        nextServerId := loop.nextServerId + 1 }
    match loop.kqAddRead kqOk fd (.server i) with
    | (true, loop) => some (server.serverId, loop)
    | (false, loop) =>
        some (-1, { (loop.closeFd fd).setServer i zeroServer with serversCount := i })

/-- `us_server_create`. -/
def usServerCreate (loop : UsLoop) (args : CreateArgs) (meets : CreateMeets) :
    Option (ℤ × UsLoop) :=
  if args.onMsg = none ∨ args.recvBufSize = 0 then some (-1, loop)
  else if args.type ≠ 0 ∧ args.type ≠ 1 then some (-1, loop)
  else if loop.serversCap ≤ loop.serversCount then some (-1, loop)
  else
    match meets.socket with
    | none => some (-1, loop)
    | some fd =>
        if fd < 0 ∨ loop.isOpen fd = true then none
        else if meets.flagsOk && meets.bindOk && meets.listenOk then
          (loop.openFd fd).addServer args fd meets.connsOk meets.kqOk
        else some (-1, (loop.openFd fd).closeFd fd)

/-- `while (server->m_conns_count > 0) close_conn(loop, server, server->m_conns_count - 1);`
with the count `n`, which each call takes down by one. -/
def closeConns (i : ℕ) : ℕ → UsLoop → Option UsLoop
  | 0, loop => some loop
  | n + 1, loop => (loop.closeConn false i n).bind (closeConns i n)

/-- `g_deallocate_array` of a connection table. -/
def freeConns (loop : UsLoop) (conns : Option ℕ) : UsLoop :=
  { loop with
    tables :=
      match conns with
      | some table => update loop.tables table none
      | none => loop.tables }

/-- `us_server_close` from the place where the connections are closed: the last
server moves into the slot. -/
def removeServer (loop : UsLoop) (granted : Bool) (idx : ℕ) : Option UsLoop := do
  let server ← loop.servers[idx]?
  let loop := loop.freeConns server.conns
  let loop :=
    if 0 ≤ server.listenFd then (loop.kqDelRead server.listenFd).closeFd server.listenFd
    else loop
  match loop.serversCount with
  | 0 => none
  | last + 1 =>
      let moved ← loop.servers[last]?
      let loop := loop.setServer idx zeroServer
      let loop :=
        if idx ≠ last then
          (loop.setServer idx moved).kqMove granted moved.listenFd (.server idx)
        else loop
      some { loop.setServer last zeroServer with serversCount := last }

/-- `us_server_close`. -/
def usServerClose (loop : UsLoop) (serverId : ℤ) (granted : Bool) : Option (ℤ × UsLoop) :=
  match loop.findServerById serverId with
  | none => some (-1, loop)
  | some idx => do
      let server ← loop.servers[idx]?
      let loop ← closeConns idx server.connsCount loop
      let loop ← loop.removeServer granted idx
      some (0, loop)

/-- `for (i = 0; i < server->m_conns_count; ++i) if (server->m_conns[i].m_fd == client_fd)`. -/
def findConnByFd (loop : UsLoop) (server : UsServer) (clientFd : ℤ) : Option ℕ :=
  (((server.conns.bind loop.tables).getD []).take server.connsCount).findIdx? fun connection =>
    connection.fd == clientFd

/-- `us_client_close`. -/
def usClientClose (loop : UsLoop) (serverId clientFd : ℤ) (granted : Bool) :
    Option (ℤ × UsLoop) :=
  match loop.findServerById serverId with
  | none => some (-1, loop)
  | some i => do
      let server ← loop.servers[i]?
      match loop.findConnByFd server clientFd with
      | none => some (-1, loop)
      | some idx => do
          let loop ← loop.closeConn granted i idx
          some (0, loop)

end UsLoop

/-- An event that `kevent` returned: the descriptor that raised it, `udata`, `EV_EOF`,
and what the calls that handle it meet. The filter is `EVFILT_READ`, the only one that
is ever registered. -/
structure Event where
  ident : ℤ
  udata : Option Slot
  eof : Bool
  arrivals : List Arrival
  accepted : List UsLoop.Accepted
  granted : Bool

namespace UsLoop

/-- The messages of a call of `read_from_client`, dispatched. -/
def dispatch (loop : UsLoop) (connection : UsConn) (messages : List (List UInt8)) :
    Option UsLoop :=
  if messages.isEmpty then some loop
  else do
    let i ← connection.server
    let server ← loop.servers[i]?
    let fn ← server.onMsg
    some (loop.emit (messages.map fun data =>
      .message fn server.serverId connection.fd data server.user))

/-- `read_from_client` on the record of a slot. -/
def readConn (loop : UsLoop) (table j : ℕ) (conns : List UsConn) (connection : UsConn)
    (arrivals : List Arrival) : Option (ℤ × UsConn × UsLoop) := do
  let (out, connection) ← readFromClient connection arrivals
  match out.exit with
  | .returns rc =>
      let loop := (loop.emit [.reads connection.fd]).setConns table (conns.set j connection)
      let loop ← loop.dispatch connection out.messages
      some (rc, connection, loop)
  | _ => none

/-- The end of a connection in `us_loop_run`. `server->m_conns[k] == connection` holds of
`k = j` in the table of the slot only. -/
def endConn (loop : UsLoop) (table j : ℕ) (connection : UsConn) (granted : Bool) :
    Option UsLoop := do
  let i ← connection.server
  let server ← loop.servers[i]?
  if server.conns = some table ∧ j < server.connsCount then loop.closeConn granted i j
  else
    let loop := (loop.kqDelRead connection.fd).closeFd connection.fd
    match connection.buf with
    | .freed => none
    | .null => some loop
    | .block _ =>
        let conns ← loop.tables table
        some (loop.setConns table (conns.set j { connection with buf := .freed }))

/-- The body of the loop of `us_loop_run`. -/
def handleEvent (loop : UsLoop) (event : Event) : Option UsLoop :=
  match event.udata with
  | none => some loop
  | some (.server i) => do
      let server ← loop.servers[i]?
      if server.kind = usKindServer then (loop.acceptNewClients i event.accepted).map Prod.snd
      else some loop
  | some (.conn table j) => do
      let conns ← loop.tables table
      let connection ← conns[j]?
      if connection.kind = usKindConn then
        if event.eof then loop.endConn table j connection event.granted
        else
          let (rc, connection, loop) ← loop.readConn table j conns connection event.arrivals
          if rc < 0 then loop.endConn table j connection event.granted else some loop
      else some loop

end UsLoop

/-- What can happen to a loop: a call of its functions, or an event that `us_loop_run`
comes to. -/
inductive Action where
  | create (args : CreateArgs) (meets : CreateMeets)
  | clientClose (serverId clientFd : ℤ) (granted : Bool)
  | serverClose (serverId : ℤ) (granted : Bool)
  | event (event : Event)

def loopStep (loop : UsLoop) : Action → Option UsLoop
  | .create args meets => (loop.usServerCreate args meets).map Prod.snd
  | .clientClose serverId clientFd granted =>
      (loop.usClientClose serverId clientFd granted).map Prod.snd
  | .serverClose serverId granted => (loop.usServerClose serverId granted).map Prod.snd
  | .event event => loop.handleEvent event

end Server

end ConArtist
