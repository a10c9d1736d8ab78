import ConArtist.Foundation.Ledger
import ConArtist.Server.Leftover
import ConArtist.Server.Tracking

/-!
# The descriptors of a loop

Descriptors come from `accept` and from `socket`, in `us_server_create` and in `us_broadcast`, and
they go with `close`. A ledger of them can be kept over every run: none is read from or closed that
is not open, and the ones that are open are those of the servers and of the connections in the
slots whose record is not closed. So nothing is open any more once the loop is destroyed, and each
descriptor was closed as often as the kernel handed it out.

A run has a result only while no record is closed a second time. As long as `us_server_close` moves
no server with connections the slots have no closed record, and every call that closes comes to its
end; after such a move a record can be left behind, and is closed again when its server is.
-/

namespace ConArtist

namespace Server

open Function Machine

/-- The descriptor that comes, is used or goes with an effect. -/
def Effect.entry : Effect → Option (Ledger.Entry ℤ)
  | .accepts fd => some (.acquire fd)
  | .reads fd => some (.use fd)
  | .closes fd => some (.release fd)
  | _ => none

def entries (effects : List Effect) : List (Ledger.Entry ℤ) := effects.filterMap Effect.entry

/-- What `us_broadcast` meets: the descriptor `socket` gives, and whether the other calls
succeed. -/
structure BroadcastMeets where
  socket : Option ℤ
  cloexecOk : Bool
  sendOk : Bool

theorem entries_append (effects effects' : List Effect) :
    entries (effects ++ effects') = entries effects ++ entries effects' :=
  List.filterMap_append

theorem entries_cons {e : Effect} {entry : Ledger.Entry ℤ} (h : e.entry = some entry)
    (effects : List Effect) : entries (e :: effects) = entry :: entries effects :=
  List.filterMap_cons_some h

theorem entries_eq_nil {effects : List Effect} (h : ∀ e ∈ effects, e.entry = none) :
    entries effects = [] :=
  List.filterMap_eq_nil_iff.mpr h

theorem entry_of_isCallback {e : Effect} (h : e.isCallback = true) : e.entry = none := by
  cases e with
  | accepts | reads | closes => cases h
  | connect | message | disconnect => rfl

namespace UsLoop

/-- `us_broadcast`. The address is not followed; the data may be null. -/
def usBroadcast (loop : UsLoop) (data : Option (List UInt8)) (meets : BroadcastMeets) :
    Option (ℤ × UsLoop) :=
  if data = none then some (-1, loop)
  else
    match meets.socket with
    | none => some (-1, loop)
    | some fd =>
        if fd < 0 ∨ loop.isOpen fd = true then none
        else if meets.cloexecOk = false then some (-1, (loop.openFd fd).closeFd fd)
        else some (if meets.sendOk then 0 else -1, (loop.openFd fd).closeFd fd)

/-- The descriptor that `us_server_create` gets from `socket`, if it comes to that. -/
def createSocket (loop : UsLoop) (args : CreateArgs) (meets : CreateMeets) : Option ℤ :=
  if args.onMsg = none ∨ args.recvBufSize = 0 then none
  else if args.type ≠ 0 ∧ args.type ≠ 1 then none
  else if loop.serversCap ≤ loop.serversCount then none
  else meets.socket

/-- The same of an action. -/
def actionSocket (loop : UsLoop) : Action → Option ℤ
  | .create args meets => loop.createSocket args meets
  | _ => none

/-- The open descriptors are those in the slots. -/
def OpenOwned (loop : UsLoop) : Prop :=
  ∀ fd, loop.isOpen fd = true → ∃ s, loop.slotsBy UsConn.owned s = some fd

/-- A step after which the open descriptors are those in the slots, and whose ledger begins with
the sockets that were made. -/
structure Books (loop loop' : UsLoop) (sockets : List ℤ) : Prop where
  openOwned : loop'.OpenOwned
  ledger : ∃ effects, loop'.log = loop.log ++ effects ∧
    run Ledger.step loop.isOpen (sockets.map .acquire ++ entries effects) = some loop'.isOpen

section Books

variable {loop loop' : UsLoop} {sockets : List ℤ} {s last : Slot} {fd : ℤ}
  {effects : List Effect}

theorem Books.refl (h : loop.OpenOwned) : Books loop loop [] :=
  ⟨h, [], (List.append_nil _).symm, rfl⟩

theorem Books.trans {loop₁ : UsLoop} (h : Books loop loop₁ sockets) (h' : Books loop₁ loop' []) :
    Books loop loop' sockets := by
  obtain ⟨effects, hlog, hledger⟩ := h.ledger
  obtain ⟨effects', hlog', hledger'⟩ := h'.ledger
  refine ⟨h'.openOwned, effects ++ effects', ?_, ?_⟩
  · rw [hlog', hlog, List.append_assoc]
  · rw [entries_append, ← List.append_assoc]
    exact Ledger.run_append_of_run hledger hledger'

theorem Books.of_same (h : loop.OpenOwned) (hlog : loop'.log = loop.log ++ effects)
    (hisOpen : loop'.isOpen = loop.isOpen)
    (hledger : run Ledger.step loop.isOpen (sockets.map .acquire ++ entries effects) =
      some loop.isOpen)
    (hslots : loop'.slotsBy UsConn.owned = loop.slotsBy UsConn.owned) :
    Books loop loop' sockets := by
  refine ⟨?_, effects, hlog, by rw [hledger, hisOpen]⟩
  rw [OpenOwned, hisOpen, hslots]
  exact h

theorem Books.of_insert (h : loop.OpenOwned) (hvacant : loop.slotsBy UsConn.owned s = none)
    (hlog : loop'.log = loop.log ++ effects)
    (hisOpen : loop'.isOpen = update loop.isOpen fd true)
    (hledger : run Ledger.step loop.isOpen (sockets.map .acquire ++ entries effects) =
      some (update loop.isOpen fd true))
    (hslots : loop'.slotsBy UsConn.owned = update (loop.slotsBy UsConn.owned) s (some fd)) :
    Books loop loop' sockets := by
  refine ⟨fun k hk => ?_, effects, hlog, by rw [hledger, hisOpen]⟩
  rw [hslots]
  rcases eq_or_ne k fd with rfl | hne
  · exact ⟨s, update_self _ _ _⟩
  · rw [hisOpen, update_of_ne hne] at hk
    obtain ⟨t, ht⟩ := h k hk
    have hts : t ≠ s := by
      rintro rfl
      cases hvacant.symm.trans ht
    exact ⟨t, (update_of_ne hts _ _).trans ht⟩

/-- The descriptor in a slot is closed, and the last one moves into its place. -/
theorem Books.of_swapRemove (h : loop.OpenOwned) (hs : loop.slotsBy UsConn.owned s = some fd)
    (hopen : loop.isOpen fd = true) (hlog : loop'.log = loop.log ++ effects)
    (hentries : entries effects = [.release fd])
    (hisOpen : loop'.isOpen = update loop.isOpen fd false)
    (hslots : loop'.slotsBy UsConn.owned = update (update (loop.slotsBy UsConn.owned) s
      (loop.slotsBy UsConn.owned last)) last none) : Books loop loop' [] := by
  refine ⟨fun k hk => ?_, effects, hlog, ?_⟩
  · have hne : k ≠ fd := by
      rintro rfl
      rw [hisOpen, update_self] at hk
      cases hk
    rw [hisOpen, update_of_ne hne] at hk
    obtain ⟨t, ht⟩ := h k hk
    have hts : t ≠ s := by
      rintro rfl
      exact hne (Option.some.inj (ht.symm.trans hs))
    rw [hslots]
    rcases eq_or_ne t last with rfl | htl
    · refine ⟨s, ?_⟩
      rw [update_of_ne hts.symm, update_self]
      exact ht
    · refine ⟨t, ?_⟩
      rw [update_of_ne htl, update_of_ne hts]
      exact ht
  · rw [hentries, hisOpen, List.map_nil, List.nil_append, run_cons, Ledger.step_release hopen]
    rfl

end Books

section Steps

variable {loop loop' : UsLoop} {i idx table last j : ℕ} {server : UsServer} {conns : List UsConn}
  {connection moved : UsConn} {granted : Bool} {fd : ℤ}

theorem Follows.books_closes (h : Follows loop) (hopened : loop.OpenOwned)
    (hidx : idx < server.connsCount)
    (hcloses : Closes loop loop' granted i idx table last server conns connection moved) :
    Books loop loop' [] := by
  have howns := hcloses.owns
  have hkind := ((howns.filled h.sound.toShape).2.2.taken idx connection hidx hcloses.conn_eq).1
  have hs : loop.slotsBy UsConn.owned (.conn table idx) = some connection.fd := by
    rw [slotsBy_conn, conn?_of_table howns.table_eq, hcloses.conn_eq, Option.bind_some,
      UsConn.owned_of_ne hcloses.buf_ne, UsConn.held, if_pos hkind]
  refine .of_swapRemove hopened hs (h.isOpen_of_owned hs) hcloses.log_eq ?_ hcloses.isOpen_eq
    (hcloses.slotsBy_eq rfl)
  rw [entries_cons rfl, entries_eq_nil fun e he =>
    entry_of_isCallback (isCallback_of_mem_disconnects he)]

theorem Follows.books_abandons (h : Follows loop) (hopened : loop.OpenOwned)
    (hbuf : connection.buf ≠ .freed)
    (habandons : Abandons loop loop' table j conns connection
      { connection with buf := .freed }) : Books loop loop' [] := by
  have hrewrites := habandons.rewrites
  have hs : loop.slotsBy UsConn.owned (.conn table j) = some connection.fd := by
    rw [slotsBy_conn, conn?_of_table hrewrites.table_eq, hrewrites.conn_eq, Option.bind_some,
      UsConn.owned_of_ne hbuf, UsConn.held, if_pos hrewrites.kind_eq]
  have hslots : loop'.slotsBy UsConn.owned =
      update (update (loop.slotsBy UsConn.owned) (.conn table j)
        (loop.slotsBy UsConn.owned (.conn table j))) (.conn table j) none := by
    rw [hrewrites.slotsBy_eq, update_idem]
    rfl
  exact .of_swapRemove hopened hs (h.isOpen_of_owned hs) habandons.log_eq rfl
    habandons.isOpen_eq hslots

theorem Follows.books_removes (h : Follows loop) (hopened : loop.OpenOwned) {moved : UsServer}
    (hempty : server.connsCount = 0)
    (hremoves : Removes loop loop' granted idx last server moved) : Books loop loop' [] := by
  have hshape := h.sound.toShape
  have hs : loop.slotsBy UsConn.owned (.server idx) = some server.listenFd := by
    rw [slotsBy_server, hremoves.server_eq]
    exact (hshape.serves idx server hremoves.lt hremoves.server_eq).held_eq
  exact .of_swapRemove hopened hs (h.isOpen_of_owned hs) hremoves.log_eq rfl hremoves.isOpen_eq
    (hremoves.slotsBy_eq rfl hshape hempty)

theorem Follows.books_readConn (h : Follows loop) (hopened : loop.OpenOwned)
    {arrivals : List Arrival} {connection' : UsConn} {rc : ℤ} (htable : loop.tables table = some conns)
    (hconn : conns[j]? = some connection) (hkind : connection.kind = usKindConn)
    (hread : loop.readConn table j conns connection arrivals = some (rc, connection', loop')) :
    Books loop loop' [] := by
  have hreads := readConn_reads htable hconn hkind hread
  obtain ⟨-, ⟨effects, hlog, heffects⟩, out, hcall, -⟩ := readConn_spec htable hconn hkind hread
  obtain ⟨bytes, -, hbuf, -⟩ := readFromClient_buf hcall
  have hs : loop.slotsBy UsConn.owned (.conn table j) = some connection.fd := by
    rw [slotsBy_conn, conn?_of_table htable, hconn, Option.bind_some,
      UsConn.owned_of_ne (by simp [hbuf]), UsConn.held, if_pos hkind]
  refine .of_same hopened hlog hreads.prepares.isOpen_eq ?_ hreads.slotsBy_owned
  have hnil : entries effects = [] := by
    refine entries_eq_nil fun e he => ?_
    obtain ⟨fn, serverId, fd, data, user, rfl⟩ := heffects e he
    rfl
  rw [entries_cons rfl, hnil, List.map_nil, List.nil_append, run_cons,
    Ledger.step_use (h.isOpen_of_owned hs)]
  rfl

theorem Refuses.books (hopened : loop.OpenOwned) (hopen : loop.isOpen fd = false)
    (hrefuses : Refuses loop loop' fd) : Books loop loop' [] := by
  obtain ⟨effects, hlog, hcallbacks⟩ := hrefuses.log_eq
  refine .of_same hopened hlog hrefuses.isOpen_eq ?_ (hrefuses.same.slotsBy_eq _)
  rw [entries_cons rfl, entries_cons rfl,
    entries_eq_nil fun e he => entry_of_isCallback (hcallbacks e he)]
  exact Ledger.run_acquire_release hopen

theorem Takes.books (hopened : loop.OpenOwned) (hshape : Shape loop) (hopen : loop.isOpen fd = false)
    (htakes : Takes loop loop' i table server conns fd) : Books loop loop' [] := by
  have howns := htakes.owns
  have hvacant : loop.slotsBy UsConn.owned (.conn table server.connsCount) = none := by
    rw [slotsBy_conn, conn?_of_table howns.table_eq]
    rcases hget : conns[server.connsCount]? with _ | c
    · rfl
    · rw [(howns.filled hshape).2.2.vacant _ c le_rfl hget]
      rfl
  refine .of_insert hopened hvacant htakes.log_eq htakes.isOpen_eq ?_ (htakes.slotsBy_eq hshape _)
  rw [entries_cons rfl, entries_eq_nil fun e he =>
    entry_of_isCallback (isCallback_of_mem_connects he), List.map_nil, List.nil_append, run_cons,
    Ledger.step_acquire hopen]
  rfl

theorem books_openFd_closeFd (hopened : loop.OpenOwned) (hopen : loop.isOpen fd = false)
    (hisOpen : loop'.isOpen = loop.isOpen) (hlog : loop'.log = loop.log ++ [.closes fd])
    (hslots : loop'.slotsBy UsConn.owned = loop.slotsBy UsConn.owned) : Books loop loop' [fd] :=
  .of_same hopened hlog hisOpen (Ledger.run_acquire_release hopen) hslots

theorem Follows.books_addServer (h : Follows loop) (hopened : loop.OpenOwned) {args : CreateArgs}
    {rc : ℤ} {connsOk kqOk : Bool} (hopen : loop.isOpen fd = false)
    (hadd : (loop.openFd fd).addServer args fd connsOk kqOk = some (rc, loop')) :
    Books loop loop' [fd] := by
  have hshape := h.sound.toShape
  rcases addServer_cases h.sound hopen hadd with ⟨hsame, hisOpen, -, hlog⟩ | ⟨hadds, hlog⟩
  · refine books_openFd_closeFd hopened hopen hisOpen hlog ?_
    rw [hsame.slotsBy_eq, allocConns_slotsBy rfl hshape.table_lt]
  · have hvacant : loop.slotsBy UsConn.owned (.server loop.serversCount) = none := by
      have hget := List.getElem?_eq_getElem hadds.room
      rw [hshape.vacant _ _ le_rfl hget] at hget
      rw [slotsBy_server, hget]
      rfl
    refine .of_insert hopened hvacant (hlog.trans (List.append_nil _).symm) hadds.isOpen_eq ?_
      (hadds.slotsBy_eq rfl hshape)
    rw [List.map_singleton, List.singleton_append, run_cons, Ledger.step_acquire hopen]
    rfl

theorem Follows.books_creates (h : Follows loop) (hopened : loop.OpenOwned) {args : CreateArgs}
    {meets : CreateMeets} {rc : ℤ} (hcreate : loop.usServerCreate args meets = some (rc, loop')) :
    Books loop loop' (loop.createSocket args meets).toList := by
  rw [usServerCreate] at hcreate
  rw [createSocket]
  split at hcreate
  case isTrue hargs =>
    cases hcreate
    rw [if_pos hargs]
    exact .refl hopened
  case isFalse hargs =>
    rw [if_neg hargs]
    split at hcreate
    case isTrue htype =>
      cases hcreate
      rw [if_pos htype]
      exact .refl hopened
    case isFalse htype =>
      rw [if_neg htype]
      split at hcreate
      case isTrue hfull =>
        cases hcreate
        rw [if_pos hfull]
        exact .refl hopened
      case isFalse hfull =>
        rw [if_neg hfull]
        split at hcreate
        case h_1 hnone =>
          cases hcreate
          rw [hnone]
          exact .refl hopened
        case h_2 fd hsome =>
          rw [hsome]
          split at hcreate
          case isTrue => cases hcreate
          case isFalse hnew =>
            obtain ⟨-, hopen⟩ := fresh_of_not hnew
            split at hcreate
            case isTrue => exact h.books_addServer hopened hopen hcreate
            case isFalse =>
              cases hcreate
              exact books_openFd_closeFd hopened hopen (update_open_close hopen) rfl rfl

theorem Follows.books_closeConns {n : ℕ} (h : Follows loop) (hopened : loop.OpenOwned)
    (hi : i < loop.serversCount) (hserver : loop.servers[i]? = some server)
    (hn : server.connsCount = n) (hclose : UsLoop.closeConns i n loop = some loop') :
    Books loop loop' [] := by
  induction n generalizing loop server with
  | zero =>
      cases hclose
      exact .refl hopened
  | succ n ih =>
      obtain ⟨loop₁, table, conns, connection, moved, hcloses, hi₁, hserver₁, hrest⟩ :=
        closeConns_succ h.sound.toShape hi hserver hn hclose
      have hidx : n < server.connsCount := hn ▸ Nat.lt_succ_self n
      have hbooks := h.books_closes hopened hidx hcloses
      exact hbooks.trans (ih (h.closes hidx hcloses).follows hbooks.openOwned hi₁ hserver₁ rfl hrest)

theorem Follows.books_closesServer {serverId rc : ℤ} (h : Follows loop) (hopened : loop.OpenOwned)
    (hclose : loop.usServerClose serverId granted = some (rc, loop')) : Books loop loop' [] := by
  rcases usServerClose_cases h.sound.toShape hclose with ⟨hsame, -⟩ |
    ⟨idx, server, loop₁, -, hidx, hserver, hconns, hremove⟩
  · rw [hsame]
    exact .refl hopened
  · have hbooks := h.books_closeConns hopened hidx hserver rfl hconns
    obtain ⟨-, -, -, -, last, moved, hremoves⟩ := closeServer_spec (P := fun _ => True)
      (fun _ _ _ _ _ _ _ _ _ _ _ _ => trivial) h.sound hidx hserver trivial hconns hremove
    exact hbooks.trans ((h.closeConns hidx hserver rfl hconns).follows.books_removes
      hbooks.openOwned rfl hremoves)

theorem Follows.books_endConn (h : Follows loop) (hopened : loop.OpenOwned)
    (htable : loop.tables table = some conns) (hconn : conns[j]? = some connection)
    (hkind : connection.kind = usKindConn)
    (hend : loop.endConn table j connection granted = some loop') : Books loop loop' [] := by
  obtain ⟨i, server, hi, hserver, ⟨-, hj, last, moved, hcloses⟩ | ⟨hlost, -⟩⟩ :=
    endConn_cases h.sound.toShape htable hconn hkind hend
  · exact h.books_closes hopened hj hcloses
  · have hbuf := h.bufs table j connection (by rw [conn?_of_table htable, hconn]) hkind
    obtain ⟨hfreed, habandons⟩ := endConn_frees htable hconn hkind hi hserver hlost hbuf hend
    exact h.books_abandons hopened hfreed habandons

theorem Follows.books_accepts (h : Follows loop) (hopened : loop.OpenOwned) {meets : List Accepted}
    {rc : ℤ} (hi : i < loop.serversCount)
    (haccept : acceptNewClients i loop meets = some (rc, loop')) : Books loop loop' [] := by
  refine (acceptNewClients_induct (P := fun loop₁ => Books loop loop₁ []) ?_ ?_ h.sound hi
    (.refl hopened) haccept).2
  · exact fun loop₁ loop₂ fd _ hopen hrefuses hbooks =>
      hbooks.trans (hrefuses.books hbooks.openOwned hopen)
  · exact fun loop₁ loop₂ table server conns fd hsound _ hopen htakes hbooks =>
      hbooks.trans (htakes.books hbooks.openOwned hsound.toShape hopen)

theorem Follows.books_handles (h : Follows loop) (hopened : loop.OpenOwned) {event : Event}
    (hhandle : loop.handleEvent event = some loop') : Books loop loop' [] := by
  cases handles_of_eq h.sound.toShape hhandle with
  | ignores hvacant hsame =>
      rw [hsame]
      exact .refl hopened
  | accepts i rc hudata hi haccept => exact h.books_accepts hopened hi haccept
  | conn table j conns connection hudata htable hconn hkind hhandles =>
      rcases handleEvent_conn htable hconn hkind hudata hhandle with ⟨-, hend⟩ |
        ⟨rc, connection', loop₁, hread, ⟨-, rfl⟩ | ⟨-, hend⟩⟩
      · exact h.books_endConn hopened htable hconn hkind hend
      · exact h.books_readConn hopened htable hconn hkind hread
      · have hbooks := h.books_readConn hopened htable hconn hkind hread
        have hreads := readConn_reads htable hconn hkind hread
        obtain ⟨htable₁, hconn₁⟩ := hreads.prepares.getElem?_eq
        exact hbooks.trans ((h.reads hreads).follows.books_endConn hbooks.openOwned htable₁ hconn₁
          hreads.prepares.rewrites.kind_eq' hend)

theorem Follows.books_step (h : Follows loop) (hopened : loop.OpenOwned) {action : Action}
    (hstep : loopStep loop action = some loop') :
    Books loop loop' (loop.actionSocket action).toList := by
  have hshape := h.sound.toShape
  cases action with
  | create args meets =>
      obtain ⟨⟨rc, loop₁⟩, hcreate, rfl⟩ := Option.map_eq_some_iff.mp hstep
      exact h.books_creates hopened hcreate
  | clientClose serverId clientFd granted =>
      obtain ⟨⟨rc, loop₁⟩, hclose, rfl⟩ := Option.map_eq_some_iff.mp hstep
      rcases usClientClose_cases hshape hclose with ⟨hsame, -⟩ |
        ⟨i, server, idx, -, -, hidx, table, last, conns, connection, moved, hcloses⟩
      · rw [hsame]
        exact .refl hopened
      · exact h.books_closes hopened (findConnByFd_lt hidx) hcloses
  | serverClose serverId granted =>
      obtain ⟨⟨rc, loop₁⟩, hclose, rfl⟩ := Option.map_eq_some_iff.mp hstep
      exact h.books_closesServer hopened hclose
  | event event => exact h.books_handles hopened hstep

theorem Follows.books_destroys {n : ℕ} (h : Follows loop) (hopened : loop.OpenOwned)
    (hn : loop.serversCount = n) (hdestroy : destroyServers n loop = some loop') :
    Books loop loop' [] := by
  induction n generalizing loop with
  | zero =>
      cases hdestroy
      exact .refl hopened
  | succ last ih =>
      obtain ⟨server, rc, loop₁, hserver, hfind, hclose, hrest⟩ :=
        destroyServers_succ h.sound.toShape hn hdestroy
      obtain ⟨hends, last', hcount, hcount₁, -⟩ := h.closesServer hfind hserver hclose
      obtain rfl : last' = last := Nat.succ.inj (hcount.symm.trans hn)
      have hbooks := h.books_closesServer hopened hclose
      exact hbooks.trans (ih hends.follows hbooks.openOwned hcount₁ hrest)

theorem Follows.books_broadcasts (h : Follows loop) (hopened : loop.OpenOwned)
    {data : Option (List UInt8)} {meets : BroadcastMeets} {rc : ℤ}
    (hbroadcast : loop.usBroadcast data meets = some (rc, loop')) :
    Follows loop' ∧ loop'.serversCount = loop.serversCount ∧
      Books loop loop' (if data = none then [] else meets.socket.toList) := by
  rw [usBroadcast] at hbroadcast
  split at hbroadcast
  case isTrue hdata =>
    cases hbroadcast
    rw [if_pos hdata]
    exact ⟨h, rfl, .refl hopened⟩
  case isFalse hdata =>
    rw [if_neg hdata]
    split at hbroadcast
    case h_1 hnone =>
      cases hbroadcast
      rw [hnone]
      exact ⟨h, rfl, .refl hopened⟩
    case h_2 fd hsome =>
      rw [hsome]
      split at hbroadcast
      case isTrue => cases hbroadcast
      case isFalse hnew =>
        obtain ⟨-, hopen⟩ := fresh_of_not hnew
        obtain rfl : loop' = (loop.openFd fd).closeFd fd := by
          split at hbroadcast <;> cases hbroadcast <;> rfl
        have hsame : SameRecords loop ((loop.openFd fd).closeFd fd) := ⟨rfl, rfl, rfl, rfl, le_rfl⟩
        have hisOpen : ((loop.openFd fd).closeFd fd).isOpen = loop.isOpen := update_open_close hopen
        obtain ⟨d, calls, haccounts⟩ := h.accounts
        have hlog : ((loop.openFd fd).closeFd fd).log = loop.log ++ [.closes fd] := rfl
        have htally : ((loop.openFd fd).closeFd fd).tally = { loop.tally with closing := false } := by
          rw [tally_eq hlog, List.foldl_cons, List.foldl_nil,
            Tally.note_closes_none (haccounts.live_eq_none hopen)]
        have hregistered : ((loop.openFd fd).closeFd fd).registered = loop.registered :=
          (update_registered_none h.sound hopen :
            update loop.registered fd none = loop.registered)
        refine ⟨⟨h.sound.of_same hsame hisOpen hregistered, h.bufs,
          ⟨d, calls, ?_⟩, ?_, ?_⟩, rfl, books_openFd_closeFd hopened hopen hisOpen rfl rfl⟩
        · refine ⟨haccounts.holds_eq, haccounts.sound, haccounts.complete, ?_,
            haccounts.calls_eq, haccounts.calls_le, ?_⟩
          · rw [hisOpen]
            exact haccounts.open_of_finds
          · rw [htally]
            exact haccounts.live_eq
        · rw [htally]
          exact h.strays
        · rw [htally]
          exact h.connects_le

end Steps

end UsLoop

namespace Program

open UsLoop

/-- What a program does with the API: a call on the loop, or a broadcast. -/
inductive Use where
  | call (call : Call)
  | broadcast (data : Option (List UInt8)) (meets : BroadcastMeets)

def use (program : Program) : Use → Option Program
  | .call call => program.step call
  | .broadcast data meets =>
      (program.loop.usBroadcast data meets).map fun out => { program with loop := out.2 }

/-- The descriptor that `socket` gives in a use, if it comes to that. -/
def socket (program : Program) : Use → Option ℤ
  | .call (.act action) => program.loop.actionSocket action
  | .call .destroy => none
  | .broadcast data meets => if data = none then none else meets.socket

/-- The ledger of the descriptors that the kernel hands out, and that are read from and closed, on
a run. -/
def descriptors (program : Program) : List Use → List (Ledger.Entry ℤ)
  | [] => []
  | u :: uses =>
      match program.use u with
      | none => []
      | some program' =>
          (program.socket u).toList.map .acquire ++
            entries (program'.loop.log.drop program.loop.log.length) ++ program'.descriptors uses

/-- The use does not move a server that has connections. -/
def MovesNoClients (program : Program) : Use → Prop
  | .call (.act action) => program.loop.MovesNoClients action
  | _ => True

/-- Every descriptor that is open is that of a slot, and of one slot only. -/
structure Keeps (program : Program) : Prop where
  follows : UsLoop.Follows program.loop
  openOwned : program.loop.OpenOwned
  serversCount_eq : program.destroyed = true → program.loop.serversCount = 0

section Uses

variable {program program' : Program} {u : Use} {uses : List Use}

theorem Keeps.use (h : Keeps program) (huse : program.use u = some program') :
    Keeps program' ∧ Books program.loop program'.loop (program.socket u).toList := by
  cases u with
  | call call =>
      cases call with
      | act action =>
          rw [Program.use, step] at huse
          split at huse
          case isTrue => cases huse
          case isFalse =>
            obtain ⟨loop, hloop, rfl⟩ := Option.map_eq_some_iff.mp huse
            obtain ⟨clients, hends, -⟩ := h.follows.step hloop
            have hbooks := h.follows.books_step h.openOwned hloop
            exact ⟨⟨hends.follows, hbooks.openOwned, fun hfalse => absurd hfalse Bool.false_ne_true⟩, hbooks⟩
      | destroy =>
          rw [Program.use, step] at huse
          split at huse
          case isTrue => cases huse
          case isFalse =>
            obtain ⟨loop, hloop, rfl⟩ := Option.map_eq_some_iff.mp huse
            obtain ⟨clients, hends, hzero, -⟩ := h.follows.destroys rfl hloop
            have hbooks := h.follows.books_destroys h.openOwned rfl hloop
            exact ⟨⟨hends.follows, hbooks.openOwned, fun _ => hzero⟩, hbooks⟩
  | broadcast data meets =>
      obtain ⟨⟨rc, loop⟩, hbroadcast, rfl⟩ := Option.map_eq_some_iff.mp huse
      obtain ⟨hfollows, hcount, hbooks⟩ := h.follows.books_broadcasts h.openOwned hbroadcast
      refine ⟨⟨hfollows, hbooks.openOwned, fun hdestroyed => ?_⟩, ?_⟩
      · exact hcount.trans (h.serversCount_eq hdestroyed)
      · rw [socket]
        split
        case isTrue hdata =>
          rw [if_pos hdata] at hbooks
          exact hbooks
        case isFalse hdata =>
          rw [if_neg hdata] at hbooks
          exact hbooks

/-- Over a run the ledger can be kept, and ends with the descriptors that are open. -/
theorem Keeps.run (h : Keeps program) (hrun : run Program.use program uses = some program') :
    Keeps program' ∧
      Machine.run Ledger.step program.loop.isOpen (program.descriptors uses) =
        some program'.loop.isOpen := by
  induction uses generalizing program with
  | nil =>
      cases hrun
      exact ⟨h, rfl⟩
  | cons u uses ih =>
      obtain ⟨program₁, huse, hrest⟩ := (run_cons_eq_some Program.use).mp hrun
      obtain ⟨hkeeps, hbooks⟩ := h.use huse
      obtain ⟨hkeeps', hledger'⟩ := ih hkeeps hrest
      obtain ⟨effects, hlog, hledger⟩ := hbooks.ledger
      refine ⟨hkeeps', ?_⟩
      rw [descriptors, huse]
      dsimp only
      rw [hlog, List.drop_left]
      exact Ledger.run_append_of_run hledger hledger'

end Uses

end Program

end Server

end ConArtist
