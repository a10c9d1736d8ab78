import ConArtist.Foundation.Run
import ConArtist.Server.Following

/-!
# The balance of the callbacks

`m_on_disconnect` is to be called once for each client that `m_on_connect` was called for, when
it ends, and for no other. An action keeps the balance exactly when it ends its clients in a
balanced way. It does not when a new client fails after its record is made and the server has
`m_on_disconnect`, which `close_conn` calls all the same; when a connection ends past
`close_conn`, as its `m_server` does not have it, and `m_on_connect` was called for it; and when
the server has one of the two callbacks only.
-/

namespace ConArtist

namespace Server

open Function Machine

/-- `m_on_disconnect` was called as often as `m_on_connect`. -/
def ClientCalls.Paired (client : ClientCalls) : Prop := client.connects = client.disconnects

/-- The server has both callbacks or neither. -/
def UsServer.Paired (server : UsServer) : Prop :=
  server.onConnect.isSome = server.onDisconnect.isSome

theorem paired_iff (server : UsServer) :
    ClientCalls.Paired ⟨server.connectCalls, server.disconnectCalls⟩ ↔ server.Paired := by
  rw [ClientCalls.Paired, UsServer.connectCalls, UsServer.disconnectCalls, UsServer.Paired]
  cases server.onConnect <;> cases server.onDisconnect <;> simp

theorem forall_nil_paired {p : Prop} (hp : p) :
    (∀ client ∈ ([] : List ClientCalls), client.Paired) ↔ p :=
  iff_of_true (fun _ hclient => absurd hclient List.not_mem_nil) hp

theorem connectCalls_eq_zero (server : UsServer) :
    server.connectCalls = 0 ↔ server.onConnect = none := by
  rw [UsServer.connectCalls, List.length_eq_zero_iff, Option.toList_eq_nil_iff]

theorem disconnectCalls_eq_zero (server : UsServer) :
    server.disconnectCalls = 0 ↔ server.onDisconnect = none := by
  rw [UsServer.disconnectCalls, List.length_eq_zero_iff, Option.toList_eq_nil_iff]

/-- None of the clients that `accept` gives fails once its record is made. -/
def NoneDropped (connsCap : ℕ) : ℕ → List UsLoop.Accepted → Prop
  | _, [] => True
  | n, .client _ flagsOk bufOk kqOk :: meets =>
      UsLoop.dropsClient n connsCap flagsOk bufOk kqOk = false ∧
        NoneDropped connsCap
          (if UsLoop.takesClient n connsCap flagsOk bufOk kqOk then n + 1 else n) meets
  | _, .again :: _ => True
  | n, .intr :: meets => NoneDropped connsCap n meets
  | _, .fail :: _ => True

namespace UsLoop

/-- The loop of `us_loop_destroy`, with the number of servers, which each round takes down by
one. -/
def destroyServers : ℕ → UsLoop → Option UsLoop
  | 0, loop => some loop
  | last + 1, loop => do
      let server ← loop.servers[last]?
      if server.active then
        let (_, loop) ← loop.usServerClose server.serverId false
        destroyServers last loop
      else destroyServers last { loop with serversCount := last }

/-- `us_loop_destroy`. Memory that is freed is not followed. -/
def usLoopDestroy (loop : UsLoop) : Option UsLoop := destroyServers loop.serversCount loop

/-- What an event must meet for the clients that it ends. -/
def EventPaired (loop : UsLoop) (event : Event) : Prop :=
  match event.udata with
  | none => True
  | some (.server i) => ∀ server, loop.servers[i]? = some server → server.kind = usKindServer →
      server.onDisconnect = none ∨ NoneDropped server.connsCap server.connsCount event.accepted
  | some (.conn table j) => ∀ connection i server, loop.conn? table j = some connection →
      connection.kind = usKindConn → endsConn connection event = true →
      loop.servers[i]? = some server → server.conns = some table →
      if connection.server = some i then server.Paired else server.onConnect = none

/-- What an action must meet for the clients that it ends. -/
def ActionPaired (loop : UsLoop) : Action → Prop
  | .create _ _ => True
  | .clientClose serverId clientFd _ => ∀ i server idx, loop.findServerById serverId = some i →
      loop.servers[i]? = some server → loop.findConnByFd server clientFd = some idx → server.Paired
  | .serverClose serverId _ => ∀ i server, loop.findServerById serverId = some i →
      loop.servers[i]? = some server → server.connsCount = 0 ∨ server.Paired
  | .event event => loop.EventPaired event

section Actions

variable {loop loop' : UsLoop} {i : ℕ} {server : UsServer} {rc : ℤ}

/-- `accept_new_clients` ends the clients that it does not take. -/
theorem Follows.accepts {meets : List Accepted} (h : Follows loop) (hi : i < loop.serversCount)
    (hserver : loop.servers[i]? = some server)
    (haccept : acceptNewClients i loop meets = some (rc, loop')) :
    ∃ clients, Ends loop loop' clients ∧ ((∀ client ∈ clients, client.Paired) ↔
      server.onDisconnect = none ∨ NoneDropped server.connsCap server.connsCount meets) := by
  induction meets generalizing loop server with
  | nil =>
      cases haccept
      exact ⟨[], .refl h, forall_nil_paired (.inr trivial)⟩
  | cons met meets ih =>
      have hnone : ∃ clients, Ends loop loop clients ∧ ((∀ client ∈ clients, client.Paired) ↔
          server.onDisconnect = none ∨ True) :=
        ⟨[], .refl h, forall_nil_paired (.inr trivial)⟩
      cases met with
      | client fd flagsOk bufOk kqOk =>
          rw [acceptNewClients] at haccept
          obtain ⟨loop₁, hclient, hrest⟩ := Option.bind_eq_some_iff.mp haccept
          obtain ⟨hfd, hopen, ⟨hrefused, hrefuses, client, hlog⟩ |
              ⟨htaken, table, conns, htakes⟩⟩ := acceptClient_spec h.sound hi hserver hclient
          · have hends := h.refuses hopen hrefuses hlog
            have hsame := hrefuses.same
            obtain ⟨clients, hclients, hiff⟩ := ih hends.follows
              (by rw [hsame.serversCount_eq]; exact hi) (by rw [hsame.servers_eq]; exact hserver)
              hrest
            refine ⟨clients ++ [_], hends.trans hclients, ?_⟩
            rw [List.forall_mem_append, List.forall_mem_singleton, hiff, NoneDropped, hrefused,
              if_neg Bool.false_ne_true, ClientCalls.Paired]
            cases dropsClient server.connsCount server.connsCap flagsOk bufOk kqOk with
            | true =>
                have hzero : 0 = server.disconnectCalls ↔ server.onDisconnect = none :=
                  eq_comm.trans (disconnectCalls_eq_zero server)
                rw [if_pos rfl, hzero]
                constructor
                · intro hboth
                  exact .inl hboth.2
                · rintro (hnone | ⟨hfalse, -⟩)
                  · exact ⟨.inl hnone, hnone⟩
                  · cases hfalse
            | false =>
                rw [if_neg Bool.false_ne_true]
                exact ⟨fun hboth => hboth.1.imp_right fun hrest => ⟨rfl, hrest⟩,
                  fun hor => ⟨hor.imp_right And.right, rfl⟩⟩
          · have hends := h.takes hfd hopen htakes
            obtain ⟨clients, hclients, hiff⟩ := ih hends.follows
              (by rw [htakes.retables.serversCount_eq]; exact hi)
              (by rw [htakes.retables.getElem?_servers htakes.owns, if_pos rfl]) hrest
            refine ⟨clients ++ [], hends.trans hclients, ?_⟩
            have hdrops : dropsClient server.connsCount server.connsCap flagsOk bufOk kqOk =
                false := by
              rw [takesClient, Bool.and_assoc, Bool.and_eq_true_iff] at htaken
              rw [dropsClient, htaken.2, Bool.not_true, Bool.and_false]
            rw [List.append_nil, hiff, NoneDropped, htaken, if_pos rfl, hdrops]
            simp
      | again =>
          cases haccept
          exact hnone
      | intr => exact ih h hi hserver haccept
      | fail =>
          cases haccept
          exact hnone

/-- The connections of a server are closed by `close_conn`, one after the other. -/
theorem Follows.closeConns {n : ℕ} (h : Follows loop) (hi : i < loop.serversCount)
    (hserver : loop.servers[i]? = some server) (hn : server.connsCount = n)
    (hclose : UsLoop.closeConns i n loop = some loop') :
    Ends loop loop' (List.replicate n ⟨server.connectCalls, server.disconnectCalls⟩) := by
  induction n generalizing loop server with
  | zero =>
      cases hclose
      exact .refl h
  | succ n ih =>
      obtain ⟨loop₁, table, conns, connection, moved, hcloses, hi₁, hserver₁, hrest⟩ :=
        closeConns_succ h.sound.toShape hi hserver hn hclose
      have hends := h.closes (hn ▸ Nat.lt_succ_self n) hcloses
      have hothers := ih hends.follows hi₁ hserver₁ rfl hrest
      rw [List.replicate_succ']
      exact hends.trans hothers

/-- `us_server_close` ends the clients of the server, and only the last server is moved. -/
theorem Follows.closesServer {serverId : ℤ} {granted : Bool} (h : Follows loop)
    (hfind : loop.findServerById serverId = some i) (hserver : loop.servers[i]? = some server)
    (hclose : loop.usServerClose serverId granted = some (rc, loop')) :
    Ends loop loop' (List.replicate server.connsCount
      ⟨server.connectCalls, server.disconnectCalls⟩) ∧
      ∃ last, loop.serversCount = last + 1 ∧ loop'.serversCount = last ∧
        ∀ k, k ≠ i → k ≠ last → loop'.servers[k]? = loop.servers[k]? := by
  rcases usServerClose_cases h.sound.toShape hclose with ⟨-, hnone⟩ |
    ⟨idx, server', loop₁, hfind', hidx, hserver', hconns, hremove⟩
  · cases hnone.symm.trans hfind
  · obtain rfl : i = idx := Option.some.inj (hfind.symm.trans hfind')
    obtain rfl : server = server' := Option.some.inj (hserver.symm.trans hserver')
    have hends := h.closeConns hidx hserver rfl hconns
    obtain ⟨-, -, hcount, hservers, last, moved, hremoves⟩ := closeServer_spec (P := fun _ => True)
      (fun _ _ _ _ _ _ _ _ _ _ _ _ => trivial) h.sound hidx hserver trivial hconns hremove
    refine ⟨hends.trans (hends.follows.removes rfl hremoves), last, hcount ▸ hremoves.count_eq,
      hremoves.serversCount_eq, fun k hk hlast => ?_⟩
    rw [hremoves.getElem?_servers, if_neg hlast, if_neg hk, hservers,
      List.getElem?_set_ne hk.symm]

/-- The clients of a server end in a balanced way when it has none, or both callbacks or
neither. -/
theorem forall_replicate_paired (server : UsServer) (n : ℕ) :
    (∀ client ∈ List.replicate n (⟨server.connectCalls, server.disconnectCalls⟩ : ClientCalls),
      client.Paired) ↔ n = 0 ∨ server.Paired := by
  simp only [List.mem_replicate, and_imp, forall_eq_apply_imp_iff]
  rw [← paired_iff]
  constructor
  · intro hall
    rcases Nat.eq_zero_or_pos n with hzero | hpos
    · exact .inl hzero
    · exact .inr (hall hpos.ne')
  · rintro (hzero | hpaired) hne
    · exact absurd hzero hne
    · exact hpaired

theorem forall_singleton_paired (server : UsServer) :
    (∀ client ∈ [(⟨server.connectCalls, server.disconnectCalls⟩ : ClientCalls)], client.Paired) ↔
      server.Paired := by
  rw [List.forall_mem_singleton, paired_iff]

/-- The end of a connection, by `close_conn` where `m_server` is the server that took it. -/
theorem Follows.endsConn {table j : ℕ} {conns : List UsConn} {connection : UsConn} {granted : Bool}
    (h : Follows loop) (htable : loop.tables table = some conns)
    (hconn : conns[j]? = some connection) (hkind : connection.kind = usKindConn)
    (hserver : loop.servers[i]? = some server) (hconns : server.conns = some table)
    (hend : loop.endConn table j connection granted = some loop') :
    ∃ clients, Ends loop loop' clients ∧ ((∀ client ∈ clients, client.Paired) ↔
      if connection.server = some i then server.Paired else server.onConnect = none) := by
  have hshape := h.sound.toShape
  obtain ⟨i', server', hi', hserver', ⟨hconns', hj, last, moved, hcloses⟩ | ⟨hlost, -⟩⟩ :=
    endConn_cases hshape htable hconn hkind hend
  · obtain rfl : i = i' :=
      hshape.conns_inj i i' server server' table hserver hserver' hconns hconns'
    obtain rfl : server = server' := Option.some.inj (hserver.symm.trans hserver')
    refine ⟨_, h.closes hj hcloses, ?_⟩
    rw [if_pos hi', forall_singleton_paired]
  · have hne : connection.server ≠ some i := by
      intro heq
      obtain rfl : i = i' := Option.some.inj (heq.symm.trans hi')
      obtain rfl : server = server' := Option.some.inj (hserver.symm.trans hserver')
      exact hlost hconns
    have hbuf := h.bufs table j connection (by rw [conn?_of_table htable, hconn]) hkind
    obtain ⟨hfreed, habandons⟩ := endConn_frees htable hconn hkind hi' hserver' hlost hbuf hend
    refine ⟨_, h.abandons hfreed hserver hconns habandons, ?_⟩
    rw [if_neg hne, List.forall_mem_singleton, ClientCalls.Paired, connectCalls_eq_zero]

/-- An event ends its clients in a balanced way exactly when it is `EventPaired`. -/
theorem Follows.handles {event : Event} (h : Follows loop)
    (hhandle : loop.handleEvent event = some loop') :
    ∃ clients, Ends loop loop' clients ∧
      ((∀ client ∈ clients, client.Paired) ↔ loop.EventPaired event) := by
  have hshape := h.sound.toShape
  cases handles_of_eq hshape hhandle with
  | ignores hvacant hsame =>
      subst hsame
      refine ⟨[], .refl h, forall_nil_paired ?_⟩
      rw [EventPaired]
      split
      case h_1 => trivial
      case h_2 i hudata =>
        intro server hserver hkind
        have hholds := hvacant _ hudata
        rw [holds_server, hserver, Option.bind_some, UsServer.held, if_pos hkind] at hholds
        cases hholds
      case h_3 table j hudata =>
        intro connection i server hconn hkind
        have hholds := hvacant _ hudata
        rw [holds_conn, hconn, Option.bind_some, UsConn.held, if_pos hkind] at hholds
        cases hholds
  | accepts i rc hudata hi haccept =>
      obtain ⟨server, hserver⟩ : ∃ server, loop.servers[i]? = some server :=
        ⟨_, List.getElem?_eq_getElem (lt_of_lt_of_le hi hshape.count_le)⟩
      obtain ⟨clients, hends, hiff⟩ := h.accepts hi hserver haccept
      refine ⟨clients, hends, hiff.trans ?_⟩
      rw [EventPaired, hudata]
      constructor
      · intro hpaired server' hserver' hkind
        obtain rfl : server = server' := Option.some.inj (hserver.symm.trans hserver')
        exact hpaired
      · exact fun hall => hall server hserver (hshape.serves i server hi hserver).kind_eq
  | conn table j conns connection hudata htable hconn hkind hhandles =>
      have hget : loop.conn? table j = some connection := by
        rw [conn?_of_table htable, hconn]
      obtain ⟨i, server, hserver, hconns⟩ := hshape.owned table j connection hget hkind
      have hpaired : loop.EventPaired event ↔ (UsLoop.endsConn connection event = true →
          if connection.server = some i then server.Paired else server.onConnect = none) := by
        rw [EventPaired, hudata]
        constructor
        · exact fun hall hends => hall connection i server hget hkind hends hserver hconns
        · intro hone connection' i' server' hget' hkind' hends hserver' hconns'
          obtain rfl : connection = connection' := Option.some.inj (hget.symm.trans hget')
          obtain rfl : i = i' :=
            hshape.conns_inj i i' server server' table hserver hserver' hconns hconns'
          obtain rfl : server = server' := Option.some.inj (hserver.symm.trans hserver')
          exact hone hends
      obtain ⟨loop₁, connection', hreads, ⟨hstays, rfl⟩ | ⟨hends, hend⟩⟩ :=
        handleEvent_reads hudata htable hconn hkind hhandle
      · refine ⟨[], h.reads hreads, forall_nil_paired (hpaired.mpr fun hends => ?_)⟩
        rw [hstays] at hends
        cases hends
      · have hread := h.reads hreads
        have hrewrites := hreads.prepares.rewrites
        obtain ⟨htable₁, hconn₁⟩ := hreads.prepares.getElem?_eq
        have hserver₁ : loop₁.servers[i]? = some server := by
          rw [hrewrites.servers_eq]
          exact hserver
        obtain ⟨clients, hclients, hiff⟩ :=
          hread.follows.endsConn htable₁ hconn₁ hrewrites.kind_eq' hserver₁ hconns hend
        refine ⟨clients ++ [], hread.trans hclients, ?_⟩
        rw [List.append_nil, hiff, hpaired, hrewrites.server_eq]
        exact ⟨fun hcond _ => hcond, fun hcond => hcond hends⟩

/-- An action ends its clients in a balanced way exactly when it is `ActionPaired`. -/
theorem Follows.step {action : Action} (h : Follows loop)
    (hstep : loopStep loop action = some loop') :
    ∃ clients, Ends loop loop' clients ∧
      ((∀ client ∈ clients, client.Paired) ↔ loop.ActionPaired action) := by
  have hshape := h.sound.toShape
  have hsound := sound_step h.sound hstep
  cases action with
  | create args meets =>
      obtain ⟨⟨rc, loop₁⟩, hcreate, rfl⟩ := Option.map_eq_some_iff.mp hstep
      exact ⟨[], h.creates hsound hcreate, forall_nil_paired trivial⟩
  | clientClose serverId clientFd granted =>
      obtain ⟨⟨rc, loop₁⟩, hclose, rfl⟩ := Option.map_eq_some_iff.mp hstep
      rcases usClientClose_cases hshape hclose with ⟨hsame, hnone⟩ |
        ⟨i, server, idx, hfind, hserver, hidx, table, last, conns, connection, moved, hcloses⟩
      · rw [hsame]
        refine ⟨[], .refl h, forall_nil_paired ?_⟩
        intro i server idx hfind hserver hidx
        cases (hnone i server hfind hserver).symm.trans hidx
      · refine ⟨_, h.closes (findConnByFd_lt hidx) hcloses,
          (forall_singleton_paired server).trans ?_⟩
        constructor
        · intro hpaired i' server' idx' hfind' hserver' _
          obtain rfl : i = i' := Option.some.inj (hfind.symm.trans hfind')
          obtain rfl : server = server' := Option.some.inj (hserver.symm.trans hserver')
          exact hpaired
        · exact fun hall => hall i server idx hfind hserver hidx
  | serverClose serverId granted =>
      obtain ⟨⟨rc, loop₁⟩, hclose, rfl⟩ := Option.map_eq_some_iff.mp hstep
      rcases usServerClose_cases hshape hclose with ⟨hsame, hnone⟩ |
        ⟨i, server, -, hfind, -, hserver, -, -⟩
      · rw [hsame]
        refine ⟨[], .refl h, forall_nil_paired ?_⟩
        intro i server hfind
        cases hnone.symm.trans hfind
      · refine ⟨_, (h.closesServer hfind hserver hclose).1,
          (forall_replicate_paired server _).trans ?_⟩
        constructor
        · intro hpaired i' server' hfind' hserver'
          obtain rfl : i = i' := Option.some.inj (hfind.symm.trans hfind')
          obtain rfl : server = server' := Option.some.inj (hserver.symm.trans hserver')
          exact hpaired
        · exact fun hall => hall i server hfind hserver
  | event event => exact h.handles hstep

/-- `find_server_by_id` finds the server with the id, as no other has it. -/
theorem findServerById_eq (hshape : Shape loop) (hi : i < loop.serversCount)
    (hserver : loop.servers[i]? = some server) : loop.findServerById server.serverId = some i := by
  have hcount := hshape.count_le
  have htake : i < (loop.servers.take loop.serversCount).length := by
    rw [List.length_take]
    omega
  obtain ⟨hlt, hget⟩ := List.getElem?_eq_some_iff.mp hserver
  rw [findServerById, List.findIdx?_eq_some_iff_getElem]
  refine ⟨htake, ?_, fun k hk => ?_⟩
  · rw [List.getElem_take, hget, (hshape.serves i server hi hserver).active_eq, Bool.true_and,
      beq_self_eq_true]
  · rw [List.getElem_take, Bool.not_eq_true, Bool.and_eq_false_iff]
    refine .inr (beq_false_of_ne fun heq => ?_)
    have hsame := hshape.id_inj k i _ server (by omega) hi (List.getElem?_eq_getElem (by omega))
      hserver heq
    omega

/-- A round of `us_loop_destroy`: the last server is closed by its id, which finds it. -/
theorem destroyServers_succ {last : ℕ} (hshape : Shape loop) (hn : loop.serversCount = last + 1)
    (hdestroy : destroyServers (last + 1) loop = some loop') :
    ∃ server rc loop₁, loop.servers[last]? = some server ∧
      loop.findServerById server.serverId = some last ∧
      loop.usServerClose server.serverId false = some (rc, loop₁) ∧
      destroyServers last loop₁ = some loop' := by
  have hlast : last < loop.serversCount := hn ▸ Nat.lt_succ_self last
  rw [destroyServers] at hdestroy
  obtain ⟨server, hserver, hdestroy⟩ := Option.bind_eq_some_iff.mp hdestroy
  rw [if_pos (hshape.serves last server hlast hserver).active_eq] at hdestroy
  obtain ⟨⟨rc, loop₁⟩, hclose, hrest⟩ := Option.bind_eq_some_iff.mp hdestroy
  exact ⟨server, rc, loop₁, hserver, findServerById_eq hshape hlast hserver, hclose, hrest⟩

/-- The servers have no connections, or both callbacks or neither. -/
def ServersPaired (loop : UsLoop) : Prop :=
  ∀ (i : ℕ) (server : UsServer), i < loop.serversCount → loop.servers[i]? = some server →
    server.connsCount = 0 ∨ server.Paired

/-- `us_loop_destroy` ends the clients of all servers. -/
theorem Follows.destroys {n : ℕ} (h : Follows loop) (hn : loop.serversCount = n)
    (hdestroy : destroyServers n loop = some loop') :
    ∃ clients, Ends loop loop' clients ∧ loop'.serversCount = 0 ∧
      ((∀ client ∈ clients, client.Paired) ↔ loop.ServersPaired) := by
  induction n generalizing loop with
  | zero =>
      cases hdestroy
      refine ⟨[], .refl h, hn, forall_nil_paired ?_⟩
      intro i server hi
      rw [hn] at hi
      exact absurd hi (Nat.not_lt_zero i)
  | succ last ih =>
      have hlast : last < loop.serversCount := hn ▸ Nat.lt_succ_self last
      obtain ⟨server, rc, loop₁, hserver, hfind, hclose, hrest⟩ :=
        destroyServers_succ h.sound.toShape hn hdestroy
      obtain ⟨hends, last', hcount, hcount₁, hframe⟩ := h.closesServer hfind hserver hclose
      obtain rfl : last' = last := Nat.succ.inj (hcount.symm.trans hn)
      obtain ⟨clients, hclients, hzero, hiff⟩ := ih hends.follows hcount₁ hrest
      refine ⟨clients ++ _, hends.trans hclients, hzero, ?_⟩
      rw [List.forall_mem_append, hiff, forall_replicate_paired]
      constructor
      · rintro ⟨hothers, hthis⟩ i server' hi hserver'
        rcases eq_or_ne i last' with rfl | hne
        · obtain rfl : server = server' := Option.some.inj (hserver.symm.trans hserver')
          exact hthis
        · exact hothers i server' (by omega) ((hframe i hne hne).trans hserver')
      · intro hall
        refine ⟨fun i server' hi hserver' => ?_, hall last' server hlast hserver⟩
        rw [hcount₁] at hi
        exact hall i server' (by omega) ((hframe i hi.ne hi.ne).symm.trans hserver')

theorem Follows.live_eq_none (h : Follows loop) (hcount : loop.serversCount = 0) (fd : ℤ) :
    loop.tally.live fd = none := by
  have hshape := h.sound.toShape
  obtain ⟨d, calls, haccounts⟩ := h.accounts
  have hvacant : ∀ (i : ℕ) (server : UsServer), loop.servers[i]? = some server →
      server = zeroServer := fun i server => hshape.vacant i server (hcount ▸ Nat.zero_le i)
  rw [haccounts.live_eq]
  rcases hfinds : d.finds fd with _ | ⟨i | ⟨table, j⟩⟩
  · rfl
  · rfl
  · have hheld := haccounts.sound fd _ hfinds
    rw [haccounts.holds_eq, slotsBy_conn] at hheld
    obtain ⟨connection, hconn, howned⟩ := Option.bind_eq_some_iff.mp hheld
    have hkind := (UsConn.owned_eq_some.mp howned).2.1
    obtain ⟨i, server, hserver, hconns⟩ := hshape.owned table j connection hconn hkind
    rw [hvacant i server hserver] at hconns
    cases hconns

end Actions

theorem follows_usLoopCreate : Follows usLoopCreate := by
  refine ⟨sound_usLoopCreate, ?_, ?_, rfl, fun client hclient => absurd hclient List.not_mem_nil⟩
  · exact fun table j connection hconn => nomatch hconn
  refine ⟨⟨usLoopCreate.slotsBy UsConn.owned, fun _ => none⟩, fun _ => 0, rfl, ?_,
    fun slot fd hholds => ?_, fun fd hfd => absurd rfl hfd,
    fun i server table hserver hconns => ?_, fun _ => Nat.zero_le 1, fun _ => rfl⟩
  · exact fun fd slot hfinds => nomatch hfinds
  · rcases slot with i | ⟨table, j⟩
    · obtain ⟨server, hi, -⟩ := (holds_server_eq_some sound_usLoopCreate.toShape).mp hholds
      exact absurd hi (Nat.not_lt_zero i)
    · cases hholds
  · rw [sound_usLoopCreate.vacant i server (Nat.zero_le i) hserver] at hconns
    cases hconns

end UsLoop

/-- What a program does with a loop: an action, or the end of it. -/
inductive Call where
  | act (action : Action)
  | destroy

/-- A loop and whether `us_loop_destroy` was called. -/
structure Program where
  loop : UsLoop
  destroyed : Bool

namespace Program

open UsLoop

def start : Program := ⟨usLoopCreate, false⟩

/-- One call. The loop is not there any more once it is destroyed. -/
def step (program : Program) : Call → Option Program
  | .act action =>
      if program.destroyed then none else (loopStep program.loop action).map (⟨·, false⟩)
  | .destroy =>
      if program.destroyed then none else program.loop.usLoopDestroy.map (⟨·, true⟩)

/-- For every client that has ended `m_on_disconnect` was called once if `m_on_connect` was
called for it, and else not; `m_on_connect` was called at most once for the others, and a
destroyed loop has ended all its clients. No callback is called for anything else. -/
structure Balanced (program : Program) : Prop where
  strays : program.loop.tally.strays = 0
  live : ∀ fd n, program.loop.tally.live fd = some n → program.destroyed = false ∧ n ≤ 1
  ended : ∀ client ∈ program.loop.tally.ended, client.connects ≤ 1 ∧ client.Paired

/-- What a call must meet for the clients that it ends. -/
def CallPaired (program : Program) : Call → Prop
  | .act action => program.loop.ActionPaired action
  | .destroy => program.loop.ServersPaired

/-- The clients are followed, and those that have ended did so in a balanced way. -/
structure Follows (program : Program) : Prop where
  loop : UsLoop.Follows program.loop
  paired : ∀ client ∈ program.loop.tally.ended, client.Paired
  serversCount_eq : program.destroyed = true → program.loop.serversCount = 0

section Step

variable {program program' : Program} {call : Call}

theorem Follows.balanced (h : Follows program) : Balanced program := by
  refine ⟨h.loop.strays, fun fd n hlive => ⟨?_, ?_⟩,
    fun client hclient => ⟨h.loop.connects_le client hclient, h.paired client hclient⟩⟩
  · by_contra hdestroyed
    rw [Bool.not_eq_false] at hdestroyed
    rw [h.loop.live_eq_none (h.serversCount_eq hdestroyed)] at hlive
    cases hlive
  · obtain ⟨d, calls, haccounts⟩ := h.loop.accounts
    rw [haccounts.live_eq] at hlive
    rcases hfinds : d.finds fd with _ | ⟨i | ⟨table, j⟩⟩
    · rw [hfinds] at hlive
      cases hlive
    · rw [hfinds] at hlive
      cases hlive
    · rw [hfinds] at hlive
      cases hlive
      exact haccounts.calls_le table

/-- A call ends its clients in a balanced way exactly when it is `CallPaired`. -/
theorem Follows.ends (h : Follows program) (hstep : program.step call = some program') :
    ∃ clients, Ends program.loop program'.loop clients ∧
      (program'.destroyed = true → program'.loop.serversCount = 0) ∧
      ((∀ client ∈ clients, client.Paired) ↔ program.CallPaired call) := by
  cases call with
  | act action =>
      rw [step] at hstep
      split at hstep
      case isTrue => cases hstep
      case isFalse =>
        obtain ⟨loop, hloop, rfl⟩ := Option.map_eq_some_iff.mp hstep
        obtain ⟨clients, hends, hiff⟩ := h.loop.step hloop
        exact ⟨clients, hends, (fun hfalse => nomatch hfalse), hiff⟩
  | destroy =>
      rw [step] at hstep
      split at hstep
      case isTrue => cases hstep
      case isFalse =>
        obtain ⟨loop, hloop, rfl⟩ := Option.map_eq_some_iff.mp hstep
        obtain ⟨clients, hends, hzero, hiff⟩ := h.loop.destroys rfl hloop
        exact ⟨clients, hends, fun _ => hzero, hiff⟩

theorem Follows.of_paired (h : Follows program) (hcall : program.CallPaired call)
    (hstep : program.step call = some program') : Follows program' := by
  obtain ⟨clients, hends, hcount, hiff⟩ := h.ends hstep
  refine ⟨hends.follows, ?_, hcount⟩
  rw [hends.ended_eq]
  intro client hclient
  rcases List.mem_append.mp hclient with hnew | hold
  · exact hiff.mpr hcall client hnew
  · exact h.paired client hold

theorem Follows.paired_of_balanced (h : Follows program)
    (hstep : program.step call = some program') (hbalanced : Balanced program') :
    program.CallPaired call := by
  obtain ⟨clients, hends, -, hiff⟩ := h.ends hstep
  refine hiff.mp fun client hclient => (hbalanced.ended client ?_).2
  rw [hends.ended_eq]
  exact List.mem_append_left _ hclient

end Step

/-- The callbacks are balanced throughout a run from a new loop exactly when each call ends its
clients in a balanced way. -/
theorem callbacks_balanced_iff (calls : List Call) :
    Throughout step Balanced start calls ↔ Along step CallPaired start calls := by
  have hstart : Follows start :=
    ⟨follows_usLoopCreate, fun client hclient => absurd hclient List.not_mem_nil,
      fun hfalse => nomatch hfalse⟩
  refine throughout_iff_along ?_ ?_ ?_ hstart
  · exact fun program hfollows => hfollows.balanced
  · exact fun program program' call _ hfollows hcall hstep => hfollows.of_paired hcall hstep
  · exact fun program program' call _ hfollows hcall hstep hbalanced =>
      hcall (hfollows.paired_of_balanced hstep hbalanced)

/-- A server with both callbacks listens on a descriptor. -/
def listen (port : UInt16) (fd : ℤ) : Call :=
  .act (.create ⟨1, 0, port, 64, some 1, some 2, some 3, 0⟩ ⟨some fd, true, true, true, true, true⟩)

/-- Descriptor 5 is accepted for a client whose buffer cannot be allocated. -/
def failBuffer : List Call :=
  [listen 8000 3,
    .act (.event ⟨3, some (.server 0), false, [], [.client 5 true false true], true⟩)]

/-- `m_on_disconnect` is called for a client that `m_on_connect` was not called for. -/
theorem disconnect_without_connect :
    ∃ program, run step start failBuffer = some program ∧
      program.loop.tally.ended = [⟨0, 1⟩] ∧ ¬ Throughout step Balanced start failBuffer := by
  refine ⟨_, rfl, rfl, fun hthroughout => ?_⟩
  have hbalanced := throughout_iff_initial.mp hthroughout _ _ List.prefix_rfl rfl
  exact absurd (hbalanced.ended ⟨0, 1⟩ List.mem_cons_self).2 Nat.zero_ne_one

-- The server of the client moves when the first one is closed, and `m_on_disconnect` is not
-- called at the end of the client.
example :
    (run step start
      [listen 8000 3, listen 8001 4,
        .act (.event ⟨4, some (.server 1), false, [], [.client 5 true true true], true⟩),
        .act (.serverClose 1 true),
        .act (.event ⟨5, some (.conn 1 0), true, [], [], true⟩)]).map (·.loop.tally.ended) =
      some [⟨1, 0⟩] := rfl

end Program

end Server

end ConArtist
