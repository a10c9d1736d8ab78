import ConArtist.Server.Handling

/-!
# The server table

`TableOk` is what the server table of a loop should be: active servers with ids of
their own, connections that point back to the slot of their server, and every
descriptor registered under the slot that holds it. For a sound loop that is to say
that the directory is `Complete` and the connections are `Linked`. Each action keeps
both exactly when it `MovesWhole`: `us_server_close` moves the last server without
writing `m_server` in its connections, and neither it nor `close_conn` looks at what
`kq_add_read` returns for the record it moved.
-/

namespace ConArtist

namespace Server

open Function Machine

namespace UsLoop

/-- A connection of the server at `i`, with its slot and record. -/
def IsConn (loop : UsLoop) (i table j : ℕ) (connection : UsConn) : Prop :=
  ∃ server conns, Owns loop i table server conns ∧ j < server.connsCount ∧
    conns[j]? = some connection

/-- The server table and the registrations of its descriptors are in order. -/
structure TableOk (loop : UsLoop) : Prop where
  active : ∀ i < loop.serversCount, ∃ server, loop.servers[i]? = some server ∧
    server.kind = usKindServer ∧ server.active = true ∧ server.connsCount ≤ server.connsCap ∧
    ∀ j < server.connsCount, ∃ table connection, loop.IsConn i table j connection
  ids_distinct : ∀ (i i' : ℕ) (server server' : UsServer), i < loop.serversCount →
    i' < loop.serversCount → loop.servers[i]? = some server → loop.servers[i']? = some server' →
    server.serverId = server'.serverId → i = i'
  conns : ∀ i table j connection, loop.IsConn i table j connection →
    connection.kind = usKindConn ∧ connection.server = some i
  fds_distinct : ∀ i table j connection i' table' j' connection',
    loop.IsConn i table j connection → loop.IsConn i' table' j' connection' →
    connection.fd = connection'.fd → i = i' ∧ j = j'
  servers_registered : ∀ i server, i < loop.serversCount → loop.servers[i]? = some server →
    loop.registered server.listenFd = some (.server i)
  conns_registered : ∀ i table j connection, loop.IsConn i table j connection →
    loop.registered connection.fd = some (.conn table j)

/-- The connections of a server point to its slot. -/
def Linked (loop : UsLoop) : Prop :=
  ∀ (i table j : ℕ) (server : UsServer) (connection : UsConn), loop.servers[i]? = some server →
    server.conns = some table → loop.conn? table j = some connection →
    connection.kind = usKindConn → connection.server = some i

/-- A sound loop with a complete directory and linked connections. -/
structure Kept (loop : UsLoop) : Prop where
  sound : Sound loop
  complete : loop.directory.Complete
  linked : Linked loop

section TableOk

variable {loop : UsLoop}

theorem isConn_iff (hshape : Shape loop) {i table j : ℕ} {connection : UsConn} :
    loop.IsConn i table j connection ↔ ∃ server, loop.servers[i]? = some server ∧
      server.conns = some table ∧ loop.conn? table j = some connection ∧
      connection.kind = usKindConn := by
  constructor
  · rintro ⟨server, conns, howns, hj, hconn⟩
    refine ⟨server, howns.server_eq, howns.conns_eq, ?_, ?_⟩
    · rw [conn?_of_table howns.table_eq, hconn]
    · exact ((howns.filled hshape).2.2.taken j connection hj hconn).1
  · rintro ⟨server, hserver, hconns, hconn, hkind⟩
    obtain ⟨conns, htable, hget⟩ := Option.bind_eq_some_iff.mp hconn
    have howns : Owns loop i table server conns :=
      ⟨lt_serversCount hshape hserver hconns, hserver, hconns, htable⟩
    exact ⟨server, conns, howns, lt_connsCount hshape howns hget hkind, hget⟩

theorem tableOk_iff (hsound : Sound loop) :
    TableOk loop ↔ loop.directory.Complete ∧ Linked loop := by
  have hshape := hsound.toShape
  constructor
  · intro h
    refine ⟨fun slot fd hholds => ?_,
      fun i table j server connection hserver hconns hconn hkind => ?_⟩
    · cases slot with
      | server i =>
          obtain ⟨server, hlt, hserver, rfl⟩ := (holds_server_eq_some hshape).mp hholds
          exact h.servers_registered i server hlt hserver
      | conn table j =>
          obtain ⟨connection, hconn, hkind, rfl⟩ := holds_conn_eq_some.mp hholds
          obtain ⟨i, server, hserver, hconns⟩ := hshape.owned table j connection hconn hkind
          exact h.conns_registered i table j connection
            ((isConn_iff hshape).mpr ⟨server, hserver, hconns, hconn, hkind⟩)
    · exact (h.conns i table j connection
        ((isConn_iff hshape).mpr ⟨server, hserver, hconns, hconn, hkind⟩)).2
  · rintro ⟨hcomplete, hlinked⟩
    have hholds : ∀ i table j connection, loop.IsConn i table j connection →
        loop.directory.holds (.conn table j) = some connection.fd := by
      intro i table j connection hconn
      obtain ⟨-, -, -, hget, hkind⟩ := (isConn_iff hshape).mp hconn
      exact holds_conn_eq_some.mpr ⟨connection, hget, hkind, rfl⟩
    refine ⟨?_, hshape.id_inj, ?_, ?_, ?_, ?_⟩
    · intro i hi
      have hlt : i < loop.servers.length := lt_of_lt_of_le hi hshape.count_le
      have hserver := List.getElem?_eq_getElem hlt
      have hserves := hshape.serves i _ hi hserver
      refine ⟨_, hserver, hserves.kind_eq, hserves.active_eq, hserves.count_le, fun j hj => ?_⟩
      rcases hconns : loop.servers[i].conns with _ | table
      · rw [hserves.no_conns hconns] at hj
        exact absurd hj (Nat.not_lt_zero j)
      · obtain ⟨conns, htable, hlength, -⟩ := hserves.filled table hconns
        have hle := hserves.count_le
        exact ⟨table, _, _, conns, ⟨hi, hserver, hconns, htable⟩, hj,
          List.getElem?_eq_getElem (by omega)⟩
    · intro i table j connection hconn
      obtain ⟨server, hserver, hconns, hget, hkind⟩ := (isConn_iff hshape).mp hconn
      exact ⟨hkind, hlinked i table j server connection hserver hconns hget hkind⟩
    · intro i table j connection i' table' j' connection' hconn hconn' hfd
      have hheld := hholds i table j connection hconn
      have hheld' := hholds i' table' j' connection' hconn'
      rw [← hfd] at hheld'
      cases hcomplete.injective hheld hheld'
      obtain ⟨server, hserver, hconns, -⟩ := (isConn_iff hshape).mp hconn
      obtain ⟨server', hserver', hconns', -⟩ := (isConn_iff hshape).mp hconn'
      exact ⟨hshape.conns_inj i i' server server' table hserver hserver' hconns hconns', rfl⟩
    · intro i server hi hserver
      exact hcomplete _ _ ((holds_server_eq_some hshape).mpr ⟨server, hi, hserver, rfl⟩)
    · intro i table j connection hconn
      exact hcomplete _ _ (hholds i table j connection hconn)

end TableOk

/-- The descriptor that moves is open, and not the one that is closed: the directory is
complete after a swap-removal exactly when the kernel grants the registration. -/
theorem Kept.complete_iff {loop loop' : UsLoop} (hkept : Kept loop) {s last : Slot} {fd m : ℤ}
    {granted : Bool} (hs : loop.directory.holds s = some fd)
    (hlast : loop.directory.holds last = some m)
    (hdirectory : loop'.directory = loop.directory.swapRemove s last
      (granted && update loop.isOpen fd false m)) :
    loop'.directory.Complete ↔ (s ≠ last → granted = true) := by
  rw [hdirectory, Directory.complete_swapRemove_iff hkept.complete, hlast]
  refine forall_congr' fun hne => ?_
  have hfd : m ≠ fd := by
    rintro rfl
    exact hne (hkept.complete.injective hs hlast)
  have hopen := hkept.sound.open_of_registered m (by
    rw [← directory_finds, hkept.complete _ _ hlast]
    exact Option.some_ne_none _)
  rw [update_of_ne hfd, hopen, Bool.and_true]
  exact ⟨fun h => h (Option.some_ne_none _), fun h _ => h⟩

section Closing

variable {loop loop' : UsLoop} {granted : Bool} {i idx table last n : ℕ} {server : UsServer}
  {conns conns' : List UsConn} {connection moved : UsConn}

theorem Retables.linked (hlinked : Linked loop) (hshape : Shape loop)
    (howns : Owns loop i table server conns) (h : Retables loop loop' i table server conns' n)
    (hconns' : ∀ (j : ℕ) (c : UsConn), conns'[j]? = some c → c.kind = usKindConn →
      c.server = some i) :
    Linked loop' := by
  intro i' table' j server' c hserver' htable' hc hkind
  rw [h.conn?_eq] at hc
  rcases h.getElem?_servers_cases howns hserver' with ⟨rfl, rfl⟩ | ⟨hne, hsame⟩
  · obtain rfl : table = table' := Option.some.inj (howns.conns_eq.symm.trans htable')
    rw [if_pos rfl] at hc
    exact hconns' j c hc hkind
  · have htables : table' ≠ table := by
      rintro rfl
      exact howns.conns_ne hshape hne hsame htable'
    rw [if_neg htables] at hc
    exact hlinked i' table' j server' c hsame htable' hc hkind

theorem Closes.linked (hlinked : Linked loop) (hshape : Shape loop)
    (h : Closes loop loop' granted i idx table last server conns connection moved) :
    Linked loop' := by
  have hold : ∀ (j : ℕ) (c : UsConn), conns[j]? = some c → c.kind = usKindConn →
      c.server = some i := by
    intro j c hc hkind
    refine hlinked i table j server c h.owns.server_eq h.owns.conns_eq ?_ hkind
    rw [conn?_of_table h.owns.table_eq, hc]
  refine h.retables.linked hlinked hshape h.owns fun j c hc hkind => ?_
  rw [h.getElem?_conns] at hc
  split at hc
  · cases hc
    exact absurd hkind zeroConn_kind_ne
  · split at hc
    · cases hc
      exact hold last _ h.moved_eq hkind
    · exact hold j c hc hkind

/-- `close_conn` keeps the table in order exactly when the record it moves, if any, is
registered again. -/
theorem Closes.kept_iff (hkept : Kept loop) (hidx : idx < server.connsCount)
    (h : Closes loop loop' granted i idx table last server conns connection moved) :
    Kept loop' ↔ (idx ≠ last → granted = true) := by
  have hsound := hkept.sound
  have hlt : last < server.connsCount := by
    rw [h.count_eq]
    exact Nat.lt_succ_self last
  have hheld := h.owns.holds_eq hsound.toShape hidx h.conn_eq
  have hheldLast := h.owns.holds_eq hsound.toShape hlt h.moved_eq
  have hcomplete : loop'.directory.Complete ↔ (idx ≠ last → granted = true) := by
    rw [hkept.complete_iff hheld hheldLast (h.directory_eq hsound.toShape hidx)]
    simp only [ne_eq, Slot.conn.injEq, true_and]
  exact ⟨fun hkept' => hcomplete.mp hkept'.complete,
    fun hgranted => ⟨h.sound hsound hidx, hcomplete.mpr hgranted,
      h.linked hkept.linked hsound.toShape⟩⟩

end Closing

section Removing

variable {loop loop' : UsLoop} {granted : Bool} {idx last : ℕ} {server moved : UsServer}

theorem Removes.conn?_eq (hshape : Shape loop)
    (h : Removes loop loop' granted idx last server moved) {origin table : ℕ} {server' : UsServer}
    (hserver' : loop.servers[origin]? = some server') (hne : origin ≠ idx)
    (htable : server'.conns = some table) (j : ℕ) : loop'.conn? table j = loop.conn? table j := by
  rw [conn?, conn?, h.tables_of_ne hshape hserver' hne htable]

/-- The connections stay linked exactly when the server that moves has none. -/
theorem Removes.linked_iff (hlinked : Linked loop) (hshape : Shape loop)
    (h : Removes loop loop' granted idx last server moved) :
    Linked loop' ↔ (idx ≠ last → moved.connsCount = 0) := by
  have hlt : last < loop.serversCount := by
    rw [h.count_eq]
    exact Nat.lt_succ_self last
  have hserves := hshape.serves last moved hlt h.moved_eq
  constructor
  · intro hlinked' hne
    by_contra hcount
    rcases hconns : moved.conns with _ | table
    · exact hcount (hserves.no_conns hconns)
    · obtain ⟨conns, htable, hlength, hfilled⟩ := hserves.filled table hconns
      have hle := hserves.count_le
      have hget : conns[0]? = some conns[0] := List.getElem?_eq_getElem (by omega)
      have hkind := (hfilled.taken 0 _ (by omega) hget).1
      have hconn : loop.conn? table 0 = some conns[0] := by rw [conn?_of_table htable, hget]
      have hbefore := hlinked last table 0 moved _ h.moved_eq hconns hconn hkind
      have hconn' : loop'.conn? table 0 = some conns[0] := by
        rw [h.conn?_eq hshape h.moved_eq hne.symm hconns, hconn]
      have hserver' : loop'.servers[idx]? = some moved := by
        rw [h.getElem?_servers, if_neg hne, if_pos rfl]
      have hafter := hlinked' idx table 0 moved _ hserver' hconns hconn' hkind
      exact hne (Option.some.inj (hafter.symm.trans hbefore))
  · intro hempty i table j server' c hserver' hconns hc hkind
    rcases h.getElem?_servers_cases hserver' with ⟨-, rfl⟩ | ⟨hi, origin, horigin, hne, heq⟩
    · cases hconns
    · rw [h.conn?_eq hshape horigin hne hconns] at hc
      split at heq
      case isTrue hiidx =>
        -- the server that moved has no connections
        subst heq
        rw [h.moved_eq] at horigin
        cases horigin
        obtain ⟨conns, htable, -, hfilled⟩ := hserves.filled table hconns
        rw [conn?_of_table htable] at hc
        have hzero := hempty (by rw [← hiidx]; exact hi)
        rw [hfilled.vacant j c (by omega) hc] at hkind
        exact absurd hkind zeroConn_kind_ne
      case isFalse =>
        subst heq
        exact hlinked origin table j server' c horigin hconns hc hkind

/-- `us_server_close` keeps the table in order exactly when the server it moves, if any,
has no connections and is registered again. -/
theorem Removes.kept_iff (hkept : Kept loop) (hempty : server.connsCount = 0)
    (h : Removes loop loop' granted idx last server moved) :
    Kept loop' ↔ (idx ≠ last → moved.connsCount = 0 ∧ granted = true) := by
  have hsound := hkept.sound
  have hlt : last < loop.serversCount := by
    rw [h.count_eq]
    exact Nat.lt_succ_self last
  have hheld := (holds_server_eq_some hsound.toShape).mpr ⟨server, h.lt, h.server_eq, rfl⟩
  have hheldLast := (holds_server_eq_some hsound.toShape).mpr ⟨moved, hlt, h.moved_eq, rfl⟩
  have hcomplete : loop'.directory.Complete ↔ (idx ≠ last → granted = true) := by
    rw [hkept.complete_iff hheld hheldLast (h.directory_eq hsound.toShape hempty)]
    simp only [ne_eq, Slot.server.injEq]
  have hlinked := h.linked_iff hkept.linked hsound.toShape
  constructor
  · intro hkept' hne
    exact ⟨hlinked.mp hkept'.linked hne, hcomplete.mp hkept'.complete hne⟩
  · intro hmoved
    exact ⟨h.sound hsound hempty, hcomplete.mpr fun hne => (hmoved hne).2,
      hlinked.mpr fun hne => (hmoved hne).1⟩

end Removing

section Opening

variable {loop loop' : UsLoop}

theorem Linked.of_same (hlinked : Linked loop) (h : SameRecords loop loop') : Linked loop' := by
  intro i table j server c hserver hconns hc hkind
  rw [h.servers_eq] at hserver
  rw [conn?, h.tables_eq] at hc
  exact hlinked i table j server c hserver hconns hc hkind

theorem Kept.of_same (hkept : Kept loop) (h : SameRecords loop loop')
    (hopen : loop'.isOpen = loop.isOpen) (hregistered : loop'.registered = loop.registered) :
    Kept loop' := by
  refine ⟨hkept.sound.of_same h hopen hregistered, ?_, hkept.linked.of_same h⟩
  rw [directory_eq_of_same h hregistered]
  exact hkept.complete

theorem Kept.not_registered (hkept : Kept loop) {fd : ℤ} (hopen : loop.isOpen fd = false) :
    loop.directory.finds fd = none :=
  registered_of_not_open hkept.sound hopen

theorem Takes.linked {i table : ℕ} {server : UsServer} {conns : List UsConn} {fd : ℤ}
    (hlinked : Linked loop) (hshape : Shape loop) (h : Takes loop loop' i table server conns fd) :
    Linked loop' := by
  refine h.retables.linked hlinked hshape h.owns fun j c hc hkind => ?_
  rw [List.getElem?_set] at hc
  split at hc
  · split at hc
    · cases hc
      rfl
    · cases hc
  · exact hlinked i table j server c h.owns.server_eq h.owns.conns_eq
      (by rw [conn?_of_table h.owns.table_eq, hc]) hkind

theorem Takes.kept {i table : ℕ} {server : UsServer} {conns : List UsConn} {fd : ℤ}
    (hkept : Kept loop) (hopen : loop.isOpen fd = false) (hfd : 0 ≤ fd)
    (h : Takes loop loop' i table server conns fd) : Kept loop' := by
  have hshape := hkept.sound.toShape
  refine ⟨h.sound hkept.sound hfd, ?_, h.linked hkept.linked hshape⟩
  rw [h.directory_eq hshape]
  exact hkept.complete.insert _ (hkept.not_registered hopen)

/-- The new table of `us_server_create` has no connections. -/
theorem allocConns_conn? (hshape : Shape loop) {ok : Bool} {table j : ℕ} {c : UsConn}
    (hc : (loop.allocConns ok).2.conn? table j = some c) (hkind : c.kind = usKindConn) :
    loop.conn? table j = some c := by
  rcases Nat.lt_or_ge table loop.nextTable with hlt | hge
  · cases ok with
    | false => exact hc
    | true => rwa [conn?, show (loop.allocConns true).2.tables table = loop.tables table from
        update_of_ne (by omega) _ _] at hc
  · have hheld : loop.directory.holds (.conn table j) = some c.fd := by
      rw [← allocConns_directory hshape.table_lt ok]
      exact holds_conn_eq_some.mpr ⟨c, hc, hkind, rfl⟩
    obtain ⟨c', hc', -⟩ := holds_conn_eq_some.mp hheld
    obtain ⟨conns, htable, -⟩ := Option.bind_eq_some_iff.mp hc'
    have := hshape.table_lt table (by rw [htable]; exact Option.some_ne_none _)
    omega

theorem Linked.allocConns (hlinked : Linked loop) (hshape : Shape loop) (ok : Bool) :
    Linked (loop.allocConns ok).2 := by
  intro i table j server c hserver hconns hc hkind
  exact hlinked i table j server c hserver hconns (allocConns_conn? hshape hc hkind) hkind

theorem Kept.allocConns (hkept : Kept loop) (ok : Bool) : Kept (loop.allocConns ok).2 := by
  have hshape := hkept.sound.toShape
  have hdirectory := allocConns_directory hshape.table_lt ok
  refine ⟨⟨allocConns_shape hshape ok, ?_, hkept.sound.open_of_registered⟩, ?_,
    hkept.linked.allocConns hshape ok⟩
  · rw [hdirectory]
    exact hkept.sound.found
  · rw [hdirectory]
    exact hkept.complete

theorem Adds.linked {args : CreateArgs} {fd : ℤ} {ok : Bool} (hlinked : Linked loop)
    (hshape : Shape loop) (h : Adds loop loop' args fd ok) : Linked loop' := by
  intro i table j server c hserver hconns hc hkind
  rw [conn?, h.tables_eq] at hc
  have hold := allocConns_conn? hshape hc hkind
  rcases h.getElem?_servers_cases hserver with ⟨-, rfl⟩ | ⟨-, hserver⟩
  · -- a slot of the new table is not taken
    obtain ⟨i', server', hserver', hconns'⟩ := hshape.owned table j c hold hkind
    cases ok with
    | false => cases hconns
    | true =>
        obtain rfl : loop.nextTable = table := Option.some.inj hconns
        exact absurd hconns' (conns_ne_nextTable hshape hserver')
  · exact hlinked i table j server c hserver hconns hold hkind

theorem Adds.kept {args : CreateArgs} {fd : ℤ} {ok : Bool} (hkept : Kept loop)
    (hopen : loop.isOpen fd = false) (hfd : 0 ≤ fd) (h : Adds loop loop' args fd ok) :
    Kept loop' := by
  have hshape := hkept.sound.toShape
  refine ⟨h.sound hkept.sound hfd, ?_, h.linked hkept.linked hshape⟩
  rw [h.directory_eq hshape]
  exact hkept.complete.insert _ (hkept.not_registered hopen)

end Opening

section Handling

variable {loop loop' : UsLoop} {table j : ℕ} {conns : List UsConn}
  {connection connection' : UsConn} {event : Event}

theorem Prepares.linked (hlinked : Linked loop)
    (h : Prepares loop loop' table j conns connection connection') : Linked loop' := by
  intro i table' j' server c hserver hconns hc hkind
  rw [h.rewrites.servers_eq] at hserver
  rw [h.rewrites.conn?_eq] at hc
  split at hc
  case isTrue heq =>
    cases hc
    rw [h.rewrites.server_eq]
    refine hlinked i table j server connection hserver (by rw [← heq.1, hconns]) ?_
      h.rewrites.kind_eq
    rw [conn?_of_table h.rewrites.table_eq, h.rewrites.conn_eq]
  case isFalse => exact hlinked i table' j' server c hserver hconns hc hkind

theorem Prepares.kept (hkept : Kept loop)
    (h : Prepares loop loop' table j conns connection connection') : Kept loop' := by
  refine ⟨h.sound hkept.sound, ?_, h.linked hkept.linked⟩
  rw [h.directory_eq]
  exact hkept.complete

/-- An event keeps the table in order unless it closes a connection before the last of
its server, and the last is not registered again. -/
theorem HandlesConn.kept_iff (hkept : Kept loop)
    (h : HandlesConn loop loop' table j conns connection event) :
    Kept loop' ↔ (endsConn connection event = true → ∀ i server, connection.server = some i →
      loop.servers[i]? = some server → j + 1 ≠ server.connsCount → event.granted = true) := by
  cases h with
  | stays connection' hends hprepares _ =>
      rw [hends]
      exact iff_of_true (hprepares.kept hkept) fun h => nomatch h
  | ends loop₁ connection' hends hprepares hend =>
      have hkept₁ := hprepares.kept hkept
      have hshape₁ := hkept₁.sound.toShape
      obtain ⟨htable, hconn⟩ := hprepares.getElem?_eq
      have hkind := hprepares.rewrites.kind_eq'
      have hconn? : loop₁.conn? table j = some connection' := by
        rw [conn?_of_table htable, hconn]
      -- the record points to the server that owns its slot
      obtain ⟨i, server, hserver, hconns⟩ := hshape₁.owned table j connection' hconn? hkind
      have hlink := hkept₁.linked i table j server connection' hserver hconns hconn? hkind
      obtain ⟨i', server', hi', hserver', hcases⟩ := endConn_cases hshape₁ htable hconn hkind hend
      obtain rfl : i = i' := Option.some.inj (hlink.symm.trans hi')
      obtain rfl : server = server' := Option.some.inj (hserver.symm.trans hserver')
      rcases hcases with ⟨-, hj, last, moved, hcloses⟩ | ⟨hlost, -⟩
      · rw [hcloses.kept_iff hkept₁ hj]
        rw [hprepares.rewrites.server_eq] at hlink
        rw [hprepares.rewrites.servers_eq] at hserver
        have hcount := hcloses.count_eq
        constructor
        · intro hgranted _ i' server' hi' hserver' hne
          obtain rfl : i = i' := Option.some.inj (hlink.symm.trans hi')
          obtain rfl : server = server' := Option.some.inj (hserver.symm.trans hserver')
          exact hgranted (by omega)
        · intro hgranted hne
          exact hgranted hends i server hlink hserver (by omega)
      · exact absurd hconns hlost

end Handling

/-- What an action must meet to keep the server table in order. A record that moves is
registered again; and the server that `us_server_close` moves has no connections. -/
def MovesWhole (loop : UsLoop) : Action → Prop
  | .create _ _ => True
  | .clientClose serverId clientFd granted => ∀ i server idx,
      loop.findServerById serverId = some i → loop.servers[i]? = some server →
      loop.findConnByFd server clientFd = some idx → idx + 1 ≠ server.connsCount → granted = true
  | .serverClose serverId granted => ∀ idx moved,
      loop.findServerById serverId = some idx → idx + 1 ≠ loop.serversCount →
      loop.servers[loop.serversCount - 1]? = some moved → moved.connsCount = 0 ∧ granted = true
  | .event event => ∀ table j connection, event.udata = some (.conn table j) →
      loop.conn? table j = some connection → connection.kind = usKindConn →
      endsConn connection event = true → ∀ i server, connection.server = some i →
      loop.servers[i]? = some server → j + 1 ≠ server.connsCount → event.granted = true

section Step

variable {loop loop' : UsLoop}

theorem kept_usClientClose_iff (hkept : Kept loop) {serverId clientFd rc : ℤ} {granted : Bool}
    (h : loop.usClientClose serverId clientFd granted = some (rc, loop')) :
    Kept loop' ↔ MovesWhole loop (.clientClose serverId clientFd granted) := by
  rcases usClientClose_cases hkept.sound.toShape h with ⟨rfl, hnone⟩ |
    ⟨i, server, idx, hfind, hserver, hidx, table, last, conns, connection, moved, hcloses⟩
  · refine iff_of_true hkept fun i server idx hfind hserver hidx => ?_
    rw [hnone i server hfind hserver] at hidx
    cases hidx
  · rw [hcloses.kept_iff hkept (findConnByFd_lt hidx)]
    have hcount := hcloses.count_eq
    constructor
    · intro hgranted i' server' idx' hfind' hserver' hidx' hne
      obtain rfl : i = i' := Option.some.inj (hfind.symm.trans hfind')
      obtain rfl : server = server' := Option.some.inj (hserver.symm.trans hserver')
      obtain rfl : idx = idx' := Option.some.inj (hidx.symm.trans hidx')
      exact hgranted (by omega)
    · intro hmoves hne
      exact hmoves i server idx hfind hserver hidx (by omega)

theorem kept_usServerClose_iff (hkept : Kept loop) {serverId rc : ℤ} {granted : Bool}
    (h : loop.usServerClose serverId granted = some (rc, loop')) :
    Kept loop' ↔ MovesWhole loop (.serverClose serverId granted) := by
  rcases usServerClose_cases hkept.sound.toShape h with ⟨rfl, hnone⟩ |
    ⟨idx, server, loop₁, hfind, hidx, hserver, hconns, hremove⟩
  · refine iff_of_true hkept fun idx moved hfind => ?_
    rw [hnone] at hfind
    cases hfind
  · -- closing the last connection moves none
    have hclosed : ∀ (loop loop' : UsLoop) idx' table (server : UsServer) conns connection moved,
        Sound loop → idx' < server.connsCount →
        Closes loop loop' false idx idx' table idx' server conns connection moved →
        Kept loop → Kept loop' :=
      fun loop loop' idx' table server conns connection moved _ hlt hcloses hkept =>
        (hcloses.kept_iff hkept hlt).mpr fun hne => absurd rfl hne
    obtain ⟨-, hkept₁, hcount, hservers, last, moved, hremoves⟩ :=
      closeServer_spec hclosed hkept.sound hidx hserver hkept hconns hremove
    rw [hremoves.kept_iff hkept₁ rfl]
    have hlast := hremoves.count_eq
    rw [hcount] at hlast
    have hsame : idx ≠ last → loop.servers[loop.serversCount - 1]? = some moved := fun hne => by
      rw [hlast, Nat.add_sub_cancel, ← hremoves.moved_eq, hservers, List.getElem?_set_ne hne]
    constructor
    · intro hmoved idx' moved' hfind' hne hmoved'
      obtain rfl : idx = idx' := Option.some.inj (hfind.symm.trans hfind')
      have hne' : idx ≠ last := by omega
      obtain rfl : moved = moved' := Option.some.inj ((hsame hne').symm.trans hmoved')
      exact hmoved hne'
    · intro hmoves hne
      exact hmoves idx moved hfind (by omega) (hsame hne)

theorem kept_usServerCreate (hkept : Kept loop) {args : CreateArgs} {meets : CreateMeets} {rc : ℤ}
    (h : loop.usServerCreate args meets = some (rc, loop')) : Kept loop' := by
  obtain ⟨-, ⟨ok, hsame, hopen, hregistered⟩ | ⟨fd, ok, hfd, hopen, hadds⟩⟩ :=
    usServerCreate_cases hkept.sound h
  · exact (hkept.allocConns ok).of_same hsame hopen hregistered
  · exact hadds.kept hkept hopen hfd

theorem kept_acceptNewClients (hkept : Kept loop) {i : ℕ} {meets : List Accepted} {rc : ℤ}
    (hi : i < loop.serversCount) (h : acceptNewClients i loop meets = some (rc, loop')) :
    Kept loop' := by
  refine (acceptNewClients_induct ?_ ?_ hkept.sound hi hkept h).2
  · intro loop loop' fd _ _ hrefuses hkept
    exact hkept.of_same hrefuses.same hrefuses.isOpen_eq hrefuses.registered_eq
  · intro loop loop' table server conns fd _ hfd hopen htakes hkept
    exact htakes.kept hkept hopen hfd

/-- Each action keeps the server table in order exactly when it moves records whole. -/
theorem kept_step_iff (hkept : Kept loop) {action : Action}
    (h : loopStep loop action = some loop') : Kept loop' ↔ MovesWhole loop action := by
  cases action with
  | create args meets =>
      obtain ⟨⟨rc, loop₁⟩, hcreate, rfl⟩ := Option.map_eq_some_iff.mp h
      exact iff_of_true (kept_usServerCreate hkept hcreate) trivial
  | clientClose serverId clientFd granted =>
      obtain ⟨⟨rc, loop₁⟩, hclose, rfl⟩ := Option.map_eq_some_iff.mp h
      exact kept_usClientClose_iff hkept hclose
  | serverClose serverId granted =>
      obtain ⟨⟨rc, loop₁⟩, hclose, rfl⟩ := Option.map_eq_some_iff.mp h
      exact kept_usServerClose_iff hkept hclose
  | event event =>
      cases handles_of_eq hkept.sound.toShape h with
      | ignores hvacant hsame =>
          subst hsame
          refine iff_of_true hkept fun table j connection hudata hconn hkind => ?_
          have hheld : loop'.directory.holds (.conn table j) = some connection.fd :=
            holds_conn_eq_some.mpr ⟨connection, hconn, hkind, rfl⟩
          rw [hvacant _ hudata] at hheld
          cases hheld
      | accepts i rc hudata hi haccept =>
          refine iff_of_true (kept_acceptNewClients hkept hi haccept) fun table j _ hudata' => ?_
          cases hudata.symm.trans hudata'
      | conn table j conns connection hudata htable hconn hkind hhandles =>
          rw [hhandles.kept_iff hkept]
          constructor
          · intro hmoved table' j' connection' hudata' hconn' _
            cases hudata.symm.trans hudata'
            rw [conn?_of_table htable, hconn] at hconn'
            cases hconn'
            exact hmoved
          · intro hmoves
            exact hmoves table j connection hudata (by rw [conn?_of_table htable, hconn]) hkind

theorem kept_usLoopCreate : Kept usLoopCreate := by
  refine ⟨sound_usLoopCreate, ?_, ?_⟩
  · intro slot fd hholds
    cases slot with
    | server i =>
        obtain ⟨server, hi, -⟩ :=
          (holds_server_eq_some sound_usLoopCreate.toShape).mp hholds
        exact absurd hi (Nat.not_lt_zero i)
    | conn table j =>
        obtain ⟨connection, hconn, -⟩ := holds_conn_eq_some.mp hholds
        cases hconn
  · intro i table j server connection _ _ hconn
    cases hconn

end Step

/-- In every run from a new loop the server table is in order in every state, exactly when
every action moves records whole: kqueue takes the registration of each record that
moves, and `us_server_close` closes the last server, or the last has no connections. -/
theorem server_table_ok_iff (actions : List Action) :
    Throughout loopStep TableOk usLoopCreate actions ↔
      Along loopStep MovesWhole usLoopCreate actions := by
  refine throughout_iff_along ?_ ?_ ?_ kept_usLoopCreate
  · exact fun loop hkept => (tableOk_iff hkept.sound).mpr ⟨hkept.complete, hkept.linked⟩
  · exact fun loop loop' action _ hkept hmoves hstep => (kept_step_iff hkept hstep).mpr hmoves
  · intro loop loop' action _ hkept hmoves hstep hok
    have hsound' := sound_step hkept.sound hstep
    obtain ⟨hcomplete, hlinked⟩ := (tableOk_iff hsound').mp hok
    exact hmoves ((kept_step_iff hkept hstep).mp ⟨hsound', hcomplete, hlinked⟩)

/-- The arguments for a TCP server on a port. -/
def tcpArgs (port : UInt16) : CreateArgs := ⟨1, 0, port, 64, some 1, none, none, 0⟩

/-- Two servers listen on the descriptors 3 and 4, a client of the second is accepted as
descriptor 5, and the first server is closed. -/
def closeFirst : List Action :=
  [.create (tcpArgs 8000) ⟨some 3, true, true, true, true, true⟩,
    .create (tcpArgs 8001) ⟨some 4, true, true, true, true, true⟩,
    .event ⟨4, some (.server 1), false, [], [.client 5 true true true], true⟩,
    .serverClose 1 true]

/-- The connection of the second server still points to the slot it moved out of. -/
theorem close_first_server_unlinks :
    ∃ loop, run loopStep usLoopCreate closeFirst = some loop ∧ ¬ TableOk loop := by
  refine ⟨_, rfl, fun hok => ?_⟩
  have hback := (hok.conns 0 1 0 _ ⟨_, _, ⟨Nat.one_pos, rfl, rfl, rfl⟩, Nat.one_pos, rfl⟩).2
  cases hback

end UsLoop

end Server

end ConArtist
