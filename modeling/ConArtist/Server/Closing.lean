import ConArtist.Server.Slots

/-!
# Closing connections and servers

What `close_conn` and `us_server_close` do to the records and the registrations. Both
vacate a slot by swap-removal, `close_conn` in a connection table and `us_server_close`
in `m_servers`, so both are a `Directory.swapRemove` of the slots.
-/

namespace ConArtist

namespace Server

open Function

namespace UsLoop

/-- What a call of `close_conn` does. -/
structure Closes (loop loop' : UsLoop) (granted : Bool) (i idx table last : ℕ)
    (server : UsServer) (conns : List UsConn) (connection moved : UsConn) : Prop where
  owns : Owns loop i table server conns
  conn_eq : conns[idx]? = some connection
  count_eq : server.connsCount = last + 1
  moved_eq : conns[last]? = some moved
  buf_ne : connection.buf ≠ .freed
  retables : Retables loop loop' i table server ((conns.set idx moved).set last zeroConn) last
  isOpen_eq : loop'.isOpen = update loop.isOpen connection.fd false
  registered_eq : loop'.registered =
    if idx = last then update loop.registered connection.fd none
    else update (update loop.registered connection.fd none) moved.fd
      (if granted && update loop.isOpen connection.fd false moved.fd then some (.conn table idx)
        else none)
  log_eq : loop'.log = loop.log ++ .closes connection.fd :: disconnects server (.conn table idx)

theorem kqMove_eq (loop : UsLoop) (granted : Bool) (fd : ℤ) (udata : Slot) :
    loop.kqMove granted fd udata =
      { loop with
        registered := update loop.registered fd
          (if granted && loop.isOpen fd then some udata else none) } := by
  rw [kqMove, kqAddRead]
  have hopen : (loop.kqDelRead fd).isOpen fd = loop.isOpen fd := rfl
  rw [hopen]
  cases granted && loop.isOpen fd with
  | true => simp [kqDelRead]
  | false => rfl

/-- A swap-removal of the slots keeps a loop sound: the record that moves is registered
again only if the kernel still has its descriptor open. -/
theorem Sound.of_swapRemove {loop loop' : UsLoop} (hsound : Sound loop) (hshape : Shape loop')
    {s last : Slot} {granted : Bool} {fd m : ℤ}
    (hdirectory : loop'.directory = loop.directory.swapRemove s last
      (granted && update loop.isOpen fd false m))
    (hs : loop.directory.holds s = some fd) (hlast : loop.directory.holds last = some m)
    (hopen : loop'.isOpen = update loop.isOpen fd false) : Sound loop' := by
  refine ⟨hshape, ?_, fun k hk => ?_⟩
  · rw [hdirectory]
    exact hsound.found.swapRemove _ _ _
  · obtain ⟨slot, hslot⟩ := Option.ne_none_iff_exists'.mp hk
    rw [← directory_finds, hdirectory] at hslot
    obtain ⟨hkey, hcases⟩ := Directory.finds_swapRemove_cases hslot
    rw [hs] at hkey
    have hne : k ≠ fd := fun heq => hkey (congrArg some heq.symm)
    rw [hopen]
    rcases hcases with ⟨-, -, hmoved, hgranted⟩ | ⟨-, hfinds⟩
    · rw [hlast, Option.some.injEq] at hmoved
      rw [← hmoved]
      exact (Bool.and_eq_true_iff.mp hgranted).2
    · rw [update_of_ne hne]
      rw [directory_finds] at hfinds
      exact hsound.open_of_registered k (by rw [hfinds]; exact Option.some_ne_none _)

section CloseConn

variable {loop loop' : UsLoop} {granted : Bool} {i idx table last : ℕ} {server : UsServer}
  {conns : List UsConn} {connection moved : UsConn}

theorem closeConn_spec (hshape : Shape loop) (hi : i < loop.serversCount)
    (hserver : loop.servers[i]? = some server) (hidx : idx < server.connsCount)
    (h : loop.closeConn granted i idx = some loop') :
    ∃ table last conns connection moved,
      Closes loop loop' granted i idx table last server conns connection moved := by
  have hserves := hshape.serves i server hi hserver
  obtain ⟨last, hcount⟩ : ∃ last, server.connsCount = last + 1 := ⟨server.connsCount - 1, by omega⟩
  obtain ⟨table, htable⟩ : ∃ table, server.conns = some table := by
    rcases hnone : server.conns with _ | table
    · have := hserves.no_conns hnone
      omega
    · exact ⟨table, rfl⟩
  obtain ⟨conns, hconns, hlength, hfilled⟩ := hserves.filled table htable
  have hle := hserves.count_le
  obtain ⟨connection, hconn⟩ : ∃ connection, conns[idx]? = some connection :=
    ⟨conns[idx], List.getElem?_eq_getElem (by omega)⟩
  obtain ⟨moved, hmoved⟩ : ∃ moved, conns[last]? = some moved :=
    ⟨conns[last], List.getElem?_eq_getElem (by omega)⟩
  have hfd := (hfilled.taken idx connection hidx hconn).2
  refine ⟨table, last, conns, connection, moved, ?_⟩
  rw [closeConn, hserver, Option.bind_eq_bind, Option.bind_some, htable, Option.bind_eq_bind,
    Option.bind_some, hconns, Option.bind_eq_bind, Option.bind_some, hconn, Option.bind_eq_bind,
    Option.bind_some] at h
  simp only [if_pos hfd, hcount] at h
  have hbuf : connection.buf ≠ .freed := fun hfreed => by
    rw [hfreed] at h
    cases h
  have howns : Owns loop i table server conns := ⟨hi, hserver, htable, hconns⟩
  split at h
  case h_1 hfreed => exact absurd hfreed hbuf
  case h_2 hzero _ => cases hzero
  case h_3 last' hlast _ =>
    cases hlast
    rw [hmoved, Option.bind_some, Option.some.injEq] at h
    subst h
    by_cases heq : idx = last
    · subst heq
      simp only [ne_eq, not_true_eq_false, if_false]
      refine ⟨howns, hconn, hcount, hmoved, hbuf, ⟨?_, rfl, ?_, rfl, rfl⟩, rfl, ?_, ?_⟩
      · rw [← htable]
        rfl
      · rw [List.set_set]
        rfl
      · rw [if_pos rfl]
        exact update_idem _ _ _
      · exact List.append_assoc _ _ _
    · simp only [ne_eq, heq, not_false_eq_true, if_true, kqMove_eq]
      refine ⟨howns, hconn, hcount, hmoved, hbuf, ⟨?_, rfl, rfl, rfl, rfl⟩, rfl, ?_, ?_⟩
      · rw [← htable]
        rfl
      · rw [if_neg heq]
        exact congrArg (fun registered => update registered moved.fd _) (update_idem _ _ _)
      · exact List.append_assoc _ _ _

theorem Closes.getElem?_conns
    (h : Closes loop loop' granted i idx table last server conns connection moved) (j : ℕ) :
    ((conns.set idx moved).set last zeroConn)[j]? =
      if j = last then some zeroConn else if j = idx then some moved else conns[j]? := by
  have hlast := (List.getElem?_eq_some_iff.mp h.moved_eq).1
  have hidx := (List.getElem?_eq_some_iff.mp h.conn_eq).1
  rw [List.getElem?_set, List.length_set, List.getElem?_set]
  rcases eq_or_ne j last with rfl | hjlast
  · rw [if_pos rfl, if_pos rfl, if_pos hlast]
  · rw [if_neg hjlast.symm, if_neg hjlast]
    rcases eq_or_ne j idx with rfl | hjidx
    · rw [if_pos rfl, if_pos rfl, if_pos hidx]
    · rw [if_neg hjidx.symm, if_neg hjidx]

theorem Closes.shape (hshape : Shape loop) (hidx : idx < server.connsCount)
    (h : Closes loop loop' granted i idx table last server conns connection moved) :
    Shape loop' := by
  obtain ⟨hlength, hle, hfilled⟩ := h.owns.filled hshape
  have hcount := h.count_eq
  refine h.retables.shape hshape h.owns ?_ (by omega) ⟨?_, ?_⟩
  · rw [List.length_set, List.length_set]
  · intro j c hj hc
    rw [h.getElem?_conns, if_neg (by omega)] at hc
    split at hc
    · cases hc
      exact hfilled.taken last _ (by omega) h.moved_eq
    · exact hfilled.taken j c (by omega) hc
  · intro j c hj hc
    rw [h.getElem?_conns] at hc
    split at hc
    · exact (Option.some.inj hc).symm
    · rw [if_neg (by omega)] at hc
      exact hfilled.vacant j c (by omega) hc

theorem Owns.holds_eq (hshape : Shape loop) (h : Owns loop i table server conns) {j : ℕ}
    (hj : j < server.connsCount) {c : UsConn} (hc : conns[j]? = some c) :
    loop.directory.holds (.conn table j) = some c.fd := by
  have hkind := ((h.filled hshape).2.2.taken j c hj hc).1
  rw [holds_conn, conn?_of_table h.table_eq, hc, Option.bind_some, UsConn.held, if_pos hkind]

/-- The slots after a call of `close_conn`. -/
theorem Closes.slotsBy_eq {g : UsConn → Option ℤ} (hg : g zeroConn = none)
    (h : Closes loop loop' granted i idx table last server conns connection moved) :
    loop'.slotsBy g = update (update (loop.slotsBy g) (.conn table idx)
      (loop.slotsBy g (.conn table last))) (.conn table last) none := by
  funext slot
  cases slot with
  | server i' =>
      rw [h.retables.slotsBy_server h.owns, update_of_ne (by simp), update_of_ne (by simp)]
  | conn table' j =>
      rw [slotsBy_conn, h.retables.conn?_eq]
      rcases eq_or_ne table' table with rfl | htable
      · rw [if_pos rfl, h.getElem?_conns]
        rcases eq_or_ne j last with rfl | hjlast
        · rw [if_pos rfl, update_self]
          exact hg
        · rw [if_neg hjlast, update_of_ne (by simpa using hjlast)]
          rcases eq_or_ne j idx with rfl | hjidx
          · rw [if_pos rfl, update_self, slotsBy_conn, conn?_of_table h.owns.table_eq, h.moved_eq]
          · rw [if_neg hjidx, update_of_ne (by simpa using hjidx), slotsBy_conn,
              conn?_of_table h.owns.table_eq]
      · rw [if_neg htable, update_of_ne (by simp [htable]), update_of_ne (by simp [htable]),
          slotsBy_conn]

/-- `close_conn` is a swap-removal. -/
theorem Closes.directory_eq (hshape : Shape loop) (hidx : idx < server.connsCount)
    (h : Closes loop loop' granted i idx table last server conns connection moved) :
    loop'.directory = loop.directory.swapRemove (.conn table idx) (.conn table last)
      (granted && update loop.isOpen connection.fd false moved.fd) := by
  have hlt : last < server.connsCount := by
    rw [h.count_eq]
    exact Nat.lt_succ_self last
  have hheld := h.owns.holds_eq hshape hidx h.conn_eq
  have hheldLast := h.owns.holds_eq hshape hlt h.moved_eq
  refine Directory.ext ?_ ?_
  · rw [Directory.swapRemove_holds, directory_holds, directory_holds, h.slotsBy_eq rfl]
  · have hclosed : moved.fd = connection.fd →
        (granted && update loop.isOpen connection.fd false moved.fd) = false := fun hsame => by
      rw [hsame, update_self, Bool.and_false]
    rw [Directory.swapRemove_finds_eq hheld hheldLast hclosed, directory_finds, directory_finds,
      h.registered_eq]
    simp only [Slot.conn.injEq, true_and]

theorem Closes.sound (hsound : Sound loop) (hidx : idx < server.connsCount)
    (h : Closes loop loop' granted i idx table last server conns connection moved) :
    Sound loop' := by
  have hlt : last < server.connsCount := by
    rw [h.count_eq]
    exact Nat.lt_succ_self last
  exact hsound.of_swapRemove (h.shape hsound.toShape hidx) (h.directory_eq hsound.toShape hidx)
    (h.owns.holds_eq hsound.toShape hidx h.conn_eq) (h.owns.holds_eq hsound.toShape hlt h.moved_eq)
    h.isOpen_eq

/-- A round of `while (server->m_conns_count > 0) close_conn(…)`: the last connection is closed,
and no other is moved. -/
theorem closeConns_succ {n : ℕ} (hshape : Shape loop) (hi : i < loop.serversCount)
    (hserver : loop.servers[i]? = some server) (hn : server.connsCount = n + 1)
    (h : closeConns i (n + 1) loop = some loop') :
    ∃ loop₁ table conns connection moved,
      Closes loop loop₁ false i n table n server conns connection moved ∧
        i < loop₁.serversCount ∧ loop₁.servers[i]? = some { server with connsCount := n } ∧
        closeConns i n loop₁ = some loop' := by
  rw [closeConns] at h
  obtain ⟨loop₁, hclose, hrest⟩ := Option.bind_eq_some_iff.mp h
  have hidx : n < server.connsCount := by omega
  obtain ⟨table, last, conns, connection, moved, hcloses⟩ :=
    closeConn_spec hshape hi hserver hidx hclose
  obtain rfl : last = n := Nat.succ.inj (hcloses.count_eq.symm.trans hn)
  refine ⟨loop₁, table, conns, connection, moved, hcloses, ?_, ?_, hrest⟩
  · rw [hcloses.retables.serversCount_eq]
    exact hi
  · rw [hcloses.retables.getElem?_servers hcloses.owns, if_pos rfl]

/-- `while (server->m_conns_count > 0) close_conn(…)`. Each call closes the last
connection and moves none, so it keeps `P`. -/
theorem closeConns_spec {P : UsLoop → Prop}
    (hP : ∀ loop loop' idx table server conns connection moved, Sound loop →
      idx < server.connsCount →
      Closes loop loop' false i idx table idx server conns connection moved → P loop → P loop')
    {n : ℕ} (hsound : Sound loop) (hi : i < loop.serversCount)
    (hserver : loop.servers[i]? = some server) (hn : server.connsCount = n) (hloop : P loop)
    (h : closeConns i n loop = some loop') :
    Sound loop' ∧ P loop' ∧ loop'.serversCount = loop.serversCount ∧
      loop'.servers = loop.servers.set i { server with connsCount := 0 } := by
  induction n generalizing loop server with
  | zero =>
      cases h
      refine ⟨hsound, hloop, rfl, ?_⟩
      obtain ⟨hlt, hget⟩ := List.getElem?_eq_some_iff.mp hserver
      have hsame : { server with connsCount := 0 } = loop'.servers[i] := by
        rw [hget, ← hn]
      rw [hsame, List.set_getElem_self]
  | succ n ih =>
      obtain ⟨loop₁, table, conns, connection, moved, hcloses, hi₁, hserver₁, hrest⟩ :=
        closeConns_succ hsound.toShape hi hserver hn h
      have hidx : n < server.connsCount := hn ▸ Nat.lt_succ_self n
      obtain ⟨hsound', hloop', hcount, hservers⟩ := ih (hcloses.sound hsound hidx) hi₁ hserver₁ rfl
        (hP _ _ _ _ _ _ _ _ hsound hidx hcloses hloop) hrest
      refine ⟨hsound', hloop', hcount.trans hcloses.retables.serversCount_eq, ?_⟩
      rw [hservers, hcloses.retables.servers_eq, List.set_set]

end CloseConn

/-- `us_server_close` once the connections are closed. -/
structure Removes (loop loop' : UsLoop) (granted : Bool) (idx last : ℕ)
    (server moved : UsServer) : Prop where
  lt : idx < loop.serversCount
  server_eq : loop.servers[idx]? = some server
  count_eq : loop.serversCount = last + 1
  moved_eq : loop.servers[last]? = some moved
  servers_eq : loop'.servers = (loop.servers.set idx moved).set last zeroServer
  serversCount_eq : loop'.serversCount = last
  tables_eq : loop'.tables = (loop.freeConns server.conns).tables
  nextTable_eq : loop'.nextTable = loop.nextTable
  nextServerId_eq : loop'.nextServerId = loop.nextServerId
  isOpen_eq : loop'.isOpen = update loop.isOpen server.listenFd false
  registered_eq : loop'.registered =
    if idx = last then update loop.registered server.listenFd none
    else update (update loop.registered server.listenFd none) moved.listenFd
      (if granted && update loop.isOpen server.listenFd false moved.listenFd then
        some (.server idx) else none)
  log_eq : loop'.log = loop.log ++ [.closes server.listenFd]

section RemoveServer

variable {loop loop' : UsLoop} {granted : Bool} {idx last : ℕ} {server moved : UsServer}

theorem removeServer_spec (hshape : Shape loop) (hidx : idx < loop.serversCount)
    (hserver : loop.servers[idx]? = some server) (h : loop.removeServer granted idx = some loop') :
    ∃ last moved, Removes loop loop' granted idx last server moved := by
  obtain ⟨last, hcount⟩ : ∃ last, loop.serversCount = last + 1 := ⟨loop.serversCount - 1, by omega⟩
  have hle := hshape.count_le
  obtain ⟨moved, hmoved⟩ : ∃ moved, loop.servers[last]? = some moved :=
    ⟨loop.servers[last], List.getElem?_eq_getElem (by omega)⟩
  have hfd := (hshape.serves idx server hidx hserver).listenFd_nonneg
  refine ⟨last, moved, ?_⟩
  rw [removeServer, hserver, Option.bind_eq_bind, Option.bind_some] at h
  simp only [if_pos hfd] at h
  split at h
  case h_1 => cases h
  case h_2 last' hlast =>
    obtain rfl : last = last' := Nat.succ.inj (hcount.symm.trans hlast)
    obtain ⟨moved', hmoved', h⟩ := Option.bind_eq_some_iff.mp h
    obtain rfl : moved = moved' := Option.some.inj (hmoved.symm.trans hmoved')
    rw [Option.some.injEq] at h
    subst h
    by_cases heq : idx = last
    · subst heq
      obtain rfl : server = moved := Option.some.inj (hserver.symm.trans hmoved)
      simp only [ne_eq, not_true_eq_false, if_false]
      refine ⟨hidx, hserver, hcount, hmoved, ?_, rfl, rfl, rfl, rfl, rfl, ?_, rfl⟩
      · exact (List.set_set _).trans (List.set_set _).symm
      · rw [if_pos rfl]
        exact update_idem _ _ _
    · simp only [ne_eq, heq, not_false_eq_true, if_true, kqMove_eq]
      refine ⟨hidx, hserver, hcount, hmoved, ?_, rfl, rfl, rfl, rfl, rfl, ?_, rfl⟩
      · exact congrArg (fun servers => List.set servers last zeroServer) (List.set_set _)
      · rw [if_neg heq]
        exact congrArg (fun registered => update registered moved.listenFd _) (update_idem _ _ _)

/-- `us_server_close` on a server: what its connections keep holds of the loop from which the
server is removed. -/
theorem closeServer_spec {P : UsLoop → Prop}
    (hP : ∀ loop loop' idx' table server conns connection moved, Sound loop →
      idx' < server.connsCount →
      Closes loop loop' false idx idx' table idx' server conns connection moved → P loop → P loop')
    {loop₁ : UsLoop} (hsound : Sound loop) (hidx : idx < loop.serversCount)
    (hserver : loop.servers[idx]? = some server) (hloop : P loop)
    (hconns : closeConns idx server.connsCount loop = some loop₁)
    (hremove : loop₁.removeServer granted idx = some loop') :
    Sound loop₁ ∧ P loop₁ ∧ loop₁.serversCount = loop.serversCount ∧
      loop₁.servers = loop.servers.set idx { server with connsCount := 0 } ∧
      ∃ last moved, Removes loop₁ loop' granted idx last { server with connsCount := 0 } moved := by
  obtain ⟨hsound₁, hloop₁, hcount, hservers⟩ :=
    closeConns_spec hP hsound hidx hserver rfl hloop hconns
  have hserver₁ : loop₁.servers[idx]? = some { server with connsCount := 0 } := by
    rw [hservers, List.getElem?_set_self (List.getElem?_eq_some_iff.mp hserver).1]
  have hidx₁ : idx < loop₁.serversCount := hcount.symm ▸ hidx
  exact ⟨hsound₁, hloop₁, hcount, hservers,
    removeServer_spec hsound₁.toShape hidx₁ hserver₁ hremove⟩

theorem Removes.getElem?_servers (h : Removes loop loop' granted idx last server moved) (i : ℕ) :
    loop'.servers[i]? =
      if i = last then some zeroServer else if i = idx then some moved else loop.servers[i]? := by
  have hlast := (List.getElem?_eq_some_iff.mp h.moved_eq).1
  have hidx := (List.getElem?_eq_some_iff.mp h.server_eq).1
  rw [h.servers_eq, List.getElem?_set, List.length_set, List.getElem?_set]
  rcases eq_or_ne i last with rfl | hilast
  · rw [if_pos rfl, if_pos rfl, if_pos hlast]
  · rw [if_neg hilast.symm, if_neg hilast]
    rcases eq_or_ne i idx with rfl | hiidx
    · rw [if_pos rfl, if_pos rfl, if_pos hidx]
    · rw [if_neg hiidx.symm, if_neg hiidx]

theorem Removes.getElem?_servers_cases (h : Removes loop loop' granted idx last server moved)
    {i : ℕ} {server' : UsServer} (hserver' : loop'.servers[i]? = some server') :
    (i = last ∧ server' = zeroServer) ∨
      (i ≠ last ∧ ∃ origin, loop.servers[origin]? = some server' ∧ origin ≠ idx ∧
        origin = if i = idx then last else i) := by
  rw [h.getElem?_servers] at hserver'
  split at hserver'
  case isTrue hi => exact Or.inl ⟨hi, (Option.some.inj hserver').symm⟩
  case isFalse hi =>
    refine Or.inr ⟨hi, ?_⟩
    split at hserver'
    case isTrue hidx =>
      cases hserver'
      refine ⟨last, h.moved_eq, ?_, (if_pos hidx).symm⟩
      rw [← hidx]
      exact fun heq => hi heq.symm
    case isFalse hidx => exact ⟨i, hserver', hidx, (if_neg hidx).symm⟩

theorem freeConns_some (loop : UsLoop) (table : ℕ) :
    (loop.freeConns (some table)).tables = update loop.tables table none := rfl

theorem Removes.tables_apply (h : Removes loop loop' granted idx last server moved) (table : ℕ) :
    loop'.tables table = if server.conns = some table then none else loop.tables table := by
  rw [h.tables_eq]
  rcases hconns : server.conns with _ | freed
  · rw [if_neg (Option.some_ne_none table).symm]
    rfl
  · rw [freeConns_some]
    rcases eq_or_ne table freed with rfl | hne
    · rw [if_pos rfl, update_self]
    · rw [if_neg (by simpa using hne.symm), update_of_ne hne]

theorem Removes.conn?_apply (h : Removes loop loop' granted idx last server moved)
    (table j : ℕ) :
    loop'.conn? table j = if server.conns = some table then none else loop.conn? table j := by
  rw [conn?, conn?, h.tables_apply]
  split <;> rfl

theorem Removes.tables_of_ne (hshape : Shape loop)
    (h : Removes loop loop' granted idx last server moved) {origin table : ℕ} {server' : UsServer}
    (hserver' : loop.servers[origin]? = some server') (hne : origin ≠ idx)
    (htable : server'.conns = some table) : loop'.tables table = loop.tables table := by
  rw [h.tables_apply, if_neg]
  intro hconns
  exact hne (hshape.conns_inj origin idx server' server table hserver' h.server_eq htable hconns)

theorem Removes.owned (hshape : Shape loop)
    (h : Removes loop loop' granted idx last server moved) {table j : ℕ} {connection : UsConn}
    (hconn : loop'.conn? table j = some connection) (hkind : connection.kind = usKindConn) :
    ∃ (i : ℕ) (server' : UsServer), loop'.servers[i]? = some server' ∧
      server'.conns = some table := by
  rw [h.conn?_apply] at hconn
  split at hconn
  case isTrue => cases hconn
  case isFalse hnot =>
    obtain ⟨origin, server', hserver', hconns'⟩ := hshape.owned table j connection hconn hkind
    have hne : origin ≠ idx := by
      rintro rfl
      rw [h.server_eq] at hserver'
      cases hserver'
      exact hnot hconns'
    -- the last server is found in the slot it moved into
    rcases eq_or_ne origin last with rfl | hlast
    · rw [h.moved_eq] at hserver'
      cases hserver'
      refine ⟨idx, moved, ?_, hconns'⟩
      rw [h.getElem?_servers, if_neg hne.symm, if_pos rfl]
    · refine ⟨origin, server', ?_, hconns'⟩
      rw [h.getElem?_servers, if_neg hlast, if_neg hne]
      exact hserver'

theorem Removes.shape (hshape : Shape loop)
    (h : Removes loop loop' granted idx last server moved) : Shape loop' := by
  have hcount := h.count_eq
  have hidx := h.lt
  have hle := hshape.count_le
  refine ⟨?_, ?_, ?_, ?_, ?_, ?_, ?_⟩
  · rw [h.serversCount_eq, h.servers_eq, List.length_set, List.length_set]
    omega
  · rw [h.serversCount_eq]
    intro i server' hi hserver'
    rcases h.getElem?_servers_cases hserver' with ⟨rfl, -⟩ | ⟨-, origin, horigin, hne, heq⟩
    · omega
    · have hlt : origin < loop.serversCount := by
        split at heq <;> omega
      exact (hshape.serves origin server' hlt horigin).of_tables
        (fun table htable => h.tables_of_ne hshape horigin hne htable) h.nextServerId_eq.ge
  · rw [h.serversCount_eq]
    intro i server' hi hserver'
    rcases h.getElem?_servers_cases hserver' with ⟨-, hzero⟩ | ⟨hi', origin, horigin, hne, heq⟩
    · exact hzero
    · rw [if_neg (by omega)] at heq
      exact hshape.vacant origin server' (by omega) horigin
  · rw [h.serversCount_eq]
    intro i₁ i₂ server₁ server₂ hi₁ hi₂ hserver₁ hserver₂ hid
    rcases h.getElem?_servers_cases hserver₁ with ⟨rfl, -⟩ | ⟨-, origin₁, horigin₁, -, heq₁⟩
    · omega
    · rcases h.getElem?_servers_cases hserver₂ with ⟨rfl, -⟩ | ⟨-, origin₂, horigin₂, -, heq₂⟩
      · omega
      · have hsame := hshape.id_inj origin₁ origin₂ server₁ server₂
          (by split at heq₁ <;> omega) (by split at heq₂ <;> omega) horigin₁ horigin₂ hid
        split at heq₁ <;> split at heq₂ <;> omega
  · intro i₁ i₂ server₁ server₂ table hserver₁ hserver₂ hconns₁ hconns₂
    rcases h.getElem?_servers_cases hserver₁ with ⟨-, rfl⟩ | ⟨hi₁, origin₁, horigin₁, -, heq₁⟩
    · cases hconns₁
    · rcases h.getElem?_servers_cases hserver₂ with ⟨-, rfl⟩ | ⟨hi₂, origin₂, horigin₂, -, heq₂⟩
      · cases hconns₂
      · have hsame := hshape.conns_inj origin₁ origin₂ server₁ server₂ table horigin₁ horigin₂
          hconns₁ hconns₂
        split at heq₁ <;> split at heq₂ <;> omega
  · intro table htable
    rw [h.nextTable_eq]
    refine hshape.table_lt table fun hnone => htable ?_
    rw [h.tables_apply, hnone, ite_self]
  · exact fun table j connection hconn hkind => h.owned hshape hconn hkind

theorem Removes.slotsBy_eq {g : UsConn → Option ℤ} (hg : g zeroConn = none) (hshape : Shape loop)
    (hempty : server.connsCount = 0) (h : Removes loop loop' granted idx last server moved) :
    loop'.slotsBy g = update (update (loop.slotsBy g) (.server idx)
      (loop.slotsBy g (.server last))) (.server last) none := by
  have hserves := hshape.serves idx server h.lt h.server_eq
  funext slot
  cases slot with
  | server i =>
      rw [slotsBy_server, h.getElem?_servers]
      rcases eq_or_ne i last with rfl | hilast
      · rw [if_pos rfl, update_self]
        rfl
      · rw [if_neg hilast, update_of_ne (by simpa using hilast)]
        rcases eq_or_ne i idx with rfl | hiidx
        · rw [if_pos rfl, update_self, slotsBy_server, h.moved_eq]
        · rw [if_neg hiidx, update_of_ne (by simpa using hiidx), slotsBy_server]
  | conn table j =>
      rw [update_of_ne (by simp), update_of_ne (by simp), slotsBy_conn, slotsBy_conn,
        h.conn?_apply]
      split
      case isTrue hconns =>
        -- the freed table holds nothing
        obtain ⟨conns, htable, -, hfilled⟩ := hserves.filled table hconns
        rw [conn?_of_table htable]
        rcases hj : conns[j]? with _ | c
        · rfl
        · rw [hfilled.vacant j c (by omega) hj]
          exact hg.symm
      case isFalse => rfl

/-- `us_server_close` is a swap-removal, too. -/
theorem Removes.directory_eq (hshape : Shape loop) (hempty : server.connsCount = 0)
    (h : Removes loop loop' granted idx last server moved) :
    loop'.directory = loop.directory.swapRemove (.server idx) (.server last)
      (granted && update loop.isOpen server.listenFd false moved.listenFd) := by
  have hlt : last < loop.serversCount := by
    rw [h.count_eq]
    exact Nat.lt_succ_self last
  have hheld : loop.directory.holds (.server idx) = some server.listenFd := by
    rw [holds_server, h.server_eq]
    exact (hshape.serves idx server h.lt h.server_eq).held_eq
  have hheldLast : loop.directory.holds (.server last) = some moved.listenFd := by
    rw [holds_server, h.moved_eq]
    exact (hshape.serves last moved hlt h.moved_eq).held_eq
  refine Directory.ext ?_ ?_
  · rw [Directory.swapRemove_holds, directory_holds, directory_holds,
      h.slotsBy_eq rfl hshape hempty]
  · have hclosed : moved.listenFd = server.listenFd →
        (granted && update loop.isOpen server.listenFd false moved.listenFd) = false :=
      fun hsame => by rw [hsame, update_self, Bool.and_false]
    rw [Directory.swapRemove_finds_eq hheld hheldLast hclosed, directory_finds, directory_finds,
      h.registered_eq]
    simp only [Slot.server.injEq]

theorem Removes.sound (hsound : Sound loop) (hempty : server.connsCount = 0)
    (h : Removes loop loop' granted idx last server moved) : Sound loop' := by
  have hlt : last < loop.serversCount := by
    rw [h.count_eq]
    exact Nat.lt_succ_self last
  refine hsound.of_swapRemove (h.shape hsound.toShape) (h.directory_eq hsound.toShape hempty) ?_ ?_
    h.isOpen_eq
  · rw [holds_server, h.server_eq]
    exact (hsound.serves idx server h.lt h.server_eq).held_eq
  · rw [holds_server, h.moved_eq]
    exact (hsound.serves last moved hlt h.moved_eq).held_eq

end RemoveServer

end UsLoop

end Server

end ConArtist
