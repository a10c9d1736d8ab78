import ConArtist.Server.Closing

/-!
# Accepting clients and creating servers

What `accept_new_clients` and `us_server_create` do to the records and registrations.
Both either fill the first vacant slot and register its descriptor, or leave the slots
and registrations as they were.
-/

namespace ConArtist

namespace Server

open Function

/-- The call of a callback. -/
def Effect.isCallback : Effect → Bool
  | .accepts _ => false
  | .reads _ => false
  | .closes _ => false
  | .connect .. => true
  | .message .. => true
  | .disconnect .. => true

theorem isCallback_of_mem_disconnects {server : UsServer} {client : Slot} {e : Effect}
    (h : e ∈ disconnects server client) : e.isCallback = true := by
  rw [disconnects] at h
  split at h
  · rw [List.mem_singleton.mp h]
    rfl
  · cases h

theorem isCallback_of_mem_connects {server : UsServer} {fd : ℤ} {e : Effect}
    (h : e ∈ connects server fd) : e.isCallback = true := by
  rw [connects] at h
  split at h
  · rw [List.mem_singleton.mp h]
    rfl
  · cases h

theorem set_of_getElem?_eq {α : Type*} {xs : List α} {i : ℕ} {x : α} (h : xs[i]? = some x) :
    xs.set i x = xs := by
  obtain ⟨hlt, rfl⟩ := List.getElem?_eq_some_iff.mp h
  exact List.set_getElem_self hlt

namespace UsLoop

/-- A loop is left as it was, but for its log: a new descriptor was closed again. -/
structure Refuses (loop loop' : UsLoop) (fd : ℤ) : Prop where
  same : SameRecords loop loop'
  isOpen_eq : loop'.isOpen = loop.isOpen
  registered_eq : loop'.registered = loop.registered
  log_eq : ∃ effects, loop'.log = loop.log ++ .accepts fd :: .closes fd :: effects ∧
    ∀ e ∈ effects, e.isCallback = true

/-- A client is taken into the first vacant slot. -/
structure Takes (loop loop' : UsLoop) (i table : ℕ) (server : UsServer) (conns : List UsConn)
    (fd : ℤ) : Prop where
  owns : Owns loop i table server conns
  room : server.connsCount < server.connsCap
  retables : Retables loop loop' i table server
    (conns.set server.connsCount (newConn server i fd true)) (server.connsCount + 1)
  isOpen_eq : loop'.isOpen = update loop.isOpen fd true
  registered_eq : loop'.registered =
    update loop.registered fd (some (.conn table server.connsCount))
  log_eq : loop'.log = loop.log ++ .accepts fd :: connects server fd

theorem eq_of_kqAddRead_false {loop loop' : UsLoop} {granted : Bool} {fd : ℤ} {udata : Slot}
    (h : loop.kqAddRead granted fd udata = (false, loop')) :
    loop = loop' ∧ (granted && loop.isOpen fd) = false := by
  rw [kqAddRead] at h
  split at h
  case isTrue => cases h
  case isFalse hrefused => exact ⟨(Prod.mk.inj h).2, Bool.eq_false_iff.mpr hrefused⟩

theorem eq_of_kqAddRead_true {loop loop' : UsLoop} {granted : Bool} {fd : ℤ} {udata : Slot}
    (h : loop.kqAddRead granted fd udata = (true, loop')) :
    { loop with registered := update loop.registered fd (some udata) } = loop' ∧
      (granted && loop.isOpen fd) = true := by
  rw [kqAddRead] at h
  split at h
  case isTrue hgranted => exact ⟨(Prod.mk.inj h).2, hgranted⟩
  case isFalse => cases h

section AcceptClient

variable {loop loop' : UsLoop} {i table : ℕ} {server : UsServer} {conns : List UsConn} {fd : ℤ}

theorem registered_of_not_open (hsound : Sound loop) (hfd : loop.isOpen fd = false) :
    loop.registered fd = none := by
  by_contra hregistered
  rw [hsound.open_of_registered fd hregistered] at hfd
  cases hfd

theorem retables_newConn (hsound : Sound loop) (howns : Owns loop i table server conns)
    (hroom : server.connsCount < server.connsCap) (hfd : 0 ≤ fd) (bufOk : Bool) {loop₁ : UsLoop}
    (h : Retables loop loop₁ i table server
      (conns.set server.connsCount (newConn server i fd bufOk)) (server.connsCount + 1)) :
    Shape loop₁ := by
  obtain ⟨hlength, -, hfilled⟩ := howns.filled hsound.toShape
  refine h.shape hsound.toShape howns (List.length_set) hroom
    ⟨fun j c hj hc => ?_, fun j c hj hc => ?_⟩
  · rw [List.getElem?_set] at hc
    split at hc
    case isTrue heq =>
      rw [if_pos (by omega)] at hc
      cases hc
      exact ⟨rfl, hfd⟩
    case isFalse hne => exact hfilled.taken j c (by omega) hc
  · rw [List.getElem?_set_ne (by omega)] at hc
    exact hfilled.vacant j c (by omega) hc

theorem update_open_close (hopen : loop.isOpen fd = false) :
    update (update loop.isOpen fd true) fd false = loop.isOpen := by
  rw [update_idem, ← hopen, update_eq_self]

theorem fresh_of_not (hnew : ¬ (fd < 0 ∨ loop.isOpen fd = true)) :
    0 ≤ fd ∧ loop.isOpen fd = false := by
  rw [not_or, Bool.not_eq_true, Int.not_lt] at hnew
  exact hnew

theorem update_registered_none (hsound : Sound loop) (hopen : loop.isOpen fd = false) :
    update loop.registered fd none = loop.registered := by
  rw [← registered_of_not_open hsound hopen, update_eq_self]

theorem refuses_closeFd (hsound : Sound loop) (hopen : loop.isOpen fd = false) :
    Refuses loop (((loop.openFd fd).emit [.accepts fd]).closeFd fd) fd where
  same := ⟨rfl, rfl, rfl, rfl, le_rfl⟩
  isOpen_eq := update_open_close hopen
  registered_eq :=
    (update_registered_none hsound hopen : update loop.registered fd none = loop.registered)
  log_eq := ⟨[], List.append_assoc _ _ _, fun _ h => absurd h List.not_mem_nil⟩

theorem refuses_closeConn (hsound : Sound loop) (howns : Owns loop i table server conns)
    (hroom : server.connsCount < server.connsCap) (hfd : 0 ≤ fd) (hopen : loop.isOpen fd = false)
    (bufOk : Bool) {loop₁ : UsLoop} (h : loop₁.closeConn false i server.connsCount = some loop')
    (hre : Retables loop loop₁ i table server
      (conns.set server.connsCount (newConn server i fd bufOk)) (server.connsCount + 1))
    (hisOpen : loop₁.isOpen = update loop.isOpen fd true)
    (hregistered : loop₁.registered = loop.registered)
    (hlog : loop₁.log = loop.log ++ [.accepts fd]) :
    Refuses loop loop' fd ∧ loop'.log = loop.log ++ .accepts fd :: .closes fd ::
      disconnects server (.conn table server.connsCount) := by
  have hshape := retables_newConn hsound howns hroom hfd bufOk hre
  have hserver₁ : loop₁.servers[i]? = some { server with connsCount := server.connsCount + 1 } := by
    rw [hre.getElem?_servers howns, if_pos rfl]
  obtain ⟨table', last, conns', connection, moved, hcloses⟩ :=
    closeConn_spec hshape (by rw [hre.serversCount_eq]; exact howns.lt) hserver₁
      (Nat.lt_succ_self _) h
  obtain rfl : server.connsCount = last := Nat.succ.inj hcloses.count_eq
  obtain rfl : table = table' := Option.some.inj (howns.conns_eq.symm.trans hcloses.owns.conns_eq)
  have hconns' : conns' = conns.set server.connsCount (newConn server i fd bufOk) := by
    have htable := hcloses.owns.table_eq
    rw [hre.tables_eq, update_self] at htable
    exact (Option.some.inj htable).symm
  subst hconns'
  obtain ⟨hlength, -, hfilled⟩ := howns.filled hsound.toShape
  have hconnection : connection = newConn server i fd bufOk := by
    have hconn := hcloses.conn_eq
    rw [List.getElem?_set_self (by omega)] at hconn
    exact (Option.some.inj hconn).symm
  subst hconnection
  have hzero : conns.set server.connsCount zeroConn = conns := by
    have hget : conns[server.connsCount]? = some conns[server.connsCount] :=
      List.getElem?_eq_getElem (by omega)
    have hvacant := hfilled.vacant server.connsCount _ le_rfl hget
    rw [hvacant] at hget
    exact set_of_getElem?_eq hget
  have hlog' : loop'.log = loop.log ++ .accepts fd :: .closes fd ::
      disconnects server (.conn table server.connsCount) := by
    rw [hcloses.log_eq, hlog, List.append_assoc]
    rfl
  refine ⟨⟨⟨?_, ?_, ?_, ?_, ?_⟩, ?_, ?_, _, hlog', fun e he => isCallback_of_mem_disconnects he⟩,
    hlog'⟩
  · rw [hcloses.retables.servers_eq, hre.servers_eq, List.set_set]
    exact set_of_getElem?_eq howns.server_eq
  · rw [hcloses.retables.serversCount_eq, hre.serversCount_eq]
  · rw [hcloses.retables.tables_eq, hre.tables_eq, update_idem, List.set_set, List.set_set, hzero,
      ← howns.table_eq, update_eq_self]
  · rw [hcloses.retables.nextTable_eq, hre.nextTable_eq]
  · rw [hcloses.retables.nextServerId_eq, hre.nextServerId_eq]
  · rw [hcloses.isOpen_eq, hisOpen]
    exact update_open_close hopen
  · rw [hcloses.registered_eq, if_pos rfl, hregistered]
    exact update_registered_none hsound hopen

/-- Whether a client is taken. -/
def takesClient (connsCount connsCap : ℕ) (flagsOk bufOk kqOk : Bool) : Bool :=
  flagsOk && decide (connsCount < connsCap) && bufOk && kqOk

/-- A client whose record was made, but not its buffer or its registration. -/
def dropsClient (connsCount connsCap : ℕ) (flagsOk bufOk kqOk : Bool) : Bool :=
  flagsOk && decide (connsCount < connsCap) && !(bufOk && kqOk)

theorem acceptClient_spec {flagsOk bufOk kqOk : Bool} (hsound : Sound loop)
    (hi : i < loop.serversCount) (hserver : loop.servers[i]? = some server)
    (h : loop.acceptClient i fd flagsOk bufOk kqOk = some loop') :
    0 ≤ fd ∧ loop.isOpen fd = false ∧
      ((takesClient server.connsCount server.connsCap flagsOk bufOk kqOk = false ∧
          Refuses loop loop' fd ∧ ∃ client, loop'.log = loop.log ++ .accepts fd :: .closes fd ::
            if dropsClient server.connsCount server.connsCap flagsOk bufOk kqOk then
              disconnects server client else []) ∨
        (takesClient server.connsCount server.connsCap flagsOk bufOk kqOk = true ∧
          ∃ table conns, Takes loop loop' i table server conns fd)) := by
  rw [acceptClient] at h
  split at h
  case isTrue => cases h
  case isFalse hnew =>
    obtain ⟨hfd, hopen⟩ := fresh_of_not hnew
    refine ⟨hfd, hopen, ?_⟩
    simp only at h
    split at h
    case isTrue hflags =>
      cases h
      refine Or.inl ⟨by rw [takesClient, hflags]; rfl, refuses_closeFd hsound hopen, .server i, ?_⟩
      rw [dropsClient, hflags]
      exact List.append_assoc _ _ _
    case isFalse hflags =>
      rw [Bool.not_eq_false] at hflags
      subst hflags
      obtain ⟨server', hserver', h⟩ := Option.bind_eq_some_iff.mp h
      obtain rfl : server = server' := Option.some.inj (hserver.symm.trans hserver')
      split at h
      case isTrue hfull =>
        cases h
        have hnot : ¬ server.connsCount < server.connsCap := Nat.not_lt.mpr hfull
        refine Or.inl ⟨by simp [takesClient, hnot], refuses_closeFd hsound hopen, .server i, ?_⟩
        rw [dropsClient, decide_eq_false hnot]
        exact List.append_assoc _ _ _
      case isFalse hroom =>
        obtain ⟨table, htable, h⟩ := Option.bind_eq_some_iff.mp h
        obtain ⟨conns, hconns, h⟩ := Option.bind_eq_some_iff.mp h
        have howns : Owns loop i table server conns := ⟨hi, hserver, htable, hconns⟩
        have hlt : server.connsCount < server.connsCap := Nat.not_le.mp hroom
        split at h
        case isTrue => cases h
        case isFalse =>
          split at h
          case isTrue hbuf =>
            obtain ⟨hrefuses, hlog⟩ := refuses_closeConn hsound howns hlt hfd hopen bufOk h
              ⟨rfl, rfl, rfl, rfl, rfl⟩ rfl rfl rfl
            refine Or.inl ⟨by simp [takesClient, hbuf], hrefuses, .conn table server.connsCount, ?_⟩
            rw [hlog, if_pos (by simp [dropsClient, hbuf, hlt])]
          case isFalse hbuf =>
            rw [Bool.not_eq_false] at hbuf
            subst hbuf
            -- the kernel knows the descriptor it just handed out
            have hisOpen : (loop.openFd fd).isOpen fd = true := update_self _ _ _
            split at h
            case h_1 loop₁ hadd =>
              obtain ⟨rfl, hrefused⟩ := eq_of_kqAddRead_false hadd
              have hkq : kqOk = false := by
                rw [Bool.and_eq_false_iff] at hrefused
                exact hrefused.resolve_right (by rw [Bool.not_eq_false]; exact hisOpen)
              obtain ⟨hrefuses, hlog⟩ := refuses_closeConn hsound howns hlt hfd hopen true h
                ⟨rfl, rfl, rfl, rfl, rfl⟩ rfl rfl rfl
              refine Or.inl
                ⟨by simp [takesClient, hkq], hrefuses, .conn table server.connsCount, ?_⟩
              rw [hlog, if_pos (by simp [dropsClient, hkq, hlt])]
            case h_2 loop₁ hadd =>
              obtain ⟨rfl, hgranted⟩ := eq_of_kqAddRead_true hadd
              have hkq : kqOk = true := (Bool.and_eq_true_iff.mp hgranted).1
              cases h
              refine Or.inr ⟨by simp [takesClient, hkq, hlt], table, conns, howns, hlt,
                ⟨rfl, rfl, rfl, rfl, rfl⟩, rfl, rfl, ?_⟩
              exact List.append_assoc _ _ _

theorem Sound.of_same {loop loop' : UsLoop} (hsound : Sound loop) (h : SameRecords loop loop')
    (hopen : loop'.isOpen = loop.isOpen) (hregistered : loop'.registered = loop.registered) :
    Sound loop' := by
  refine ⟨h.shape hsound.toShape, ?_, ?_⟩
  · rw [Directory.Sound, directory_finds, h.holds_eq, hregistered]
    exact hsound.found
  · rw [hopen, hregistered]
    exact hsound.open_of_registered

theorem Sound.of_insert {loop loop' : UsLoop} (hsound : Sound loop) (hshape : Shape loop')
    {s : Slot} {fd : ℤ} (hdirectory : loop'.directory = loop.directory.insert s fd)
    (hvacant : loop.directory.holds s = none) (hopen : loop'.isOpen = update loop.isOpen fd true) :
    Sound loop' := by
  refine ⟨hshape, ?_, fun k hk => ?_⟩
  · rw [hdirectory]
    exact hsound.found.insert hvacant fd
  · rw [← directory_finds, hdirectory, Directory.insert_finds] at hk
    rw [hopen]
    rcases eq_or_ne k fd with rfl | hne
    · exact update_self _ _ _
    · rw [update_of_ne hne] at hk ⊢
      exact hsound.open_of_registered k hk

theorem directory_eq_of_same {loop loop' : UsLoop} (h : SameRecords loop loop')
    (hregistered : loop'.registered = loop.registered) : loop'.directory = loop.directory :=
  Directory.ext h.holds_eq hregistered

theorem Takes.slotsBy_eq (hshape : Shape loop) (h : Takes loop loop' i table server conns fd)
    (g : UsConn → Option ℤ) : loop'.slotsBy g =
      update (loop.slotsBy g) (.conn table server.connsCount) (g (newConn server i fd true)) := by
  funext slot
  cases slot with
  | server i' => rw [h.retables.slotsBy_server h.owns, update_of_ne (by simp)]
  | conn table' j =>
      rw [slotsBy_conn, h.retables.conn?_eq]
      rcases eq_or_ne table' table with rfl | htable
      · rw [if_pos rfl, List.getElem?_set]
        rcases eq_or_ne server.connsCount j with rfl | hj
        · have hlt : server.connsCount < conns.length := by
            rw [(h.owns.filled hshape).1]
            exact h.room
          rw [if_pos rfl, if_pos hlt, update_self]
          rfl
        · rw [if_neg hj, update_of_ne (by simpa using hj.symm), slotsBy_conn,
            conn?_of_table h.owns.table_eq]
      · rw [if_neg htable, update_of_ne (by simp [htable]), slotsBy_conn]

theorem Takes.directory_eq (hshape : Shape loop) (h : Takes loop loop' i table server conns fd) :
    loop'.directory = loop.directory.insert (.conn table server.connsCount) fd := by
  refine Directory.ext ?_ h.registered_eq
  rw [Directory.insert_holds, directory_holds, directory_holds, h.slotsBy_eq hshape]
  rfl

theorem Takes.holds_vacant (hshape : Shape loop) (h : Takes loop loop' i table server conns fd) :
    loop.directory.holds (.conn table server.connsCount) = none := by
  obtain ⟨hlength, -, hfilled⟩ := h.owns.filled hshape
  rw [holds_conn, conn?_of_table h.owns.table_eq]
  rcases hget : conns[server.connsCount]? with _ | c
  · rfl
  · rw [hfilled.vacant server.connsCount c le_rfl hget]
    rfl

theorem Takes.sound (hsound : Sound loop) (hfd : 0 ≤ fd)
    (h : Takes loop loop' i table server conns fd) : Sound loop' :=
  hsound.of_insert (retables_newConn hsound h.owns h.room hfd true h.retables)
    (h.directory_eq hsound.toShape) (h.holds_vacant hsound.toShape) h.isOpen_eq

/-- What refusing and taking clients keeps, `accept_new_clients` keeps. -/
theorem acceptNewClients_induct {P : UsLoop → Prop} {i : ℕ}
    (hrefuses : ∀ loop loop' fd, Sound loop → loop.isOpen fd = false → Refuses loop loop' fd →
      P loop → P loop')
    (htakes : ∀ loop loop' table server conns fd, Sound loop → 0 ≤ fd → loop.isOpen fd = false →
      Takes loop loop' i table server conns fd → P loop → P loop')
    {meets : List Accepted} {rc : ℤ} {loop loop' : UsLoop} (hsound : Sound loop)
    (hi : i < loop.serversCount) (hloop : P loop)
    (h : acceptNewClients i loop meets = some (rc, loop')) : Sound loop' ∧ P loop' := by
  induction meets generalizing loop with
  | nil =>
      cases h
      exact ⟨hsound, hloop⟩
  | cons met meets ih =>
      cases met with
      | client fd flagsOk bufOk kqOk =>
          rw [acceptNewClients] at h
          obtain ⟨loop₁, haccept, hrest⟩ := Option.bind_eq_some_iff.mp h
          have hlt : i < loop.servers.length := lt_of_lt_of_le hi hsound.count_le
          obtain ⟨hfd, hopen, ⟨-, hrefuse, -⟩ | ⟨-, table, conns, htake⟩⟩ :=
            acceptClient_spec hsound hi (List.getElem?_eq_getElem hlt) haccept
          · refine ih (hsound.of_same hrefuse.same hrefuse.isOpen_eq hrefuse.registered_eq) ?_
              (hrefuses loop loop₁ fd hsound hopen hrefuse hloop) hrest
            rw [hrefuse.same.serversCount_eq]
            exact hi
          · refine ih (htake.sound hsound hfd) ?_
              (htakes loop loop₁ table _ conns fd hsound hfd hopen htake hloop) hrest
            rw [htake.retables.serversCount_eq]
            exact hi
      | again =>
          cases h
          exact ⟨hsound, hloop⟩
      | intr => exact ih hsound hi hloop h
      | fail =>
          cases h
          exact ⟨hsound, hloop⟩

end AcceptClient

/-- A server is added behind the others. -/
structure Adds (loop loop' : UsLoop) (args : CreateArgs) (fd : ℤ) (connsOk : Bool) : Prop where
  room : loop.serversCount < loop.servers.length
  servers_eq : loop'.servers = loop.servers.set loop.serversCount
    (loop.newServer args fd (loop.allocConns connsOk).1)
  serversCount_eq : loop'.serversCount = loop.serversCount + 1
  tables_eq : loop'.tables = (loop.allocConns connsOk).2.tables
  nextTable_eq : loop'.nextTable = (loop.allocConns connsOk).2.nextTable
  nextServerId_eq : loop'.nextServerId = loop.nextServerId + 1
  isOpen_eq : loop'.isOpen = update loop.isOpen fd true
  registered_eq : loop'.registered = update loop.registered fd (some (.server loop.serversCount))

section Create

variable {loop loop' : UsLoop} {args : CreateArgs} {meets : CreateMeets} {rc fd : ℤ}
  {connsOk kqOk : Bool}

theorem addServer_cases (hsound : Sound loop) (hopen : loop.isOpen fd = false)
    (h : (loop.openFd fd).addServer args fd connsOk kqOk = some (rc, loop')) :
    (SameRecords (loop.allocConns connsOk).2 loop' ∧ loop'.isOpen = loop.isOpen ∧
        loop'.registered = loop.registered ∧ loop'.log = loop.log ++ [.closes fd]) ∨
      Adds loop loop' args fd connsOk ∧ loop'.log = loop.log := by
  rw [addServer] at h
  simp only at h
  split at h
  case isTrue => cases h
  case isFalse hlimits =>
    rw [not_or, Nat.not_le] at hlimits
    split at h
    case h_1 loop₁ hadd =>
      obtain ⟨rfl, -⟩ := eq_of_kqAddRead_true hadd
      cases h
      exact Or.inr ⟨⟨hlimits.1, rfl, rfl, rfl, rfl, rfl, rfl, rfl⟩, rfl⟩
    case h_2 loop₁ hadd =>
      obtain ⟨rfl, -⟩ := eq_of_kqAddRead_false hadd
      cases h
      have hzero : loop.servers[loop.serversCount]? = some zeroServer := by
        have hget := List.getElem?_eq_getElem hlimits.1
        rw [hsound.vacant loop.serversCount _ le_rfl hget] at hget
        exact hget
      refine Or.inl ⟨⟨?_, rfl, rfl, rfl, ?_⟩, ?_, ?_, rfl⟩
      · exact (List.set_set _).trans (set_of_getElem?_eq hzero)
      · exact (Int.le_add_one le_rfl : loop.nextServerId ≤ loop.nextServerId + 1)
      · exact update_open_close hopen
      · exact (update_registered_none hsound hopen :
          update loop.registered fd none = loop.registered)

/-- The outcomes of `us_server_create`: the loop is left as it was, a socket or a
connection table may have come and gone, or a server is added. -/
theorem usServerCreate_cases (hsound : Sound loop)
    (h : loop.usServerCreate args meets = some (rc, loop')) :
    (∃ effects, loop'.log = loop.log ++ effects ∧
        ∀ e ∈ effects, ∃ fd, e = .closes fd ∧ loop.isOpen fd = false) ∧
      ((∃ connsOk, SameRecords (loop.allocConns connsOk).2 loop' ∧ loop'.isOpen = loop.isOpen ∧
          loop'.registered = loop.registered) ∨
        ∃ fd connsOk, 0 ≤ fd ∧ loop.isOpen fd = false ∧ Adds loop loop' args fd connsOk) := by
  have hnone : ∃ effects, loop.log = loop.log ++ effects ∧
      ∀ e ∈ effects, ∃ fd, e = Effect.closes fd ∧ loop.isOpen fd = false :=
    ⟨[], (List.append_nil _).symm, fun e he => absurd he List.not_mem_nil⟩
  have hsame : SameRecords (loop.allocConns false).2 loop := ⟨rfl, rfl, rfl, rfl, le_rfl⟩
  rw [usServerCreate] at h
  split at h
  case isTrue =>
    cases h
    exact ⟨hnone, Or.inl ⟨false, hsame, rfl, rfl⟩⟩
  case isFalse =>
    split at h
    case isTrue =>
      cases h
      exact ⟨hnone, Or.inl ⟨false, hsame, rfl, rfl⟩⟩
    case isFalse =>
      split at h
      case isTrue =>
        cases h
        exact ⟨hnone, Or.inl ⟨false, hsame, rfl, rfl⟩⟩
      case isFalse =>
        split at h
        case h_1 =>
          cases h
          exact ⟨hnone, Or.inl ⟨false, hsame, rfl, rfl⟩⟩
        case h_2 fd _ =>
          split at h
          case isTrue => cases h
          case isFalse hnew =>
            obtain ⟨hfd, hopen⟩ := fresh_of_not hnew
            have hone : ∃ effects, loop.log ++ [.closes fd] = loop.log ++ effects ∧
                ∀ e ∈ effects, ∃ fd, e = Effect.closes fd ∧ loop.isOpen fd = false :=
              ⟨_, rfl, fun e he => ⟨fd, List.mem_singleton.mp he, hopen⟩⟩
            split at h
            case isTrue =>
              rcases addServer_cases hsound hopen h with ⟨hrec, hisOpen, hreg, hlog⟩ |
                ⟨hadds, hlog⟩
              · rw [hlog]
                exact ⟨hone, Or.inl ⟨meets.connsOk, hrec, hisOpen, hreg⟩⟩
              · rw [hlog]
                exact ⟨hnone, Or.inr ⟨fd, meets.connsOk, hfd, hopen, hadds⟩⟩
            case isFalse =>
              cases h
              exact ⟨hone, Or.inl ⟨false, ⟨rfl, rfl, rfl, rfl, le_rfl⟩, update_open_close hopen,
                (update_registered_none hsound hopen :
                  update loop.registered fd none = loop.registered)⟩⟩

theorem allocConns_tables (hlimit : ∀ table, loop.tables table ≠ none → table < loop.nextTable)
    {table : ℕ} (h : loop.tables table ≠ none) (ok : Bool) :
    (loop.allocConns ok).2.tables table = loop.tables table := by
  have hlt := hlimit table h
  cases ok with
  | false => rfl
  | true => exact update_of_ne (by omega) _ _

theorem allocConns_new (loop : UsLoop) :
    (loop.allocConns true).2.tables loop.nextTable =
      some (List.replicate usServerConnCap zeroConn) :=
  update_self _ _ _

theorem allocConns_slotsBy {g : UsConn → Option ℤ} (hg : g zeroConn = none)
    (hlimit : ∀ table, loop.tables table ≠ none → table < loop.nextTable) (ok : Bool) :
    (loop.allocConns ok).2.slotsBy g = loop.slotsBy g := by
  funext slot
  cases slot with
  | server i => rfl
  | conn table j =>
      rw [slotsBy_conn, slotsBy_conn, conn?, conn?]
      by_cases htable : loop.tables table = none
      · rw [htable, Option.bind_none, Option.bind_none]
        cases ok with
        | false =>
            rw [show (loop.allocConns false).2.tables table = none from htable]
            rfl
        | true =>
            rcases eq_or_ne table loop.nextTable with rfl | hne
            · rw [allocConns_new, Option.bind_some, List.getElem?_replicate]
              split
              · exact hg
              · rfl
            · rw [show (loop.allocConns true).2.tables table = none from
                (update_of_ne hne _ _).trans htable]
              rfl
      · rw [allocConns_tables hlimit htable]

theorem allocConns_directory
    (hlimit : ∀ table, loop.tables table ≠ none → table < loop.nextTable) (ok : Bool) :
    (loop.allocConns ok).2.directory = loop.directory := by
  refine Directory.ext ?_ rfl
  rw [directory_holds, directory_holds, allocConns_slotsBy rfl hlimit]

theorem allocConns_shape (hshape : Shape loop) (ok : Bool) : Shape (loop.allocConns ok).2 := by
  refine ⟨hshape.count_le, ?_, hshape.vacant, hshape.id_inj, hshape.conns_inj, ?_, ?_⟩
  · intro i server hi hserver
    have hserves := hshape.serves i server hi hserver
    refine hserves.of_tables (fun table htable => allocConns_tables hshape.table_lt ?_ ok) le_rfl
    obtain ⟨conns, hconns, -⟩ := hserves.filled table htable
    rw [hconns]
    exact Option.some_ne_none _
  · intro table htable
    cases ok with
    | false => exact hshape.table_lt table htable
    | true =>
        rcases eq_or_ne table loop.nextTable with rfl | hne
        · exact Nat.lt_succ_self _
        · exact Nat.lt_succ_of_lt (hshape.table_lt table fun hnone =>
            htable ((update_of_ne hne _ _).trans hnone))
  · intro table j connection hconn hkind
    have hheld : loop.directory.holds (.conn table j) = some connection.fd := by
      rw [← allocConns_directory hshape.table_lt ok, holds_conn, hconn, Option.bind_some,
        UsConn.held, if_pos hkind]
    rw [holds_conn] at hheld
    obtain ⟨c, hc, hheld⟩ := Option.bind_eq_some_iff.mp hheld
    rw [UsConn.held] at hheld
    split at hheld
    case isTrue hkind' => exact hshape.owned table j c hc hkind'
    case isFalse => cases hheld

theorem Adds.getElem?_servers_cases (h : Adds loop loop' args fd connsOk) {i : ℕ}
    {server : UsServer} (hserver : loop'.servers[i]? = some server) :
    (i = loop.serversCount ∧
        server = loop.newServer args fd (loop.allocConns connsOk).1) ∨
      (i ≠ loop.serversCount ∧ loop.servers[i]? = some server) := by
  rw [h.servers_eq, List.getElem?_set] at hserver
  split at hserver
  case isTrue heq =>
    rw [if_pos h.room] at hserver
    exact Or.inl ⟨heq.symm, (Option.some.inj hserver).symm⟩
  case isFalse hne => exact Or.inr ⟨fun heq => hne heq.symm, hserver⟩

theorem conns_ne_nextTable (hshape : Shape loop) {i : ℕ} {server : UsServer}
    (hserver : loop.servers[i]? = some server) : server.conns ≠ some loop.nextTable := by
  intro hconns
  rcases Nat.lt_or_ge i loop.serversCount with hlt | hge
  · obtain ⟨conns, htable, -⟩ := (hshape.serves i server hlt hserver).filled _ hconns
    exact absurd (hshape.table_lt _ (by rw [htable]; exact Option.some_ne_none _)) (lt_irrefl _)
  · rw [hshape.vacant i server hge hserver] at hconns
    cases hconns

theorem Adds.serves_new (hfd : 0 ≤ fd) (h : Adds loop loop' args fd connsOk) :
    Serves loop' (loop.newServer args fd (loop.allocConns connsOk).1) := by
  refine ⟨rfl, rfl, hfd, ?_, Nat.zero_le _, fun _ => rfl, fun table htable => ?_⟩
  · rw [h.nextServerId_eq]
    exact Int.lt_succ _
  · cases connsOk with
    | false => cases htable
    | true =>
        obtain rfl : loop.nextTable = table := Option.some.inj htable
        refine ⟨List.replicate usServerConnCap zeroConn, by rw [h.tables_eq, allocConns_new],
          List.length_replicate, ?_, ?_⟩
        · exact fun j c hj => absurd hj (Nat.not_lt_zero j)
        · intro j c _ hc
          rw [List.getElem?_replicate] at hc
          split at hc
          · exact (Option.some.inj hc).symm
          · cases hc

theorem Adds.shape (hshape : Shape loop) (hfd : 0 ≤ fd) (h : Adds loop loop' args fd connsOk) :
    Shape loop' := by
  refine ⟨?_, ?_, ?_, ?_, ?_, ?_, ?_⟩
  · rw [h.serversCount_eq, h.servers_eq, List.length_set]
    exact h.room
  · rw [h.serversCount_eq]
    intro i server hi hserver
    rcases h.getElem?_servers_cases hserver with ⟨-, rfl⟩ | ⟨hne, hold⟩
    · exact h.serves_new hfd
    · have hserves := (allocConns_shape hshape connsOk).serves i server
        (by change i < loop.serversCount; omega) hold
      refine hserves.of_tables (fun table _ => by rw [h.tables_eq]) ?_
      rw [h.nextServerId_eq]
      exact Int.le_add_one le_rfl
  · rw [h.serversCount_eq]
    intro i server hi hserver
    rcases h.getElem?_servers_cases hserver with ⟨rfl, -⟩ | ⟨-, hold⟩
    · omega
    · exact hshape.vacant i server (by omega) hold
  · rw [h.serversCount_eq]
    intro i₁ i₂ server₁ server₂ hi₁ hi₂ hserver₁ hserver₂ hid
    have hfresh : ∀ i (server : UsServer), i < loop.serversCount + 1 → i ≠ loop.serversCount →
        loop.servers[i]? = some server → server.serverId < loop.nextServerId :=
      fun i server hi hne hold => (hshape.serves i server (by omega) hold).id_lt
    rcases h.getElem?_servers_cases hserver₁ with ⟨rfl, rfl⟩ | ⟨hne₁, hold₁⟩ <;>
      rcases h.getElem?_servers_cases hserver₂ with ⟨rfl, rfl⟩ | ⟨hne₂, hold₂⟩
    · rfl
    · exact absurd hid (hfresh i₂ server₂ hi₂ hne₂ hold₂).ne'
    · exact absurd hid (hfresh i₁ server₁ hi₁ hne₁ hold₁).ne
    · exact hshape.id_inj i₁ i₂ server₁ server₂ (by omega) (by omega) hold₁ hold₂ hid
  · intro i₁ i₂ server₁ server₂ table hserver₁ hserver₂ hconns₁ hconns₂
    have hnew : (loop.newServer args fd (loop.allocConns connsOk).1).conns = some table →
        table = loop.nextTable := by
      cases connsOk with
      | false => exact fun hnone => nomatch hnone
      | true => exact fun hsome => (Option.some.inj hsome).symm
    rcases h.getElem?_servers_cases hserver₁ with ⟨rfl, rfl⟩ | ⟨hne₁, hold₁⟩ <;>
      rcases h.getElem?_servers_cases hserver₂ with ⟨rfl, rfl⟩ | ⟨hne₂, hold₂⟩
    · rfl
    · obtain rfl := hnew hconns₁
      exact absurd hconns₂ (conns_ne_nextTable hshape hold₂)
    · obtain rfl := hnew hconns₂
      exact absurd hconns₁ (conns_ne_nextTable hshape hold₁)
    · exact hshape.conns_inj i₁ i₂ server₁ server₂ table hold₁ hold₂ hconns₁ hconns₂
  · rw [h.tables_eq, h.nextTable_eq]
    exact (allocConns_shape hshape connsOk).table_lt
  · intro table j connection hconn hkind
    rw [conn?, h.tables_eq] at hconn
    obtain ⟨i, server, hserver, hconns⟩ :=
      (allocConns_shape hshape connsOk).owned table j connection hconn hkind
    refine ⟨i, server, ?_, hconns⟩
    have hne : loop.serversCount ≠ i := by
      rintro rfl
      rw [hshape.vacant _ server le_rfl hserver] at hconns
      cases hconns
    rw [h.servers_eq, List.getElem?_set_ne hne]
    exact hserver

theorem Adds.slotsBy_eq {g : UsConn → Option ℤ} (hg : g zeroConn = none) (hshape : Shape loop)
    (h : Adds loop loop' args fd connsOk) :
    loop'.slotsBy g = update (loop.slotsBy g) (.server loop.serversCount) (some fd) := by
  funext slot
  cases slot with
  | server i =>
      rw [slotsBy_server, h.servers_eq, List.getElem?_set]
      rcases eq_or_ne loop.serversCount i with rfl | hne
      · rw [if_pos rfl, if_pos h.room, update_self]
        rfl
      · rw [if_neg hne, update_of_ne (by simpa using hne.symm), slotsBy_server]
  | conn table j =>
      rw [update_of_ne (by simp), ← allocConns_slotsBy hg hshape.table_lt connsOk, slotsBy_conn,
        slotsBy_conn, conn?, conn?, h.tables_eq]

theorem Adds.directory_eq (hshape : Shape loop) (h : Adds loop loop' args fd connsOk) :
    loop'.directory = loop.directory.insert (.server loop.serversCount) fd := by
  refine Directory.ext ?_ h.registered_eq
  rw [Directory.insert_holds, directory_holds, directory_holds, h.slotsBy_eq rfl hshape]

theorem Adds.sound (hsound : Sound loop) (hfd : 0 ≤ fd) (h : Adds loop loop' args fd connsOk) :
    Sound loop' := by
  have hvacant : loop.directory.holds (.server loop.serversCount) = none := by
    have hget := List.getElem?_eq_getElem h.room
    rw [holds_server, hget, hsound.vacant loop.serversCount _ le_rfl hget]
    rfl
  exact hsound.of_insert (h.shape hsound.toShape hfd) (h.directory_eq hsound.toShape) hvacant
    h.isOpen_eq

end Create

end UsLoop

end Server

end ConArtist
