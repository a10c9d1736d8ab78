import ConArtist.Server.Callbacks
import ConArtist.Server.TableInvariant

/-!
# Following the clients

Where the clients are that have not ended. A `Directory` holds the descriptors of the slots
whose buffers were not freed, and of the servers, each in one slot: the clients are those of
the connections in it, and `m_on_connect` was called for them as their servers tell. Every step
keeps this, whether the callbacks are balanced or not, and `Ends` says which clients it ends.
-/

namespace ConArtist

namespace Server

open Function

/-- The descriptor of a record whose buffer was not freed. -/
def UsConn.owned (connection : UsConn) : Option ℤ :=
  match connection.buf with
  | .freed => none
  | _ => connection.held

theorem UsConn.owned_of_ne {connection : UsConn} (h : connection.buf ≠ .freed) :
    connection.owned = connection.held := by
  rw [owned]
  split
  case h_1 hfreed => exact absurd hfreed h
  case h_2 => rfl

theorem UsConn.owned_eq_some {connection : UsConn} {fd : ℤ} :
    connection.owned = some fd ↔
      connection.buf ≠ .freed ∧ connection.kind = usKindConn ∧ connection.fd = fd := by
  rw [owned]
  split
  case h_1 hfreed => simp [hfreed]
  case h_2 hbuf =>
    have hne : connection.buf ≠ .freed := hbuf
    simp [held, hne]

theorem connectCalls_le (server : UsServer) : server.connectCalls ≤ 1 := by
  rw [UsServer.connectCalls]
  cases server.onConnect with
  | none => exact Nat.zero_le 1
  | some fn => exact le_rfl

namespace UsLoop

/-- The calls for the clients of a loop. -/
def tally (loop : UsLoop) : Tally := Tally.ofLog loop.log

theorem tally_eq {loop loop' : UsLoop} {effects : List Effect}
    (h : loop'.log = loop.log ++ effects) : loop'.tally = effects.foldl Tally.note loop.tally := by
  rw [tally, h, Tally.ofLog_append]
  rfl

/-- The calls of `m_on_connect` for the client in a slot, by the table of the slot. -/
def clientCalls (calls : ℕ → ℕ) : Option Slot → Option ℕ
  | some (.conn table _) => some (calls table)
  | _ => none

/-- The descriptors are those of the slots in `d`, each of one slot, and the clients that have
not ended are those of its connections. -/
structure Accounts (loop : UsLoop) (d : Directory Slot ℤ) (calls : ℕ → ℕ) : Prop where
  holds_eq : d.holds = loop.slotsBy UsConn.owned
  sound : d.Sound
  complete : d.Complete
  open_of_finds : ∀ fd, d.finds fd ≠ none → loop.isOpen fd = true
  calls_eq : ∀ (i : ℕ) (server : UsServer) (table : ℕ), loop.servers[i]? = some server →
    server.conns = some table → calls table = server.connectCalls
  calls_le : ∀ table, calls table ≤ 1
  live_eq : ∀ fd, loop.tally.live fd = clientCalls calls (d.finds fd)

/-- The clients of a loop, ended or not, are accounted for. -/
structure Follows (loop : UsLoop) : Prop where
  sound : Sound loop
  bufs : ∀ (table j : ℕ) (connection : UsConn), loop.conn? table j = some connection →
    connection.kind = usKindConn → connection.buf ≠ .null
  accounts : ∃ d calls, Accounts loop d calls
  strays : loop.tally.strays = 0
  connects_le : ∀ client ∈ loop.tally.ended, client.connects ≤ 1

/-- A step ends the clients. -/
structure Ends (loop loop' : UsLoop) (clients : List ClientCalls) : Prop where
  follows : Follows loop'
  ended_eq : loop'.tally.ended = clients ++ loop.tally.ended

section Accounts

variable {loop loop' : UsLoop} {d : Directory Slot ℤ} {calls : ℕ → ℕ} {s last : Slot} {fd : ℤ}

theorem Ends.refl (h : Follows loop) : Ends loop loop [] := ⟨h, rfl⟩

theorem Ends.trans {loop₁ : UsLoop} {clients clients' : List ClientCalls}
    (h : Ends loop loop₁ clients) (h' : Ends loop₁ loop' clients') :
    Ends loop loop' (clients' ++ clients) :=
  ⟨h'.follows, by rw [h'.ended_eq, h.ended_eq, List.append_assoc]⟩

theorem Accounts.live_of_holds (h : Accounts loop d calls) (hs : d.holds s = some fd) :
    loop.tally.live fd = clientCalls calls (some s) := by
  rw [h.live_eq, h.complete s fd hs]

theorem Accounts.finds_eq_none (h : Accounts loop d calls) (hopen : loop.isOpen fd = false) :
    d.finds fd = none := by
  by_contra hfinds
  rw [h.open_of_finds fd hfinds] at hopen
  cases hopen

theorem Accounts.live_eq_none (h : Accounts loop d calls) (hopen : loop.isOpen fd = false) :
    loop.tally.live fd = none := by
  rw [h.live_eq, h.finds_eq_none hopen]
  rfl

theorem Accounts.insert (h : Accounts loop d calls) (hopen : loop.isOpen fd = false)
    (hvacant : d.holds s = none)
    (hslots : loop'.slotsBy UsConn.owned = update (loop.slotsBy UsConn.owned) s (some fd))
    (hisOpen : loop'.isOpen = update loop.isOpen fd true)
    (hcalls : ∀ (i : ℕ) (server : UsServer) (table : ℕ), loop'.servers[i]? = some server →
      server.conns = some table → calls table = server.connectCalls)
    (hlive : loop'.tally.live = update loop.tally.live fd (clientCalls calls (some s))) :
    Accounts loop' (d.insert s fd) calls := by
  refine ⟨?_, h.sound.insert hvacant fd, h.complete.insert s (h.finds_eq_none hopen),
    fun k hk => ?_, hcalls, h.calls_le, fun k => ?_⟩
  · rw [Directory.insert_holds, h.holds_eq, hslots]
  · rw [hisOpen]
    rw [Directory.insert_finds] at hk
    rcases eq_or_ne k fd with rfl | hne
    · exact update_self _ _ _
    · rw [update_of_ne hne] at hk ⊢
      exact h.open_of_finds k hk
  · rw [hlive, Directory.insert_finds]
    rcases eq_or_ne k fd with rfl | hne
    · rw [update_self, update_self]
    · rw [update_of_ne hne, update_of_ne hne, h.live_eq]

/-- A descriptor that is closed; the last slot, of the same table, moves into its place. -/
theorem Accounts.swapRemove (h : Accounts loop d calls) (hs : d.holds s = some fd)
    (hsame : clientCalls calls (some s) = clientCalls calls (some last))
    (hslots : loop'.slotsBy UsConn.owned = update (update (loop.slotsBy UsConn.owned) s
      (loop.slotsBy UsConn.owned last)) last none)
    (hisOpen : loop'.isOpen = update loop.isOpen fd false)
    (hcalls : ∀ (i : ℕ) (server : UsServer) (table : ℕ), loop'.servers[i]? = some server →
      server.conns = some table → calls table = server.connectCalls)
    (hlive : loop'.tally.live = update loop.tally.live fd none) :
    Accounts loop' (d.swapRemove s last true) calls := by
  refine ⟨?_, h.sound.swapRemove _ _ _, (Directory.complete_swapRemove_iff h.complete).mpr
    fun _ _ => rfl, fun k hk => ?_, hcalls, h.calls_le, fun k => ?_⟩
  · rw [Directory.swapRemove_holds, h.holds_eq, hslots]
  · obtain ⟨t, ht⟩ := Option.ne_none_iff_exists'.mp hk
    obtain ⟨hkey, hcases⟩ := Directory.finds_swapRemove_cases ht
    have hne : k ≠ fd := fun heq => hkey (hs.trans (congrArg some heq.symm))
    rw [hisOpen, update_of_ne hne]
    refine h.open_of_finds k ?_
    rcases hcases with ⟨-, -, hlast, -⟩ | ⟨-, hfinds⟩
    · rw [h.complete last k hlast]
      exact Option.some_ne_none _
    · rw [hfinds]
      exact Option.some_ne_none _
  · rw [hlive, Directory.swapRemove_finds, hs]
    rcases eq_or_ne k fd with rfl | hne
    · rw [update_self, if_pos rfl]
      rfl
    · rw [update_of_ne hne, if_neg fun heq => hne (Option.some.inj heq).symm]
      split
      case isTrue hlast =>
        rw [if_pos rfl, hsame]
        exact h.live_of_holds hlast.2
      case isFalse => exact h.live_eq k

end Accounts

section Steps

variable {loop loop' : UsLoop} {i idx table last j : ℕ} {server moved : UsServer}
  {conns : List UsConn} {connection connection' movedConn : UsConn} {granted : Bool} {fd : ℤ}

theorem Retables.calls_eq {conns' : List UsConn} {n : ℕ} {calls : ℕ → ℕ}
    (h : Retables loop loop' i table server conns' n) (howns : Owns loop i table server conns)
    (hcalls : ∀ (i : ℕ) (server : UsServer) (table : ℕ), loop.servers[i]? = some server →
      server.conns = some table → calls table = server.connectCalls) :
    ∀ (i : ℕ) (server : UsServer) (table : ℕ), loop'.servers[i]? = some server →
      server.conns = some table → calls table = server.connectCalls := by
  intro i' server' table' hserver' htable'
  rcases h.getElem?_servers_cases howns hserver' with ⟨rfl, rfl⟩ | ⟨-, hsame⟩
  · exact hcalls i' server table' howns.server_eq htable'
  · exact hcalls i' server' table' hsame htable'

/-- The ended clients after a step, and the rest of what `Follows` asks. -/
theorem Follows.ends {clients : List ClientCalls} (h : Follows loop) (hsound : Sound loop')
    (hbufs : ∀ (table j : ℕ) (connection : UsConn), loop'.conn? table j = some connection →
      connection.kind = usKindConn → connection.buf ≠ .null)
    {d : Directory Slot ℤ} {calls : ℕ → ℕ} (haccounts : Accounts loop' d calls)
    (hended : loop'.tally.ended = clients ++ loop.tally.ended)
    (hstrays : loop'.tally.strays = loop.tally.strays)
    (hle : ∀ client ∈ clients, client.connects ≤ 1) : Ends loop loop' clients := by
  refine ⟨⟨hsound, hbufs, ⟨d, calls, haccounts⟩, hstrays.trans h.strays, ?_⟩, hended⟩
  rw [hended]
  intro client hclient
  rcases List.mem_append.mp hclient with hnew | hold
  · exact hle client hnew
  · exact h.connects_le client hold

theorem Follows.endsNone (h : Follows loop) (hsound : Sound loop')
    (hbufs : ∀ (table j : ℕ) (connection : UsConn), loop'.conn? table j = some connection →
      connection.kind = usKindConn → connection.buf ≠ .null)
    {d : Directory Slot ℤ} {calls : ℕ → ℕ} (haccounts : Accounts loop' d calls)
    (hended : loop'.tally.ended = loop.tally.ended)
    (hstrays : loop'.tally.strays = loop.tally.strays) : Ends loop loop' [] :=
  h.ends hsound hbufs haccounts hended hstrays fun _ hclient => absurd hclient List.not_mem_nil

theorem Reads.slotsBy_owned (h : Reads loop loop' table j conns connection connection') :
    loop'.slotsBy UsConn.owned = loop.slotsBy UsConn.owned := by
  have hrewrites := h.prepares.rewrites
  refine hrewrites.slotsBy_of_eq ?_
  rcases h.buf with rfl | ⟨bytes, bytes', hblock, hblock'⟩
  · rfl
  · have hne : connection.buf ≠ .freed := by simp [hblock]
    have hne' : connection'.buf ≠ .freed := by simp [hblock']
    rw [UsConn.owned_of_ne hne, UsConn.owned_of_ne hne', UsConn.held, UsConn.held,
      if_pos hrewrites.kind_eq, if_pos hrewrites.kind_eq', hrewrites.fd_eq]

theorem Follows.reads (h : Follows loop)
    (hreads : Reads loop loop' table j conns connection connection') : Ends loop loop' [] := by
  have hprepares := hreads.prepares
  have hrewrites := hprepares.rewrites
  obtain ⟨effects, hlog, htraffic⟩ := hreads.log_eq
  have htally : loop'.tally = loop.tally := by
    rw [tally_eq hlog, Tally.foldl_of_isTraffic htraffic]
  have hconn : loop.conn? table j = some connection := by
    rw [conn?_of_table hrewrites.table_eq, hrewrites.conn_eq]
  obtain ⟨d, calls, haccounts⟩ := h.accounts
  have hafter : Accounts loop' d calls := by
    refine ⟨?_, haccounts.sound, haccounts.complete, ?_, ?_, haccounts.calls_le, ?_⟩
    · rw [hreads.slotsBy_owned]
      exact haccounts.holds_eq
    · rw [hprepares.isOpen_eq]
      exact haccounts.open_of_finds
    · rw [hrewrites.servers_eq]
      exact haccounts.calls_eq
    · rw [htally]
      exact haccounts.live_eq
  refine h.endsNone (hprepares.sound h.sound) ?_ hafter (by rw [htally]) (by rw [htally])
  intro table' j' c hc hkind
  rw [hrewrites.conn?_eq] at hc
  split at hc
  case isTrue =>
    cases hc
    rcases hreads.buf with rfl | ⟨bytes, bytes', -, hblock'⟩
    · exact h.bufs table j _ hconn hkind
    · rw [hblock']
      simp
  case isFalse => exact h.bufs table' j' c hc hkind

/-- A connection is closed by `close_conn`. -/
theorem Follows.closes (h : Follows loop) (hidx : idx < server.connsCount)
    (hcloses : Closes loop loop' granted i idx table last server conns connection movedConn) :
    Ends loop loop' [⟨server.connectCalls, server.disconnectCalls⟩] := by
  have hshape := h.sound.toShape
  have howns := hcloses.owns
  have hkind := ((howns.filled hshape).2.2.taken idx connection hidx hcloses.conn_eq).1
  obtain ⟨d, calls, haccounts⟩ := h.accounts
  have hs : d.holds (.conn table idx) = some connection.fd := by
    rw [haccounts.holds_eq, slotsBy_conn, conn?_of_table howns.table_eq, hcloses.conn_eq,
      Option.bind_some, UsConn.owned_of_ne hcloses.buf_ne, UsConn.held, if_pos hkind]
  have hcalls := haccounts.calls_eq i server table howns.server_eq howns.conns_eq
  have htally : loop'.tally = { loop.tally with
      live := update loop.tally.live connection.fd none
      ended := ⟨server.connectCalls, server.disconnectCalls⟩ :: loop.tally.ended
      closing := true } := by
    have hlive := haccounts.live_of_holds hs
    rw [clientCalls, hcalls] at hlive
    rw [tally_eq hcloses.log_eq, Tally.foldl_end hlive]
  have hafter : Accounts loop' (d.swapRemove (.conn table idx) (.conn table last) true) calls := by
    refine haccounts.swapRemove hs rfl (hcloses.slotsBy_eq rfl) hcloses.isOpen_eq
      (hcloses.retables.calls_eq howns haccounts.calls_eq) ?_
    rw [htally]
  refine h.ends (hcloses.sound h.sound hidx) ?_ hafter (by rw [htally]; rfl) (by rw [htally])
    fun client hclient => List.mem_singleton.mp hclient ▸ connectCalls_le server
  intro table' j' c hc hkind'
  rw [hcloses.retables.conn?_eq] at hc
  have hold : ∀ (k : ℕ) (c : UsConn), conns[k]? = some c → c.kind = usKindConn →
      c.buf ≠ .null := by
    intro k c hc
    exact h.bufs table k c (by rw [conn?_of_table howns.table_eq, hc])
  split at hc
  case isTrue =>
    rw [hcloses.getElem?_conns] at hc
    split at hc
    · cases hc
      exact absurd hkind' zeroConn_kind_ne
    · split at hc
      · cases hc
        exact hold last _ hcloses.moved_eq hkind'
      · exact hold j' c hc hkind'
  case isFalse => exact h.bufs table' j' c hc hkind'

/-- A connection is closed past `close_conn`, in the table of the server at `i`. -/
theorem Follows.abandons (h : Follows loop) (hbuf : connection.buf ≠ .freed)
    (hserver : loop.servers[i]? = some server) (hconns : server.conns = some table)
    (habandons : Abandons loop loop' table j conns connection
      { connection with buf := .freed }) : Ends loop loop' [⟨server.connectCalls, 0⟩] := by
  have hrewrites := habandons.rewrites
  obtain ⟨d, calls, haccounts⟩ := h.accounts
  have hs : d.holds (.conn table j) = some connection.fd := by
    rw [haccounts.holds_eq, slotsBy_conn, conn?_of_table hrewrites.table_eq, hrewrites.conn_eq,
      Option.bind_some, UsConn.owned_of_ne hbuf, UsConn.held, if_pos hrewrites.kind_eq]
  have htally : loop'.tally = { loop.tally with
      live := update loop.tally.live connection.fd none
      ended := ⟨server.connectCalls, 0⟩ :: loop.tally.ended
      closing := true } := by
    have hlive := haccounts.live_of_holds hs
    rw [clientCalls, haccounts.calls_eq i server table hserver hconns] at hlive
    rw [tally_eq habandons.log_eq, List.foldl_cons, List.foldl_nil, Tally.note_closes hlive]
  have hafter : Accounts loop' (d.swapRemove (.conn table j) (.conn table j) true) calls := by
    refine haccounts.swapRemove hs rfl ?_ habandons.isOpen_eq ?_ ?_
    · rw [hrewrites.slotsBy_eq, update_idem]
      rfl
    · rw [hrewrites.servers_eq]
      exact haccounts.calls_eq
    · rw [htally]
  refine h.ends (habandons.sound h.sound) ?_ hafter (by rw [htally]; rfl) (by rw [htally])
    fun client hclient => List.mem_singleton.mp hclient ▸ connectCalls_le server
  intro table' j' c hc hkind'
  rw [hrewrites.conn?_eq] at hc
  split at hc
  case isTrue =>
    cases hc
    simp
  case isFalse => exact h.bufs table' j' c hc hkind'

theorem Follows.refuses (h : Follows loop) (hopen : loop.isOpen fd = false)
    (hrefuses : Refuses loop loop' fd) {drops : Bool} {client : Slot}
    (hlog : loop'.log = loop.log ++ .accepts fd :: .closes fd ::
      if drops then disconnects server client else []) :
    Ends loop loop' [⟨0, if drops then server.disconnectCalls else 0⟩] := by
  obtain ⟨d, calls, haccounts⟩ := h.accounts
  have hlive := haccounts.live_eq_none hopen
  have hfresh := Tally.note_accepts_live loop.tally fd
  have htally : loop'.tally = { loop.tally with
      ended := ⟨0, if drops then server.disconnectCalls else 0⟩ :: loop.tally.ended
      closing := true } := by
    rw [tally_eq hlog, List.foldl_cons]
    cases drops with
    | true =>
        rw [if_pos rfl, if_pos rfl, Tally.foldl_end hfresh, Tally.update_accepts hlive]
        rfl
    | false =>
        rw [if_neg Bool.false_ne_true, if_neg Bool.false_ne_true, List.foldl_cons, List.foldl_nil,
          Tally.note_closes hfresh, Tally.update_accepts hlive]
        rfl
  have hsame := hrefuses.same
  have hafter : Accounts loop' d calls := by
    refine ⟨?_, haccounts.sound, haccounts.complete, ?_, ?_, haccounts.calls_le, ?_⟩
    · rw [hsame.slotsBy_eq]
      exact haccounts.holds_eq
    · rw [hrefuses.isOpen_eq]
      exact haccounts.open_of_finds
    · rw [hsame.servers_eq]
      exact haccounts.calls_eq
    · rw [htally]
      exact haccounts.live_eq
  refine h.ends (h.sound.of_same hsame hrefuses.isOpen_eq hrefuses.registered_eq) ?_ hafter
    (by rw [htally]; rfl) (by rw [htally])
    fun client hclient => List.mem_singleton.mp hclient ▸ Nat.zero_le 1
  intro table' j' c hc
  rw [conn?, hsame.tables_eq] at hc
  exact h.bufs table' j' c hc

theorem Follows.takes (h : Follows loop) (hfd : 0 ≤ fd) (hopen : loop.isOpen fd = false)
    (htakes : Takes loop loop' i table server conns fd) : Ends loop loop' [] := by
  have hshape := h.sound.toShape
  have howns := htakes.owns
  obtain ⟨d, calls, haccounts⟩ := h.accounts
  have hcalls := haccounts.calls_eq i server table howns.server_eq howns.conns_eq
  obtain ⟨hlength, -, hfilled⟩ := howns.filled hshape
  have hvacant : d.holds (.conn table server.connsCount) = none := by
    rw [haccounts.holds_eq, slotsBy_conn, conn?_of_table howns.table_eq]
    rcases hget : conns[server.connsCount]? with _ | c
    · rfl
    · rw [hfilled.vacant server.connsCount c le_rfl hget]
      rfl
  have htally : loop'.tally = { loop.tally with
      live := update loop.tally.live fd (some server.connectCalls) } := by
    rw [tally_eq htakes.log_eq, Tally.foldl_take]
  have hafter : Accounts loop' (d.insert (.conn table server.connsCount) fd) calls := by
    refine haccounts.insert hopen hvacant (htakes.slotsBy_eq hshape _) htakes.isOpen_eq
      (htakes.retables.calls_eq howns haccounts.calls_eq) ?_
    rw [htally, clientCalls, hcalls]
  refine h.endsNone (htakes.sound h.sound hfd) ?_ hafter (by rw [htally]) (by rw [htally])
  intro table' j' c hc hkind'
  rw [htakes.retables.conn?_eq] at hc
  split at hc
  case isTrue =>
    rw [List.getElem?_set] at hc
    split at hc
    case isTrue =>
      split at hc
      · cases hc
        simp [newConn]
      · cases hc
    case isFalse =>
      exact h.bufs table j' c (by rw [conn?_of_table howns.table_eq, hc]) hkind'
  case isFalse => exact h.bufs table' j' c hc hkind'

theorem Follows.removes (h : Follows loop) (hempty : server.connsCount = 0)
    (hremoves : Removes loop loop' granted idx last server moved) : Ends loop loop' [] := by
  have hshape := h.sound.toShape
  obtain ⟨d, calls, haccounts⟩ := h.accounts
  have hs : d.holds (.server idx) = some server.listenFd := by
    rw [haccounts.holds_eq, slotsBy_server, hremoves.server_eq]
    exact (hshape.serves idx server hremoves.lt hremoves.server_eq).held_eq
  have hlive : loop.tally.live server.listenFd = none := haccounts.live_of_holds hs
  have htally : loop'.tally = { loop.tally with closing := false } := by
    rw [tally_eq hremoves.log_eq, List.foldl_cons, List.foldl_nil, Tally.note_closes_none hlive]
  have hafter : Accounts loop' (d.swapRemove (.server idx) (.server last) true) calls := by
    refine haccounts.swapRemove hs rfl (hremoves.slotsBy_eq rfl hshape hempty) hremoves.isOpen_eq
      ?_ ?_
    · intro i' server' table' hserver' htable'
      rcases hremoves.getElem?_servers_cases hserver' with ⟨-, rfl⟩ | ⟨-, origin, horigin, -, -⟩
      · cases htable'
      · exact haccounts.calls_eq origin server' table' horigin htable'
    · rw [htally, ← hlive, update_eq_self]
  refine h.endsNone (hremoves.sound h.sound hempty) ?_ hafter (by rw [htally]) (by rw [htally])
  intro table' j' c hc
  rw [hremoves.conn?_apply] at hc
  split at hc
  case isTrue => cases hc
  case isFalse => exact h.bufs table' j' c hc

theorem Accounts.recall {d : Directory Slot ℤ} {calls : ℕ → ℕ} (h : Accounts loop d calls)
    (hshape : Shape loop) {n : ℕ} (hn : n ≤ 1) :
    Accounts loop d (update calls loop.nextTable n) := by
  refine ⟨h.holds_eq, h.sound, h.complete, h.open_of_finds, ?_, fun table => ?_, fun fd => ?_⟩
  · intro i server table hserver htable
    have hne : table ≠ loop.nextTable := by
      rintro rfl
      exact conns_ne_nextTable hshape hserver htable
    rw [update_of_ne hne]
    exact h.calls_eq i server table hserver htable
  · rcases eq_or_ne table loop.nextTable with rfl | hne
    · rwa [update_self]
    · rw [update_of_ne hne]
      exact h.calls_le table
  · rw [h.live_eq]
    rcases hfinds : d.finds fd with _ | ⟨i | ⟨table, j⟩⟩
    · rfl
    · rfl
    · have hheld := h.sound fd _ hfinds
      rw [h.holds_eq, slotsBy_conn] at hheld
      obtain ⟨c, hc, -⟩ := Option.bind_eq_some_iff.mp hheld
      obtain ⟨conns, htable, -⟩ := Option.bind_eq_some_iff.mp hc
      have hlt := hshape.table_lt table (by rw [htable]; exact Option.some_ne_none _)
      rw [clientCalls, clientCalls, update_of_ne hlt.ne]

theorem Follows.creates (h : Follows loop) {args : CreateArgs} {meets : CreateMeets} {rc : ℤ}
    (hsound : Sound loop') (hcreate : loop.usServerCreate args meets = some (rc, loop')) :
    Ends loop loop' [] := by
  have hshape := h.sound.toShape
  obtain ⟨d, calls, haccounts⟩ := h.accounts
  obtain ⟨⟨effects, hlog, heffects⟩, hcases⟩ := usServerCreate_cases h.sound hcreate
  obtain ⟨hlive, hended, hstrays⟩ := Tally.foldl_closes_none (t := loop.tally) fun e he => by
    obtain ⟨fd, heq, hopen⟩ := heffects e he
    exact ⟨fd, heq, haccounts.live_eq_none hopen⟩
  rw [← tally_eq hlog] at hlive hended hstrays
  rcases hcases with ⟨ok, hsame, hisOpen, -⟩ | ⟨fd, ok, hfd, hopen, hadds⟩
  · have hafter : Accounts loop' d calls := by
      refine ⟨?_, haccounts.sound, haccounts.complete, ?_, ?_, haccounts.calls_le, ?_⟩
      · rw [hsame.slotsBy_eq, allocConns_slotsBy rfl hshape.table_lt]
        exact haccounts.holds_eq
      · rw [hisOpen]
        exact haccounts.open_of_finds
      · rw [hsame.servers_eq]
        exact haccounts.calls_eq
      · rw [hlive]
        exact haccounts.live_eq
    refine h.endsNone hsound ?_ hafter hended hstrays
    intro table j c hc hkind
    rw [conn?, hsame.tables_eq] at hc
    exact h.bufs table j c (allocConns_conn? hshape hc hkind) hkind
  · -- the table of the new server, if it has one, was not in use
    have hrecalls := haccounts.recall hshape
      (connectCalls_le (loop.newServer args fd (loop.allocConns ok).1))
    have hvacant : d.holds (.server loop.serversCount) = none := by
      have hget := List.getElem?_eq_getElem hadds.room
      rw [hshape.vacant _ _ le_rfl hget] at hget
      rw [haccounts.holds_eq, slotsBy_server, hget]
      rfl
    have hafter : Accounts loop' (d.insert (.server loop.serversCount) fd) (update calls
        loop.nextTable (loop.newServer args fd (loop.allocConns ok).1).connectCalls) := by
      refine hrecalls.insert hopen hvacant (hadds.slotsBy_eq rfl hshape) hadds.isOpen_eq ?_ ?_
      · intro i server table hserver htable
        rcases hadds.getElem?_servers_cases hserver with ⟨-, rfl⟩ | ⟨-, hold⟩
        · cases ok with
          | false => cases htable
          | true =>
              obtain rfl : loop.nextTable = table := Option.some.inj htable
              exact update_self _ _ _
        · exact hrecalls.calls_eq i server table hold htable
      · rw [hlive]
        exact (update_eq_self_iff.mpr (haccounts.live_eq_none hopen).symm).symm
    refine h.endsNone hsound ?_ hafter hended hstrays
    intro table j c hc hkind
    rw [conn?, hadds.tables_eq] at hc
    exact h.bufs table j c (allocConns_conn? hshape hc hkind) hkind

end Steps

end UsLoop

end Server

end ConArtist
