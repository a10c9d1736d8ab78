import ConArtist.Server.Handling

/-!
# Batches of events

`us_loop_run` fetches a batch of events and handles them one after the other, while
accepting and closing move the records that the later events of the batch point to.
`Level` keeps book of a connection table during a batch: its count, and the least it
has been. Slots below the least hold what they held when the batch was fetched, or what
was moved there by their own event; slots from the least on hold clients accepted in
the batch. So events are handled for their own connection as long as none comes to a
slot that was vacated and filled again (`handlesOwn_iff`).
-/

namespace ConArtist

namespace Server

open Function Machine

def usMaxKeventBatch : ℕ := 128

/-- The descriptor that an effect reads from or closes. -/
def Effect.descriptor : Effect → Option ℤ
  | .reads fd => some fd
  | .closes fd => some fd
  | .accepts _ => none
  | .connect .. => none
  | .message .. => none
  | .disconnect .. => none

theorem descriptor_of_isCallback {e : Effect} (h : e.isCallback = true) : e.descriptor = none := by
  cases e with
  | accepts fd => cases h
  | reads fd => cases h
  | closes fd => cases h
  | connect fn serverId fd user => rfl
  | message fn serverId fd data user => rfl
  | disconnect fn client user => rfl

/-- The count of a connection table, and the least it has been. -/
structure Level where
  count : ℕ
  low : ℕ

def Level.close (level : Level) : Level :=
  ⟨level.count - 1, min level.low (level.count - 1)⟩

namespace UsLoop

/-- What is logged from one state to a later one. -/
def logged (loop loop' : UsLoop) : List Effect := loop'.log.drop loop.log.length

/-- The body of `us_loop_run` for the events that `kevent` returned. -/
def usLoopRun (loop : UsLoop) (batch : List Event) : Option UsLoop := run handleEvent loop batch

/-- A batch that `kevent` may return: at most one event for a descriptor, with the slot
that the descriptor is registered under. -/
structure Fetched (loop : UsLoop) (batch : List Event) : Prop where
  registered : ∀ e ∈ batch, e.udata ≠ none ∧ e.udata = loop.registered e.ident
  nodup : (batch.map Event.ident).Nodup
  length_le : batch.length ≤ usMaxKeventBatch

/-- To handle the event, no descriptor is read from or closed but the one that raised
it, and clients that it accepted. -/
def HandlesOwn (loop : UsLoop) (event : Event) : Prop :=
  ∀ loop', loop.handleEvent event = some loop' → ∀ effect ∈ logged loop loop', ∀ fd,
    effect.descriptor = some fd → fd = event.ident ∨ .accepts fd ∈ logged loop loop'

/-- The count after `accept_new_clients`. -/
def acceptCount (connsCap : ℕ) : ℕ → List Accepted → ℕ
  | n, [] => n
  | n, .client _ flagsOk bufOk kqOk :: meets =>
      acceptCount connsCap (if takesClient n connsCap flagsOk bufOk kqOk then n + 1 else n) meets
  | n, .again :: _ => n
  | n, .intr :: meets => acceptCount connsCap n meets
  | n, .fail :: _ => n

/-- The counts of the connection tables when a batch is fetched. -/
def levels (loop : UsLoop) (table : ℕ) : Level :=
  match loop.servers.find? fun server => server.conns == some table with
  | some server => ⟨server.connsCount, server.connsCount⟩
  | none => ⟨0, 0⟩

/-- Whether an event closes the connection that its slot held when the batch was
fetched, and takes it out of its table. -/
def vacates (loop : UsLoop) (table j : ℕ) (event : Event) : Bool :=
  match loop.conn? table j with
  | none => false
  | some connection =>
      endsConn connection event &&
        match connection.server.bind fun i => loop.servers[i]? with
        | none => false
        | some server => server.conns == some table

/-- The levels after `accept_new_clients`. -/
def acceptLevels (levels : ℕ → Level) (server : UsServer) (meets : List Accepted) : ℕ → Level :=
  match server.conns with
  | none => levels
  | some table =>
      update levels table
        ⟨acceptCount server.connsCap (levels table).count meets, (levels table).low⟩

/-- The levels after an event, told from the state that the batch was fetched in. -/
def stepLevels (loop : UsLoop) (levels : ℕ → Level) (event : Event) : ℕ → Level :=
  match event.udata with
  | none => levels
  | some (.server i) =>
      match loop.servers[i]? with
      | none => levels
      | some server => acceptLevels levels server event.accepted
  | some (.conn table j) =>
      if j < (levels table).low ∧ loop.vacates table j event = true then
        update levels table (levels table).close
      else levels

/-- The slot of the event was vacated, and filled again. -/
def refilled (levels : ℕ → Level) (event : Event) : Bool :=
  match event.udata with
  | none => false
  | some (.server _) => false
  | some (.conn table j) => decide ((levels table).low ≤ j) && decide (j < (levels table).count)

/-- No event of the batch comes to a slot that was vacated and filled again. -/
def NoneRefilled (loop : UsLoop) : (ℕ → Level) → List Event → Prop
  | _, [] => True
  | levels, event :: batch =>
      refilled levels event = false ∧ NoneRefilled loop (loop.stepLevels levels event) batch

/-- The state within a batch. `loop₀` is the state it was fetched in. -/
structure Tracks (loop₀ : UsLoop) (levels : ℕ → Level) (loop : UsLoop) (pending : List Event) :
    Prop where
  sound : Sound loop
  servers_length : loop.servers.length = loop₀.servers.length
  servers : ∀ (i : ℕ) (server : UsServer), loop₀.servers[i]? = some server → ∃ n,
    loop.servers[i]? = some { server with connsCount := n } ∧
      ∀ table, server.conns = some table → n = (levels table).count
  low_le : ∀ table, (levels table).low ≤ (levels table).count
  held : ∀ e ∈ pending, ∃ slot, e.udata = some slot ∧ loop₀.directory.holds slot = some e.ident
  nodup : (pending.map Event.ident).Nodup
  isOpen : ∀ e ∈ pending, loop.isOpen e.ident = true
  conn_eq : ∀ e ∈ pending, ∀ table j, e.udata = some (.conn table j) → j < (levels table).low →
    loop.conn? table j = loop₀.conn? table j
  others : ∀ e ∈ pending, ∀ table j, (levels table).low ≤ j →
    loop.directory.holds (.conn table j) ≠ some e.ident

section Tracking

variable {loop₀ loop loop' : UsLoop} {levels : ℕ → Level} {event : Event} {pending : List Event}
  {table j : ℕ}

theorem Tracks.server_eq (h : Tracks loop₀ levels loop pending) {i : ℕ} {server : UsServer}
    (hserver : loop.servers[i]? = some server) : ∃ server₀ : UsServer,
      loop₀.servers[i]? = some server₀ ∧ server = { server₀ with connsCount := server.connsCount } ∧
        ∀ table, server₀.conns = some table → server.connsCount = (levels table).count := by
  have hlt := (List.getElem?_eq_some_iff.mp hserver).1
  rw [h.servers_length] at hlt
  have hserver₀ := List.getElem?_eq_getElem hlt
  obtain ⟨n, hn, hcount⟩ := h.servers i _ hserver₀
  obtain rfl := Option.some.inj (hserver.symm.trans hn)
  exact ⟨_, hserver₀, rfl, hcount⟩

/-- After a write of a connection table that leaves `n` connections in it, the counts are
those of levels that say so. -/
theorem Tracks.servers_retables (h : Tracks loop₀ levels loop pending) {i n : ℕ}
    {server : UsServer} {conns conns' : List UsConn} (howns : Owns loop i table server conns)
    (hretables : Retables loop loop' i table server conns' n) {level : Level}
    (hn : n = level.count) {i' : ℕ} {server' : UsServer}
    (hserver' : loop₀.servers[i']? = some server') :
    ∃ n', loop'.servers[i']? = some { server' with connsCount := n' } ∧
      ∀ table', server'.conns = some table' → n' = (update levels table level table').count := by
  obtain ⟨server₀, hserver₀, hserver, -⟩ := h.server_eq howns.server_eq
  have hconns₀ : server₀.conns = some table := by
    rw [← howns.conns_eq, hserver]
  rw [hretables.getElem?_servers howns]
  split
  case isTrue heq =>
    rw [heq, hserver₀] at hserver'
    cases hserver'
    refine ⟨n, by rw [hserver], fun table' htable' => ?_⟩
    obtain rfl : table = table' := Option.some.inj (hconns₀.symm.trans htable')
    rw [update_self, hn]
  case isFalse hne =>
    obtain ⟨n', hn', hcount'⟩ := h.servers i' server' hserver'
    refine ⟨n', hn', fun table' htable' => ?_⟩
    have htables : table' ≠ table := by
      rintro rfl
      exact howns.conns_ne h.sound.toShape hne hn' htable'
    rw [update_of_ne htables]
    exact hcount' table' htable'

theorem Tracks.count_eq (h : Tracks loop₀ levels loop pending) {i : ℕ} {server : UsServer}
    {conns : List UsConn} (howns : Owns loop i table server conns) :
    server.connsCount = (levels table).count := by
  obtain ⟨server₀, -, hserver, hcount⟩ := h.server_eq howns.server_eq
  refine hcount table ?_
  rw [← howns.conns_eq, hserver]

theorem Tracks.owns (h : Tracks loop₀ levels loop (event :: pending)) (hsound₀ : Sound loop₀)
    (hudata : event.udata = some (.conn table j)) :
    ∃ (i : ℕ) (server₀ : UsServer) (conns : List UsConn), loop₀.servers[i]? = some server₀ ∧
      server₀.conns = some table ∧
      Owns loop i table { server₀ with connsCount := (levels table).count } conns := by
  obtain ⟨slot, hslot, hheld⟩ := h.held event List.mem_cons_self
  cases hudata.symm.trans hslot
  obtain ⟨connection, hconn, hkind, -⟩ := holds_conn_eq_some.mp hheld
  obtain ⟨i, server₀, hserver₀, hconns⟩ := hsound₀.owned table j connection hconn hkind
  obtain ⟨n, hserver, hcount⟩ := h.servers i server₀ hserver₀
  obtain rfl := hcount table hconns
  have hi := lt_serversCount h.sound.toShape hserver hconns
  obtain ⟨conns, htable, -⟩ := (h.sound.serves i _ hi hserver).filled table hconns
  exact ⟨i, server₀, conns, hserver₀, hconns, hi, hserver, hconns, htable⟩

theorem Tracks.udata_ne (h : Tracks loop₀ levels loop (event :: pending)) {e : Event}
    (he : e ∈ pending) : e.ident ≠ event.ident ∧ e.udata ≠ event.udata := by
  have hident : e.ident ≠ event.ident := by
    have hnodup := h.nodup
    rw [List.map_cons, List.nodup_cons] at hnodup
    intro heq
    exact hnodup.1 (heq ▸ List.mem_map_of_mem he)
  refine ⟨hident, fun heq => hident ?_⟩
  obtain ⟨slot, hslot, hheld⟩ := h.held event List.mem_cons_self
  obtain ⟨slot', hslot', hheld'⟩ := h.held e (List.mem_cons_of_mem _ he)
  rw [heq, hslot] at hslot'
  cases hslot'
  exact Option.some.inj (hheld'.symm.trans hheld)

end Tracking

section Connection

variable {loop loop' : UsLoop} {table j : ℕ} {conns : List UsConn}
  {connection connection' : UsConn} {event : Event}

theorem logged_eq {effects : List Effect} (h : loop'.log = loop.log ++ effects) :
    logged loop loop' = effects := by
  rw [logged, h, List.drop_left]

theorem endConn_log {granted : Bool} (hshape : Shape loop) (htable : loop.tables table = some conns)
    (hconn : conns[j]? = some connection) (hkind : connection.kind = usKindConn)
    (h : loop.endConn table j connection granted = some loop') :
    ∃ effects, loop'.log = loop.log ++ .closes connection.fd :: effects ∧
      ∀ e ∈ effects, e.isCallback = true := by
  obtain ⟨i, server, -, -, ⟨-, -, last, moved, hcloses⟩ | ⟨-, connection', habandons⟩⟩ :=
    endConn_cases hshape htable hconn hkind h
  · exact ⟨_, hcloses.log_eq, fun e he => isCallback_of_mem_disconnects he⟩
  · exact ⟨[], habandons.log_eq, fun e he => absurd he List.not_mem_nil⟩

/-- An event for a slot that holds a connection reads from or closes the descriptor that
the slot holds, and no other. -/
theorem HandlesConn.logged_spec (hsound : Sound loop)
    (h : HandlesConn loop loop' table j conns connection event) :
    (∀ e ∈ logged loop loop', e.isCallback = true ∨ e.descriptor = some connection.fd) ∧
      ∃ e ∈ logged loop loop', e.descriptor = some connection.fd := by
  have hread : ∀ e : Effect, e.isCallback = true ∨ e = .reads connection.fd →
      e.isCallback = true ∨ e.descriptor = some connection.fd := by
    rintro e (he | rfl)
    · exact Or.inl he
    · exact Or.inr rfl
  cases h with
  | stays connection' _ hprepares hreads =>
      refine ⟨fun e he => ?_, _, hreads, rfl⟩
      obtain ⟨effects, hlog, heffects⟩ := hprepares.log_eq
      rw [logged_eq hlog] at he
      exact hread e (heffects e he)
  | ends loop₁ connection' _ hprepares hend =>
      obtain ⟨htable, hconn⟩ := hprepares.getElem?_eq
      obtain ⟨before, hlog₁, hbefore⟩ := hprepares.log_eq
      obtain ⟨after, hlog, hafter⟩ := endConn_log (hprepares.sound hsound).toShape htable hconn
        hprepares.rewrites.kind_eq' hend
      rw [hlog₁, hprepares.rewrites.fd_eq, List.append_assoc] at hlog
      rw [logged_eq hlog]
      refine ⟨fun e he => ?_, .closes connection.fd, ?_, rfl⟩
      · rcases List.mem_append.mp he with he | he
        · exact hread e (hbefore e he)
        · rcases List.mem_cons.mp he with rfl | he
          · exact Or.inr rfl
          · exact Or.inl (hafter e he)
      · exact List.mem_append_right _ List.mem_cons_self

/-- So the event is handled for its own connection exactly when the slot still holds it. -/
theorem HandlesConn.own_iff (hsound : Sound loop)
    (hhandle : loop.handleEvent event = some loop')
    (h : HandlesConn loop loop' table j conns connection event) :
    HandlesOwn loop event ↔ connection.fd = event.ident := by
  obtain ⟨hall, effect, hmem, hdescriptor⟩ := h.logged_spec hsound
  constructor
  · intro hown
    refine (hown loop' hhandle effect hmem _ hdescriptor).resolve_right fun haccepts => ?_
    rcases hall _ haccepts with hcallback | hdescriptor
    · cases hcallback
    · cases hdescriptor
  · intro hfd loop'' hhandle' e he fd hdescriptor'
    cases hhandle.symm.trans hhandle'
    rcases hall e he with hcallback | hdescriptor''
    · rw [descriptor_of_isCallback hcallback] at hdescriptor'
      cases hdescriptor'
    · left
      rw [← hfd]
      exact Option.some.inj (hdescriptor'.symm.trans hdescriptor'')

end Connection

section Steps

variable {loop₀ loop loop' : UsLoop} {levels : ℕ → Level} {event : Event} {pending : List Event}
  {table j : ℕ}

theorem Tracks.tail (h : Tracks loop₀ levels loop (event :: pending)) :
    Tracks loop₀ levels loop pending where
  sound := h.sound
  servers_length := h.servers_length
  servers := h.servers
  low_le := h.low_le
  held := fun e he => h.held e (List.mem_cons_of_mem _ he)
  nodup := (List.nodup_cons.mp h.nodup).2
  isOpen := fun e he => h.isOpen e (List.mem_cons_of_mem _ he)
  conn_eq := fun e he => h.conn_eq e (List.mem_cons_of_mem _ he)
  others := fun e he => h.others e (List.mem_cons_of_mem _ he)

theorem Tracks.prepares {conns : List UsConn} {connection connection' : UsConn}
    (h : Tracks loop₀ levels loop (event :: pending)) (hudata : event.udata = some (.conn table j))
    (hprepares : Prepares loop loop' table j conns connection connection') :
    Tracks loop₀ levels loop' pending where
  sound := hprepares.sound h.sound
  servers_length := by rw [hprepares.rewrites.servers_eq, h.servers_length]
  servers := by
    rw [hprepares.rewrites.servers_eq]
    exact h.servers
  low_le := h.low_le
  held := h.tail.held
  nodup := h.tail.nodup
  isOpen := fun e he => by
    rw [hprepares.isOpen_eq]
    exact h.tail.isOpen e he
  conn_eq := fun e he table' j' hudata' hj' => by
    rw [hprepares.rewrites.conn?_eq, if_neg]
    · exact h.tail.conn_eq e he table' j' hudata' hj'
    · rintro ⟨rfl, rfl⟩
      exact (h.udata_ne he).2 (hudata'.trans hudata.symm)
  others := fun e he table' j' hj' => by
    rw [hprepares.directory_eq]
    exact h.tail.others e he table' j' hj'

theorem Tracks.closes {i last : ℕ} {granted : Bool} {server : UsServer} {conns : List UsConn}
    {connection moved : UsConn} (h : Tracks loop₀ levels loop pending)
    (hother : ∀ e ∈ pending, e.ident ≠ connection.fd ∧ e.udata ≠ some (.conn table j))
    (hlow : j < (levels table).low)
    (hcloses : Closes loop loop' granted i j table last server conns connection moved) :
    Tracks loop₀ (update levels table (levels table).close) loop' pending := by
  have hshape := h.sound.toShape
  have hcount := h.count_eq hcloses.owns
  have hlast := hcloses.count_eq
  have hle := h.low_le table
  have hclose : (levels table).close = ⟨last, min (levels table).low last⟩ := by
    rw [Level.close, ← hcount, hlast, Nat.add_sub_cancel]
  have hj : j < server.connsCount := by omega
  refine ⟨hcloses.sound h.sound hj, ?_, ?_, ?_, h.held, h.nodup, ?_, ?_, ?_⟩
  · rw [hcloses.retables.servers_eq, List.length_set, h.servers_length]
  · intro i' server' hserver'
    exact h.servers_retables hcloses.owns hcloses.retables (by rw [hclose]) hserver'
  · intro table'
    rcases eq_or_ne table' table with rfl | hne
    · rw [update_self, hclose]
      exact Nat.min_le_right _ _
    · rw [update_of_ne hne]
      exact h.low_le table'
  · intro e he
    rw [hcloses.isOpen_eq, update_of_ne (hother e he).1]
    exact h.isOpen e he
  · intro e he table' j' hudata hj'
    rw [hcloses.retables.conn?_eq]
    rcases eq_or_ne table' table with rfl | hne
    · rw [update_self, hclose] at hj'
      simp only at hj'
      have hne' : j' ≠ j := by
        rintro rfl
        exact (hother e he).2 hudata
      rw [if_pos rfl, hcloses.getElem?_conns, if_neg (by omega), if_neg hne',
        ← conn?_of_table hcloses.owns.table_eq]
      exact h.conn_eq e he table' j' hudata (by omega)
    · rw [update_of_ne hne] at hj'
      rw [if_neg hne]
      exact h.conn_eq e he table' j' hudata hj'
  · intro e he table' j' hj'
    rw [hcloses.directory_eq hshape hj]
    rcases eq_or_ne table' table with rfl | hne
    · rw [update_self, hclose] at hj'
      simp only at hj'
      rcases eq_or_ne j' last with rfl | hjlast
      · rw [Directory.holds_swapRemove_last]
        exact fun hnone => nomatch hnone
      · -- below the new level no slot is left, so the slot is one that was above before
        have hjj : j' ≠ j := by omega
        rw [Directory.holds_swapRemove_of_ne (by simpa using hjj) (by simpa using hjlast)]
        exact h.others e he table' j' (by omega)
    · rw [update_of_ne hne] at hj'
      rw [Directory.holds_swapRemove_of_ne (by simp [hne]) (by simp [hne])]
      exact h.others e he table' j' hj'

theorem Tracks.abandons {conns : List UsConn} {connection connection' : UsConn}
    (h : Tracks loop₀ levels loop pending)
    (hother : ∀ e ∈ pending, e.ident ≠ connection.fd ∧ e.udata ≠ some (.conn table j))
    (habandons : Abandons loop loop' table j conns connection connection') :
    Tracks loop₀ levels loop' pending where
  sound := habandons.sound h.sound
  servers_length := by rw [habandons.rewrites.servers_eq, h.servers_length]
  servers := by
    rw [habandons.rewrites.servers_eq]
    exact h.servers
  low_le := h.low_le
  held := h.held
  nodup := h.nodup
  isOpen := fun e he => by
    rw [habandons.isOpen_eq, update_of_ne (hother e he).1]
    exact h.isOpen e he
  conn_eq := fun e he table' j' hudata' hj' => by
    rw [habandons.rewrites.conn?_eq, if_neg]
    · exact h.conn_eq e he table' j' hudata' hj'
    · rintro ⟨rfl, rfl⟩
      exact (hother e he).2 hudata'
  others := fun e he table' j' hj' => by
    rw [habandons.directory_eq]
    exact h.others e he table' j' hj'

theorem handlesOwn_of_same (hhandle : loop.handleEvent event = some loop) :
    HandlesOwn loop event := by
  intro loop' hhandle' e he
  cases hhandle.symm.trans hhandle'
  rw [logged, List.drop_length] at he
  exact absurd he List.not_mem_nil

theorem stepLevels_conn (hudata : event.udata = some (.conn table j))
    (hlow : j < (levels table).low) :
    loop₀.stepLevels levels event =
      if loop₀.vacates table j event = true then update levels table (levels table).close
      else levels := by
  rw [stepLevels, hudata]
  simp only [hlow, true_and]

theorem vacates_eq {connection : UsConn} {i : ℕ} {server : UsServer}
    (hconn : loop₀.conn? table j = some connection) (hends : endsConn connection event = true)
    (hi : connection.server = some i) (hserver : loop₀.servers[i]? = some server) :
    loop₀.vacates table j event = (server.conns == some table) := by
  simp only [vacates, hconn, hends, Bool.true_and, hi, Option.bind_some, hserver]

theorem vacates_of_stays {connection : UsConn} (hconn : loop₀.conn? table j = some connection)
    (hends : endsConn connection event = false) : loop₀.vacates table j event = false := by
  simp only [vacates, hconn, hends, Bool.false_and]

theorem Tracks.handles {conns : List UsConn} {connection : UsConn}
    (h : Tracks loop₀ levels loop (event :: pending)) (hudata : event.udata = some (.conn table j))
    (hlow : j < (levels table).low) (hfd : connection.fd = event.ident)
    (hconn : loop₀.conn? table j = some connection)
    (hhandles : HandlesConn loop loop' table j conns connection event) :
    Tracks loop₀ (loop₀.stepLevels levels event) loop' pending := by
  rw [stepLevels_conn hudata hlow]
  cases hhandles with
  | stays connection' hends hprepares _ =>
      rw [vacates_of_stays hconn hends, if_neg Bool.false_ne_true]
      exact h.prepares hudata hprepares
  | ends loop₁ connection' hends hprepares hend =>
      have h₁ := h.prepares hudata hprepares
      obtain ⟨htable₁, hconn₁⟩ := hprepares.getElem?_eq
      have hother : ∀ e ∈ pending, e.ident ≠ connection'.fd ∧ e.udata ≠ some (.conn table j) := by
        intro e he
        rw [hprepares.rewrites.fd_eq, hfd, ← hudata]
        exact h.udata_ne he
      obtain ⟨i, server, hi, hserver, hcases⟩ :=
        endConn_cases h₁.sound.toShape htable₁ hconn₁ hprepares.rewrites.kind_eq' hend
      rw [hprepares.rewrites.server_eq] at hi
      obtain ⟨server₀, hserver₀, heq, -⟩ := h₁.server_eq hserver
      have hconns : server.conns = server₀.conns := by rw [heq]
      rw [vacates_eq hconn hends hi hserver₀, ← hconns]
      rcases hcases with ⟨hfound, -, last, moved, hcloses⟩ | ⟨hlost, connection'', habandons⟩
      · rw [if_pos (by rw [hfound]; exact beq_self_eq_true _)]
        exact h₁.closes hother hlow hcloses
      · rw [if_neg (fun h => hlost (eq_of_beq h))]
        exact h₁.abandons hother habandons

/-- An event for the slot of a connection is handled for its own connection exactly when
the slot was not filled again. -/
theorem Tracks.conn_step (hsound₀ : Sound loop₀) (h : Tracks loop₀ levels loop (event :: pending))
    (hudata : event.udata = some (.conn table j)) (hstep : loop.handleEvent event = some loop') :
    (HandlesOwn loop event ↔ refilled levels event = false) ∧
      (refilled levels event = false →
        Tracks loop₀ (loop₀.stepLevels levels event) loop' pending) := by
  obtain ⟨i, server₀, conns, -, -, howns⟩ := h.owns hsound₀ hudata
  obtain ⟨hlength, hle, hfilled⟩ := howns.filled h.sound.toShape
  simp only at hlength hle hfilled
  have hrefilled : refilled levels event = false ↔
      ¬ ((levels table).low ≤ j ∧ j < (levels table).count) := by
    simp only [refilled, hudata, ← Bool.decide_and, decide_eq_false_iff_not]
  have hlow := h.low_le table
  rw [hrefilled]
  rcases Nat.lt_or_ge j (levels table).count with hj | hj
  · have hconn : conns[j]? = some conns[j] := List.getElem?_eq_getElem (by omega)
    have hkind := (hfilled.taken j _ hj hconn).1
    have hconn? : loop.conn? table j = some conns[j] := by rw [conn?_of_table howns.table_eq, hconn]
    have hhandles := handlesConn_of_eq howns.table_eq hconn hkind hudata hstep
    rw [hhandles.own_iff h.sound hstep]
    rcases Nat.lt_or_ge j (levels table).low with hjlow | hjlow
    · -- the slot holds what it held when the batch was fetched
      have hconn₀ := (h.conn_eq event List.mem_cons_self table j hudata hjlow).symm.trans hconn?
      have hfd : conns[j].fd = event.ident := by
        obtain ⟨slot, hslot, hheld⟩ := h.held event List.mem_cons_self
        cases hudata.symm.trans hslot
        rw [holds_conn, hconn₀, Option.bind_some, UsConn.held, if_pos hkind] at hheld
        exact Option.some.inj hheld
      exact ⟨iff_of_true hfd (by omega), fun _ => h.handles hudata hjlow hfd hconn₀ hhandles⟩
    · refine ⟨iff_of_false (fun hfd => ?_) (not_not.mpr ⟨hjlow, hj⟩),
        fun hnot => absurd ⟨hjlow, hj⟩ hnot⟩
      refine h.others event List.mem_cons_self table j hjlow ?_
      rw [holds_conn, hconn?, Option.bind_some, UsConn.held, if_pos hkind, hfd]
  · -- the slot is vacant
    have hvacant : ∀ connection, loop.conn? table j = some connection →
        connection.kind ≠ usKindConn := by
      intro connection hconn hkind
      rw [conn?_of_table howns.table_eq] at hconn
      rw [hfilled.vacant j connection hj hconn] at hkind
      exact zeroConn_kind_ne hkind
    have hlevels : loop₀.stepLevels levels event = levels := by
      rw [stepLevels, hudata]
      simp only [show ¬ j < (levels table).low by omega, false_and, if_false]
    rw [hlevels]
    have hsame : loop' = loop := by
      cases handles_of_eq h.sound.toShape hstep with
      | ignores _ hsame => exact hsame
      | accepts i rc hudata' => cases hudata.symm.trans hudata'
      | conn table' j' conns' connection hudata' htable hconn hkind _ =>
          cases hudata.symm.trans hudata'
          exact absurd hkind (hvacant connection (by rw [conn?_of_table htable, hconn]))
    subst hsame
    exact ⟨iff_of_true (handlesOwn_of_same hstep) (by omega), fun _ => h.tail⟩

end Steps

section Accepting

variable {loop₀ loop loop' : UsLoop} {levels : ℕ → Level} {pending : List Event} {i : ℕ}
  {server : UsServer} {meets : List Accepted} {fd rc : ℤ}

/-- The descriptors that effects read from or close are accepted among them. -/
def AcceptedOnly (effects : List Effect) : Prop :=
  ∀ e ∈ effects, ∀ fd, e.descriptor = some fd → .accepts fd ∈ effects

theorem AcceptedOnly.append {effects effects' : List Effect} (h : AcceptedOnly effects)
    (h' : AcceptedOnly effects') : AcceptedOnly (effects ++ effects') := by
  intro e he fd hfd
  rcases List.mem_append.mp he with he | he
  · exact List.mem_append_left _ (h e he fd hfd)
  · exact List.mem_append_right _ (h' e he fd hfd)

theorem Refuses.log (h : Refuses loop loop' fd) :
    ∃ effects, loop'.log = loop.log ++ effects ∧ AcceptedOnly effects := by
  obtain ⟨effects, hlog, heffects⟩ := h.log_eq
  refine ⟨_, hlog, fun e he fd' hfd' => ?_⟩
  rcases List.mem_cons.mp he with rfl | he
  · cases hfd'
  · rcases List.mem_cons.mp he with rfl | he
    · cases hfd'
      exact List.mem_cons_self
    · rw [descriptor_of_isCallback (heffects e he)] at hfd'
      cases hfd'

theorem Takes.log {table : ℕ} {conns : List UsConn}
    (h : Takes loop loop' i table server conns fd) :
    ∃ effects, loop'.log = loop.log ++ effects ∧ AcceptedOnly effects := by
  refine ⟨_, h.log_eq, fun e he fd' hfd' => ?_⟩
  rcases List.mem_cons.mp he with rfl | he
  · cases hfd'
  · rw [descriptor_of_isCallback (isCallback_of_mem_connects he)] at hfd'
    cases hfd'

theorem Tracks.refuses (h : Tracks loop₀ levels loop pending) (hrefuses : Refuses loop loop' fd) :
    Tracks loop₀ levels loop' pending where
  sound := h.sound.of_same hrefuses.same hrefuses.isOpen_eq hrefuses.registered_eq
  servers_length := by rw [hrefuses.same.servers_eq, h.servers_length]
  servers := by
    rw [hrefuses.same.servers_eq]
    exact h.servers
  low_le := h.low_le
  held := h.held
  nodup := h.nodup
  isOpen := by
    rw [hrefuses.isOpen_eq]
    exact h.isOpen
  conn_eq := fun e he table j hudata hj => by
    rw [conn?, hrefuses.same.tables_eq]
    exact h.conn_eq e he table j hudata hj
  others := by
    rw [hrefuses.same.holds_eq]
    exact h.others

/-- A client that is taken fills the slot at the count of its table, with a descriptor
that raised none of the events. -/
theorem Tracks.takes {table : ℕ} {conns : List UsConn} (h : Tracks loop₀ levels loop pending)
    (hfd : 0 ≤ fd) (hopen : loop.isOpen fd = false)
    (htakes : Takes loop loop' i table server conns fd) :
    Tracks loop₀ (update levels table ⟨(levels table).count + 1, (levels table).low⟩) loop'
      pending := by
  have hshape := h.sound.toShape
  have hcount := h.count_eq htakes.owns
  have hle := h.low_le table
  refine ⟨htakes.sound h.sound hfd, ?_, ?_, ?_, h.held, h.nodup, ?_, ?_, ?_⟩
  · rw [htakes.retables.servers_eq, List.length_set, h.servers_length]
  · intro i' server' hserver'
    exact h.servers_retables htakes.owns htakes.retables (by rw [hcount]) hserver'
  · intro table'
    rcases eq_or_ne table' table with rfl | hne
    · rw [update_self]
      exact Nat.le_succ_of_le hle
    · rw [update_of_ne hne]
      exact h.low_le table'
  · intro e he
    rw [htakes.isOpen_eq]
    rcases eq_or_ne e.ident fd with heq | hne
    · rw [heq, update_self]
    · rw [update_of_ne hne]
      exact h.isOpen e he
  · intro e he table' j hudata hj
    rw [htakes.retables.conn?_eq]
    rcases eq_or_ne table' table with rfl | hne
    · rw [update_self] at hj
      simp only at hj
      rw [if_pos rfl, List.getElem?_set_ne (by omega), ← conn?_of_table htakes.owns.table_eq]
      exact h.conn_eq e he table' j hudata hj
    · rw [update_of_ne hne] at hj
      rw [if_neg hne]
      exact h.conn_eq e he table' j hudata hj
  · intro e he table' j hj
    rw [htakes.directory_eq hshape, Directory.insert_holds]
    rcases eq_or_ne (Slot.conn table' j) (Slot.conn table server.connsCount) with heq | hne
    · rw [heq, update_self]
      rintro hident
      rw [Option.some.inj hident, h.isOpen e he] at hopen
      cases hopen
    · rw [update_of_ne hne]
      refine h.others e he table' j ?_
      rcases eq_or_ne table' table with rfl | htable
      · rwa [update_self] at hj
      · rwa [update_of_ne htable] at hj

theorem acceptLevels_of_acceptCount (hmeets : ∀ n, acceptCount server.connsCap n meets = n) :
    acceptLevels levels server meets = levels := by
  rw [acceptLevels]
  split
  · rfl
  · rw [hmeets]
    exact update_eq_self _ _

theorem acceptLevels_refused {n : ℕ} {flagsOk bufOk kqOk : Bool}
    (hn : ∀ table, server.conns = some table → n = (levels table).count)
    (hrefused : takesClient n server.connsCap flagsOk bufOk kqOk = false) :
    acceptLevels levels server (.client fd flagsOk bufOk kqOk :: meets) =
      acceptLevels levels server meets := by
  rw [acceptLevels, acceptLevels]
  split
  case h_1 => rfl
  case h_2 table htable =>
    rw [acceptCount, ← hn table htable, hrefused, if_neg Bool.false_ne_true]

theorem acceptLevels_taken {table : ℕ} {flagsOk bufOk kqOk : Bool}
    (htable : server.conns = some table)
    (htaken : takesClient (levels table).count server.connsCap flagsOk bufOk kqOk = true) :
    acceptLevels levels server (.client fd flagsOk bufOk kqOk :: meets) =
      acceptLevels (update levels table ⟨(levels table).count + 1, (levels table).low⟩) server
        meets := by
  simp only [acceptLevels, htable, acceptCount, htaken, if_true, update_self, update_idem]

/-- `accept_new_clients` within a batch. -/
theorem Tracks.acceptNewClients (h : Tracks loop₀ levels loop pending) (hi : i < loop.serversCount)
    (hserver : loop₀.servers[i]? = some server)
    (haccept : acceptNewClients i loop meets = some (rc, loop')) :
    Tracks loop₀ (acceptLevels levels server meets) loop' pending ∧
      ∃ effects, loop'.log = loop.log ++ effects ∧ AcceptedOnly effects := by
  have hnone : ∃ effects, loop.log = loop.log ++ effects ∧ AcceptedOnly effects :=
    ⟨[], (List.append_nil _).symm, fun e he => absurd he List.not_mem_nil⟩
  induction meets generalizing loop levels with
  | nil =>
      cases haccept
      rw [acceptLevels_of_acceptCount fun n => rfl]
      exact ⟨h, hnone⟩
  | cons met meets ih =>
      cases met with
      | client fd flagsOk bufOk kqOk =>
          rw [UsLoop.acceptNewClients] at haccept
          obtain ⟨loop₁, hclient, hrest⟩ := Option.bind_eq_some_iff.mp haccept
          obtain ⟨n, hn, hcount⟩ := h.servers i server hserver
          have hnone₁ : ∃ effects, loop₁.log = loop₁.log ++ effects ∧ AcceptedOnly effects :=
            ⟨[], (List.append_nil _).symm, fun e he => absurd he List.not_mem_nil⟩
          obtain ⟨hfd, hopen, ⟨hrefused, hrefuses, -⟩ | ⟨htaken, table, conns, htakes⟩⟩ :=
            acceptClient_spec h.sound hi hn hclient
          · obtain ⟨before, hbefore, hbefore'⟩ := hrefuses.log
            obtain ⟨htracks, after, hafter, hafter'⟩ := ih (h.refuses hrefuses)
              (by rw [hrefuses.same.serversCount_eq]; exact hi) hrest hnone₁
            rw [acceptLevels_refused hcount hrefused]
            refine ⟨htracks, before ++ after, ?_, hbefore'.append hafter'⟩
            rw [hafter, hbefore, List.append_assoc]
          · obtain ⟨before, hbefore, hbefore'⟩ := htakes.log
            have htable : server.conns = some table := htakes.owns.conns_eq
            obtain ⟨htracks, after, hafter, hafter'⟩ := ih (h.takes hfd hopen htakes)
              (by rw [htakes.retables.serversCount_eq]; exact hi) hrest hnone₁
            obtain rfl := hcount table htable
            rw [acceptLevels_taken htable htaken]
            refine ⟨htracks, before ++ after, ?_, hbefore'.append hafter'⟩
            rw [hafter, hbefore, List.append_assoc]
      | again =>
          cases haccept
          rw [acceptLevels_of_acceptCount fun n => rfl]
          exact ⟨h, hnone⟩
      | intr => exact ih h hi haccept hnone
      | fail =>
          cases haccept
          rw [acceptLevels_of_acceptCount fun n => rfl]
          exact ⟨h, hnone⟩

end Accepting

section Batches

variable {loop₀ loop loop' : UsLoop} {levels : ℕ → Level} {event : Event} {pending : List Event}

/-- An event of a listening descriptor is handled for the clients that it accepts. -/
theorem Tracks.server_step (h : Tracks loop₀ levels loop (event :: pending)) {i : ℕ}
    (hudata : event.udata = some (.server i)) (hstep : loop.handleEvent event = some loop') :
    HandlesOwn loop event ∧ Tracks loop₀ (loop₀.stepLevels levels event) loop' pending := by
  obtain ⟨slot, hslot, hheld⟩ := h.held event List.mem_cons_self
  cases hudata.symm.trans hslot
  rw [holds_server, Option.bind_eq_some_iff] at hheld
  obtain ⟨server, hserver, hheld⟩ := hheld
  obtain ⟨n, hn, -⟩ := h.servers i server hserver
  have hheldNow : loop.directory.holds (.server i) = some event.ident := by
    rw [holds_server, hn]
    exact hheld
  have hlevels : loop₀.stepLevels levels event = acceptLevels levels server event.accepted := by
    simp only [stepLevels, hudata, hserver]
  rw [hlevels]
  cases handles_of_eq h.sound.toShape hstep with
  | ignores hvacant _ =>
      rw [hvacant _ hudata] at hheldNow
      cases hheldNow
  | accepts i' rc hudata' hi haccept =>
      cases hudata.symm.trans hudata'
      obtain ⟨htracks, effects, hlog, heffects⟩ := h.tail.acceptNewClients hi hserver haccept
      refine ⟨fun loop'' hstep' e he fd hfd => Or.inr ?_, htracks⟩
      cases hstep.symm.trans hstep'
      rw [logged_eq hlog] at he ⊢
      exact heffects e he fd hfd
  | conn table j conns connection hudata' => cases hudata.symm.trans hudata'

/-- Each event is handled for its own connection exactly when its slot was not filled
again, and then the bookkeeping goes on. -/
theorem Tracks.step (hsound₀ : Sound loop₀) (h : Tracks loop₀ levels loop (event :: pending))
    (hstep : loop.handleEvent event = some loop') :
    (HandlesOwn loop event ↔ refilled levels event = false) ∧
      (refilled levels event = false →
        Tracks loop₀ (loop₀.stepLevels levels event) loop' pending) := by
  obtain ⟨slot, hudata, -⟩ := h.held event List.mem_cons_self
  cases slot with
  | server i =>
      obtain ⟨hown, htracks⟩ := h.server_step hudata hstep
      exact ⟨iff_of_true hown (by rw [refilled, hudata]), fun _ => htracks⟩
  | conn table j => exact h.conn_step hsound₀ hudata hstep

theorem Tracks.along_iff (hsound₀ : Sound loop₀) {batch : List Event}
    (h : Tracks loop₀ levels loop batch) (hrun : usLoopRun loop batch = some loop') :
    Along handleEvent HandlesOwn loop batch ↔ NoneRefilled loop₀ levels batch := by
  induction batch generalizing loop levels with
  | nil => exact iff_of_true trivial trivial
  | cons event batch ih =>
      obtain ⟨loop₁, hstep, hrest⟩ := (run_cons_eq_some handleEvent).mp hrun
      obtain ⟨hown, htracks⟩ := h.step hsound₀ hstep
      rw [NoneRefilled]
      constructor
      · intro halong
        obtain ⟨hfirst, halong'⟩ := halong loop₁ hstep
        have hnot := hown.mp hfirst
        exact ⟨hnot, (ih (htracks hnot) hrest).mp halong'⟩
      · rintro ⟨hnot, hbatch⟩ loop₂ hstep'
        cases hstep.symm.trans hstep'
        exact ⟨hown.mpr hnot, (ih (htracks hnot) hrest).mpr hbatch⟩

theorem levels_eq (hshape : Shape loop) {i table : ℕ} {server : UsServer}
    (hserver : loop.servers[i]? = some server) (hconns : server.conns = some table) :
    loop.levels table = ⟨server.connsCount, server.connsCount⟩ := by
  have hfind : (loop.servers.find? fun server => server.conns == some table) = some server := by
    rcases hfound : loop.servers.find? fun server => server.conns == some table with _ | server'
    · have hnone := List.find?_eq_none.mp hfound server (List.mem_of_getElem? hserver)
      exact absurd (by rw [hconns]; exact beq_self_eq_true _) hnone
    · obtain ⟨i', hi'⟩ := List.mem_iff_getElem?.mp (List.mem_of_find?_eq_some hfound)
      have hbeq := List.find?_some hfound
      have hconns' : server'.conns = some table := eq_of_beq hbeq
      obtain rfl := hshape.conns_inj i i' server server' table hserver hi' hconns hconns'
      exact hfound.trans (hi'.symm.trans hserver)
  rw [levels, hfind]

theorem tracks_of_fetched (hsound : Sound loop) {batch : List Event} (h : Fetched loop batch) :
    Tracks loop loop.levels loop batch := by
  have hheld : ∀ e ∈ batch, ∃ slot, e.udata = some slot ∧ loop.registered e.ident = some slot := by
    intro e he
    obtain ⟨hsome, hudata⟩ := h.registered e he
    obtain ⟨slot, hslot⟩ := Option.ne_none_iff_exists'.mp hsome
    exact ⟨slot, hslot, hudata.symm.trans hslot⟩
  refine ⟨hsound, rfl, ?_, ?_, ?_, h.nodup, ?_, fun _ _ _ _ _ _ => rfl, ?_⟩
  · intro i server hserver
    refine ⟨server.connsCount, hserver, fun table htable => ?_⟩
    rw [levels_eq hsound.toShape hserver htable]
  · intro table
    rw [levels]
    split <;> exact le_rfl
  · intro e he
    obtain ⟨slot, hslot, hregistered⟩ := hheld e he
    exact ⟨slot, hslot, hsound.found _ _ hregistered⟩
  · intro e he
    obtain ⟨slot, -, hregistered⟩ := hheld e he
    exact hsound.open_of_registered _ (by rw [hregistered]; exact Option.some_ne_none _)
  · intro e _ table j hj hholds
    obtain ⟨connection, hconn, hkind, -⟩ := holds_conn_eq_some.mp hholds
    obtain ⟨i, server, hserver, hconns⟩ := hsound.owned table j connection hconn hkind
    rw [levels_eq hsound.toShape hserver hconns] at hj
    obtain ⟨conns, htable, hget⟩ := Option.bind_eq_some_iff.mp hconn
    have hi := lt_serversCount hsound.toShape hserver hconns
    have hlt := lt_connsCount hsound.toShape ⟨hi, hserver, hconns, htable⟩ hget hkind
    exact absurd hlt (Nat.not_lt.mpr hj)

end Batches

/-- For every state that a loop can reach and every batch fetched in it: the events are
handled for the connections they were raised for exactly when none comes to a slot that
earlier events of the batch vacated and filled again. -/
theorem handlesOwn_iff {actions : List Action} {loop loop' : UsLoop} {batch : List Event}
    (hrun : run loopStep usLoopCreate actions = some loop) (hbatch : Fetched loop batch)
    (hdone : usLoopRun loop batch = some loop') :
    Along handleEvent HandlesOwn loop batch ↔ NoneRefilled loop loop.levels batch := by
  have hsound : Sound loop :=
    run_invariant loopStep (fun _ _ _ hsound hstep => sound_step hsound hstep) actions
      sound_usLoopCreate hrun
  exact (tracks_of_fetched hsound hbatch).along_iff hsound hdone

/-- A server on the descriptor 3, with two clients on the descriptors 5 and 6. -/
def twoClients : List Action :=
  [.create ⟨1, 0, 8000, 64, some 1, none, none, 0⟩ ⟨some 3, true, true, true, true, true⟩,
    .event ⟨3, some (.server 0), false, [],
      [.client 5 true true true, .client 6 true true true], true⟩]

def twoClientsLoop : UsLoop := (run loopStep usLoopCreate twoClients).getD usLoopCreate

theorem run_twoClients : run loopStep usLoopCreate twoClients = some twoClientsLoop := rfl

/-- The end of the client that was accepted as `fd`, in the slot `j`. -/
def closeEvent (fd : ℤ) (j : ℕ) : Event := ⟨fd, some (.conn 0 j), true, [], [], true⟩

/-- A client on the descriptor 5. -/
def acceptEvent : Event := ⟨3, some (.server 0), false, [], [.client 5 true true true], true⟩

/-- Both clients close. The second event finds its slot vacant and is ignored. -/
theorem handlesOwn_twoClients :
    Along handleEvent HandlesOwn twoClientsLoop [closeEvent 5 0, closeEvent 6 1] := by
  have hdone : usLoopRun twoClientsLoop [closeEvent 5 0, closeEvent 6 1] =
      some ((usLoopRun twoClientsLoop [closeEvent 5 0, closeEvent 6 1]).getD usLoopCreate) := rfl
  refine (handlesOwn_iff run_twoClients ⟨?_, by decide, by decide⟩ hdone).mpr ⟨rfl, rfl, trivial⟩
  intro e he
  simp only [List.mem_cons, List.not_mem_nil, or_false] at he
  rcases he with rfl | rfl <;> exact ⟨Option.some_ne_none _, rfl⟩

/-- The first client closes, a third is accepted, and the second closes: the event of the
second comes to the slot of the third, and closes it. -/
theorem stale_event_closes_other :
    ∃ loop loop' batch, run loopStep usLoopCreate twoClients = some loop ∧ Fetched loop batch ∧
      usLoopRun loop batch = some loop' ∧ ¬ Along handleEvent HandlesOwn loop batch := by
  refine ⟨twoClientsLoop, (usLoopRun twoClientsLoop
    [closeEvent 5 0, acceptEvent, closeEvent 6 1]).getD usLoopCreate,
    [closeEvent 5 0, acceptEvent, closeEvent 6 1], rfl, ⟨?_, by decide, by decide⟩, rfl,
    fun halong => ?_⟩
  · intro e he
    simp only [List.mem_cons, List.not_mem_nil, or_false] at he
    rcases he with rfl | rfl | rfl <;> exact ⟨Option.some_ne_none _, rfl⟩
  · let loop₁ := (twoClientsLoop.handleEvent (closeEvent 5 0)).getD usLoopCreate
    let loop₂ := (loop₁.handleEvent acceptEvent).getD usLoopCreate
    let loop₃ := (loop₂.handleEvent (closeEvent 6 1)).getD usLoopCreate
    obtain ⟨-, hrest⟩ := halong loop₁ rfl
    obtain ⟨-, hlast⟩ := hrest loop₂ rfl
    obtain ⟨hown, -⟩ := hlast loop₃ rfl
    have hlogged : logged loop₂ loop₃ = [.closes 5] := rfl
    specialize hown loop₃ rfl
    rw [hlogged] at hown
    rcases hown (.closes 5) List.mem_cons_self 5 rfl with hident | haccepts
    · cases hident
    · cases List.mem_singleton.mp haccepts

end UsLoop

end Server

end ConArtist
