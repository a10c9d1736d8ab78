import ConArtist.Server.Balance

/-!
# Tracking a connection

Where the record of a connection is after a call. A step either leaves the record in its slot,
or closes the connection, or moves the record to an earlier slot of the same table; which of
them is told from the state before the step. `Vacates loop loop' p` says that the step disturbs
the slots of `p` and no others. Two steps in a row disturb what either of them does.
-/

namespace ConArtist

namespace Server

open Function

namespace UsLoop

/-- The slot holds the descriptor of a connection, which was not closed in between. -/
structure Stays (loop loop' : UsLoop) (table k : ℕ) (fd : ℤ) : Prop where
  log_eq : ∃ effects, loop'.log = loop.log ++ effects ∧ .closes fd ∉ effects
  owned_eq : loop'.slotsBy UsConn.owned (.conn table k) = some fd

/-- The connection was closed, or an earlier slot of the table holds it. -/
def Leaves (loop loop' : UsLoop) (table k : ℕ) (fd : ℤ) : Prop :=
  ∃ effects, loop'.log = loop.log ++ effects ∧ (.closes fd ∈ effects ∨
    ∃ k' < k, loop'.slotsBy UsConn.owned (.conn table k') = some fd)

/-- Every connection was closed, or a slot that is no later holds it. -/
def Moves (loop loop' : UsLoop) : Prop :=
  ∃ effects, loop'.log = loop.log ++ effects ∧
    ∀ table k fd, loop.slotsBy UsConn.owned (.conn table k) = some fd →
      .closes fd ∈ effects ∨ ∃ k' ≤ k, loop'.slotsBy UsConn.owned (.conn table k') = some fd

/-- The connections leave the slots of `p`, and those in other slots stay. -/
structure Vacates (loop loop' : UsLoop) (p : ℕ → ℕ → Prop) : Prop where
  moves : Moves loop loop'
  stays : ∀ table k fd, loop.slotsBy UsConn.owned (.conn table k) = some fd → ¬ p table k →
    Stays loop loop' table k fd
  leaves : ∀ table k fd, loop.slotsBy UsConn.owned (.conn table k) = some fd → p table k →
    Leaves loop loop' table k fd

section Vacates

variable {loop loop₁ loop' : UsLoop} {p q : ℕ → ℕ → Prop} {table k : ℕ} {fd : ℤ}

theorem Stays.trans (h : Stays loop loop₁ table k fd) (h' : Stays loop₁ loop' table k fd) :
    Stays loop loop' table k fd := by
  obtain ⟨effects, hlog, hnot⟩ := h.log_eq
  obtain ⟨effects', hlog', hnot'⟩ := h'.log_eq
  refine ⟨⟨effects ++ effects', ?_, ?_⟩, h'.owned_eq⟩
  · rw [hlog', hlog, List.append_assoc]
  · rw [List.mem_append, not_or]
    exact ⟨hnot, hnot'⟩

theorem Stays.leaves (h : Stays loop loop₁ table k fd) (h' : Leaves loop₁ loop' table k fd) :
    Leaves loop loop' table k fd := by
  obtain ⟨effects, hlog, -⟩ := h.log_eq
  obtain ⟨effects', hlog', hleaves⟩ := h'
  refine ⟨effects ++ effects', by rw [hlog', hlog, List.append_assoc], ?_⟩
  exact hleaves.imp_left fun hclosed => List.mem_append_right _ hclosed

theorem Leaves.moves (h : Leaves loop loop₁ table k fd) (h' : Moves loop₁ loop') :
    Leaves loop loop' table k fd := by
  obtain ⟨effects, hlog, hleaves⟩ := h
  obtain ⟨effects', hlog', hmoves⟩ := h'
  refine ⟨effects ++ effects', by rw [hlog', hlog, List.append_assoc], ?_⟩
  rcases hleaves with hclosed | ⟨k₁, hk₁, howned⟩
  · exact .inl (List.mem_append_left _ hclosed)
  · rcases hmoves table k₁ fd howned with hclosed | ⟨k₂, hk₂, howned'⟩
    · exact .inl (List.mem_append_right _ hclosed)
    · exact .inr ⟨k₂, lt_of_le_of_lt hk₂ hk₁, howned'⟩

theorem Moves.trans (h : Moves loop loop₁) (h' : Moves loop₁ loop') : Moves loop loop' := by
  obtain ⟨effects, hlog, hmoves⟩ := h
  obtain ⟨effects', hlog', hmoves'⟩ := h'
  refine ⟨effects ++ effects', by rw [hlog', hlog, List.append_assoc], fun table k fd howned => ?_⟩
  rcases hmoves table k fd howned with hclosed | ⟨k₁, hk₁, howned₁⟩
  · exact .inl (List.mem_append_left _ hclosed)
  · rcases hmoves' table k₁ fd howned₁ with hclosed | ⟨k₂, hk₂, howned₂⟩
    · exact .inl (List.mem_append_right _ hclosed)
    · exact .inr ⟨k₂, hk₂.trans hk₁, howned₂⟩

theorem Vacates.trans (h : Vacates loop loop₁ p) (h' : Vacates loop₁ loop' q) :
    Vacates loop loop' fun table k => p table k ∨ q table k where
  moves := h.moves.trans h'.moves
  stays := fun table k fd howned hnot => by
    rw [not_or] at hnot
    have hfirst := h.stays table k fd howned hnot.1
    exact hfirst.trans (h'.stays table k fd hfirst.owned_eq hnot.2)
  leaves := fun table k fd howned hor => by
    by_cases hp : p table k
    · exact (h.leaves table k fd howned hp).moves h'.moves
    · have hfirst := h.stays table k fd howned hp
      exact hfirst.leaves (h'.leaves table k fd hfirst.owned_eq (hor.resolve_left hp))

theorem Vacates.congr (h : Vacates loop loop' p)
    (hpq : ∀ table k fd, loop.slotsBy UsConn.owned (.conn table k) = some fd →
      (p table k ↔ q table k)) : Vacates loop loop' q where
  moves := h.moves
  stays := fun table k fd howned hnot =>
    h.stays table k fd howned fun hp => hnot ((hpq table k fd howned).mp hp)
  leaves := fun table k fd howned hq =>
    h.leaves table k fd howned ((hpq table k fd howned).mpr hq)

theorem vacates_none {effects : List Effect} (hlog : loop'.log = loop.log ++ effects)
    (hslots : ∀ table k fd, loop.slotsBy UsConn.owned (.conn table k) = some fd →
      .closes fd ∉ effects ∧ loop'.slotsBy UsConn.owned (.conn table k) = some fd) :
    Vacates loop loop' fun _ _ => False where
  moves := ⟨effects, hlog, fun table k fd howned =>
    .inr ⟨k, le_rfl, (hslots table k fd howned).2⟩⟩
  stays := fun table k fd howned _ =>
    ⟨⟨effects, hlog, (hslots table k fd howned).1⟩, (hslots table k fd howned).2⟩
  leaves := fun _ _ _ _ hfalse => hfalse.elim

theorem Vacates.refl (loop : UsLoop) : Vacates loop loop fun _ _ => False :=
  vacates_none (List.append_nil _).symm fun _ _ _ howned => ⟨List.not_mem_nil, howned⟩

end Vacates

section Steps

variable {loop loop' : UsLoop} {i idx table last j : ℕ} {server : UsServer} {conns : List UsConn}
  {connection moved : UsConn} {granted : Bool} {fd : ℤ} {s t : Slot}

theorem Follows.owned_injective (h : Follows loop) (hs : loop.slotsBy UsConn.owned s = some fd)
    (ht : loop.slotsBy UsConn.owned t = some fd) : s = t := by
  obtain ⟨d, calls, haccounts⟩ := h.accounts
  rw [← haccounts.holds_eq] at hs ht
  exact haccounts.complete.injective hs ht

theorem Follows.isOpen_of_owned (h : Follows loop) (hs : loop.slotsBy UsConn.owned s = some fd) :
    loop.isOpen fd = true := by
  obtain ⟨d, calls, haccounts⟩ := h.accounts
  rw [← haccounts.holds_eq] at hs
  refine haccounts.open_of_finds fd ?_
  rw [haccounts.complete s fd hs]
  exact Option.some_ne_none _

theorem Follows.ne_of_owned (h : Follows loop) (hs : loop.slotsBy UsConn.owned s = some fd)
    {fd' : ℤ} (hopen : loop.isOpen fd' = false) : fd ≠ fd' := by
  rintro rfl
  rw [h.isOpen_of_owned hs] at hopen
  cases hopen

/-- A slot is vacated by closing what it holds, and the last one moves into it. -/
theorem Follows.swaps (h : Follows loop) {effects : List Effect} {closed : ℤ}
    (hs : loop.slotsBy UsConn.owned s = some closed)
    (hlog : loop'.log = loop.log ++ effects)
    (hcloses : ∀ fd, .closes fd ∈ effects ↔ fd = closed)
    (hslots : loop'.slotsBy UsConn.owned = update (update (loop.slotsBy UsConn.owned) s
      (loop.slotsBy UsConn.owned t)) t none)
    (hbefore : ∀ table k, t = .conn table k → ∃ k' ≤ k, s = .conn table k') :
    Vacates loop loop' fun table k => s = .conn table k ∨ t = .conn table k := by
  have hmoved : ∀ table k fd, loop.slotsBy UsConn.owned (.conn table k) = some fd →
      s ≠ .conn table k → t = .conn table k →
      ∃ k' < k, loop'.slotsBy UsConn.owned (.conn table k') = some fd := by
    rintro table k fd howned hne rfl
    obtain ⟨k', hk', rfl⟩ := hbefore table k rfl
    have hlt : k' ≠ k := fun heq => hne (by rw [heq])
    refine ⟨k', by omega, ?_⟩
    rw [hslots, update_of_ne hne, update_self]
    exact howned
  have hsame : ∀ table k, s ≠ .conn table k → t ≠ .conn table k →
      loop'.slotsBy UsConn.owned (.conn table k) = loop.slotsBy UsConn.owned (.conn table k) := by
    intro table k hs ht
    rw [hslots, update_of_ne ht.symm, update_of_ne hs.symm]
  have hclosed : ∀ table k fd, loop.slotsBy UsConn.owned (.conn table k) = some fd →
      s = .conn table k → Effect.closes fd ∈ effects := by
    rintro table k fd howned rfl
    exact (hcloses fd).mpr (Option.some.inj (howned.symm.trans hs))
  refine ⟨⟨effects, hlog, ?_⟩, ?_, ?_⟩
  · intro table k fd howned
    by_cases hsk : s = .conn table k
    · exact .inl (hclosed table k fd howned hsk)
    · by_cases htk : t = .conn table k
      · obtain ⟨k', hk', howned'⟩ := hmoved table k fd howned hsk htk
        exact .inr ⟨k', hk'.le, howned'⟩
      · exact .inr ⟨k, le_rfl, (hsame table k hsk htk).trans howned⟩
  · intro table k fd howned hnot
    obtain ⟨hsk, htk⟩ := not_or.mp hnot
    refine ⟨⟨effects, hlog, fun hmem => hsk ?_⟩, (hsame table k hsk htk).trans howned⟩
    exact h.owned_injective hs ((hcloses fd).mp hmem ▸ howned)
  · intro table k fd howned hor
    by_cases hsk : s = .conn table k
    · exact ⟨effects, hlog, .inl (hclosed table k fd howned hsk)⟩
    · exact ⟨effects, hlog, .inr (hmoved table k fd howned hsk (hor.resolve_left hsk))⟩

/-- `close_conn` disturbs the slot it vacates and the last one. -/
theorem Follows.vacates_closes (h : Follows loop) (hidx : idx < server.connsCount)
    (hcloses : Closes loop loop' granted i idx table last server conns connection moved) :
    Vacates loop loop' fun table' k => table' = table ∧ (k = idx ∨ k = last) := by
  have howns := hcloses.owns
  have hkind := ((howns.filled h.sound.toShape).2.2.taken idx connection hidx hcloses.conn_eq).1
  have hs : loop.slotsBy UsConn.owned (.conn table idx) = some connection.fd := by
    rw [slotsBy_conn, conn?_of_table howns.table_eq, hcloses.conn_eq, Option.bind_some,
      UsConn.owned_of_ne hcloses.buf_ne, UsConn.held, if_pos hkind]
  have hle : idx ≤ last := by
    have hcount := hcloses.count_eq
    omega
  refine (h.swaps hs hcloses.log_eq (fun fd => ?_) (hcloses.slotsBy_eq rfl) ?_).congr ?_
  · rw [List.mem_cons, Effect.closes.injEq, or_iff_left_iff_imp]
    intro hmem
    cases isCallback_of_mem_disconnects hmem
  · intro table' k heq
    obtain ⟨rfl, rfl⟩ := Slot.conn.inj heq
    exact ⟨idx, hle, rfl⟩
  · intro table' k fd _
    rw [Slot.conn.injEq, Slot.conn.injEq, ← and_or_left, eq_comm, @eq_comm _ idx, @eq_comm _ last]

/-- A connection that is closed past `close_conn` leaves its slot. -/
theorem Follows.vacates_abandons (h : Follows loop) (hbuf : connection.buf ≠ .freed)
    (habandons : Abandons loop loop' table j conns connection
      { connection with buf := .freed }) :
    Vacates loop loop' fun table' k => table' = table ∧ k = j := by
  have hrewrites := habandons.rewrites
  have hs : loop.slotsBy UsConn.owned (.conn table j) = some connection.fd := by
    rw [slotsBy_conn, conn?_of_table hrewrites.table_eq, hrewrites.conn_eq, Option.bind_some,
      UsConn.owned_of_ne hbuf, UsConn.held, if_pos hrewrites.kind_eq]
  refine (h.swaps (t := .conn table j) hs habandons.log_eq (fun fd => ?_) ?_ ?_).congr ?_
  · rw [List.mem_singleton, Effect.closes.injEq]
  · rw [hrewrites.slotsBy_eq, update_idem]
    rfl
  · exact fun table' k heq => ⟨k, le_rfl, heq⟩
  · intro table' k fd _
    rw [or_self, Slot.conn.injEq, eq_comm, @eq_comm _ j]

theorem Reads.vacates {connection' : UsConn}
    (hreads : Reads loop loop' table j conns connection connection') :
    Vacates loop loop' fun _ _ => False := by
  obtain ⟨effects, hlog, htraffic⟩ := hreads.log_eq
  refine vacates_none hlog fun table' k fd howned => ⟨fun hmem => ?_, ?_⟩
  · cases htraffic _ hmem
  · rw [hreads.slotsBy_owned]
    exact howned

/-- The connections in the slots are open. -/
def OwnedOpen (loop : UsLoop) : Prop :=
  ∀ s fd, loop.slotsBy UsConn.owned s = some fd → loop.isOpen fd = true

theorem Refuses.vacates (hrefuses : Refuses loop loop' fd) (hopened : OwnedOpen loop)
    (hopen : loop.isOpen fd = false) : Vacates loop loop' fun _ _ => False := by
  obtain ⟨effects, hlog, hcallbacks⟩ := hrefuses.log_eq
  refine vacates_none hlog fun table' k fd' howned => ⟨fun hmem => ?_, ?_⟩
  · rcases List.mem_cons.mp hmem with heq | hmem
    · cases heq
    rcases List.mem_cons.mp hmem with heq | hmem
    · rw [← Effect.closes.inj heq, hopened _ fd' howned] at hopen
      cases hopen
    · cases hcallbacks _ hmem
  · rw [hrefuses.same.slotsBy_eq]
    exact howned

theorem Takes.vacates (htakes : Takes loop loop' i table server conns fd) (hshape : Shape loop) :
    Vacates loop loop' fun _ _ => False := by
  have howns := htakes.owns
  refine vacates_none htakes.log_eq fun table' k fd' howned => ⟨fun hmem => ?_, ?_⟩
  · rcases List.mem_cons.mp hmem with heq | hmem
    · cases heq
    · cases isCallback_of_mem_connects hmem
  · have hne : Slot.conn table' k ≠ .conn table server.connsCount := by
      -- the slot that is taken was vacant
      intro heq
      rw [heq, slotsBy_conn, conn?_of_table howns.table_eq] at howned
      obtain ⟨c, hc, howned⟩ := Option.bind_eq_some_iff.mp howned
      rw [(howns.filled hshape).2.2.vacant _ c le_rfl hc] at howned
      cases howned
    rw [htakes.slotsBy_eq hshape, update_of_ne hne]
    exact howned

theorem Follows.vacates_creates (h : Follows loop) {args : CreateArgs} {meets : CreateMeets}
    {rc : ℤ} (hcreate : loop.usServerCreate args meets = some (rc, loop')) :
    Vacates loop loop' fun _ _ => False := by
  have hshape := h.sound.toShape
  obtain ⟨⟨effects, hlog, heffects⟩, hcases⟩ := usServerCreate_cases h.sound hcreate
  refine vacates_none hlog fun table k fd howned => ⟨fun hmem => ?_, ?_⟩
  · obtain ⟨fd', heq, hopen⟩ := heffects _ hmem
    exact h.ne_of_owned howned hopen (Effect.closes.inj heq)
  · rcases hcases with ⟨ok, hsame, -, -⟩ | ⟨fd', ok, -, -, hadds⟩
    · rw [hsame.slotsBy_eq, allocConns_slotsBy rfl hshape.table_lt]
      exact howned
    · rw [hadds.slotsBy_eq rfl hshape, update_of_ne (by simp)]
      exact howned

theorem Follows.vacates_removes (h : Follows loop) {last : ℕ} {moved : UsServer}
    (hempty : server.connsCount = 0)
    (hremoves : Removes loop loop' granted idx last server moved) :
    Vacates loop loop' fun _ _ => False := by
  have hshape := h.sound.toShape
  have hs : loop.slotsBy UsConn.owned (.server idx) = some server.listenFd := by
    rw [slotsBy_server, hremoves.server_eq]
    exact (hshape.serves idx server hremoves.lt hremoves.server_eq).held_eq
  refine (h.swaps hs hremoves.log_eq (fun fd => ?_) (hremoves.slotsBy_eq rfl hshape hempty)
    fun table k heq => ?_).congr fun table k fd _ => ?_
  · rw [List.mem_singleton, Effect.closes.injEq]
  · cases heq
  · simp

/-- A slot that holds a connection is below the count of the server that has its table. -/
theorem lt_connsCount_of_owned (hshape : Shape loop) (hi : i < loop.serversCount)
    (hserver : loop.servers[i]? = some server) (hconns : server.conns = some table)
    (howned : loop.slotsBy UsConn.owned (.conn table j) = some fd) : j < server.connsCount := by
  obtain ⟨conns, htable, -, -⟩ := (hshape.serves i server hi hserver).filled table hconns
  rw [slotsBy_conn, conn?_of_table htable] at howned
  obtain ⟨c, hc, howned⟩ := Option.bind_eq_some_iff.mp howned
  exact lt_connsCount hshape ⟨hi, hserver, hconns, htable⟩ hc (UsConn.owned_eq_some.mp howned).2.1

/-- `close_conn` for all connections of a server, the last one first. -/
theorem Follows.vacates_closeConns {n : ℕ} (h : Follows loop) (hi : i < loop.serversCount)
    (hserver : loop.servers[i]? = some server) (hn : server.connsCount = n)
    (hclose : UsLoop.closeConns i n loop = some loop') :
    Vacates loop loop' fun table k => server.conns = some table ∧ k < n := by
  induction n generalizing loop server with
  | zero =>
      cases hclose
      exact (Vacates.refl _).congr fun table k fd _ => by simp
  | succ n ih =>
      obtain ⟨loop₁, table, conns, connection, moved, hcloses, hi₁, hserver₁, hrest⟩ :=
        closeConns_succ h.sound.toShape hi hserver hn hclose
      have hidx : n < server.connsCount := hn ▸ Nat.lt_succ_self n
      have hconns := hcloses.owns.conns_eq
      have hothers := ih (h.closes hidx hcloses).follows hi₁ hserver₁ rfl hrest
      refine ((h.vacates_closes hidx hcloses).trans hothers).congr fun table' k fd _ => ?_
      dsimp only
      rw [or_self, hconns, Option.some.injEq, @eq_comm _ table', ← and_or_left,
        Nat.lt_succ_iff_lt_or_eq, or_comm]

/-- `us_server_close` disturbs the slots of its table. -/
theorem Follows.vacates_closesServer {serverId rc : ℤ} (h : Follows loop)
    (hfind : loop.findServerById serverId = some i) (hserver : loop.servers[i]? = some server)
    (hclose : loop.usServerClose serverId granted = some (rc, loop')) :
    Vacates loop loop' fun table _ => server.conns = some table := by
  have hshape := h.sound.toShape
  rcases usServerClose_cases hshape hclose with ⟨-, hnone⟩ |
    ⟨idx, server', loop₁, hfind', hidx, hserver', hconns, hremove⟩
  · cases hnone.symm.trans hfind
  · obtain rfl : i = idx := Option.some.inj (hfind.symm.trans hfind')
    obtain rfl : server = server' := Option.some.inj (hserver.symm.trans hserver')
    have hends := h.closeConns hidx hserver rfl hconns
    obtain ⟨-, -, -, -, last, moved, hremoves⟩ := closeServer_spec (P := fun _ => True)
      (fun _ _ _ _ _ _ _ _ _ _ _ _ => trivial) h.sound hidx hserver trivial hconns hremove
    refine ((h.vacates_closeConns hidx hserver rfl hconns).trans
      (hends.follows.vacates_removes rfl hremoves)).congr fun table k fd howned => ?_
    rw [or_false, and_iff_left_iff_imp]
    exact fun hconns => lt_connsCount_of_owned hshape hidx hserver hconns howned

/-- The end of a connection disturbs its slot, and the last one where its `m_server` has the
table. -/
theorem Follows.vacates_endConn (h : Follows loop) (htable : loop.tables table = some conns)
    (hconn : conns[j]? = some connection) (hkind : connection.kind = usKindConn)
    (hend : loop.endConn table j connection granted = some loop') :
    ∃ i server, connection.server = some i ∧ loop.servers[i]? = some server ∧
      Vacates loop loop' fun table' k => table' = table ∧
        (k = j ∨ server.conns = some table ∧ k + 1 = server.connsCount) := by
  obtain ⟨i, server, hi, hserver, ⟨hconns, hj, last, moved, hcloses⟩ | ⟨hlost, -⟩⟩ :=
    endConn_cases h.sound.toShape htable hconn hkind hend
  · refine ⟨i, server, hi, hserver, (h.vacates_closes hj hcloses).congr fun table' k fd _ => ?_⟩
    rw [hcloses.count_eq, Nat.succ_inj]
    simp [hconns]
  · have hbuf := h.bufs table j connection (by rw [conn?_of_table htable, hconn]) hkind
    obtain ⟨hfreed, habandons⟩ := endConn_frees htable hconn hkind hi hserver hlost hbuf hend
    refine ⟨i, server, hi, hserver, (h.vacates_abandons hfreed habandons).congr
      fun table' k fd _ => ?_⟩
    simp [hlost]

/-- `accept_new_clients` leaves the slots that are taken as they are. -/
theorem Follows.vacates_accepts (h : Follows loop) {meets : List Accepted} {rc : ℤ}
    (hi : i < loop.serversCount) (haccept : acceptNewClients i loop meets = some (rc, loop')) :
    Vacates loop loop' fun _ _ => False := by
  have hkeep : ∀ loop₁ loop₂, Vacates loop loop₁ (fun _ _ => False) →
      Vacates loop₁ loop₂ (fun _ _ => False) → Vacates loop loop₂ fun _ _ => False :=
    fun _ _ hfirst hsecond => (hfirst.trans hsecond).congr fun _ _ _ _ => or_self_iff
  refine ((acceptNewClients_induct (P := fun loop₁ => OwnedOpen loop₁ ∧
    Vacates loop loop₁ fun _ _ => False) ?_ ?_ h.sound hi
      ⟨fun _ _ => h.isOpen_of_owned, .refl loop⟩ haccept).2).2
  · rintro loop₁ loop₂ fd - hopen hrefuses ⟨hopened, hvacates⟩
    refine ⟨fun s fd' howned => ?_, hkeep _ _ hvacates (hrefuses.vacates hopened hopen)⟩
    rw [hrefuses.same.slotsBy_eq] at howned
    rw [hrefuses.isOpen_eq]
    exact hopened s fd' howned
  · rintro loop₁ loop₂ table server conns fd hsound - hopen htakes ⟨hopened, hvacates⟩
    refine ⟨fun s fd' howned => ?_, hkeep _ _ hvacates (htakes.vacates hsound.toShape)⟩
    rw [htakes.slotsBy_eq hsound.toShape] at howned
    rw [htakes.isOpen_eq, update_apply]
    split
    case isTrue => rfl
    case isFalse hne =>
      refine hopened s fd' ?_
      rw [update_apply] at howned
      split at howned
      case isTrue => exact absurd (Option.some.inj howned).symm hne
      case isFalse => exact howned

/-- Whether an action closes the connection in a slot or moves it to another. -/
def disturbs (loop : UsLoop) (table k : ℕ) : Action → Bool
  | .create _ _ => false
  | .clientClose serverId clientFd _ =>
      (loop.findServerById serverId).any fun i => loop.servers[i]?.any fun server =>
        server.conns == some table && (loop.findConnByFd server clientFd).any fun idx =>
          k == idx || k + 1 == server.connsCount
  | .serverClose serverId _ =>
      (loop.findServerById serverId).any fun i => loop.servers[i]?.any fun server =>
        server.conns == some table
  | .event event =>
      match event.udata with
      | some (.conn table' j) =>
          table == table' && (loop.conn? table j).any fun connection =>
            connection.kind == usKindConn && UsLoop.endsConn connection event &&
              (k == j || (connection.server.bind fun i => loop.servers[i]?).any fun server =>
                server.conns == some table && k + 1 == server.connsCount)
      | _ => false

theorem Follows.vacates_handles (h : Follows loop) {event : Event}
    (hhandle : loop.handleEvent event = some loop') :
    Vacates loop loop' fun table k => loop.disturbs table k (.event event) = true := by
  cases handles_of_eq h.sound.toShape hhandle with
  | ignores hvacant hsame =>
      subst hsame
      refine (Vacates.refl loop').congr fun table k fd _ => ?_
      rw [disturbs]
      split
      case h_1 table' j hudata =>
        -- the slot of the event holds no connection
        have hholds := hvacant _ hudata
        rw [holds_conn] at hholds
        rcases hconn : loop'.conn? table' j with _ | connection
        · by_cases heq : table = table' <;> simp [heq, hconn]
        · rw [hconn, Option.bind_some, UsConn.held] at hholds
          have hkind : connection.kind ≠ usKindConn := by
            intro hkind
            rw [if_pos hkind] at hholds
            cases hholds
          by_cases heq : table = table' <;> simp [heq, hconn, hkind]
      case h_2 => simp
  | accepts i rc hudata hi haccept =>
      refine (h.vacates_accepts hi haccept).congr fun table k fd _ => ?_
      rw [disturbs, hudata]
      simp
  | conn table j conns connection hudata htable hconn hkind hhandles =>
      have hget : loop.conn? table j = some connection := by
        rw [conn?_of_table htable, hconn]
      obtain ⟨loop₁, connection', hreads, ⟨hstays, rfl⟩ | ⟨hends, hend⟩⟩ :=
        handleEvent_reads hudata htable hconn hkind hhandle
      · refine hreads.vacates.congr fun table' k fd _ => ?_
        by_cases heq : table' = table <;> simp [disturbs, hudata, heq, hget, hstays]
      · have hrewrites := hreads.prepares.rewrites
        obtain ⟨htable₁, hconn₁⟩ := hreads.prepares.getElem?_eq
        obtain ⟨i, server, hi, hserver, hvacates⟩ :=
          (h.reads hreads).follows.vacates_endConn htable₁ hconn₁ hrewrites.kind_eq' hend
        rw [hrewrites.server_eq] at hi
        rw [hrewrites.servers_eq] at hserver
        refine (hreads.vacates.trans hvacates).congr fun table' k fd _ => ?_
        by_cases heq : table' = table <;>
          simp [disturbs, hudata, heq, hget, hkind, hends, hi, hserver]

theorem Follows.vacates_step (h : Follows loop) {action : Action}
    (hstep : loopStep loop action = some loop') :
    Vacates loop loop' fun table k => loop.disturbs table k action = true := by
  have hshape := h.sound.toShape
  cases action with
  | create args meets =>
      obtain ⟨⟨rc, loop₁⟩, hcreate, rfl⟩ := Option.map_eq_some_iff.mp hstep
      exact (h.vacates_creates hcreate).congr fun _ _ _ _ => by simp [disturbs]
  | clientClose serverId clientFd granted =>
      obtain ⟨⟨rc, loop₁⟩, hclose, rfl⟩ := Option.map_eq_some_iff.mp hstep
      rcases usClientClose_cases hshape hclose with ⟨hsame, hnone⟩ |
        ⟨i, server, idx, hfind, hserver, hidx, table, last, conns, connection, moved, hcloses⟩
      · rw [hsame]
        refine (Vacates.refl loop).congr fun table k fd _ => iff_of_false id fun hdisturbs => ?_
        simp only [disturbs, Option.any_eq_true, Bool.and_eq_true] at hdisturbs
        obtain ⟨i, hfind, server, hserver, -, idx, hidx, -⟩ := hdisturbs
        cases (hnone i server hfind hserver).symm.trans hidx
      · refine (h.vacates_closes (findConnByFd_lt hidx) hcloses).congr fun table' k fd _ => ?_
        simp [disturbs, hfind, hserver, hidx, hcloses.owns.conns_eq, hcloses.count_eq,
          @eq_comm _ table']
  | serverClose serverId granted =>
      obtain ⟨⟨rc, loop₁⟩, hclose, rfl⟩ := Option.map_eq_some_iff.mp hstep
      rcases usServerClose_cases hshape hclose with ⟨hsame, hnone⟩ |
        ⟨i, server, -, hfind, -, hserver, -, -⟩
      · rw [hsame]
        exact (Vacates.refl loop).congr fun table k fd _ => by simp [disturbs, hnone]
      · refine (h.vacates_closesServer hfind hserver hclose).congr fun table k fd _ => ?_
        simp [disturbs, hfind, hserver]
  | event event => exact h.vacates_handles hstep

/-- `us_loop_destroy` disturbs all slots. -/
theorem Follows.vacates_destroys {n : ℕ} (h : Follows loop) (hn : loop.serversCount = n)
    (hdestroy : destroyServers n loop = some loop') : Vacates loop loop' fun _ _ => True := by
  induction n generalizing loop with
  | zero =>
      cases hdestroy
      refine (Vacates.refl _).congr fun table k fd howned => iff_of_false id fun _ => ?_
      -- a slot that holds a connection has a server
      obtain ⟨connection, hconn, howned⟩ := Option.bind_eq_some_iff.mp howned
      obtain ⟨i, server, hserver, hconns⟩ := h.sound.owned table k connection hconn
        (UsConn.owned_eq_some.mp howned).2.1
      rw [h.sound.vacant i server (hn ▸ Nat.zero_le i) hserver] at hconns
      cases hconns
  | succ last ih =>
      obtain ⟨server, rc, loop₁, hserver, hfind, hclose, hrest⟩ :=
        destroyServers_succ h.sound.toShape hn hdestroy
      obtain ⟨hends, last', hcount, hcount₁, -⟩ := h.closesServer hfind hserver hclose
      obtain rfl : last' = last := Nat.succ.inj (hcount.symm.trans hn)
      exact ((h.vacates_closesServer hfind hserver hclose).trans
        (ih hends.follows hcount₁ hrest)).congr fun _ _ _ _ => by simp

end Steps

end UsLoop

namespace Program

open UsLoop

variable {program program' : Program} {call : Call}

/-- Whether a call closes the connection in a slot or moves it to another. -/
def disturbs (program : Program) (table k : ℕ) : Call → Bool
  | .act action => program.loop.disturbs table k action
  | .destroy => true

/-- A call vacates the slots that it disturbs, and the clients are followed on. -/
theorem vacates_step (h : UsLoop.Follows program.loop) (hstep : program.step call = some program') :
    UsLoop.Follows program'.loop ∧ Vacates program.loop program'.loop fun table k =>
      program.disturbs table k call = true := by
  cases call with
  | act action =>
      rw [step] at hstep
      split at hstep
      case isTrue => cases hstep
      case isFalse =>
        obtain ⟨loop, hloop, rfl⟩ := Option.map_eq_some_iff.mp hstep
        obtain ⟨clients, hends, -⟩ := h.step hloop
        exact ⟨hends.follows, h.vacates_step hloop⟩
  | destroy =>
      rw [step] at hstep
      split at hstep
      case isTrue => cases hstep
      case isFalse =>
        obtain ⟨loop, hloop, rfl⟩ := Option.map_eq_some_iff.mp hstep
        obtain ⟨clients, hends, -⟩ := h.destroys rfl hloop
        exact ⟨hends.follows, (h.vacates_destroys rfl hloop).congr fun _ _ _ _ => by
          simp [disturbs]⟩

end Program

end Server

end ConArtist
