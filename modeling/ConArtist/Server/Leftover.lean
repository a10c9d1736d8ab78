import ConArtist.Server.Balance

/-!
# Records that are left behind

When `us_server_close` moves a server, the connections of that server go on pointing to the slot
that it moved out of. `us_loop_run` does not find such a connection there, and closes it without
taking its record out of the table, where the next close of the record meets it again. A loop is
`Tidy` when no record was left behind like that, and stays so as long as no server with
connections is moved.
-/

namespace ConArtist

namespace Server

open Function

namespace UsLoop

/-- The connections point to their servers, and no record in the slots is closed already. -/
structure Tidy (loop : UsLoop) : Prop where
  linked : Linked loop
  owned_eq : loop.slotsBy UsConn.owned = loop.slotsBy UsConn.held

/-- `us_server_close` moves no server that has connections. -/
def MovesNoClients (loop : UsLoop) : Action → Prop
  | .serverClose serverId _ => ∀ idx moved, loop.findServerById serverId = some idx →
      idx + 1 ≠ loop.serversCount → loop.servers[loop.serversCount - 1]? = some moved →
      moved.connsCount = 0
  | _ => True

section Tidy

variable {loop loop' : UsLoop} {i idx table last j : ℕ} {server moved : UsServer}
  {conns : List UsConn} {connection connection' movedConn : UsConn} {granted : Bool} {fd rc : ℤ}

theorem Tidy.of_same (h : Tidy loop) (hsame : SameRecords loop loop') : Tidy loop' :=
  ⟨Linked.of_same h.linked hsame, by rw [hsame.slotsBy_eq, hsame.slotsBy_eq, h.owned_eq]⟩

theorem Tidy.closes (h : Tidy loop) (hshape : Shape loop)
    (hcloses : Closes loop loop' granted i idx table last server conns connection movedConn) :
    Tidy loop' :=
  ⟨hcloses.linked h.linked hshape,
    by rw [hcloses.slotsBy_eq rfl, hcloses.slotsBy_eq rfl, h.owned_eq]⟩

theorem Tidy.removes (h : Tidy loop) (hshape : Shape loop) (hempty : server.connsCount = 0)
    (hmoved : idx ≠ last → moved.connsCount = 0)
    (hremoves : Removes loop loop' granted idx last server moved) : Tidy loop' :=
  ⟨(hremoves.linked_iff h.linked hshape).mpr hmoved,
    by rw [hremoves.slotsBy_eq rfl hshape hempty, hremoves.slotsBy_eq rfl hshape hempty,
      h.owned_eq]⟩

theorem Tidy.takes (h : Tidy loop) (hshape : Shape loop)
    (htakes : Takes loop loop' i table server conns fd) : Tidy loop' := by
  refine ⟨htakes.linked h.linked hshape, ?_⟩
  rw [htakes.slotsBy_eq hshape, htakes.slotsBy_eq hshape, h.owned_eq]
  rfl

theorem Tidy.creates (h : Tidy loop) (hsound : Sound loop) {args : CreateArgs}
    {meets : CreateMeets} (hcreate : loop.usServerCreate args meets = some (rc, loop')) :
    Tidy loop' := by
  have hshape := hsound.toShape
  obtain ⟨-, ⟨ok, hsame, -, -⟩ | ⟨fd, ok, -, -, hadds⟩⟩ := usServerCreate_cases hsound hcreate
  · refine Tidy.of_same ⟨Linked.allocConns h.linked hshape ok, ?_⟩ hsame
    rw [allocConns_slotsBy rfl hshape.table_lt, allocConns_slotsBy rfl hshape.table_lt, h.owned_eq]
  · refine ⟨hadds.linked h.linked hshape, ?_⟩
    rw [hadds.slotsBy_eq rfl hshape, hadds.slotsBy_eq rfl hshape, h.owned_eq]

theorem Tidy.reads (h : Tidy loop)
    (hreads : Reads loop loop' table j conns connection connection') : Tidy loop' := by
  refine ⟨hreads.prepares.linked h.linked, ?_⟩
  rw [hreads.slotsBy_owned, h.owned_eq, ← directory_holds, ← directory_holds,
    hreads.prepares.directory_eq]

theorem Tidy.closesServer {serverId : ℤ} (h : Tidy loop) (hsound : Sound loop)
    (hmoves : MovesNoClients loop (.serverClose serverId granted))
    (hclose : loop.usServerClose serverId granted = some (rc, loop')) : Tidy loop' := by
  rcases usServerClose_cases hsound.toShape hclose with ⟨rfl, -⟩ |
    ⟨idx, server, loop₁, hfind, hidx, hserver, hconns, hremove⟩
  · exact h
  · obtain ⟨hsound₁, htidy₁, hcount, hservers, last, moved, hremoves⟩ :=
      closeServer_spec (P := Tidy)
        (fun _ _ _ _ _ _ _ _ hsound _ hcloses htidy => htidy.closes hsound.toShape hcloses)
        hsound hidx hserver h hconns hremove
    refine htidy₁.removes hsound₁.toShape rfl (fun hne => ?_) hremoves
    have hlast := hremoves.count_eq
    rw [hcount] at hlast
    refine hmoves idx moved hfind (by omega) ?_
    rw [hlast, Nat.add_sub_cancel, ← hremoves.moved_eq, hservers, List.getElem?_set_ne hne]

/-- A linked connection is found in the table of its server, and its record goes with it. -/
theorem Tidy.endsConn (h : Tidy loop) (hsound : Sound loop)
    (htable : loop.tables table = some conns) (hconn : conns[j]? = some connection)
    (hkind : connection.kind = usKindConn)
    (hend : loop.endConn table j connection granted = some loop') : Tidy loop' := by
  have hshape := hsound.toShape
  have hget : loop.conn? table j = some connection := by rw [conn?_of_table htable, hconn]
  obtain ⟨owner, server, hserver, hconns⟩ := hshape.owned table j connection hget hkind
  have hlink := h.linked owner table j server connection hserver hconns hget hkind
  obtain ⟨i, server', hi, hserver', ⟨-, -, last, moved, hcloses⟩ | ⟨hlost, -⟩⟩ :=
    endConn_cases hshape htable hconn hkind hend
  · exact h.closes hshape hcloses
  · obtain rfl : owner = i := Option.some.inj (hlink.symm.trans hi)
    obtain rfl : server = server' := Option.some.inj (hserver.symm.trans hserver')
    exact absurd hconns hlost

theorem Tidy.handles (h : Tidy loop) (hsound : Sound loop) {event : Event}
    (hhandle : loop.handleEvent event = some loop') : Tidy loop' := by
  cases handles_of_eq hsound.toShape hhandle with
  | ignores hvacant hsame =>
      rw [hsame]
      exact h
  | accepts i rc hudata hi haccept =>
      exact (acceptNewClients_induct (P := Tidy)
        (fun _ _ _ _ _ hrefuses htidy => htidy.of_same hrefuses.same)
        (fun _ _ _ _ _ _ hsound _ _ htakes htidy => htidy.takes hsound.toShape htakes)
        hsound hi h haccept).2
  | conn table j conns connection hudata htable hconn hkind hhandles =>
      rcases handleEvent_conn htable hconn hkind hudata hhandle with ⟨-, hend⟩ |
        ⟨rc, connection', loop₁, hread, ⟨-, rfl⟩ | ⟨-, hend⟩⟩
      · exact h.endsConn hsound htable hconn hkind hend
      · exact h.reads (readConn_reads htable hconn hkind hread)
      · have hreads := readConn_reads htable hconn hkind hread
        obtain ⟨htable₁, hconn₁⟩ := hreads.prepares.getElem?_eq
        exact (h.reads hreads).endsConn (hreads.prepares.sound hsound) htable₁ hconn₁
          hreads.prepares.rewrites.kind_eq' hend

/-- A step leaves no record behind, unless it moves a server with connections. -/
theorem Tidy.step (h : Tidy loop) (hsound : Sound loop) {action : Action}
    (hmoves : MovesNoClients loop action) (hstep : loopStep loop action = some loop') :
    Tidy loop' := by
  cases action with
  | create args meets =>
      obtain ⟨⟨rc, loop₁⟩, hcreate, rfl⟩ := Option.map_eq_some_iff.mp hstep
      exact h.creates hsound hcreate
  | clientClose serverId clientFd granted =>
      obtain ⟨⟨rc, loop₁⟩, hclose, rfl⟩ := Option.map_eq_some_iff.mp hstep
      rcases usClientClose_cases hsound.toShape hclose with ⟨hsame, -⟩ |
        ⟨i, server, idx, -, -, -, table, last, conns, connection, moved, hcloses⟩
      · rw [hsame]
        exact h
      · exact h.closes hsound.toShape hcloses
  | serverClose serverId granted =>
      obtain ⟨⟨rc, loop₁⟩, hclose, rfl⟩ := Option.map_eq_some_iff.mp hstep
      exact h.closesServer hsound hmoves hclose
  | event event => exact h.handles hsound hstep

theorem Tidy.buf_ne (h : Tidy loop) (hconn : loop.conn? table j = some connection)
    (hkind : connection.kind = usKindConn) : connection.buf ≠ .freed := by
  have howned : connection.owned = connection.held := by
    have hslot := congrFun h.owned_eq (.conn table j)
    rwa [slotsBy_conn, slotsBy_conn, hconn] at hslot
  rw [UsConn.held, if_pos hkind] at howned
  exact (UsConn.owned_eq_some.mp howned).1

/-- `us_server_close` on the last server, as `us_loop_destroy` calls it, moves none. -/
theorem Tidy.closesLast {serverId : ℤ} (h : Tidy loop) (hsound : Sound loop)
    (hcount : loop.serversCount = last + 1) (hfind : loop.findServerById serverId = some last)
    (hclose : loop.usServerClose serverId granted = some (rc, loop')) :
    Tidy loop' ∧ Sound loop' ∧ loop'.serversCount = last := by
  have hmoves : MovesNoClients loop (.serverClose serverId granted) := by
    intro idx moved hidx hne
    obtain rfl : last = idx := Option.some.inj (hfind.symm.trans hidx)
    exact absurd hcount.symm hne
  have hstep : loopStep loop (.serverClose serverId granted) = some loop' :=
    Option.map_eq_some_iff.mpr ⟨_, hclose, rfl⟩
  refine ⟨h.closesServer hsound hmoves hclose, sound_step hsound hstep, ?_⟩
  rcases usServerClose_cases hsound.toShape hclose with ⟨-, hnone⟩ |
    ⟨idx, server, loop₁, -, hidx, hserver, hconns, hremove⟩
  · cases hfind.symm.trans hnone
  · obtain ⟨-, -, hcount₁, -, last', moved, hremoves⟩ := closeServer_spec (P := fun _ => True)
      (fun _ _ _ _ _ _ _ _ _ _ _ _ => trivial) hsound hidx hserver trivial hconns hremove
    have hlast := hremoves.count_eq
    rw [hcount₁, hcount] at hlast
    rw [hremoves.serversCount_eq]
    exact (Nat.succ.inj hlast).symm

theorem Tidy.destroys {n : ℕ} (h : Tidy loop) (hsound : Sound loop) (hn : loop.serversCount = n)
    (hdestroy : destroyServers n loop = some loop') : Tidy loop' := by
  induction n generalizing loop with
  | zero =>
      cases hdestroy
      exact h
  | succ last ih =>
      obtain ⟨server, rc, loop₁, hserver, hfind, hclose, hrest⟩ :=
        destroyServers_succ hsound.toShape hn hdestroy
      obtain ⟨htidy₁, hsound₁, hcount₁⟩ := h.closesLast hsound hn hfind hclose
      exact ih htidy₁ hsound₁ hcount₁ hrest

end Tidy

end UsLoop

end Server

end ConArtist
