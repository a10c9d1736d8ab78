import ConArtist.Foundation.Run
import ConArtist.Server.Tracking

/-!
# Callbacks that call the loop

`read_from_client` goes on after `m_on_msg` with the pointer that it was called with. Here the
callback is entered: it may make any calls before it returns. The pointer goes on to show the
record of its connection, which was not closed, exactly as long as no call closes that
connection or another one of its table while it is the last, or its server, or the loop.
-/

namespace ConArtist

namespace Server

open Function Machine

/-- One round of the loop of `read_from_client`: it ends, or a message is in the buffer. -/
inductive Round where
  | ends (exit : Exit) (buf : List UInt8) (arrivals : List Arrival)
  | message (buf : List UInt8) (used : UInt32) (arrivals : List Arrival)

/-- The body of the loop of `read_from_client`, up to the callback. -/
def readMessage (cap : UInt32) (fuel : ℕ) (buf : List UInt8) (arrivals : List Arrival) :
    Option Round :=
  match readLoop 0 usMessageHeaderSize fuel 0 buf arrivals with
  | none => none
  | some (.returns rc, buf, arrivals) => some (.ends (.returns rc) buf arrivals)
  | some (.fault, buf, arrivals) => some (.ends .fault buf arrivals)
  | some (.filled, buf, arrivals) =>
      let magic := readU32Be buf usMessageOffsetMagic
      let payloadLen := readU32Be buf usMessageOffsetLen
      if magic ≠ usMessageMagic then some (.ends (.returns (-1)) buf arrivals)
      else if payloadLen > cap - UInt32.ofNat usMessageHeaderSize then
        some (.ends (.returns (-1)) buf arrivals)
      else
        match readLoop usMessageHeaderSize payloadLen.toNat fuel 0 buf arrivals with
        | none => none
        | some (.returns rc, buf, arrivals) => some (.ends (.returns rc) buf arrivals)
        | some (.fault, buf, arrivals) => some (.ends .fault buf arrivals)
        | some (.filled, buf, arrivals) =>
            some (.message buf (UInt32.ofNat usMessageHeaderSize + payloadLen) arrivals)

/-- The loop of `read_from_client` is made of these rounds. -/
theorem readFromClientLoop_succ (cap : UInt32) (fuel : ℕ) (buf : List UInt8)
    (arrivals : List Arrival) :
    readFromClientLoop cap (fuel + 1) buf arrivals =
      match readMessage cap fuel buf arrivals with
      | none => none
      | some (.ends exit buf arrivals) => some ⟨exit, buf, [], arrivals⟩
      | some (.message buf used arrivals) =>
          (readFromClientLoop cap fuel buf arrivals).map fun out =>
            { out with messages := buf.take used.toNat :: out.messages } := by
  rw [readFromClientLoop, readMessage]
  rcases readLoop 0 usMessageHeaderSize fuel 0 buf arrivals with _ | ⟨_ | rc | _, buf₁, arrivals₁⟩
  case some.filled =>
    dsimp only
    split_ifs
    · rfl
    · rfl
    · rcases readLoop usMessageHeaderSize (readU32Be buf₁ usMessageOffsetLen).toNat fuel 0 buf₁
        arrivals₁ with _ | ⟨_ | rc | _, buf₂, arrivals₂⟩ <;> rfl
  all_goals rfl

/-- `connection->m_used = 0`, on the record that the pointer shows. -/
def UsLoop.resetUsed (loop : UsLoop) (table j : ℕ) : UsLoop :=
  match loop.tables table with
  | some conns =>
      loop.setConns table (conns.modify j fun connection => { connection with used := 0 })
  | none => loop

/-- What `m_on_msg` does, and what is in store for the descriptors when it has returned. -/
structure Turn where
  calls : List Call
  store : ℤ → List Arrival

/-- A call of `read_from_client` at the start of a round. -/
structure Reading where
  program : Program
  store : ℤ → List Arrival

namespace Reading

/-- A round up to the call of `m_on_msg`, if it comes to that. -/
def callback (table j : ℕ) (s : Reading) : Option Program :=
  if s.program.destroyed then none
  else do
    let conns ← s.program.loop.tables table
    let connection ← conns[j]?
    let arrivals := s.store connection.fd
    match connection.buf with
    | .block buf =>
        match ← readMessage connection.cap (weight arrivals + 1) buf arrivals with
        | .message buf used _ =>
            let connection := { connection with buf := .block buf, used := used }
            let loop := (s.program.loop.emit [.reads connection.fd]).setConns table
              (conns.set j connection)
            let loop ← loop.dispatch connection [buf.take used.toNat]
            some ⟨loop, false⟩
        | .ends .. => none
    | _ => none

/-- A round, with what the callback does. -/
def step (table j : ℕ) (s : Reading) (turn : Turn) : Option Reading := do
  let program ← s.callback table j
  let program ← run Program.step program turn.calls
  some ⟨{ program with loop := program.loop.resetUsed table j }, turn.store⟩

/-- The record that the pointer shows is that of the connection, which was not closed since
the loop was `loop`. -/
def Designates (loop : UsLoop) (table j : ℕ) (fd : ℤ) (s : Reading) : Prop :=
  (∃ record, s.program.loop.conn? table j = some record ∧ record.kind = usKindConn ∧
    record.fd = fd ∧ record.buf ≠ .freed) ∧
  ∃ effects, s.program.loop.log = loop.log ++ effects ∧ .closes fd ∉ effects

/-- No call of the callback closes the connection in the slot or moves it to another. -/
def Spares (table j : ℕ) (s : Reading) (turn : Turn) : Prop :=
  ∀ program, s.callback table j = some program →
    Along Program.step (fun program call => program.disturbs table j call = false) program
      turn.calls

section Steps

open UsLoop

variable {loop loop' : UsLoop} {program program' : Program} {table j : ℕ} {fd : ℤ} {s : Reading}

theorem owned_iff :
    loop.slotsBy UsConn.owned (.conn table j) = some fd ↔
      ∃ record, loop.conn? table j = some record ∧ record.kind = usKindConn ∧ record.fd = fd ∧
        record.buf ≠ .freed := by
  rw [slotsBy_conn, Option.bind_eq_some_iff]
  refine exists_congr fun record => and_congr_right fun _ => ?_
  rw [UsConn.owned_eq_some]
  exact ⟨fun ⟨hbuf, hkind, hfd⟩ => ⟨hkind, hfd, hbuf⟩, fun ⟨hkind, hfd, hbuf⟩ => ⟨hbuf, hkind, hfd⟩⟩

theorem designates_iff : s.Designates loop table j fd ↔ Stays loop s.program.loop table j fd := by
  rw [Designates, ← owned_iff]
  exact ⟨fun ⟨howned, hlog⟩ => ⟨hlog, howned⟩, fun ⟨hlog, howned⟩ => ⟨howned, hlog⟩⟩

theorem not_stays_of_leaves (h : Follows loop') (hleaves : Leaves loop loop' table j fd) :
    ¬ Stays loop loop' table j fd := by
  intro hstays
  obtain ⟨effects, hlog, hcases⟩ := hleaves
  obtain ⟨effects', hlog', hnot⟩ := hstays.log_eq
  obtain rfl : effects = effects' := List.append_cancel_left (hlog.symm.trans hlog')
  rcases hcases with hclosed | ⟨k, hk, howned⟩
  · exact hnot hclosed
  · have hsame := h.owned_injective howned hstays.owned_eq
    rw [Slot.conn.injEq] at hsame
    omega

/-- The record of a connection with another block in its buffer, in its place. -/
theorem reads_setConns (bytes' : List UInt8) (used : UInt32) {conns : List UsConn}
    {record : UsConn} {bytes : List UInt8} {effects log : List Effect}
    (htable : loop.tables table = some conns)
    (hconn : conns[j]? = some record) (hkind : record.kind = usKindConn)
    (hbuf : record.buf = .block bytes) (hlog : log = loop.log ++ effects)
    (heffects : ∀ e ∈ effects, e.isTraffic = true ∧
      (e.isCallback = true ∨ e = .reads record.fd)) :
    UsLoop.Reads loop { loop.setConns table (conns.set j
        { record with buf := .block bytes', used := used }) with log := log } table j conns record
      { record with buf := .block bytes', used := used } where
  prepares :=
    { rewrites := ⟨htable, hconn, hkind, hkind, rfl, rfl, rfl, rfl, rfl, rfl, rfl⟩
      isOpen_eq := rfl
      registered_eq := rfl
      log_eq := ⟨effects, hlog, fun e he => (heffects e he).2⟩ }
  log_eq := ⟨effects, hlog, fun e he => (heffects e he).1⟩
  buf := .inr ⟨bytes, bytes', hbuf, rfl⟩

theorem callback_spec (h : Follows s.program.loop)
    (howned : s.program.loop.slotsBy UsConn.owned (.conn table j) = some fd)
    (hcallback : s.callback table j = some program) :
    Follows program.loop ∧ Stays s.program.loop program.loop table j fd := by
  rw [callback] at hcallback
  split at hcallback
  case isTrue => cases hcallback
  case isFalse =>
    obtain ⟨conns, htable, hcallback⟩ := Option.bind_eq_some_iff.mp hcallback
    obtain ⟨connection, hconn, hcallback⟩ := Option.bind_eq_some_iff.mp hcallback
    obtain ⟨record, hrecord, hkind, -, -⟩ := owned_iff.mp howned
    obtain rfl : connection = record := by
      rw [conn?_of_table htable, hconn] at hrecord
      exact Option.some.inj hrecord
    dsimp only at hcallback
    split at hcallback
    case h_2 => cases hcallback
    case h_1 buf hbuf =>
      obtain ⟨round, -, hcallback⟩ := Option.bind_eq_some_iff.mp hcallback
      cases round with
      | ends => cases hcallback
      | message buf' used arrivals =>
          obtain ⟨loop₁, hdispatch, hcallback⟩ := Option.bind_eq_some_iff.mp hcallback
          cases hcallback
          obtain ⟨effects, rfl, heffects⟩ := dispatch_spec hdispatch
          have hreads := reads_setConns buf' used htable hconn hkind hbuf
            (List.append_assoc s.program.loop.log [.reads connection.fd] effects) fun e he => by
              rcases List.mem_cons.mp he with rfl | he
              · exact ⟨rfl, .inr rfl⟩
              · obtain ⟨fn, serverId, fd, data, user, rfl⟩ := heffects e he
                exact ⟨rfl, .inl rfl⟩
          exact ⟨(h.reads hreads).follows, hreads.vacates.stays table j fd howned id⟩

theorem run_spec {calls : List Call} (h : Follows program.loop)
    (hrun : run Program.step program calls = some program') :
    Follows program'.loop ∧ Vacates program.loop program'.loop fun table k =>
      ¬ Along Program.step (fun program call => program.disturbs table k call = false) program
        calls := by
  induction calls generalizing program with
  | nil =>
      cases hrun
      refine ⟨h, (Vacates.refl _).congr fun table k fd _ => ?_⟩
      exact iff_of_false id fun hnot => hnot trivial
  | cons call calls ih =>
      obtain ⟨program₁, hstep, hrest⟩ := (run_cons_eq_some _).mp hrun
      obtain ⟨hfollows, hvacates⟩ := Program.vacates_step h hstep
      obtain ⟨hfollows', hvacates'⟩ := ih hfollows hrest
      refine ⟨hfollows', (hvacates.trans hvacates').congr fun table k fd _ => ?_⟩
      rw [along_cons_of_eq_some hstep, not_and_or, Bool.not_eq_false]

theorem conn?_resetUsed (loop : UsLoop) (table j table' j' : ℕ) :
    (loop.resetUsed table j).conn? table' j' = (loop.conn? table' j').map fun connection =>
      if table' = table ∧ j' = j then { connection with used := 0 } else connection := by
  rw [resetUsed]
  split
  case h_1 conns htable =>
    rw [conn?, conn?, setConns]
    dsimp only
    rcases eq_or_ne table' table with rfl | hne
    · rw [update_self, htable, Option.bind_some, Option.bind_some, List.getElem?_modify]
      rcases eq_or_ne j' j with rfl | hj
      · simp
      · simp [hj, hj.symm]
    · rw [update_of_ne hne]
      simp [hne]
  case h_2 hnone =>
    rcases eq_or_ne table' table with rfl | hne
    · simp [conn?, hnone]
    · simp [hne]

/-- `m_used` says nothing about what is in the slots. -/
theorem slotsBy_resetUsed (loop : UsLoop) (table j : ℕ) :
    (loop.resetUsed table j).slotsBy UsConn.owned = loop.slotsBy UsConn.owned := by
  funext slot
  cases slot with
  | server i =>
      rw [slotsBy_server, slotsBy_server, resetUsed]
      split <;> rfl
  | conn table' j' =>
      rw [slotsBy_conn, slotsBy_conn, conn?_resetUsed]
      rcases loop.conn? table' j' with _ | connection
      · rfl
      · rw [Option.map_some, Option.bind_some, Option.bind_some]
        split <;> rfl

theorem log_resetUsed (loop : UsLoop) (table j : ℕ) : (loop.resetUsed table j).log = loop.log := by
  rw [resetUsed]
  split <;> rfl

theorem stays_resetUsed : Stays loop (loop'.resetUsed table j) table j fd ↔
    Stays loop loop' table j fd := by
  constructor
  · rintro ⟨hlog, howned⟩
    rw [log_resetUsed] at hlog
    rw [slotsBy_resetUsed] at howned
    exact ⟨hlog, howned⟩
  · rintro ⟨hlog, howned⟩
    refine ⟨?_, ?_⟩
    · rw [log_resetUsed]
      exact hlog
    · rw [slotsBy_resetUsed]
      exact howned

theorem follows_resetUsed (h : Follows loop)
    (howned : loop.slotsBy UsConn.owned (.conn table j) = some fd) :
    Follows (loop.resetUsed table j) := by
  obtain ⟨record, hrecord, hkind, -, hfreed⟩ := owned_iff.mp howned
  obtain ⟨conns, htable, hconn⟩ := Option.bind_eq_some_iff.mp hrecord
  have hnull := h.bufs table j record hrecord hkind
  obtain ⟨bytes, hbuf⟩ : ∃ bytes, record.buf = .block bytes := by
    cases hcases : record.buf with
    | null => exact absurd hcases hnull
    | freed => exact absurd hcases hfreed
    | block bytes => exact ⟨bytes, rfl⟩
  have hmodify : conns.modify j (fun connection => { connection with used := 0 }) =
      conns.set j { record with used := 0 } := by
    rw [List.modify_eq_set_getElem?, hconn]
    rfl
  have hreset : loop.resetUsed table j =
      loop.setConns table (conns.set j { record with buf := .block bytes, used := 0 }) := by
    rw [resetUsed, htable]
    dsimp only
    rw [hmodify, ← hbuf]
  rw [hreset]
  have hreads := reads_setConns bytes 0 htable hconn hkind hbuf
    (List.append_nil loop.log).symm fun e he => absurd he List.not_mem_nil
  exact (h.reads hreads).follows

/-- After a round the pointer shows its connection exactly when the callback spared it. -/
theorem step_spec {turn : Turn} {t : Reading} (h : Follows s.program.loop)
    (hs : s.Designates loop table j fd) (hstep : s.step table j turn = some t) :
    (s.Spares table j turn → Follows t.program.loop) ∧
      (t.Designates loop table j fd ↔ s.Spares table j turn) := by
  obtain ⟨program, hcallback, hstep⟩ := Option.bind_eq_some_iff.mp hstep
  obtain ⟨program', hrun, ht⟩ := Option.bind_eq_some_iff.mp hstep
  cases ht
  have hbefore := designates_iff.mp hs
  obtain ⟨hfollows, hstays⟩ := callback_spec h hbefore.owned_eq hcallback
  obtain ⟨hfollows', hvacates⟩ := run_spec hfollows hrun
  have hthere := hbefore.trans hstays
  have hspares : s.Spares table j turn ↔ Along Program.step
      (fun program call => program.disturbs table j call = false) program turn.calls := by
    refine ⟨fun hall => hall program hcallback, fun halong program₁ hcallback₁ => ?_⟩
    obtain rfl : program = program₁ := Option.some.inj (hcallback.symm.trans hcallback₁)
    exact halong
  rw [designates_iff, stays_resetUsed, hspares]
  by_cases halong : Along Program.step
      (fun program call => program.disturbs table j call = false) program turn.calls
  · have hafter := hvacates.stays table j fd hthere.owned_eq (not_not_intro halong)
    exact ⟨fun _ => follows_resetUsed hfollows' hafter.owned_eq,
      iff_of_true (hthere.trans hafter) halong⟩
  · have hafter := hthere.leaves (hvacates.leaves table j fd hthere.owned_eq halong)
    exact ⟨fun hyes => absurd hyes halong,
      iff_of_false (not_stays_of_leaves hfollows' hafter) halong⟩

end Steps

instance (table j : ℕ) (s : Reading) (turn : Turn) : Decidable (s.Spares table j turn) :=
  match h : s.callback table j with
  | none => isTrue fun program hcallback => by
      rw [h] at hcallback
      cases hcallback
  | some program =>
      decidable_of_iff (Along Program.step
        (fun program call => program.disturbs table j call = false) program turn.calls)
        ⟨fun halong program₁ hcallback => Option.some.inj (h.symm.trans hcallback) ▸ halong,
          fun hall => hall program h⟩

end Reading

/-- `read_from_client` is called for a connection of a loop that can be reached, and enters
`m_on_msg` for each message. In every round its pointer shows the record of that connection,
which was not closed, if and only if no call of a callback closes the connection, or another of
its table while it is the last one, or its server, or the loop. -/
theorem readFromClient_survives_iff {calls : List Call} {program : Program}
    (hrun : run Program.step Program.start calls = some program) {table j : ℕ} {record : UsConn}
    (hconn : program.loop.conn? table j = some record) (hkind : record.kind = usKindConn)
    (hbuf : record.buf ≠ .freed) (store : ℤ → List Arrival) (turns : List Turn) :
    Throughout (Reading.step table j) (Reading.Designates program.loop table j record.fd)
        ⟨program, store⟩ turns ↔
      Along (Reading.step table j) (Reading.Spares table j) ⟨program, store⟩ turns := by
  have hfollows := (Reading.run_spec UsLoop.follows_usLoopCreate hrun).1
  refine throughout_iff_along (I := fun s : Reading => UsLoop.Follows s.program.loop ∧
    s.Designates program.loop table j record.fd) (fun s hs => hs.2) ?_ ?_ ⟨hfollows, ?_⟩
  · intro s t turn _ hs hC hstep
    obtain ⟨hkeep, hiff⟩ := Reading.step_spec hs.1 hs.2 hstep
    exact ⟨hkeep hC, hiff.mpr hC⟩
  · intro s t turn _ hs hC hstep hdesignates
    exact hC ((Reading.step_spec hs.1 hs.2 hstep).2.mp hdesignates)
  · exact ⟨⟨record, hconn, hkind, rfl, hbuf⟩, [], (List.append_nil _).symm, List.not_mem_nil⟩

def emptyMessage : Arrival :=
  .data 0x55 ([0x43, 0x4F, 0x4E] ++ List.replicate 28 0)

/-- A server with the clients of two descriptors. -/
def twoClients : List Call :=
  [Program.listen 8000 3,
    .act (.event ⟨3, some (.server 0), false, [],
      [.client 5 true true true, .client 6 true true true], true⟩)]

/-- The callback for the first client closes the second one, which is the last, and the pointer
is good for another message. -/
theorem readFromClient_survives_twoClients : ∃ program record,
    run Program.step Program.start twoClients = some program ∧
    program.loop.conn? 0 0 = some record ∧ record.fd = 5 ∧
    Throughout (Reading.step 0 0) (Reading.Designates program.loop 0 0 record.fd)
      ⟨program, fun _ => [emptyMessage]⟩
      [⟨[.act (.clientClose 1 6 true)], fun _ => [emptyMessage]⟩, ⟨[], fun _ => []⟩] := by
  refine ⟨_, _, rfl, rfl, rfl, (@readFromClient_survives_iff twoClients _ rfl 0 0 _ rfl rfl
    (by simp [UsLoop.newConn]) _ _).mpr ?_⟩
  decide +kernel

/-- A callback that closes its own client leaves the pointer on the record of the other client,
whose descriptor is read from next. A callback that closes the other client, while its own is
the last, leaves the pointer on a record that was cleared. -/
theorem readFromClient_strays : ∃ program,
    run Program.step Program.start twoClients = some program ∧
    (∃ s, Reading.step 0 0 ⟨program, fun _ => [emptyMessage]⟩
        ⟨[.act (.clientClose 1 5 true)], fun _ => [emptyMessage]⟩ = some s ∧
      (s.program.loop.conn? 0 0).map UsConn.fd = some 6 ∧
      ¬ s.Designates program.loop 0 0 5) ∧
    ∃ s, Reading.step 0 1 ⟨program, fun _ => [emptyMessage]⟩
        ⟨[.act (.clientClose 1 5 true)], fun _ => [emptyMessage]⟩ = some s ∧
      (s.program.loop.conn? 0 1).map UsConn.kind = some 0 ∧
      ¬ s.Designates program.loop 0 1 6 := by
  refine ⟨_, rfl, ⟨_, rfl, rfl, ?_⟩, ⟨_, rfl, rfl, ?_⟩⟩
  · rintro ⟨⟨record, hrecord, -, hfd, -⟩, -⟩
    cases hrecord
    cases hfd
  · rintro ⟨⟨record, hrecord, hkind, -, -⟩, -⟩
    cases hrecord
    cases hkind

end Server

end ConArtist
