import ConArtist.Foundation.Run
import ConArtist.Server.Handling

/-!
# A server that is not created

`us_server_create` takes a socket, a slot of `m_servers` and a connection table, and at each
place where it can fail it gives back by hand what it took before. The last of these
places closes the socket and clears the slot but not the connection table, which
`us_server_close` gives back. So a failed call leaves nothing behind exactly when it is not
the registration of the socket that fails, or when there was no table to give back.
-/

namespace ConArtist

namespace Server

open Function Machine

namespace UsLoop

/-- How many slots `m_servers` has, and how many `m_servers_cap` says. -/
def slots (loop : UsLoop) : ℕ × ℕ := (loop.servers.length, loop.serversCap)

section Slots

variable {loop loop' : UsLoop} {granted : Bool} {i : ℕ}

@[simp] theorem slots_emit (loop : UsLoop) (effects : List Effect) :
    (loop.emit effects).slots = loop.slots := rfl

@[simp] theorem slots_setServer (loop : UsLoop) (i : ℕ) (server : UsServer) :
    (loop.setServer i server).slots = loop.slots :=
  congrArg (fun n => (n, loop.serversCap)) List.length_set

@[simp] theorem slots_setConns (loop : UsLoop) (table : ℕ) (conns : List UsConn) :
    (loop.setConns table conns).slots = loop.slots := rfl

@[simp] theorem slots_kqDelRead (loop : UsLoop) (fd : ℤ) :
    (loop.kqDelRead fd).slots = loop.slots := rfl

@[simp] theorem slots_openFd (loop : UsLoop) (fd : ℤ) : (loop.openFd fd).slots = loop.slots := rfl

@[simp] theorem slots_closeFd (loop : UsLoop) (fd : ℤ) :
    (loop.closeFd fd).slots = loop.slots := rfl

@[simp] theorem slots_freeConns (loop : UsLoop) (conns : Option ℕ) :
    (loop.freeConns conns).slots = loop.slots := rfl

@[simp] theorem slots_kqMove (loop : UsLoop) (granted : Bool) (fd : ℤ) (udata : Slot) :
    (loop.kqMove granted fd udata).slots = loop.slots := by
  rw [kqMove_eq]
  rfl

theorem closeConn_slots {idx : ℕ} (h : loop.closeConn granted i idx = some loop') :
    loop'.slots = loop.slots := by
  obtain ⟨server, -, h⟩ := Option.bind_eq_some_iff.mp h
  obtain ⟨table, -, h⟩ := Option.bind_eq_some_iff.mp h
  obtain ⟨conns, -, h⟩ := Option.bind_eq_some_iff.mp h
  obtain ⟨connection, -, h⟩ := Option.bind_eq_some_iff.mp h
  simp only at h
  split at h
  case h_1 => cases h
  case h_2 => cases h
  case h_3 =>
    obtain ⟨moved, -, h⟩ := Option.bind_eq_some_iff.mp h
    cases h
    rw [slots_setServer, slots_setConns]
    split <;> split <;> simp

theorem closeConns_slots {n : ℕ} (h : closeConns i n loop = some loop') :
    loop'.slots = loop.slots := by
  induction n generalizing loop with
  | zero =>
      cases h
      rfl
  | succ n ih =>
      obtain ⟨loop₁, hclose, hrest⟩ := Option.bind_eq_some_iff.mp h
      exact (ih hrest).trans (closeConn_slots hclose)

theorem acceptClient_slots {fd : ℤ} {flagsOk bufOk kqOk : Bool}
    (h : loop.acceptClient i fd flagsOk bufOk kqOk = some loop') : loop'.slots = loop.slots := by
  rw [acceptClient] at h
  split at h
  case isTrue => cases h
  case isFalse =>
    simp only at h
    split at h
    case isTrue =>
      cases h
      rfl
    case isFalse =>
      obtain ⟨server, -, h⟩ := Option.bind_eq_some_iff.mp h
      split at h
      case isTrue =>
        cases h
        rfl
      case isFalse =>
        obtain ⟨table, -, h⟩ := Option.bind_eq_some_iff.mp h
        obtain ⟨conns, -, h⟩ := Option.bind_eq_some_iff.mp h
        split at h
        case isTrue => cases h
        case isFalse =>
          split at h
          case isTrue => exact (closeConn_slots h).trans (slots_setServer _ _ _)
          case isFalse =>
            split at h
            case h_1 loop₁ hadd =>
              obtain ⟨rfl, -⟩ := eq_of_kqAddRead_false hadd
              exact (closeConn_slots h).trans (slots_setServer _ _ _)
            case h_2 loop₁ hadd =>
              obtain ⟨rfl, -⟩ := eq_of_kqAddRead_true hadd
              cases h
              exact slots_setServer _ _ _

theorem acceptNewClients_slots {rc : ℤ} {meets : List Accepted}
    (h : acceptNewClients i loop meets = some (rc, loop')) : loop'.slots = loop.slots := by
  induction meets generalizing loop with
  | nil =>
      cases h
      rfl
  | cons met meets ih =>
      cases met with
      | client fd flagsOk bufOk kqOk =>
          rw [acceptNewClients] at h
          obtain ⟨loop₁, haccept, hrest⟩ := Option.bind_eq_some_iff.mp h
          exact (ih hrest).trans (acceptClient_slots haccept)
      | again =>
          cases h
          rfl
      | intr => exact ih h
      | fail =>
          cases h
          rfl

theorem removeServer_slots {idx : ℕ} (h : loop.removeServer granted idx = some loop') :
    loop'.slots = loop.slots := by
  obtain ⟨server, -, h⟩ := Option.bind_eq_some_iff.mp h
  simp only at h
  split at h
  case h_1 => cases h
  case h_2 last _ =>
    obtain ⟨moved, -, h⟩ := Option.bind_eq_some_iff.mp h
    cases h
    have hslots : ∀ loop₁ : UsLoop,
        ({ loop₁.setServer last zeroServer with serversCount := last } : UsLoop).slots =
          loop₁.slots := fun loop₁ => slots_setServer loop₁ last zeroServer
    rw [hslots]
    split <;> split <;> simp

theorem dispatch_slots {connection : UsConn} {messages : List (List UInt8)}
    (h : loop.dispatch connection messages = some loop') : loop'.slots = loop.slots := by
  rw [dispatch] at h
  split at h
  case isTrue =>
    cases h
    rfl
  case isFalse =>
    obtain ⟨i, -, h⟩ := Option.bind_eq_some_iff.mp h
    obtain ⟨server, -, h⟩ := Option.bind_eq_some_iff.mp h
    obtain ⟨fn, -, h⟩ := Option.bind_eq_some_iff.mp h
    cases h
    rfl

theorem readConn_slots {table j : ℕ} {conns : List UsConn} {connection connection' : UsConn}
    {arrivals : List Arrival} {rc : ℤ}
    (h : loop.readConn table j conns connection arrivals = some (rc, connection', loop')) :
    loop'.slots = loop.slots := by
  obtain ⟨⟨out, connection₁⟩, -, h⟩ := Option.bind_eq_some_iff.mp h
  simp only at h
  split at h
  case h_1 =>
    obtain ⟨loop₁, hdispatch, h⟩ := Option.bind_eq_some_iff.mp h
    cases h
    exact (dispatch_slots hdispatch).trans (slots_setConns _ _ _)
  case h_2 => cases h

theorem endConn_slots {table j : ℕ} {connection : UsConn}
    (h : loop.endConn table j connection granted = some loop') : loop'.slots = loop.slots := by
  obtain ⟨i, -, h⟩ := Option.bind_eq_some_iff.mp h
  obtain ⟨server, -, h⟩ := Option.bind_eq_some_iff.mp h
  split at h
  case isTrue => exact closeConn_slots h
  case isFalse =>
    split at h
    case h_1 => cases h
    case h_2 =>
      cases h
      rfl
    case h_3 =>
      obtain ⟨conns, -, h⟩ := Option.bind_eq_some_iff.mp h
      cases h
      rfl

theorem handleEvent_slots {event : Event} (h : loop.handleEvent event = some loop') :
    loop'.slots = loop.slots := by
  rw [handleEvent] at h
  split at h
  case h_1 =>
    cases h
    rfl
  case h_2 =>
    obtain ⟨server, -, h⟩ := Option.bind_eq_some_iff.mp h
    split at h
    case isTrue =>
      obtain ⟨⟨rc, loop₁⟩, haccept, rfl⟩ := Option.map_eq_some_iff.mp h
      exact acceptNewClients_slots haccept
    case isFalse =>
      cases h
      rfl
  case h_3 =>
    obtain ⟨conns, -, h⟩ := Option.bind_eq_some_iff.mp h
    obtain ⟨connection, -, h⟩ := Option.bind_eq_some_iff.mp h
    split at h
    case isTrue =>
      split at h
      case isTrue => exact endConn_slots h
      case isFalse =>
        obtain ⟨⟨rc, connection', loop₁⟩, hread, h⟩ := Option.bind_eq_some_iff.mp h
        have hslots := readConn_slots hread
        simp only at h
        split at h
        case isTrue => exact (endConn_slots h).trans hslots
        case isFalse =>
          cases h
          exact hslots
    case isFalse =>
      cases h
      rfl

theorem addServer_slots {args : CreateArgs} {fd rc : ℤ} {connsOk kqOk : Bool}
    (h : loop.addServer args fd connsOk kqOk = some (rc, loop')) : loop'.slots = loop.slots := by
  rw [addServer] at h
  simp only at h
  split at h
  case isTrue => cases h
  case isFalse =>
    split at h
    case h_1 loop₁ hadd =>
      obtain ⟨rfl, -⟩ := eq_of_kqAddRead_true hadd
      cases h
      exact slots_setServer _ _ _
    case h_2 loop₁ hadd =>
      obtain ⟨rfl, -⟩ := eq_of_kqAddRead_false hadd
      cases h
      exact (slots_setServer _ _ _).trans (slots_setServer _ _ _)

theorem usServerCreate_slots {args : CreateArgs} {meets : CreateMeets} {rc : ℤ}
    (h : loop.usServerCreate args meets = some (rc, loop')) : loop'.slots = loop.slots := by
  have hsame : some (-1, loop) = some (rc, loop') → loop'.slots = loop.slots := by
    intro heq
    cases heq
    rfl
  rw [usServerCreate] at h
  split at h
  case isTrue => exact hsame h
  case isFalse =>
    split at h
    case isTrue => exact hsame h
    case isFalse =>
      split at h
      case isTrue => exact hsame h
      case isFalse =>
        split at h
        case h_1 => exact hsame h
        case h_2 fd _ =>
          split at h
          case isTrue => cases h
          case isFalse =>
            split at h
            case isTrue => exact (addServer_slots h).trans (slots_openFd loop fd)
            case isFalse =>
              cases h
              rfl

/-- No action adds or drops a slot of `m_servers`. -/
theorem loopStep_slots {action : Action} (h : loopStep loop action = some loop') :
    loop'.slots = loop.slots := by
  cases action with
  | create args meets =>
      obtain ⟨⟨rc, loop₁⟩, hcreate, rfl⟩ := Option.map_eq_some_iff.mp h
      exact usServerCreate_slots hcreate
  | clientClose serverId clientFd granted =>
      obtain ⟨⟨rc, loop₁⟩, hclose, rfl⟩ := Option.map_eq_some_iff.mp h
      rw [usClientClose] at hclose
      split at hclose
      case h_1 =>
        cases hclose
        rfl
      case h_2 =>
        obtain ⟨server, -, hclose⟩ := Option.bind_eq_some_iff.mp hclose
        split at hclose
        case h_1 =>
          cases hclose
          rfl
        case h_2 =>
          obtain ⟨loop₂, hconn, hclose⟩ := Option.bind_eq_some_iff.mp hclose
          cases hclose
          exact closeConn_slots hconn
  | serverClose serverId granted =>
      obtain ⟨⟨rc, loop₁⟩, hclose, rfl⟩ := Option.map_eq_some_iff.mp h
      rw [usServerClose] at hclose
      split at hclose
      case h_1 =>
        cases hclose
        rfl
      case h_2 =>
        obtain ⟨server, -, hclose⟩ := Option.bind_eq_some_iff.mp hclose
        obtain ⟨loop₂, hconns, hclose⟩ := Option.bind_eq_some_iff.mp hclose
        obtain ⟨loop₃, hremove, hclose⟩ := Option.bind_eq_some_iff.mp hclose
        cases hclose
        exact (removeServer_slots hremove).trans (closeConns_slots hconns)
  | event event => exact handleEvent_slots h

end Slots

/-- `us_server_create` comes to the registration of its socket. -/
def Registers (loop : UsLoop) (args : CreateArgs) (meets : CreateMeets) : Prop :=
  args.onMsg ≠ none ∧ args.recvBufSize ≠ 0 ∧ (args.type = 0 ∨ args.type = 1) ∧
    loop.serversCount < loop.serversCap ∧ meets.socket ≠ none ∧ meets.flagsOk = true ∧
    meets.bindOk = true ∧ meets.listenOk = true

/-- A step of `us_server_create` fails. -/
def Fails (loop : UsLoop) (args : CreateArgs) (meets : CreateMeets) : Prop :=
  args.onMsg = none ∨ args.recvBufSize = 0 ∨ (args.type ≠ 0 ∧ args.type ≠ 1) ∨
    loop.serversCap ≤ loop.serversCount ∨ meets.socket = none ∨ meets.flagsOk = false ∨
    meets.bindOk = false ∨ meets.listenOk = false ∨ meets.kqOk = false

/-- The slots, descriptors, registrations and connection tables are as before. -/
structure LeavesNothing (loop loop' : UsLoop) : Prop where
  servers_eq : loop'.servers = loop.servers
  serversCount_eq : loop'.serversCount = loop.serversCount
  isOpen_eq : loop'.isOpen = loop.isOpen
  registered_eq : loop'.registered = loop.registered
  tables_eq : loop'.tables = loop.tables

/-- When a step of `us_server_create` fails, it returns -1 and leaves nothing behind. -/
def CleansUp (loop : UsLoop) (args : CreateArgs) (meets : CreateMeets) : Prop :=
  loop.Fails args meets → ∃ loop', loop.usServerCreate args meets = some (-1, loop') ∧
    LeavesNothing loop loop'

/-- `socket` gives descriptors that are not open. -/
def Fresh (loop : UsLoop) (meets : CreateMeets) : Prop :=
  ∀ fd, meets.socket = some fd → 0 ≤ fd ∧ loop.isOpen fd = false

/-- What is not given back: a connection table that was allocated before the registration was
refused. At the last id there is, the call does not come to its end either. -/
def Forgets (loop : UsLoop) (args : CreateArgs) (meets : CreateMeets) : Prop :=
  loop.Registers args meets ∧ meets.kqOk = false ∧
    (meets.connsOk = true ∨ 2147483647 ≤ loop.nextServerId)

section Create

variable {loop loop' : UsLoop} {args : CreateArgs} {meets : CreateMeets} {fd : ℤ}

theorem fails_iff : loop.Fails args meets ↔ (loop.Registers args meets → meets.kqOk = false) := by
  rw [Fails, Registers]
  cases meets.flagsOk <;> cases meets.bindOk <;> cases meets.listenOk <;> grind

theorem leavesNothing_self (loop : UsLoop) : LeavesNothing loop loop := ⟨rfl, rfl, rfl, rfl, rfl⟩

theorem usServerCreate_of_not_registers (hsound : Sound loop) (hfresh : loop.Fresh meets)
    (h : ¬ loop.Registers args meets) : ∃ loop',
      loop.usServerCreate args meets = some (-1, loop') ∧ LeavesNothing loop loop' := by
  rw [usServerCreate]
  split
  case isTrue => exact ⟨loop, rfl, leavesNothing_self loop⟩
  case isFalse hargs =>
    split
    case isTrue => exact ⟨loop, rfl, leavesNothing_self loop⟩
    case isFalse htype =>
      split
      case isTrue => exact ⟨loop, rfl, leavesNothing_self loop⟩
      case isFalse hroom =>
        split
        case h_1 => exact ⟨loop, rfl, leavesNothing_self loop⟩
        case h_2 fd hsocket =>
          obtain ⟨hfd, hopen⟩ := hfresh fd hsocket
          rw [if_neg (by rw [hopen]; simpa using hfd)]
          split
          case isTrue hcalls =>
            have hregisters : loop.Registers args meets := by
              rw [Registers, hsocket]
              grind
            exact absurd hregisters h
          case isFalse =>
            exact ⟨_, rfl, rfl, rfl, update_open_close hopen,
              (update_registered_none hsound hopen :
                update loop.registered fd none = loop.registered), rfl⟩

theorem usServerCreate_of_registers (hfresh : loop.Fresh meets)
    (h : loop.Registers args meets) : ∃ fd, loop.isOpen fd = false ∧
      loop.usServerCreate args meets =
        (loop.openFd fd).addServer args fd meets.connsOk meets.kqOk := by
  obtain ⟨honMsg, hsize, htype, hroom, hsocket, hflags, hbind, hlisten⟩ := h
  obtain ⟨fd, hsocket⟩ := Option.ne_none_iff_exists'.mp hsocket
  obtain ⟨hfd, hopen⟩ := hfresh fd hsocket
  refine ⟨fd, hopen, ?_⟩
  rw [usServerCreate, if_neg (not_or.mpr ⟨honMsg, hsize⟩), if_neg (by grind),
    if_neg (Nat.not_le.mpr hroom), hsocket]
  simp only
  rw [if_neg (by rw [hopen]; simpa using hfd), hflags, hbind, hlisten]
  rfl

theorem addServer_refused (hsound : Sound loop) (hroom : loop.serversCount < loop.servers.length)
    (hid : loop.nextServerId < 2147483647) (hopen : loop.isOpen fd = false) (args : CreateArgs)
    (connsOk : Bool) :
    ∃ loop', (loop.openFd fd).addServer args fd connsOk false = some (-1, loop') ∧
      LeavesNothing (loop.allocConns connsOk).2 loop' := by
  obtain ⟨rc, loop', hadd, hrc, hcount⟩ : ∃ rc loop',
      (loop.openFd fd).addServer args fd connsOk false = some (rc, loop') ∧ rc = -1 ∧
        loop'.serversCount = loop.serversCount := by
    rw [addServer, if_neg (by rw [not_or, Nat.not_le, Int.not_le]; exact ⟨hroom, hid⟩)]
    exact ⟨_, _, rfl, rfl, rfl⟩
  subst hrc
  refine ⟨loop', hadd, ?_⟩
  rcases addServer_cases hsound hopen hadd with ⟨hsame, hisOpen, hregistered, -⟩ | ⟨hadds, -⟩
  · exact ⟨hsame.servers_eq, hsame.serversCount_eq, hisOpen, hregistered, hsame.tables_eq⟩
  · exact absurd (hcount.symm.trans hadds.serversCount_eq) (Nat.lt_succ_self _).ne

theorem allocConns_tables_ne (hlimit : ∀ table, loop.tables table ≠ none → table < loop.nextTable) :
    (loop.allocConns true).2.tables ≠ loop.tables := by
  intro heq
  have hnew := allocConns_new loop
  rw [heq] at hnew
  exact absurd (hlimit loop.nextTable (by rw [hnew]; exact Option.some_ne_none _)) (lt_irrefl _)

theorem addServer_refused_iff (hsound : Sound loop)
    (hroom : loop.serversCount < loop.servers.length) (hopen : loop.isOpen fd = false)
    (connsOk : Bool) :
    (∃ loop', (loop.openFd fd).addServer args fd connsOk false = some (-1, loop') ∧
        LeavesNothing loop loop') ↔ ¬ (connsOk = true ∨ 2147483647 ≤ loop.nextServerId) := by
  rcases Int.lt_or_le loop.nextServerId 2147483647 with hid | hid
  · obtain ⟨loop', hadd, hleaves⟩ := addServer_refused hsound hroom hid hopen args connsOk
    cases connsOk with
    | true =>
        refine iff_of_false ?_ (not_not_intro (Or.inl rfl))
        rintro ⟨loop₁, heq, hleaves₁⟩
        obtain rfl : loop' = loop₁ := congrArg Prod.snd (Option.some.inj (hadd.symm.trans heq))
        exact allocConns_tables_ne hsound.table_lt
          (hleaves.tables_eq.symm.trans hleaves₁.tables_eq)
    | false =>
        refine iff_of_true ⟨loop', hadd, hleaves⟩ ?_
        rw [not_or]
        exact ⟨Bool.false_ne_true, Int.not_le.mpr hid⟩
  · refine iff_of_false ?_ (not_not_intro (Or.inr hid))
    rintro ⟨loop₁, heq, -⟩
    have hlast : 2147483647 ≤ (loop.openFd fd).nextServerId := hid
    rw [addServer, if_pos (Or.inr hlast)] at heq
    cases heq

theorem length_servers {actions : List Action} (h : run loopStep usLoopCreate actions = some loop) :
    loop.servers.length = loop.serversCap := by
  refine run_invariant loopStep (I := fun loop => loop.servers.length = loop.serversCap)
    (fun loop₁ action loop₂ heq hstep => ?_) actions List.length_replicate h
  have hslots := loopStep_slots hstep
  rw [slots, slots, Prod.mk.injEq] at hslots
  rw [hslots.1, hslots.2]
  exact heq

/-- A failed `us_server_create` leaves nothing behind, unless it is the registration of the
socket that fails once there is a connection table. -/
theorem usServerCreate_cleansUp_iff {actions : List Action}
    (h : run loopStep usLoopCreate actions = some loop) (args : CreateArgs) {meets : CreateMeets}
    (hfresh : loop.Fresh meets) : loop.CleansUp args meets ↔ ¬ loop.Forgets args meets := by
  have hsound := run_invariant loopStep (fun _ _ _ hs hstep => sound_step hs hstep) actions
    sound_usLoopCreate h
  rw [CleansUp, Forgets, fails_iff]
  by_cases hregisters : loop.Registers args meets
  · obtain ⟨fd, hopen, hcreate⟩ := usServerCreate_of_registers hfresh hregisters
    have hroom : loop.serversCount < loop.servers.length := by
      rw [length_servers h]
      exact hregisters.2.2.2.1
    rw [hcreate]
    cases meets.kqOk with
    | true => simp [hregisters]
    | false =>
        rw [addServer_refused_iff hsound hroom hopen]
        simp [hregisters]
  · refine iff_of_true (fun _ => usServerCreate_of_not_registers hsound hfresh hregisters) ?_
    exact fun hforgets => hregisters hforgets.1

/-- A TCP server with the given callback for messages. -/
def listenerArgs : CreateArgs := ⟨1, 0, 7000, 1024, some 0, none, none, 0⟩

/-- The address is in use. -/
theorem usServerCreate_bindFails : run loopStep usLoopCreate [] = some usLoopCreate ∧
    usLoopCreate.CleansUp listenerArgs ⟨some 3, true, false, true, true, true⟩ := by
  refine ⟨rfl, (usServerCreate_cleansUp_iff (run_nil _ _) listenerArgs ?_).mpr ?_⟩
  · rintro fd ⟨⟩
    exact ⟨by decide, rfl⟩
  · rintro ⟨⟨-, -, -, -, -, -, hbind, -⟩, -⟩
    cases hbind

/-- The registration is refused: the connection table is not given back. -/
theorem usServerCreate_forgets : run loopStep usLoopCreate [] = some usLoopCreate ∧
    ¬ usLoopCreate.CleansUp listenerArgs ⟨some 3, true, true, true, true, false⟩ := by
  refine ⟨rfl, fun hclean => ?_⟩
  obtain ⟨loop', hcreate, hleaves⟩ := hclean (by simp [Fails])
  have htable : ∀ r : Option (ℤ × UsLoop),
      r = usLoopCreate.usServerCreate listenerArgs ⟨some 3, true, true, true, true, false⟩ →
        r.map (fun out => (out.2.tables 0).isSome) = some true := by
    rintro r rfl
    rfl
  have hsome := htable _ hcreate.symm
  rw [Option.map_some, hleaves.tables_eq] at hsome
  cases hsome

end Create

end UsLoop

end Server

end ConArtist
