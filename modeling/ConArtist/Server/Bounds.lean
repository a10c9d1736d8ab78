import ConArtist.Foundation.Run
import ConArtist.Server.PeerClose
import ConArtist.Server.Loop

/-!
# The bounds of the receive buffer

`us_server_create` takes any size but zero and keeps its low 32 bits, and `read_from_client`
takes it that a header fits. With a buffer of at least a header nothing is stored past its end,
and what is dispatched fits. With a smaller one `m_cap - 32` wraps around, but it does not come
to that: the header is stored past the end as soon as enough bytes have arrived.
-/

namespace ConArtist

namespace Server

open Machine

/-- A call of `read_from_client` after which the connection stays open. -/
def receive (connection : UsConn) (arrivals : List Arrival) : Option UsConn :=
  match readFromClient connection arrivals with
  | some (⟨.returns rc, _, _, _⟩, connection) => if rc < 0 then none else some connection
  | _ => none

/-- A message with its header fits into so many bytes. -/
def Fits (cap : ℕ) (message : List UInt8) : Prop :=
  message.length = usMessageHeaderSize + (readU32Be message usMessageOffsetLen).toNat ∧
    message.length ≤ cap

/-- A call stores nothing past the end of the buffer, and what it dispatches fits. -/
def InBounds (connection : UsConn) (arrivals : List Arrival) : Prop :=
  ∃ out connection', readFromClient connection arrivals = some (out, connection') ∧
    out.exit ≠ .fault ∧ ∀ message ∈ out.messages, Fits connection.cap.toNat message

/-- The buffer of a connection is of the size that it says. -/
def Buffered (connection : UsConn) : Prop :=
  ∃ buf, connection.buf = .block buf ∧ buf.length = connection.cap.toNat

section Small

variable {arrivals : List Arrival}

/-- A loop that has more to read than the buffer takes ends with a fault, unless the bytes that
have arrived fit. -/
theorem readLoop_small {size fuel got : ℕ} {buf : List UInt8} (hfuel : weight arrivals < fuel)
    (hbuf : buf.length < size) (hgot : got ≤ buf.length) :
    ∃ exit buf' arrivals', readLoop 0 size fuel got buf arrivals = some (exit, buf', arrivals') ∧
      buf'.length = buf.length ∧ exit ≠ .filled ∧
      (exit = .fault ↔ buf.length < got + available arrivals) := by
  induction fuel generalizing got buf arrivals with
  | zero => omega
  | succ fuel ih =>
      have hlt : got < size := by omega
      have hread := reads_read (by omega : 0 < size - got) arrivals
      have hleaves := readLeaves_read (size - got) arrivals
      rw [readLoop, if_pos hlt]
      obtain ⟨result, arrivals', hresult⟩ :
        ∃ result arrivals', read (size - got) arrivals = (result, arrivals') := ⟨_, _, rfl⟩
      rw [hresult] at hread hleaves ⊢
      simp only at hread hleaves
      have hstop : available arrivals = 0 → ∀ rc : ℤ,
          (Exit.returns rc = .fault ↔ buf.length < got + available arrivals) := by
        intro hzero rc
        exact iff_of_false (by simp) (by omega)
      cases hread with
      | bytes bs _ hpos hle hweight hended harrive =>
          cases hleaves with
          | bytes _ hbytes hcall =>
              rcases Nat.lt_or_ge buf.length (got + bs.length) with hover | hfits
              · have hblit : blit buf (0 + got) bs = none := by
                  rw [blit, if_neg (by omega)]
                simp only [hblit]
                exact ⟨_, _, _, rfl, rfl, by decide, iff_of_true rfl (by omega)⟩
              · obtain ⟨buf', hblit, hlen, -⟩ :=
                  blit_of_le (show 0 + got + bs.length ≤ buf.length by omega)
                obtain ⟨exit, buf'', arrivals'', hloop, hlen', hfilled, hfault⟩ :=
                  ih (show weight arrivals' < fuel by omega) (show buf'.length < size by omega)
                    (show got + bs.length ≤ buf'.length by omega)
                simp only [hblit]
                refine ⟨exit, buf'', arrivals'', hloop, by omega, hfilled, hfault.trans ?_⟩
                rw [hlen, ← hbytes, Nat.add_assoc, Nat.add_comm bs.length]
      | empty hnil =>
          subst hnil
          exact ⟨_, _, _, rfl, rfl, by simp, hstop rfl _⟩
      | again _ hcons =>
          subst hcons
          exact ⟨_, _, _, rfl, rfl, by simp, hstop rfl _⟩
      | intr _ hcons =>
          subst hcons
          rw [weight_cons, Arrival.weight] at hfuel
          exact ih (show weight arrivals' < fuel by omega) hbuf hgot
      | eof _ hcons =>
          subst hcons
          exact ⟨_, _, _, rfl, rfl, by simp, hstop rfl _⟩
      | fail _ hcons =>
          subst hcons
          exact ⟨_, _, _, rfl, rfl, by simp, hstop rfl _⟩

end Small

section Calls

variable {connection : UsConn} {arrivals : List Arrival}

/-- The payload is stored behind the header, so the message that is dispatched is as long as
its header says. -/
theorem fits_dispatched {cap : UInt32} {buf₁ buf₂ payload : List UInt8} {len : ℕ}
    (hcap : usMessageHeaderSize ≤ cap.toNat) (hbuf : buf₂.length = cap.toNat)
    (hcheck : checkHeader cap buf₁ = some len)
    (htake : buf₂.take (usMessageHeaderSize + len) =
      buf₁.take usMessageHeaderSize ++ payload)
    (hlen : usMessageHeaderSize ≤ buf₁.length) :
    Fits cap.toNat (buf₂.take (usMessageHeaderSize + len)) := by
  obtain ⟨hpayload, hfit⟩ := checkHeader_eq_some hcap hcheck
  have hbound : usMessageOffsetLen + 4 ≤ usMessageHeaderSize := by decide
  have hheader := congrArg (List.take usMessageHeaderSize) htake
  rw [List.take_append_of_le_length (by rw [List.length_take]; omega), List.take_take,
    List.take_take, min_self, Nat.min_eq_left (Nat.le_add_right _ _)] at hheader
  have hsame : readU32Be (buf₂.take (usMessageHeaderSize + len)) usMessageOffsetLen =
      readU32Be buf₁ usMessageOffsetLen := by
    rw [readU32Be_take _ (by omega), ← readU32Be_take buf₂ hbound, hheader,
      readU32Be_take _ hbound]
  have hlength : (buf₂.take (usMessageHeaderSize + len)).length = usMessageHeaderSize + len := by
    rw [List.length_take]
    omega
  rw [Fits, hsame, hlength, ← hpayload]
  exact ⟨rfl, hfit⟩

theorem messages_fit {cap : UInt32} (hcap : usMessageHeaderSize ≤ cap.toNat) {fuel : ℕ}
    {buf : List UInt8} {out : Received} (hfuel : weight arrivals + 2 ≤ fuel)
    (hbuf : buf.length = cap.toNat) (h : readFromClientLoop cap fuel buf arrivals = some out) :
    ∀ message ∈ out.messages, Fits cap.toNat message := by
  induction fuel generalizing buf arrivals out with
  | zero => omega
  | succ fuel ih =>
      obtain ⟨exit, buf₁, arrivals₁, header, hloop, hlen₁, -, hends⟩ :=
        readLoop_spec 0 usMessageHeaderSize (show weight arrivals < fuel by omega) (Nat.zero_le _)
          (show 0 + usMessageHeaderSize ≤ buf.length by omega)
      have hnone : ∀ message ∈ ([] : List (List UInt8)), Fits cap.toNat message :=
        fun _ hmem => absurd hmem List.not_mem_nil
      cases exit with
      | returns rc =>
          rw [readFromClientLoop, hloop] at h
          cases h
          exact hnone
      | fault => cases hends
      | filled =>
          cases hends with
          | filled _ hlen hweight hended harrive =>
              have hpos := headerSize_pos
              rw [readFromClientLoop_filled hcap hloop] at h
              rcases hcheck : checkHeader cap buf₁ with _ | len
              · rw [hcheck] at h
                cases h
                exact hnone
              · obtain ⟨-, hfit⟩ := checkHeader_eq_some hcap hcheck
                obtain ⟨exit, buf₂, arrivals₂, payload, hloop₂, hlen₂, htake₂, hends₂⟩ :=
                  readLoop_spec usMessageHeaderSize len (show weight arrivals₁ < fuel by omega)
                    (Nat.zero_le _) (show usMessageHeaderSize + len ≤ buf₁.length by omega)
                simp only [hcheck, hloop₂] at h
                cases exit with
                | returns rc =>
                    cases h
                    exact hnone
                | fault => cases hends₂
                | filled =>
                    cases hends₂ with
                    | filled _ hlen' hweight' hended' harrive' =>
                        obtain ⟨rest, hrest, rfl⟩ := Option.map_eq_some_iff.mp h
                        intro message hmem
                        rcases List.mem_cons.mp hmem with rfl | hmem
                        · rw [Nat.add_zero, hlen', Nat.sub_zero] at htake₂
                          exact fits_dispatched hcap (by omega) hcheck htake₂ (by omega)
                        · exact ih (by omega) (hlen₂.trans (hlen₁.trans hbuf)) hrest message hmem

theorem Buffered.readFromClient (h : Buffered connection) (arrivals : List Arrival) :
    ∃ out connection', Server.readFromClient connection arrivals = some (out, connection') ∧
      Buffered connection' ∧ connection'.cap = connection.cap ∧
      (InBounds connection arrivals ↔ usMessageHeaderSize ≤ connection.cap.toNat ∨
        available arrivals ≤ connection.cap.toNat) := by
  rcases Nat.lt_or_ge connection.cap.toNat usMessageHeaderSize with hsmall | hcap
  · obtain ⟨buf, hbuf, hlen⟩ := h
    obtain ⟨exit, buf', arrivals', hloop, hlen', hfilled, hfault⟩ :=
      readLoop_small (Nat.lt_succ_self (weight arrivals)) (hlen ▸ hsmall) (Nat.zero_le _)
    have hout : readFromClientLoop connection.cap (weight arrivals + 2) buf arrivals =
        some ⟨exit, buf', [], arrivals'⟩ := by
      rw [readFromClientLoop, hloop]
      cases exit with
      | filled => exact absurd rfl hfilled
      | returns rc => rfl
      | fault => rfl
    have hcall : Server.readFromClient connection arrivals =
        some (⟨exit, buf', [], arrivals'⟩, { connection with buf := .block buf' }) := by
      simp [Server.readFromClient, hbuf, hout]
    refine ⟨_, _, hcall, ⟨buf', rfl, hlen'.trans hlen⟩, rfl, ?_⟩
    rw [or_iff_right (Nat.not_le.mpr hsmall), ← not_lt, ← hlen, ← Nat.zero_add (available arrivals),
      ← hfault]
    constructor
    · rintro ⟨out, connection', hcall', hexit, -⟩
      cases hcall.symm.trans hcall'
      exact hexit
    · exact fun hexit => ⟨_, _, hcall, hexit, fun message hmem => absurd hmem List.not_mem_nil⟩
  · obtain ⟨out, connection', hcall, hconn', hsame, hends⟩ := readFromClient_spec ⟨hcap, h⟩ arrivals
    refine ⟨out, connection', hcall, hconn'.buf_length, hsame, iff_of_true ?_ (.inl hcap)⟩
    refine ⟨out, connection', hcall, ?_, ?_⟩
    · cases hends with
      | again hexit | ended hexit | bad hexit =>
          rw [hexit]
          exact Exit.noConfusion
    · obtain ⟨buf, hbuf, hlen⟩ := h
      rw [Server.readFromClient, hbuf] at hcall
      obtain ⟨out', hloop, heq⟩ := Option.map_eq_some_iff.mp hcall
      cases heq
      exact messages_fit hcap le_rfl hlen hloop

theorem Buffered.receive {connection' : UsConn} (h : Buffered connection)
    (hstep : Server.receive connection arrivals = some connection') :
    Buffered connection' ∧ connection'.cap = connection.cap := by
  obtain ⟨⟨exit, buf, messages, arrivals'⟩, c, hcall, hc, hcap, -⟩ := h.readFromClient arrivals
  rw [Server.receive, hcall] at hstep
  cases exit with
  | returns rc =>
      dsimp only at hstep
      split at hstep
      case isTrue => cases hstep
      case isFalse =>
        cases hstep
        exact ⟨hc, hcap⟩
  | filled => cases hstep
  | fault => cases hstep

end Calls

theorem servers_usServerCreate {loop loop' : UsLoop} {args : CreateArgs} {meets : CreateMeets}
    {rc : ℤ} (hcreate : loop.usServerCreate args meets = some (rc, loop')) (hrc : rc ≠ -1) :
    ∃ server, loop'.servers[loop.serversCount]? = some server ∧
      server.recvBufSize = args.recvBufSize.toUInt32 := by
  have hno : ∀ {loop₁ : UsLoop}, some ((-1 : ℤ), loop₁) ≠ some (rc, loop') := by
    intro loop₁ heq
    exact hrc (Prod.mk.inj (Option.some.inj heq)).1.symm
  rw [UsLoop.usServerCreate] at hcreate
  split at hcreate
  case isTrue => exact absurd hcreate hno
  case isFalse =>
    split at hcreate
    case isTrue => exact absurd hcreate hno
    case isFalse =>
      split at hcreate
      case isTrue => exact absurd hcreate hno
      case isFalse =>
        split at hcreate
        case h_1 => exact absurd hcreate hno
        case h_2 fd _ =>
          split at hcreate
          case isTrue => cases hcreate
          case isFalse =>
            split at hcreate
            case isFalse => exact absurd hcreate hno
            case isTrue =>
              rw [UsLoop.addServer] at hcreate
              dsimp only at hcreate
              split at hcreate
              case isTrue => cases hcreate
              case isFalse hlimits =>
                rw [not_or, Nat.not_le] at hlimits
                split at hcreate
                case h_1 loop₁ hadd =>
                  obtain ⟨rfl, -⟩ := UsLoop.eq_of_kqAddRead_true hadd
                  cases hcreate
                  exact ⟨_, List.getElem?_set_self hlimits.1, rfl⟩
                case h_2 => exact absurd hcreate hno

/-- For every server that is created, every connection of it, and whatever arrives for the calls
on that: nothing is stored past the end of the receive buffer, and every message that is
dispatched fits, if and only if the low 32 bits of the size are at least those of a header, or no
call meets more bytes than these. -/
theorem receiveBuffer_inBounds_iff {loop loop' : UsLoop} {args : CreateArgs} {meets : CreateMeets}
    {rc : ℤ} (hcreate : loop.usServerCreate args meets = some (rc, loop')) (hrc : rc ≠ -1) :
    ∃ server, loop'.servers[loop.serversCount]? = some server ∧
      ∀ (i : ℕ) (fd : ℤ) (calls : List (List Arrival)),
        Attempts receive InBounds (UsLoop.newConn server i fd true) calls ↔
          Attempts receive (fun _ arrivals =>
            usMessageHeaderSize ≤ args.recvBufSize.toNat % 2 ^ 32 ∨
              available arrivals ≤ args.recvBufSize.toNat % 2 ^ 32)
            (UsLoop.newConn server i fd true) calls := by
  obtain ⟨server, hserver, hsize⟩ := servers_usServerCreate hcreate hrc
  refine ⟨server, hserver, fun i fd calls => ?_⟩
  have hcap : (UsLoop.newConn server i fd true).cap.toNat = args.recvBufSize.toNat % 2 ^ 32 := by
    rw [UsLoop.newConn, hsize]
    exact UInt64.toNat_toUInt32 _
  have hstart : Buffered (UsLoop.newConn server i fd true) := ⟨_, rfl, List.length_replicate⟩
  rw [← hcap]
  refine attempts_iff_attempts (I := fun connection => Buffered connection ∧
    connection.cap = (UsLoop.newConn server i fd true).cap) ?_ ?_ ⟨hstart, rfl⟩
  · rintro connection arrivals connection' ⟨hbuffered, hsame⟩ - hstep
    obtain ⟨hbuffered', hsame'⟩ := hbuffered.receive hstep
    exact ⟨hbuffered', hsame'.trans hsame⟩
  · rintro connection arrivals ⟨hbuffered, hsame⟩
    obtain ⟨-, -, -, -, -, hinBounds⟩ := hbuffered.readFromClient arrivals
    rw [hinBounds, hsame]

/-- What `us_server_create` is called with for a server that receives into so many bytes. -/
def sizedArgs (recvBufSize : UInt64) : CreateArgs :=
  ⟨1, 0, 8000, recvBufSize, some 1, none, none, 0⟩

/-- A buffer of 36 bytes takes a message with a payload of two bytes. -/
theorem receiveBuffer_inBounds_small : ∃ server,
    Attempts receive InBounds (UsLoop.newConn server 0 5 true)
      [[headerOfTwo, .data 1 [2], .again], [headerOfTwo]] := by
  have hcreate : usLoopCreate.usServerCreate (sizedArgs 36)
      ⟨some 3, true, true, true, true, true⟩ = some (1, _) := rfl
  obtain ⟨server, -, hall⟩ := receiveBuffer_inBounds_iff hcreate (by decide)
  exact ⟨server, (hall 0 5 _).mpr (attempts_of_forall (fun _ _ => .inl (by decide)) _ _)⟩

/-- Sizes of 16 and of 2 ^ 32 + 16 are accepted for buffers of 16 bytes, and a header of 32 bytes
that arrives at once is stored past their end. -/
theorem receiveBuffer_overrun :
    (∃ server loop', usLoopCreate.usServerCreate (sizedArgs 16)
        ⟨some 3, true, true, true, true, true⟩ = some (1, loop') ∧
      loop'.servers[0]? = some server ∧
      ¬ InBounds (UsLoop.newConn server 0 5 true) [headerOfTwo]) ∧
    ∃ server loop', usLoopCreate.usServerCreate (sizedArgs 4294967312)
        ⟨some 3, true, true, true, true, true⟩ = some (1, loop') ∧
      loop'.servers[0]? = some server ∧
      ¬ InBounds (UsLoop.newConn server 0 5 true) [headerOfTwo] := by
  refine ⟨⟨_, _, rfl, rfl, ?_⟩, ⟨_, _, rfl, rfl, ?_⟩⟩ <;>
    · rintro ⟨out, connection', hcall, hexit, -⟩
      cases hcall
      exact hexit rfl

end Server

end ConArtist
