import Mathlib.Data.List.Basic
import Mathlib.Data.UInt

/-!
# Receiving messages from a client

The model of `read_from_client` of `unix_socket_server.cpp`. What the kernel has in
store for the `read` calls on a descriptor is a list of arrivals; once it is used
up, `read` would block. A write past the end of the receive buffer is a fault.

The two inner loops of the source are one definition, with the place in the buffer
and the number of bytes to read as parameters. Loops carry fuel; every iteration uses
up some of what is in store, which bounds the fuel they need.
-/

namespace ConArtist

namespace Server

def usMessageMagic : UInt32 := 0x55434F4E

def usMessageHeaderSize : ℕ := 32

def usMessageOffsetMagic : ℕ := 0

def usMessageOffsetLen : ℕ := 4

/-- What the pointer to a receive buffer is worth. -/
inductive Buf where
  | null
  | block (bytes : List UInt8)
  | freed

/-- `us_conn`. A pointer to a server is the index of its slot in `m_servers`; `none`
is a null pointer. -/
structure UsConn where
  kind : UInt32
  fd : ℤ
  server : Option ℕ
  buf : Buf
  cap : UInt32
  used : UInt32

/-- What a `read` on the descriptor meets next: bytes, `EAGAIN`, `EINTR`, the end of
the stream or another error. -/
inductive Arrival where
  | data (b : UInt8) (bs : List UInt8)
  | again
  | intr
  | eof
  | fail

/-- The outcome of a `read` call. -/
inductive ReadResult where
  | bytes (bs : List UInt8)
  | again
  | intr
  | eof
  | fail

/-- `read` for up to `n` bytes. The end of the stream stays. -/
def read (n : ℕ) : List Arrival → ReadResult × List Arrival
  | [] => (.again, [])
  | .data b bs :: arrivals =>
      match (b :: bs).drop n with
      | [] => (.bytes (b :: bs), arrivals)
      | c :: cs => (.bytes ((b :: bs).take n), .data c cs :: arrivals)
  | .again :: arrivals => (.again, arrivals)
  | .intr :: arrivals => (.intr, arrivals)
  | .eof :: arrivals => (.eof, .eof :: arrivals)
  | .fail :: arrivals => (.fail, arrivals)

/-- How a loop ends: all bytes are there, the function returns, or it faults. -/
inductive Exit where
  | filled
  | returns (rc : ℤ)
  | fault
  deriving DecidableEq

/-- Store bytes at an offset of the buffer. -/
def blit (buf : List UInt8) (offset : ℕ) (bs : List UInt8) : Option (List UInt8) :=
  if offset + bs.length ≤ buf.length then
    some (buf.take offset ++ bs ++ buf.drop (offset + bs.length))
  else none

/-- `while (got < size) { read(fd, buf + base + got, size - got); … }`. -/
def readLoop (base size : ℕ) :
    ℕ → ℕ → List UInt8 → List Arrival → Option (Exit × List UInt8 × List Arrival)
  | 0, _, _, _ => none
  | fuel + 1, got, buf, arrivals =>
      if got < size then
        match read (size - got) arrivals with
        | (.bytes bs, arrivals) =>
            match blit buf (base + got) bs with
            | some buf => readLoop base size fuel (got + bs.length) buf arrivals
            | none => some (.fault, buf, arrivals)
        | (.eof, arrivals) => some (.returns (-1), buf, arrivals)
        | (.again, arrivals) => some (.returns 0, buf, arrivals)
        | (.intr, arrivals) => readLoop base size fuel got buf arrivals
        | (.fail, arrivals) => some (.returns (-1), buf, arrivals)
      else some (.filled, buf, arrivals)

/-- `read_u32_be(p)` for `p = buf + offset`. -/
def readU32Be (buf : List UInt8) (offset : ℕ) : UInt32 :=
  ((buf.getD offset 0).toUInt32 <<< 24) ||| ((buf.getD (offset + 1) 0).toUInt32 <<< 16) |||
    ((buf.getD (offset + 2) 0).toUInt32 <<< 8) ||| (buf.getD (offset + 3) 0).toUInt32

/-- What a call of `read_from_client` leaves: its end, the buffer, the messages it
dispatched and what is still in store. -/
structure Received where
  exit : Exit
  buf : List UInt8
  messages : List (List UInt8)
  arrivals : List Arrival

/-- The outer loop of `read_from_client`. -/
def readFromClientLoop (cap : UInt32) : ℕ → List UInt8 → List Arrival → Option Received
  | 0, _, _ => none
  | fuel + 1, buf, arrivals =>
      match readLoop 0 usMessageHeaderSize fuel 0 buf arrivals with
      | none => none
      | some (.returns rc, buf, arrivals) => some ⟨.returns rc, buf, [], arrivals⟩
      | some (.fault, buf, arrivals) => some ⟨.fault, buf, [], arrivals⟩
      | some (.filled, buf, arrivals) =>
          let magic := readU32Be buf usMessageOffsetMagic
          let payloadLen := readU32Be buf usMessageOffsetLen
          if magic ≠ usMessageMagic then some ⟨.returns (-1), buf, [], arrivals⟩
          else if payloadLen > cap - UInt32.ofNat usMessageHeaderSize then
            some ⟨.returns (-1), buf, [], arrivals⟩
          else
            match readLoop usMessageHeaderSize payloadLen.toNat fuel 0 buf arrivals with
            | none => none
            | some (.returns rc, buf, arrivals) => some ⟨.returns rc, buf, [], arrivals⟩
            | some (.fault, buf, arrivals) => some ⟨.fault, buf, [], arrivals⟩
            | some (.filled, buf, arrivals) =>
                let used := UInt32.ofNat usMessageHeaderSize + payloadLen
                (readFromClientLoop cap fuel buf arrivals).map fun out =>
                  { out with messages := buf.take used.toNat :: out.messages }

/-- The `read` calls that one arrival can serve. -/
def Arrival.weight : Arrival → ℕ
  | .data _ bs => bs.length + 1
  | .again => 1
  | .intr => 1
  | .eof => 1
  | .fail => 1

/-- A bound on the `read` calls that use up what is in store. -/
def weight (arrivals : List Arrival) : ℕ := (arrivals.map Arrival.weight).sum

@[simp] theorem weight_nil : weight [] = 0 := rfl

@[simp] theorem weight_cons (arrival : Arrival) (arrivals : List Arrival) :
    weight (arrival :: arrivals) = arrival.weight + weight arrivals := rfl

/-- `read_from_client`. `m_used` is set for the time of the callback only. -/
def readFromClient (connection : UsConn) (arrivals : List Arrival) :
    Option (Received × UsConn) :=
  match connection.buf with
  | .null => none
  | .freed => none
  | .block buf =>
      (readFromClientLoop connection.cap (weight arrivals + 2) buf arrivals).map fun out =>
        (out, { connection with
          buf := .block out.buf
          used := if out.messages = [] then connection.used else 0 })

/-- What the calls on one connection come to. -/
structure Served where
  closed : Bool
  messages : List (List UInt8)
  arrivals : List Arrival

/-- Successive calls of `read_from_client` on a connection, until all that is in
store has arrived or a call returns -1, after which the connection is closed. -/
def serve : ℕ → UsConn → List Arrival → Option Served
  | 0, _, _ => none
  | fuel + 1, connection, arrivals =>
      if arrivals.isEmpty then some ⟨false, [], []⟩
      else
        match readFromClient connection arrivals with
        | some (⟨.returns rc, _, messages, arrivals⟩, connection) =>
            if rc < 0 then some ⟨true, messages, arrivals⟩
            else
              (serve fuel connection arrivals).map fun served =>
                { served with messages := messages ++ served.messages }
        | _ => none

end Server

end ConArtist
