import ConArtist.Foundation.Run
import ConArtist.GeekOpen.Stack

/-!
# A connection of a GeekOpen device

A connection has one context, and the decoder is called with one packet after the other. What
the whole of it comes to: the packets up to the first one that gives a user id are dropped, and from
that one on all are written under it, each as it came and then property by property. The user id is
what the decoder makes of a MAC address, with a digit 0 for the closing quote, and `0` is none. A
later packet cannot change it, and what was on the stack does not matter.

A packet is part of a memory that can be read behind its end, as far as the decoder goes.
-/

namespace ConArtist

namespace GeekOpen

open Machine UserTypes

/-- A packet, as a call of the decoder finds it: the memory from its first byte on, its size, the
time, and the array on the stack. -/
structure Received where
  memory : ℕ → UInt8
  size : UInt32
  now : UInt64
  properties : PropertyArray

namespace Received

def found (packet : Received) : List Property :=
  (parse packet.memory packet.size packet.properties).getD []

/-- The user id that a packet gives to a new connection, `0` for none. -/
def identity (packet : Received) : UInt64 := findMac packet.memory packet.found

/-- The packet leaves a new connection without a user id. -/
def isAnonymous (packet : Received) : Bool := packet.identity = 0

/-- The packets differ only in what the array on the stack held. -/
structure SameBytes (packet packet' : Received) : Prop where
  memory : packet'.memory = packet.memory
  size : packet'.size = packet.size
  now : packet'.now = packet.now

theorem parse_eq (packet : Received) :
    parse packet.memory packet.size packet.properties = some packet.found := by
  obtain ⟨found, hfound⟩ := exists_parse packet.memory packet.size packet.properties
  rw [Received.found, hfound, Option.getD_some]

section Writes

variable {α β : Type*} (strtof : (ℕ → UInt8) → ℕ → α) (strtod : (ℕ → UInt8) → ℕ → β)

/-- What is written for a packet once the user id is known. -/
def writes (userId : UInt64) (packet : Received) : List (Write α β) :=
  .fixData (streamId userId UserType.idJson.number) (packet.now * 1000)
      (bytesAt packet.memory 0 packet.size.toNat) ::
    packet.found.flatMap
      (writeProperty packet.memory strtof strtod userId (packet.now * 1000))

end Writes

end Received

/-- The stream of a write. -/
def Write.streamId {α β : Type*} : Write α β → UInt64
  | .fixData streamId _ _ => streamId
  | .u8 streamId _ _ => streamId
  | .f32 streamId _ _ => streamId
  | .f64 streamId _ _ => streamId

/-- The bytes of a packet that is written as a whole. -/
def Write.raw {α β : Type*} : Write α β → Option (List UInt8)
  | .fixData _ _ data => some data
  | _ => none

theorem switchIndex_lt (key : ℕ) : switchIndex key < 16 := by
  have hle : (key >>> 24) &&& 0x0F ≤ 15 := Nat.and_le_right
  rw [switchIndex]
  split <;> omega

theorem writeProperty_spec {α β : Type*} {strtof : (ℕ → UInt8) → ℕ → α}
    {strtod : (ℕ → UInt8) → ℕ → β} {memory : ℕ → UInt8} {userId dataTime : UInt64} {property : Property}
    {w : Write α β} (hw : w ∈ writeProperty memory strtof strtod userId dataTime property) :
    w.raw = none ∧ ∃ type < 65536, w.streamId = streamId userId type := by
  rw [writeProperty] at hw
  split_ifs at hw
  · rw [List.mem_singleton.mp hw]
    exact ⟨rfl, _, by decide, rfl⟩
  · rw [List.mem_singleton.mp hw]
    exact ⟨rfl, _, by decide, rfl⟩
  · rw [List.mem_singleton.mp hw]
    exact ⟨rfl, _, by decide, rfl⟩
  · rw [List.mem_singleton.mp hw]
    exact ⟨rfl, _, by decide, rfl⟩
  · rw [List.mem_singleton.mp hw]
    refine ⟨rfl, _, ?_, rfl⟩
    have hindex := switchIndex_lt (key32 memory property)
    have hswitch : idSwitch = 21 := rfl
    omega
  · cases hw

/-- A connection: `m_user_context0`, and what has been written to the stream. -/
structure Connection (α β : Type*) where
  userContext0 : UInt64
  written : List (Write α β)

namespace Connection

variable {α β : Type*} (strtof : (ℕ → UInt8) → ℕ → α) (strtod : (ℕ → UInt8) → ℕ → β)

def fresh : Connection α β := ⟨0, []⟩

/-- A call of `decoder_write_to_stream`. -/
def decode (c : Connection α β) (packet : Received) : Option (Connection α β) :=
  (decoderWriteToStream packet.memory strtof strtod packet.size packet.properties c.userContext0
    packet.now).map fun out => ⟨out.1, c.written ++ out.2⟩

/-- The packets that are written: all from the first one with a user id on. -/
def recorded (packets : List Received) : List Received :=
  packets.dropWhile Received.isAnonymous

/-- The user id of a connection with these packets. -/
def owner (packets : List Received) : UInt64 :=
  ((recorded packets).head?.map Received.identity).getD 0

variable {strtof strtod} {c : Connection α β} {packet : Received}

theorem decode_known (hknown : c.userContext0 ≠ 0) : c.decode strtof strtod packet =
    some ⟨c.userContext0, c.written ++ packet.writes strtof strtod c.userContext0⟩ := by
  rw [decode, decoderWriteToStream_of_ne hknown packet.parse_eq]
  rfl

theorem decode_anonymous (hfresh : c.userContext0 = 0) (hpacket : packet.identity = 0) :
    c.decode strtof strtod packet = some c := by
  obtain ⟨userContext0, written⟩ := c
  subst hfresh
  have hmac : findMac packet.memory packet.found = 0 := hpacket
  simp only [decode, decoderWriteToStream, if_true, packet.parse_eq, Option.bind_some, hmac,
    Option.map_some, List.append_nil]

theorem decode_identified (hfresh : c.userContext0 = 0) (hpacket : packet.identity ≠ 0) :
    c.decode strtof strtod packet =
      some ⟨packet.identity, c.written ++ packet.writes strtof strtod packet.identity⟩ := by
  have hmac : findMac packet.memory packet.found ≠ 0 := hpacket
  have hagain : (if packet.found = [] then parse packet.memory packet.size packet.properties
      else some packet.found) = some packet.found := by
    split
    · exact packet.parse_eq
    · rfl
  simp only [decode, decoderWriteToStream, hfresh, if_true, packet.parse_eq, Option.bind_some,
    if_neg hmac] at hagain ⊢
  rw [hagain]
  rfl

theorem run_known (hknown : c.userContext0 ≠ 0) (packets : List Received) :
    run (decode strtof strtod) c packets = some ⟨c.userContext0,
      c.written ++ packets.flatMap (Received.writes strtof strtod c.userContext0)⟩ := by
  induction packets generalizing c with
  | nil => rw [run_nil, List.flatMap_nil, List.append_nil]
  | cons packet packets ih =>
      rw [run_cons, decode_known hknown, Option.bind_some, List.flatMap_cons, ← List.append_assoc]
      exact ih (c := ⟨c.userContext0, c.written ++ packet.writes strtof strtod c.userContext0⟩)
        hknown

theorem run_unknown (hfresh : c.userContext0 = 0) (packets : List Received) :
    run (decode strtof strtod) c packets = some ⟨owner packets,
      c.written ++ (recorded packets).flatMap (Received.writes strtof strtod (owner packets))⟩ := by
  induction packets generalizing c with
  | nil =>
      rw [run_nil, recorded, List.dropWhile_nil, List.flatMap_nil, List.append_nil]
      exact congrArg (fun id => some (Connection.mk id c.written)) hfresh
  | cons packet packets ih =>
      by_cases hpacket : packet.identity = 0
      · have hdrop : recorded (packet :: packets) = recorded packets :=
          List.dropWhile_cons_of_pos (by rw [Received.isAnonymous, hpacket]; rfl)
        rw [run_cons, decode_anonymous hfresh hpacket, Option.bind_some, ih hfresh, owner, owner,
          hdrop]
      · have hkeep : recorded (packet :: packets) = packet :: packets :=
          List.dropWhile_cons_of_neg (by simpa [Received.isAnonymous] using hpacket)
        have howner : owner (packet :: packets) = packet.identity := by
          rw [owner, hkeep]
          rfl
        rw [run_cons, decode_identified hfresh hpacket, Option.bind_some, howner, hkeep,
          List.flatMap_cons, ← List.append_assoc]
        exact run_known (c := ⟨packet.identity,
          c.written ++ packet.writes strtof strtod packet.identity⟩) hpacket packets

theorem filterMap_raw_writes (userId : UInt64) (packet : Received) :
    (packet.writes strtof strtod userId).filterMap Write.raw =
      [bytesAt packet.memory 0 packet.size.toNat] := by
  rw [Received.writes, List.filterMap_cons]
  refine congrArg (List.cons _) (List.filterMap_eq_nil_iff.mpr fun w hw => ?_)
  obtain ⟨property, -, hw⟩ := List.mem_flatMap.mp hw
  exact (writeProperty_spec hw).1

theorem streamId_of_mem_writes {userId : UInt64} {w : Write α β}
    (hw : w ∈ packet.writes strtof strtod userId) :
    ∃ type < 65536, w.streamId = streamId userId type := by
  rcases List.mem_cons.mp hw with rfl | hw
  · exact ⟨_, by decide, rfl⟩
  · obtain ⟨property, -, hw⟩ := List.mem_flatMap.mp hw
    exact (writeProperty_spec hw).2

theorem owner_eq_zero_iff (packets : List Received) :
    owner packets = 0 ↔ recorded packets = [] := by
  by_cases hnone : recorded packets = []
  · exact iff_of_true (by rw [owner, hnone]; rfl) hnone
  · refine iff_of_false (fun hzero => ?_) hnone
    have hfirst : ((recorded packets).head hnone).isAnonymous = false :=
      List.head_dropWhile_not Received.isAnonymous hnone
    rw [owner, List.head?_eq_some_head hnone, Option.map_some, Option.getD_some] at hzero
    exact of_decide_eq_false hfirst hzero

theorem decode_sameBytes {packet' : Received} (h : packet.SameBytes packet') :
    c.decode strtof strtod packet' = c.decode strtof strtod packet := by
  have hparse := parse_stack_free packet.memory packet.size packet.properties packet'.properties
  simp only [decode, decoderWriteToStream, h.memory, h.size, h.now, hparse]

variable (strtof strtod) in
/-- What the stream has after the packets of a connection. -/
structure Records (packets : List Received) (c : Connection α β) : Prop where
  owner : c.userContext0 = owner packets
  /-- The packets are written as they came, from the first one with a user id on. -/
  raw : c.written.filterMap Write.raw =
    (recorded packets).map fun packet => bytesAt packet.memory 0 packet.size.toNat
  /-- Behind each packet its properties are written, in their order. -/
  written : c.written = (recorded packets).flatMap (Received.writes strtof strtod c.userContext0)
  /-- Nothing is written under another user id. -/
  own_streams : ∀ w ∈ c.written, ∃ type < 65536, w.streamId = streamId c.userContext0 type
  silent : c.userContext0 = 0 → c.written = []

/-- Every connection comes to an end of its packets, whatever they are, and has written them from
the first one with a user id on, to the streams of this user id and no others. The arrays on the
stack make no difference. -/
theorem connection_records (strtof : (ℕ → UInt8) → ℕ → α) (strtod : (ℕ → UInt8) → ℕ → β)
    (packets : List Received) :
    ∃ c, run (decode strtof strtod) fresh packets = some c ∧ Records strtof strtod packets c ∧
      ∀ packets', List.Forall₂ Received.SameBytes packets packets' →
        run (decode strtof strtod) fresh packets' = some c := by
  have hrun : run (decode strtof strtod) fresh packets = some ⟨owner packets,
      [] ++ (recorded packets).flatMap (Received.writes strtof strtod (owner packets))⟩ :=
    run_unknown rfl packets
  rw [List.nil_append] at hrun
  refine ⟨_, hrun, ⟨rfl, ?_, rfl, ?_, ?_⟩, ?_⟩
  · rw [List.filterMap_flatMap]
    simp only [filterMap_raw_writes]
    exact List.flatMap_pure_eq_map _ _
  · intro w hw
    obtain ⟨packet, -, hw⟩ := List.mem_flatMap.mp hw
    exact streamId_of_mem_writes hw
  · intro hzero
    have hnone := (owner_eq_zero_iff packets).mp hzero
    simp only [hnone, List.flatMap_nil]
  · intro packets' hsame
    rw [← hrun]
    clear hrun
    generalize (fresh : Connection α β) = c
    induction hsame generalizing c with
    | nil => rfl
    | cons hpacket hrest ih =>
        rw [run_cons, run_cons, decode_sameBytes hpacket]
        cases c.decode strtof strtod _ with
        | none => rfl
        | some d => exact ih d

/-- `{"online":1}`, which names no device, the plug's report of its address, and the first again. -/
def plugReports : List Received :=
  [⟨fun p => (bytesOf "\x7b\"online\":1\x7d").getD p 0, 12, 100, zeroArray⟩,
    ⟨fun p => (bytesOf "\x7b\"mac\":\"8CCE4E50AF57\"\x7d").getD p 0, 22, 101, zeroArray⟩,
    ⟨fun p => (bytesOf "\x7b\"online\":1\x7d").getD p 0, 12, 102, zeroArray⟩]

example : recorded plugReports = plugReports.drop 1 := by
  have hfirst : ∀ packet ∈ plugReports.head?, packet.isAnonymous = true := by decide +kernel
  have hsecond : ∀ packet ∈ plugReports[1]?, packet.isAnonymous = false := by decide +kernel
  rw [recorded, plugReports, List.dropWhile_cons_of_pos (hfirst _ rfl)]
  exact List.dropWhile_cons_of_neg (by rw [hsecond _ rfl]; exact Bool.false_ne_true)

end Connection

end GeekOpen

end ConArtist
