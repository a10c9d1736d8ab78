import ConArtist.Stream.Space

/-!
# The arithmetic of the space test

`stream_write_data` adds the five bytes of the relative time to the size in 32
bits and the sum to the cursor in 64 bits. `advance_eq` and `accepts_iff` say
what the two sums are, and `toNat_writeCursor_writeData` where the cursor ends:
the writer adds to what it finds in `m_write_cursor` after it has laid down the
item, which is the old cursor unless the item lies over that field.

`SpaceTestExact` is what the test promises, `SpaceTestOk` when it keeps it.
-/

namespace ConArtist

namespace Stream

open ByteMemory

/-- The `u32` sum of the size and the five bytes of the relative time. -/
theorem Payload.toNat_advance (data : Payload) :
    (Value.data data).advance.toNat = (5 + data.bytes.length) % 2 ^ 32 := by
  simp [Value.advance, Payload.size]

/-- What the space test promises of a call: the answer is true exactly when the
cursor, moved by the item without wrap-around, stays inside the stream, and then
the cursor is there. -/
structure SpaceTestExact (stream : Memory) (data : Payload) (answer : Bool) (stream' : Memory) :
    Prop where
  answer_iff : answer = true ↔
    (writeCursor stream).toNat + 5 + data.bytes.length ≤ (streamSize stream).toNat
  moved : answer = true → (writeCursor stream').toNat =
    (writeCursor stream).toNat + 5 + data.bytes.length

/-- The number in `m_write_cursor` once the item of the call lies at the cursor. -/
def cursorUnder (stream : Memory) (w : Write) : ℕ :=
  (writeCursor (store stream (writeCursor stream).toNat
    (w.itemBytes (timeBegin stream)))).toNat

theorem cursorUnder_eq {stream : Memory}
    (hheader : sizeofStreamHeader ≤ (writeCursor stream).toNat) (w : Write) :
    cursorUnder stream w = (writeCursor stream).toNat := by
  rw [sizeofStreamHeader] at hheader
  rw [cursorUnder]
  exact congrArg UInt64.toNat (loadU64_store_disjoint _ _ (by omega))

/-- The call meets no defect. An item that fits lies over no byte of the cursor
it changes, and its 32-bit sum loses nothing; the 32-bit sum of an item that
does not fit still ends behind the stream, and below `2 ^ 64`. -/
def SpaceTestOk (stream : Memory) (time : UInt64) (data : Payload) : Prop :=
  if (writeCursor stream).toNat + 5 + data.bytes.length ≤ (streamSize stream).toNat then
    cursorUnder stream ⟨time, .data data⟩ =
      (writeCursor stream).toNat + 2 ^ 32 * ((5 + data.bytes.length) / 2 ^ 32)
  else
    (streamSize stream).toNat < (writeCursor stream).toNat + (5 + data.bytes.length) % 2 ^ 32 ∧
      (writeCursor stream).toNat + (5 + data.bytes.length) % 2 ^ 32 < 2 ^ 64

/-- With the header in place an item that fits meets no defect exactly when its
32-bit sum does not wrap. -/
theorem spaceTestOk_iff_of_fits {stream : Memory}
    (hheader : sizeofStreamHeader ≤ (writeCursor stream).toNat) (time : UInt64) {data : Payload}
    (hfit : (writeCursor stream).toNat + 5 + data.bytes.length ≤ (streamSize stream).toNat) :
    SpaceTestOk stream time data ↔ 5 + data.bytes.length < 2 ^ 32 := by
  rw [SpaceTestOk, if_pos hfit, cursorUnder_eq hheader]
  omega

/-- The 64-bit sum of the space test. A sum that wraps ends below the cursor, so
inside the stream. -/
theorem accepts_data_iff {stream : Memory}
    (hcursor : (writeCursor stream).toNat ≤ (streamSize stream).toNat) (time : UInt64)
    (data : Payload) :
    Write.accepts ⟨time, .data data⟩ stream = true ↔
      ((writeCursor stream).toNat + (5 + data.bytes.length) % 2 ^ 32 < 2 ^ 64 →
        (writeCursor stream).toNat + (5 + data.bytes.length) % 2 ^ 32 ≤
          (streamSize stream).toNat) := by
  have hsum : (5 + data.bytes.length) % 2 ^ 32 < 2 ^ 32 := Nat.mod_lt _ (by decide)
  have hlt := (writeCursor stream).toNat_lt
  simp only [Write.accepts, decide_eq_true_eq, UInt64.le_iff_toNat_le, UInt64.toNat_add,
    Payload.toNat_advance]
  by_cases hwrap : (writeCursor stream).toNat + (5 + data.bytes.length) % 2 ^ 32 < 2 ^ 64
  · rw [Nat.mod_eq_of_lt hwrap]
    exact ⟨fun h _ => h, fun h => h hwrap⟩
  · have hmod : ((writeCursor stream).toNat + (5 + data.bytes.length) % 2 ^ 32) % 2 ^ 64 =
        (writeCursor stream).toNat + (5 + data.bytes.length) % 2 ^ 32 - 2 ^ 64 := by
      rw [Nat.mod_eq_sub_mod (Nat.not_lt.mp hwrap), Nat.mod_eq_of_lt (by omega)]
    rw [hmod]
    exact iff_of_true (by omega) fun h => absurd h hwrap

theorem toNat_writeCursor_writeData {stream : Memory} {time : UInt64} {data : Payload}
    (haccepts : Write.accepts ⟨time, .data data⟩ stream = true) :
    (writeCursor (writeData stream time data).2).toNat =
      (cursorUnder stream ⟨time, .data data⟩ + (5 + data.bytes.length) % 2 ^ 32) % 2 ^ 64 := by
  have happly := Write.apply_eq_booked stream ⟨time, .data data⟩
  rw [haccepts, if_pos rfl] at happly
  have hwrite : (writeData stream time data).2 =
      booked (store stream (writeCursor stream).toNat
        (Write.itemBytes ⟨time, .data data⟩ (timeBegin stream))) time
        (Value.data data).advance := congrArg Prod.snd happly
  rw [hwrite, writeCursor_booked, UInt64.toNat_add, Payload.toNat_advance, cursorUnder]

/-- The space test is exact for a call exactly when the call meets no defect. -/
theorem spaceTestExact_iff {stream : Memory}
    (hcursor : (writeCursor stream).toNat ≤ (streamSize stream).toNat) (time : UInt64)
    (data : Payload) :
    SpaceTestExact stream data (writeData stream time data).1 (writeData stream time data).2 ↔
      SpaceTestOk stream time data := by
  have hanswer : (writeData stream time data).1 = Write.accepts ⟨time, .data data⟩ stream :=
    Write.apply_fst stream ⟨time, .data data⟩
  have hiff := accepts_data_iff hcursor time data
  have hsize := (streamSize stream).toNat_lt
  have hunder : cursorUnder stream ⟨time, .data data⟩ < 2 ^ 64 := UInt64.toNat_lt _
  have hdiv := Nat.mod_add_div (5 + data.bytes.length) (2 ^ 32)
  have hrem : (5 + data.bytes.length) % 2 ^ 32 < 2 ^ 32 := Nat.mod_lt _ (by decide)
  rw [SpaceTestOk]
  split
  next hfit =>
    have haccepts : Write.accepts ⟨time, .data data⟩ stream = true :=
      hiff.mpr fun _ => by omega
    have hmoved := toNat_writeCursor_writeData haccepts
    constructor
    · intro h
      have hend := h.moved (hanswer.trans haccepts)
      rw [hmoved] at hend
      omega
    · intro h
      refine ⟨iff_of_true (hanswer.trans haccepts) hfit, fun _ => ?_⟩
      rw [hmoved, h]
      omega
  next hfit =>
    constructor
    · intro h
      have hrefused : ¬ Write.accepts ⟨time, .data data⟩ stream = true := fun haccepts =>
        hfit (h.answer_iff.mp (hanswer.trans haccepts))
      rw [hiff] at hrefused
      omega
    · intro h
      have hrefused : ¬ (writeData stream time data).1 = true := by
        rw [hanswer, hiff]
        omega
      exact ⟨iff_of_false hrefused hfit, fun haccepts => absurd haccepts hrefused⟩

/-- A call on a registered stream returns what the writer answers, with the stream
the writer leaves. -/
theorem streamWriteData_eq_some {m : StreamManager} {streamId : ℕ} {stream : Memory}
    (hreg : m.rwStreams[streamId]? = some stream) (time : UInt64) (data : Payload) :
    ∃ m', streamWriteData m streamId time data = some ((writeData stream time data).1, m') ∧
      m'.rwStreams[streamId]? = some (writeData stream time data).2 := by
  have hlen : streamId < m.rwStreams.length := (List.getElem?_eq_some_iff.mp hreg).1
  refine ⟨⟨m.rwStreams.set streamId (writeData stream time data).2⟩, ?_, by simp [hlen]⟩
  rw [streamWriteData, StreamManager.onStream, hreg]
  rfl

/-- For every registered read-write stream with its cursor inside it, every time
and every buffer: the call of `stream_write_data` returns, and its space test is
exact exactly when the call meets no defect. -/
theorem streamWriteData_exact_iff (m : StreamManager) (streamId : ℕ) (stream : Memory)
    (time : UInt64) (data : Payload) (hreg : m.rwStreams[streamId]? = some stream)
    (hcursor : (writeCursor stream).toNat ≤ (streamSize stream).toNat) :
    ∃ answer m' stream', streamWriteData m streamId time data = some (answer, m') ∧
      m'.rwStreams[streamId]? = some stream' ∧
      (SpaceTestExact stream data answer stream' ↔ SpaceTestOk stream time data) := by
  obtain ⟨m', hcall, hreg'⟩ := streamWriteData_eq_some hreg time data
  exact ⟨_, m', _, hcall, hreg', spaceTestExact_iff hcursor time data⟩

/-- One byte on a stream with room for it. -/
theorem streamWriteData_exact_newStream :
    ∃ answer m' stream',
      streamWriteData ⟨[newStream 80 0]⟩ 0 3 ⟨[7], by decide⟩ = some (answer, m') ∧
      m'.rwStreams[0]? = some stream' ∧
      SpaceTestExact (newStream 80 0) ⟨[7], by decide⟩ answer stream' := by
  have hheader := (headerOk_newStream 80 0 (by decide)).header_le
  have hfit : (writeCursor (newStream 80 0)).toNat + 5 + [(7 : UInt8)].length ≤
      (streamSize (newStream 80 0)).toNat := by
    rw [writeCursor_newStream, streamSize_newStream]
    decide
  obtain ⟨answer, m', stream', hcall, hreg, hiff⟩ :=
    streamWriteData_exact_iff ⟨[newStream 80 0]⟩ 0 (newStream 80 0) 3 ⟨[7], by decide⟩ rfl
      (by omega)
  have hok : SpaceTestOk (newStream 80 0) 3 ⟨[7], by decide⟩ ↔ 5 + 1 < 2 ^ 32 :=
    spaceTestOk_iff_of_fits hheader 3 hfit
  exact ⟨answer, m', stream', hcall, hreg, hiff.mpr (hok.mpr (by decide))⟩

/-- A full stream takes every buffer whose size and five bytes more make `2 ^ 32`:
the 32-bit sum is zero. -/
theorem accepted_fullManager {data : Payload} (hlen : data.bytes.length = 2 ^ 32 - 5) :
    ∃ m' stream', streamWriteData fullManager 0 0 data = some (true, m') ∧
      m'.rwStreams[0]? = some stream' ∧ ¬ SpaceTestExact (newStream 64 0) data true stream' := by
  have hcursor := (headerOk_newStream 64 0 (by decide)).cursor_le
  have haccepts : Write.accepts ⟨0, .data data⟩ (newStream 64 0) = true := by
    rw [accepts_data_iff hcursor, hlen]
    exact fun _ => hcursor
  have hanswer : (writeData (newStream 64 0) 0 data).1 = true :=
    (Write.apply_fst (newStream 64 0) ⟨0, .data data⟩).trans haccepts
  have hfull : fullManager.rwStreams[0]? = some (newStream 64 0) := rfl
  obtain ⟨m', hcall, hreg⟩ := streamWriteData_eq_some hfull 0 data
  refine ⟨m', _, by rw [hcall, hanswer], hreg, fun h => ?_⟩
  have hfit := h.answer_iff.mp rfl
  rw [writeCursor_newStream, streamSize_newStream, hlen] at hfit
  exact absurd hfit (by decide)

/-- A buffer of `n` zeros. -/
def zeros (n : ℕ) (h : n < 2 ^ 32) : Payload := ⟨List.replicate n 0, by simpa using h⟩

/-- A full stream, its cursor inside it, takes four gigabytes but for five bytes. -/
theorem streamWriteData_fullManager :
    (writeCursor (newStream 64 0)).toNat ≤ (streamSize (newStream 64 0)).toNat ∧
      fullManager.rwStreams[0]? = some (newStream 64 0) ∧
      ∃ m' stream',
        streamWriteData fullManager 0 0 (zeros (2 ^ 32 - 5) (by decide)) = some (true, m') ∧
        m'.rwStreams[0]? = some stream' ∧
        ¬ SpaceTestExact (newStream 64 0) (zeros (2 ^ 32 - 5) (by decide)) true stream' :=
  ⟨(headerOk_newStream 64 0 (by decide)).cursor_le, rfl,
    accepted_fullManager List.length_replicate⟩

end Stream

end ConArtist
