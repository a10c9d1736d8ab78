import ConArtist.Stream.Append

/-!
# Do the writers stay inside the stream

`stream_write_data` asks whether its item fits and the four fixed-width writers
do not, so they run past the end of a full stream. `CallStaysInside` is what a
call promises, `SpaceOk` the condition under which it keeps the promise: the
item fits, or the call is one of `stream_write_data` whose 64-bit sum does not
wrap. The run theorem compares the two along every run of calls.
-/

namespace ConArtist

namespace Stream

open ByteMemory Machine

/-- The item of the call ends inside the stream. -/
def Fits (stream : Memory) (w : Write) : Prop :=
  (writeCursor stream).toNat + (5 + w.value.size) ≤ (streamSize stream).toNat

/-- `stream'` differs from `stream` in the bookkeeping and between the write
cursor and the end of the stream only. -/
def WritesInside (stream stream' : Memory) : Prop :=
  ∀ i, ¬ Bookkeeping i →
    i < (writeCursor stream).toNat ∨ (streamSize stream).toNat ≤ i → stream' i = stream i

/-- The promise of one call: it is accepted exactly when its item fits, an
accepted call writes inside the stream, and a refused one changes nothing. -/
structure StaysInside (stream : Memory) (w : Write) (accepted : Bool) (stream' : Memory) :
    Prop where
  accepted_iff : accepted = true ↔ Fits stream w
  inside : accepted = true → WritesInside stream stream'
  untouched : accepted = false → stream' = stream

/-- The call meets no defect: its item fits, or the space test is made and its
sum stays below `2 ^ 64`. -/
def SpaceOk (stream : Memory) (w : Write) : Prop :=
  Fits stream w ∨
    (∃ payload, w.value = .data payload) ∧
      (writeCursor stream).toNat + (5 + w.value.size) < 2 ^ 64

theorem toNat_writeCursor_appended {stream : Memory} {w : Write} (hsize : w.value.SizeOk)
    (hfit : Fits stream w) (bs : List UInt8) :
    (writeCursor (appended stream bs w.time w.value.advance)).toNat =
      (writeCursor stream).toNat + (5 + w.value.size) := by
  have hlt := (streamSize stream).toNat_lt
  rw [writeCursor_appended, UInt64.toNat_add, Value.toNat_advance hsize]
  rw [Fits] at hfit
  exact Nat.mod_eq_of_lt (by omega)

theorem accepts_of_fits {stream : Memory} {w : Write} (hsize : w.value.SizeOk)
    (hfit : Fits stream w) : w.accepts stream = true := by
  obtain ⟨time, value⟩ := w
  cases value with
  | data payload =>
      have hlt := (streamSize stream).toNat_lt
      simp only [Fits] at hfit
      simp only [Write.accepts, decide_eq_true_eq, UInt64.le_iff_toNat_le, UInt64.toNat_add,
        Value.toNat_advance hsize]
      rw [Nat.mod_eq_of_lt (by omega)]
      exact hfit
  | u8 | u16 | u32 | f32 => rfl

/-- An item that does not fit is refused exactly by a space test without wrap:
after a wrap the sum is below the cursor, so the test succeeds. -/
theorem not_accepts_iff {stream : Memory} {w : Write} (hok : HeaderOk stream)
    (hsize : w.value.SizeOk) (hfit : ¬ Fits stream w) :
    w.accepts stream = false ↔ SpaceOk stream w := by
  obtain ⟨time, value⟩ := w
  have hcursor := hok.cursor_le
  cases value with
  | data payload =>
      have hlen := payload.length_lt
      have hlt := (streamSize stream).toNat_lt
      simp only [SpaceOk, hfit, false_or]
      simp only [Fits] at hfit
      simp only [Write.accepts, decide_eq_false_iff_not, UInt64.le_iff_toNat_le, UInt64.toNat_add,
        Value.toNat_advance hsize, Value.data.injEq, exists_eq', true_and]
      simp only [Value.size] at hfit ⊢
      constructor
      · intro hrefused
        by_contra hwrap
        have hmod : ((writeCursor stream).toNat + (5 + payload.bytes.length)) % 2 ^ 64 =
            (writeCursor stream).toNat + (5 + payload.bytes.length) - 2 ^ 64 := by
          rw [Nat.mod_eq_sub_mod (by omega), Nat.mod_eq_of_lt (by omega)]
        omega
      · intro hwrap
        rw [Nat.mod_eq_of_lt hwrap]
        exact hfit
  | u8 | u16 | u32 | f32 => simp [Write.accepts, SpaceOk, hfit]

/-- One call keeps its promise exactly when it meets no defect. -/
theorem staysInside_iff {stream : Memory} {w : Write} (hok : HeaderOk stream)
    (hsize : w.value.SizeOk) :
    StaysInside stream w (w.apply stream).1 (w.apply stream).2 ↔ SpaceOk stream w := by
  rw [Write.apply_eq hok.header_le]
  by_cases hfit : Fits stream w
  · simp only [accepts_of_fits hsize hfit, if_true]
    refine iff_of_true ⟨by simp [hfit], fun _ => ?_, by simp⟩ (Or.inl hfit)
    intro i hbook hout
    refine appended_apply hbook ?_
    rw [Fits] at hfit
    rw [Write.length_itemBytes]
    omega
  · rw [← not_accepts_iff hok hsize hfit]
    cases hacc : w.accepts stream with
    | false => exact iff_of_true ⟨by simp [hfit], by simp, fun _ => rfl⟩ rfl
    | true => exact iff_of_false (fun h => hfit (h.accepted_iff.mp rfl)) (by simp)

theorem headerOk_apply {stream : Memory} {w : Write} (hok : HeaderOk stream)
    (hsize : w.value.SizeOk) (hspace : SpaceOk stream w) : HeaderOk (w.apply stream).2 := by
  rw [Write.apply_eq hok.header_le]
  by_cases hfit : Fits stream w
  · simp only [accepts_of_fits hsize hfit, if_true]
    have hcursor := toNat_writeCursor_appended hsize hfit (w.itemBytes (timeBegin stream))
    have hheader := hok.header_le
    rw [Fits] at hfit
    constructor
    · rw [hcursor]
      omega
    · rw [hcursor, streamSize_appended hok.header_le]
      exact hfit
  · simpa [(not_accepts_iff hok hsize hfit).mpr hspace] using hok

theorem streamWrite_eq_some {m m' : StreamManager} {streamId : ℕ} {w : Write} {b : Bool} :
    streamWrite m streamId w = some (b, m') ↔
      ∃ stream, m.rwStreams[streamId]? = some stream ∧ b = (w.apply stream).1 ∧
        m' = ⟨m.rwStreams.set streamId (w.apply stream).2⟩ := by
  rw [streamWrite_eq, StreamManager.onStream, Option.map_eq_some_iff]
  simp only [Prod.mk.injEq]
  exact exists_congr fun stream => and_congr_right fun _ =>
    and_congr (eq_comm) (eq_comm)

theorem writeStep_eq_some {m m' : StreamManager} {call : ℕ × Write} :
    writeStep m call = some m' ↔
      ∃ stream, m.rwStreams[call.1]? = some stream ∧
        m' = ⟨m.rwStreams.set call.1 (call.2.apply stream).2⟩ := by
  rw [writeStep, Option.map_eq_some_iff]
  constructor
  · rintro ⟨⟨b, n⟩, hwrite, rfl⟩
    obtain ⟨stream, hreg, -, hm⟩ := streamWrite_eq_some.mp hwrite
    exact ⟨stream, hreg, hm⟩
  · rintro ⟨stream, hreg, hm⟩
    exact ⟨((call.2.apply stream).1, m'), streamWrite_eq_some.mpr ⟨stream, hreg, rfl, hm⟩, rfl⟩

/-- What a promise `P` of single writes says of a call on the manager, as far as the
stream `streamId` is concerned: a call on it keeps the promise, a call on another
one leaves it. -/
def CallKeeps (P : Memory → Write → Bool → Memory → Prop) (streamId : ℕ) (m : StreamManager)
    (call : ℕ × Write) : Prop :=
  ∀ stream b m', m.rwStreams[streamId]? = some stream →
    streamWrite m call.1 call.2 = some (b, m') →
      ∃ stream', m'.rwStreams[streamId]? = some stream' ∧
        if call.1 = streamId then P stream call.2 b stream' else stream' = stream

/-- A call on the manager keeps a promise exactly when the write on the stream does. -/
theorem callKeeps_iff {P : Memory → Write → Bool → Memory → Prop} {streamId : ℕ}
    {m : StreamManager} {call : ℕ × Write} {stream : Memory}
    (hreg : m.rwStreams[streamId]? = some stream) :
    CallKeeps P streamId m call ↔ (call.1 = streamId →
      P stream call.2 (call.2.apply stream).1 (call.2.apply stream).2) := by
  have hlen : streamId < m.rwStreams.length := (List.getElem?_eq_some_iff.mp hreg).1
  obtain ⟨id, w⟩ := call
  by_cases hid : id = streamId
  · subst hid
    constructor
    · intro h _
      obtain ⟨stream', hreg', hkeeps⟩ := h stream _ _ hreg
        (streamWrite_eq_some.mpr ⟨stream, hreg, rfl, rfl⟩)
      obtain rfl : (w.apply stream).2 = stream' := by simpa [hlen] using hreg'
      rwa [if_pos rfl] at hkeeps
    · intro h stream₁ b m₁ hreg₁ hwrite
      obtain rfl : stream = stream₁ := Option.some.inj (hreg.symm.trans hreg₁)
      obtain ⟨stream₂, hreg₂, rfl, rfl⟩ := streamWrite_eq_some.mp hwrite
      obtain rfl : stream = stream₂ := Option.some.inj (hreg.symm.trans hreg₂)
      refine ⟨(w.apply stream).2, by simp [hlen], ?_⟩
      rw [if_pos rfl]
      exact h rfl
  · refine iff_of_true ?_ fun h => absurd h hid
    intro stream₁ b m₁ hreg₁ hwrite
    obtain ⟨stream₂, -, -, rfl⟩ := streamWrite_eq_some.mp hwrite
    exact ⟨stream₁, by simpa [hid] using hreg₁, by simp [hid]⟩

/-- The promise of a call on the manager, as far as the stream `streamId` is
concerned: a call on it stays inside it, a call on another one leaves it. -/
def CallStaysInside (streamId : ℕ) (m : StreamManager) (call : ℕ × Write) : Prop :=
  ∀ stream b m', m.rwStreams[streamId]? = some stream →
    streamWrite m call.1 call.2 = some (b, m') →
      ∃ stream', m'.rwStreams[streamId]? = some stream' ∧
        if call.1 = streamId then StaysInside stream call.2 b stream' else stream' = stream

/-- The condition on a call on the manager. -/
def CallSpaceOk (streamId : ℕ) (m : StreamManager) (call : ℕ × Write) : Prop :=
  ∀ stream, m.rwStreams[streamId]? = some stream → call.1 = streamId → SpaceOk stream call.2

/-- The stream `streamId` is registered and its header is in place. -/
def StreamOk (streamId : ℕ) (m : StreamManager) : Prop :=
  ∃ stream, m.rwStreams[streamId]? = some stream ∧ HeaderOk stream

theorem callStaysInside_iff {streamId : ℕ} {m : StreamManager} {call : ℕ × Write}
    (hsize : call.2.value.SizeOk) (hok : StreamOk streamId m) :
    CallStaysInside streamId m call ↔ CallSpaceOk streamId m call := by
  obtain ⟨stream, hreg, hok⟩ := hok
  have hkeeps : CallStaysInside streamId m call ↔ CallKeeps StaysInside streamId m call := Iff.rfl
  rw [hkeeps, callKeeps_iff hreg, staysInside_iff hok hsize]
  constructor
  · intro h stream₁ hreg₁ hid
    obtain rfl : stream = stream₁ := Option.some.inj (hreg.symm.trans hreg₁)
    exact h hid
  · exact fun h hid => h stream hreg hid

theorem streamOk_step {streamId : ℕ} {m m' : StreamManager} {call : ℕ × Write}
    (hsize : call.2.value.SizeOk) (hok : StreamOk streamId m)
    (hspace : CallSpaceOk streamId m call) (hstep : writeStep m call = some m') :
    StreamOk streamId m' := by
  obtain ⟨stream, hreg, hok⟩ := hok
  have hlen : streamId < m.rwStreams.length := (List.getElem?_eq_some_iff.mp hreg).1
  obtain ⟨target, htarget, rfl⟩ := writeStep_eq_some.mp hstep
  by_cases hid : call.1 = streamId
  · obtain rfl : stream = target := Option.some.inj (hreg.symm.trans (hid ▸ htarget))
    exact ⟨_, by simp [hid, hlen], headerOk_apply hok hsize (hspace stream hreg hid)⟩
  · exact ⟨stream, by simpa [hid] using hreg, hok⟩

/-- For every registered read-write stream with its header in place and every
run of writer calls: every call on the stream stays inside it, and the header
is in place in every state reached, exactly when no call of the run is a
fixed-width write whose item does not fit (nor a `stream_write_data` whose
64-bit sum wraps). -/
theorem writers_stayInside_iff (m : StreamManager) (streamId : ℕ) (calls : List (ℕ × Write))
    (hok : StreamOk streamId m) (hsize : ∀ call ∈ calls, call.2.value.SizeOk) :
    (Along writeStep (CallStaysInside streamId) m calls ∧
        Throughout writeStep (StreamOk streamId) m calls) ↔
      Along writeStep (CallSpaceOk streamId) m calls := by
  have hkeep : ∀ s t, ∀ call ∈ calls, StreamOk streamId s → CallSpaceOk streamId s call →
      writeStep s call = some t → StreamOk streamId t :=
    fun s t call hmem hs hC hstep => streamOk_step (hsize call hmem) hs hC hstep
  have hcalls : Along writeStep (CallStaysInside streamId) m calls ↔
      Along writeStep (CallSpaceOk streamId) m calls :=
    along_iff_along hkeep
      (fun s t call hmem hs _ => callStaysInside_iff (hsize call hmem) hs) hok
  rw [hcalls]
  exact ⟨And.left, fun h => ⟨h, throughout_of_along (fun _ hs => hs) hkeep hok h⟩⟩

/-- A stream with room for one more `u8` item takes it. -/
theorem writers_stayInside_newStream :
    Along writeStep (CallStaysInside 0) ⟨[newStream 70 0]⟩ [(0, ⟨5, .u8 9⟩)] ∧
      Throughout writeStep (StreamOk 0) ⟨[newStream 70 0]⟩ [(0, ⟨5, .u8 9⟩)] := by
  have hok : StreamOk 0 ⟨[newStream 70 0]⟩ :=
    ⟨newStream 70 0, rfl, headerOk_newStream 70 0 (by decide)⟩
  refine (writers_stayInside_iff _ 0 _ hok (by simp [Value.SizeOk, Value.size])).mpr ?_
  refine fun t _ => ⟨fun stream hreg _ => Or.inl ?_, trivial⟩
  obtain rfl : newStream 70 0 = stream := by simpa using hreg
  rw [Fits, writeCursor_newStream, streamSize_newStream]
  decide

/-- A full stream: its cursor stands at its end. -/
def fullManager : StreamManager := ⟨[newStream 64 0]⟩

/-- On a full stream `stream_write_u8` answers true and moves the cursor past
the end. -/
theorem streamWriteU8_fullManager :
    ∃ m', streamWriteU8 fullManager 0 0 1 = some (true, m') ∧ StreamOk 0 fullManager ∧
      ¬ CallStaysInside 0 fullManager (0, ⟨0, .u8 1⟩) ∧ ¬ StreamOk 0 m' := by
  have hok := headerOk_newStream 64 0 (by decide)
  have hfit : ¬ Fits (newStream 64 0) ⟨0, .u8 1⟩ := by
    rw [Fits, writeCursor_newStream, streamSize_newStream]
    decide
  refine ⟨_, rfl, ⟨newStream 64 0, rfl, hok⟩, ?_, ?_⟩
  · intro h
    obtain ⟨stream', -, hstays⟩ := h (newStream 64 0) true _ rfl rfl
    rw [if_pos rfl] at hstays
    exact hfit (hstays.accepted_iff.mp rfl)
  · rintro ⟨stream', hreg, hok'⟩
    obtain rfl : (Write.apply ⟨0, .u8 1⟩ (newStream 64 0)).2 = stream' := by
      simpa [fullManager, Write.apply] using hreg
    have hcursor := hok'.cursor_le
    have hacc : Write.accepts ⟨0, .u8 1⟩ (newStream 64 0) = true := rfl
    rw [Write.apply_eq hok.header_le, if_pos hacc, writeCursor_appended,
      streamSize_appended hok.header_le, writeCursor_newStream, streamSize_newStream] at hcursor
    exact absurd hcursor (by decide)

end Stream

end ConArtist
