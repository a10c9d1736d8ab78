import ConArtist.Stream.Manager
import ConArtist.Stream.Space

/-!
# Writing to a file as it was opened

`stream_manager_add_rw_stream` registers every file that can be mapped, and takes
the first 64 bytes of the mapping for a header. `create_rw` makes a file without
writing a header to it, so a file may be all zeros, and its write cursor with it.

`Undamaged` is what a write on such a file promises: it leaves the header but for
the three bookkeeping updates, and stores inside the file. `WriteOk` says when it
keeps the promise. An item behind the header leaves the header
(`leavesHeader_of_le`), so with the header in place this is a question of room.
-/

namespace ConArtist

namespace Stream

open ByteMemory GrowingArray Machine

/-- The memory from the address of a mapping on. -/
def mapped (content : List UInt8) : Memory := fun i => content.getD i 0

/-- The streams that the writers find in `m_rw_streams`. -/
def ReadWriteTable.streamManager (m : ReadWriteTable) : StreamManager :=
  ⟨(m.rwStreams.take m.numRwStreams).filterMap fun entry =>
    entry.map fun mapping => mapped mapping.content⟩

/-- In an aligned table these are the contents of the files, in the order in which
the files were registered. -/
theorem ReadWriteAligned.streamManager_eq {m : ReadWriteTable} {files : List MappedFile}
    (h : ReadWriteAligned m files) :
    m.streamManager = ⟨files.map fun file => mapped file.mapping.content⟩ := by
  have htake := h.rwStreams.take_eq
  rw [List.length_map] at htake
  rw [ReadWriteTable.streamManager, h.count, htake]
  simp [List.filterMap_map, Function.comp_def]

/-- The header after an accepted write: the same up to `m_item_count`, one item more,
the later of the two times, and the cursor moved on. -/
structure HeaderKept (stream : Memory) (w : Write) (stream' : Memory) : Prop where
  front : ∀ i < 40, stream' i = stream i
  itemCount : itemCount stream' = itemCount stream + 1
  timeEnd : timeEnd stream' = max w.time (timeEnd stream)
  writeCursor : writeCursor stream' = writeCursor stream + w.value.advance

/-- The offsets a call stores to: those of its item and those of the bookkeeping. -/
def Stores (stream : Memory) (w : Write) (i : ℕ) : Prop :=
  w.accepts stream = true ∧
    ((writeCursor stream).toNat ≤ i ∧ i < (writeCursor stream).toNat + (5 + w.value.size) ∨
      Bookkeeping i)

/-- What a write on a file of `len` bytes promises. -/
structure Undamaged (len : ℕ) (stream : Memory) (w : Write) (accepted : Bool)
    (stream' : Memory) : Prop where
  header : accepted = true → HeaderKept stream w stream'
  untouched : accepted = false → stream' = stream
  inside : ∀ i, Stores stream w i → i < len

/-- The item of the call, laid at the cursor, leaves the header: what it lays over
the header is there already, or is an end time that the maximum hides. -/
structure LeavesHeader (stream : Memory) (w : Write) : Prop where
  front : ∀ i < 40, store stream (writeCursor stream).toNat (w.itemBytes (timeBegin stream)) i =
    stream i
  itemCount : itemCount (store stream (writeCursor stream).toNat
    (w.itemBytes (timeBegin stream))) = itemCount stream
  timeEnd : max w.time (timeEnd (store stream (writeCursor stream).toNat
    (w.itemBytes (timeBegin stream)))) = max w.time (timeEnd stream)
  writeCursor : writeCursor (store stream (writeCursor stream).toNat
    (w.itemBytes (timeBegin stream))) = writeCursor stream

theorem leavesHeader_of_le {stream : Memory}
    (hheader : sizeofStreamHeader ≤ (writeCursor stream).toNat) (w : Write) :
    LeavesHeader stream w := by
  rw [sizeofStreamHeader] at hheader
  have hload : ∀ off, off + 8 ≤ 64 → loadU64 (store stream (writeCursor stream).toNat
      (w.itemBytes (timeBegin stream))) off = loadU64 stream off :=
    fun off hoff => loadU64_store_disjoint _ _ (by omega)
  constructor
  · exact fun i hi => store_apply_of_lt _ _ _ (by omega)
  · exact hload 40 (by omega)
  · exact congrArg _ (hload 48 (by omega))
  · exact hload 56 (by omega)

/-- If the call is accepted, its item leaves the header and ends inside the file,
and the file has the header. -/
def WriteOk (len : ℕ) (stream : Memory) (w : Write) : Prop :=
  w.accepts stream = true →
    LeavesHeader stream w ∧ sizeofStreamHeader ≤ len ∧
      (writeCursor stream).toNat + (5 + w.value.size) ≤ len

theorem headerKept_booked_iff {stream : Memory} {w : Write} :
    HeaderKept stream w (booked (store stream (writeCursor stream).toNat
        (w.itemBytes (timeBegin stream))) w.time w.value.advance) ↔ LeavesHeader stream w := by
  constructor
  · intro h
    refine ⟨fun i hi => ?_, ?_, ?_, ?_⟩
    · have hbook : ¬ Bookkeeping i := fun hbook => Nat.not_lt.mpr hbook.1 hi
      rw [← h.front i hi, booked_apply hbook]
    · have hcount := h.itemCount
      rw [itemCount_booked] at hcount
      exact (UInt64.add_left_inj _).mp hcount
    · have hend := h.timeEnd
      rwa [timeEnd_booked] at hend
    · have hcursor := h.writeCursor
      rw [writeCursor_booked] at hcursor
      exact (UInt64.add_left_inj _).mp hcursor
  · intro h
    refine ⟨fun i hi => ?_, ?_, ?_, ?_⟩
    · have hbook : ¬ Bookkeeping i := fun hbook => Nat.not_lt.mpr hbook.1 hi
      rw [booked_apply hbook, h.front i hi]
    · rw [itemCount_booked, h.itemCount]
    · rw [timeEnd_booked, h.timeEnd]
    · rw [writeCursor_booked, h.writeCursor]

/-- One write keeps its promise exactly when it is all right. -/
theorem undamaged_iff {len : ℕ} {stream : Memory} {w : Write} :
    Undamaged len stream w (w.apply stream).1 (w.apply stream).2 ↔ WriteOk len stream w := by
  have hstores : w.accepts stream = true →
      ((∀ i, Stores stream w i → i < len) ↔ sizeofStreamHeader ≤ len ∧
        (writeCursor stream).toNat + (5 + w.value.size) ≤ len) := by
    intro haccepts
    rw [sizeofStreamHeader]
    constructor
    · intro h
      have hlast := h 63 ⟨haccepts, Or.inr ⟨by omega, by omega⟩⟩
      have hitem := h ((writeCursor stream).toNat + (4 + w.value.size))
        ⟨haccepts, Or.inl ⟨by omega, by omega⟩⟩
      omega
    · rintro ⟨hlen, hitem⟩ i ⟨-, hin | hbook⟩
      · omega
      · exact Nat.lt_of_lt_of_le hbook.2 hlen
  rw [Write.apply_eq_booked]
  cases haccepts : w.accepts stream with
  | false =>
      refine iff_of_true ⟨by simp, fun _ => rfl, ?_⟩ fun h => by simp [haccepts] at h
      rintro i ⟨h, -⟩
      simp [haccepts] at h
  | true =>
      rw [if_pos rfl, WriteOk, ← headerKept_booked_iff, ← hstores haccepts]
      constructor
      · exact fun h _ => ⟨h.header rfl, h.inside⟩
      · exact fun h => ⟨fun _ => (h haccepts).1, by simp, (h haccepts).2⟩

/-- The condition on a call on the manager. -/
def CallWriteOk (len streamId : ℕ) (m : StreamManager) (call : ℕ × Write) : Prop :=
  ∀ stream, m.rwStreams[streamId]? = some stream → call.1 = streamId → WriteOk len stream call.2

/-- For every maximum and every sequence of files found by a new manager, every
registered file with whatever content, and every sequence of calls of the writers:
the calls on the stream leave its header, but for the bookkeeping updates, and store
inside the file, exactly when every accepted one finds the cursor behind the header
(or lays over it what is there) and ends inside the file. -/
theorem opened_undamaged_iff (maxStreams : ℕ) (hpos : 0 < maxStreams) (adds : List AddCall)
    (hfew : adds.length < 2 ^ 31) (m : Tables)
    (hrun : run addStream (streamManagerCreate maxStreams) adds = some m) (streamId : ℕ)
    (file : MappedFile) (hfile : (adds.flatMap AddCall.rwFile)[streamId]? = some file)
    (calls : List (ℕ × Write)) :
    m.rw.streamManager.rwStreams[streamId]? = some (mapped file.mapping.content) ∧
      (Along writeStep (CallKeeps (Undamaged file.mapping.content.length) streamId)
          m.rw.streamManager calls ↔
        Along writeStep (CallWriteOk file.mapping.content.length streamId)
          m.rw.streamManager calls) := by
  have haligned := readWrite_run hpos hfew hrun
  have hreg : m.rw.streamManager.rwStreams[streamId]? = some (mapped file.mapping.content) := by
    rw [haligned.streamManager_eq, List.getElem?_map, hfile]
    rfl
  refine ⟨hreg, along_iff_along (I := fun n => ∃ stream, n.rwStreams[streamId]? = some stream)
    ?_ ?_ ⟨_, hreg⟩⟩
  · rintro n n' call - ⟨stream, hstream⟩ - hstep
    obtain ⟨target, -, rfl⟩ := writeStep_eq_some.mp hstep
    have hlen : streamId < n.rwStreams.length := (List.getElem?_eq_some_iff.mp hstream).1
    exact ⟨_, List.getElem?_eq_getElem (by rw [List.length_set]; exact hlen)⟩
  · rintro n n' call - ⟨stream, hstream⟩ -
    rw [callKeeps_iff hstream, undamaged_iff]
    constructor
    · intro h stream₁ hstream₁ hid
      obtain rfl : stream = stream₁ := Option.some.inj (hstream.symm.trans hstream₁)
      exact h hid
    · exact fun h hid => h stream hstream hid

/-- A file of a hundred bytes whose cursor stands behind its header. -/
def readyContent : List UInt8 := List.replicate 56 0 ++ 64 :: List.replicate 43 0

/-- A byte written to a file that is ready for it. -/
theorem opened_undamaged_ready :
    ∃ m, run addStream (streamManagerCreate 1) [.rw "a.rwstream" (.mapped ⟨4096, readyContent⟩)] =
        some m ∧
      Along writeStep (CallKeeps (Undamaged 100) 0) m.rw.streamManager [(0, ⟨5, .u8 9⟩)] := by
  refine ⟨_, rfl, ?_⟩
  obtain ⟨hreg, hiff⟩ := opened_undamaged_iff 1 (by decide)
    [.rw "a.rwstream" (.mapped ⟨4096, readyContent⟩)] (by decide) _ rfl 0 _ rfl [(0, ⟨5, .u8 9⟩)]
  refine hiff.mpr fun t _ => ⟨fun stream hstream _ => ?_, trivial⟩
  obtain rfl : mapped readyContent = stream := Option.some.inj (hreg.symm.trans hstream)
  have hcursor : writeCursor (mapped readyContent) = 64 := by decide +kernel
  intro _
  refine ⟨leavesHeader_of_le ?_ _, by decide, ?_⟩
  · rw [hcursor]
    decide
  · rw [hcursor]
    decide

/-- A file as it is created: all zeros. -/
def createdContent : List UInt8 := List.replicate 100 0

/-- The first byte written to a file that was created and not initialised goes, with
its time, over `m_user_id`. -/
theorem writeU8_created :
    ∃ m, run addStream (streamManagerCreate 1)
        [.rw "a.rwstream" (.mapped ⟨4096, createdContent⟩)] = some m ∧
      m.rw.streamManager.rwStreams[0]? = some (mapped createdContent) ∧
      ¬ Along writeStep (CallKeeps (Undamaged 100) 0) m.rw.streamManager [(0, ⟨1, .u8 9⟩)] := by
  refine ⟨_, rfl, rfl, fun h => ?_⟩
  obtain ⟨hkeeps, -⟩ := h _ rfl
  rw [callKeeps_iff rfl] at hkeeps
  have hkept := (hkeeps rfl).header rfl
  have hfront := hkept.front 0 (by decide)
  revert hfront
  decide +kernel

end Stream

end ConArtist
