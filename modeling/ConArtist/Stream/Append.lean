import ConArtist.Stream.Writers

/-!
# What one write leaves behind

An accepted write lays the bytes of its item at the write cursor and moves the
three bookkeeping fields on, from what it reads in them afterwards: that is
`booked`, for any stream (`Write.apply_eq_booked`). `appended stream bs time advance`
is the same with the fields as they were before. When the header is in place
the two agree (`Write.apply_eq`), so what is said of the writers is read off
`booked` and `appended` and never off the writers again.
-/

namespace ConArtist

namespace Stream

open ByteMemory

theorem writeLe_eq (mem : Memory) (dest value byteCount : ℕ) :
    writeLe mem dest value byteCount = store mem dest (leBytes byteCount value) := by
  induction byteCount generalizing mem dest value with
  | zero => simp [writeLe, leBytes]
  | succ byteCount ih =>
      have hlow : UInt8.ofNat (value &&& 0xFF) = UInt8.ofNat value := by
        rw [show 0xFF = 2 ^ 8 - 1 by norm_num, Nat.and_two_pow_sub_one_eq_mod,
          UInt8.ofNat_eq_iff_mod_eq_toNat, UInt8.toNat_ofNat', Nat.mod_mod]
      have hshift : value >>> 8 = value / 256 := Nat.shiftRight_eq_div_pow value 8
      rw [writeLe, ih, hlow, hshift]
      exact store_append mem dest [UInt8.ofNat value] (leBytes byteCount (value / 256))

/-- The bytes of a value, as the writers store them. -/
def Value.bytes : Value → List UInt8
  | .data payload => payload.bytes
  | .u8 value => [value]
  | .u16 value => leBytes 2 value.toNat
  | .u32 value => leBytes 4 value.toNat
  | .f32 bits => leBytes 4 bits.toNat

@[simp] theorem Value.length_bytes (v : Value) : v.bytes.length = v.size := by
  cases v <;> simp [Value.bytes, Value.size]

/-- The pointer arithmetic of a writer: what it adds to the cursor. -/
def Value.advance : Value → UInt64
  | .data payload => ((5 : UInt32) + payload.size).toUInt64
  | .u8 _ => 5 + 1
  | .u16 _ => 5 + 2
  | .u32 _ => 5 + 4
  | .f32 _ => 5 + 4

/-- The `u32` sum of `stream_write_data` does not wrap. -/
def Value.SizeOk (v : Value) : Prop := v.size < 2 ^ 32 - 5

theorem Value.toNat_advance {v : Value} (h : v.SizeOk) : v.advance.toNat = 5 + v.size := by
  cases v with
  | data payload =>
      have hlt := payload.length_lt
      simp only [Value.SizeOk, Value.size] at h
      simp only [Value.advance, Value.size, Payload.size, UInt32.toNat_toUInt64, UInt32.toNat_add,
        UInt32.toNat_ofNat']
      rw [Nat.mod_eq_of_lt hlt]
      exact Nat.mod_eq_of_lt (by simp; omega)
  | u8 | u16 | u32 | f32 => rfl

/-- The bytes of one item: five bytes of relative time, then the value. -/
def Write.itemBytes (w : Write) (begin : UInt64) : List UInt8 :=
  leBytes cRelativeTimeByteCount (w.time - begin).toNat ++ w.value.bytes

@[simp] theorem Write.length_itemBytes (w : Write) (begin : UInt64) :
    (w.itemBytes begin).length = 5 + w.value.size := by
  simp [Write.itemBytes, cRelativeTimeByteCount]

/-- The stream `stored` with its bookkeeping moved on by one item. -/
def booked (stored : Memory) (time advance : UInt64) : Memory :=
  let moved := storeU64 stored 56 (writeCursor stored + advance)
  let counted := storeU64 moved 40 (itemCount stored + 1)
  storeU64 counted 48 (max time (timeEnd stored))

section Booked

variable {stored : Memory} {time advance : UInt64}

@[simp] theorem writeCursor_booked :
    writeCursor (booked stored time advance) = writeCursor stored + advance := by
  rw [writeCursor, booked, loadU64_storeU64_disjoint _ _ (by omega),
    loadU64_storeU64_disjoint _ _ (by omega), loadU64_storeU64_same]

@[simp] theorem itemCount_booked :
    itemCount (booked stored time advance) = itemCount stored + 1 := by
  rw [itemCount, booked, loadU64_storeU64_disjoint _ _ (by omega), loadU64_storeU64_same]

@[simp] theorem timeEnd_booked :
    timeEnd (booked stored time advance) = max time (timeEnd stored) := by
  rw [timeEnd, booked, loadU64_storeU64_same]

theorem booked_apply {i : ℕ} (hbook : ¬ Bookkeeping i) :
    booked stored time advance i = stored i := by
  have hout : i < 40 ∨ 64 ≤ i := by
    simp only [Bookkeeping] at hbook
    omega
  rw [booked, storeU64_apply_of_notMem _ _ (by omega), storeU64_apply_of_notMem _ _ (by omega),
    storeU64_apply_of_notMem _ _ (by omega)]

end Booked

/-- The stream with `bs` at its cursor and its bookkeeping moved on. -/
def appended (stream : Memory) (bs : List UInt8) (time advance : UInt64) : Memory :=
  let stored := store stream (writeCursor stream).toNat bs
  let stored := storeU64 stored 56 (writeCursor stream + advance)
  let stored := storeU64 stored 40 (itemCount stream + 1)
  storeU64 stored 48 (max time (timeEnd stream))

section Appended

variable {stream : Memory} {bs : List UInt8} {time advance : UInt64}

@[simp] theorem writeCursor_appended :
    writeCursor (appended stream bs time advance) = writeCursor stream + advance := by
  rw [writeCursor, appended, loadU64_storeU64_disjoint _ _ (by omega),
    loadU64_storeU64_disjoint _ _ (by omega), loadU64_storeU64_same]

@[simp] theorem itemCount_appended :
    itemCount (appended stream bs time advance) = itemCount stream + 1 := by
  rw [itemCount, appended, loadU64_storeU64_disjoint _ _ (by omega), loadU64_storeU64_same]

@[simp] theorem timeEnd_appended :
    timeEnd (appended stream bs time advance) = max time (timeEnd stream) := by
  rw [timeEnd, appended, loadU64_storeU64_same]

theorem appended_apply {i : ℕ} (hbook : ¬ Bookkeeping i)
    (hitem : i < (writeCursor stream).toNat ∨ (writeCursor stream).toNat + bs.length ≤ i) :
    appended stream bs time advance i = stream i := by
  have hout : i < 40 ∨ 64 ≤ i := by
    simp only [Bookkeeping] at hbook
    omega
  rw [appended, storeU64_apply_of_notMem _ _ (by omega), storeU64_apply_of_notMem _ _ (by omega),
    storeU64_apply_of_notMem _ _ (by omega), store_apply_of_notMem _ _ _ hitem]

theorem loadU64_appended (hheader : sizeofStreamHeader ≤ (writeCursor stream).toNat) {off : ℕ}
    (hoff : off + 8 ≤ 40) :
    loadU64 (appended stream bs time advance) off = loadU64 stream off := by
  rw [sizeofStreamHeader] at hheader
  rw [loadU64, load_congr stream off 8, loadU64]
  intro i hlo hhi
  exact appended_apply (by simp only [Bookkeeping]; omega) (by omega)

theorem timeBegin_appended (hheader : sizeofStreamHeader ≤ (writeCursor stream).toNat) :
    timeBegin (appended stream bs time advance) = timeBegin stream :=
  loadU64_appended hheader (by omega)

theorem streamSize_appended (hheader : sizeofStreamHeader ≤ (writeCursor stream).toNat) :
    streamSize (appended stream bs time advance) = streamSize stream :=
  loadU64_appended hheader (by omega)

theorem load_appended (hheader : sizeofStreamHeader ≤ (writeCursor stream).toNat) :
    load (appended stream bs time advance) (writeCursor stream).toNat bs.length = bs := by
  rw [sizeofStreamHeader] at hheader
  conv_rhs => rw [← load_store_same stream (writeCursor stream).toNat bs]
  refine load_congr _ _ _ fun i hlo _ => ?_
  rw [appended, storeU64_apply_of_notMem _ _ (by omega), storeU64_apply_of_notMem _ _ (by omega),
    storeU64_apply_of_notMem _ _ (by omega)]

end Appended

/-- The common body of the writers: the item is laid at the cursor, and the
bookkeeping is moved on from what it reads there afterwards. -/
theorem appendItem_eq (stream : Memory) (time : UInt64)
    (writeValue : Memory → ℕ → Memory × ℕ) (bs : List UInt8)
    (hwrite : ∀ mem dest, (writeValue mem dest).1 = store mem dest bs) (advance : UInt64) :
    appendItem stream time writeValue advance =
      booked (store stream (writeCursor stream).toNat
        (leBytes cRelativeTimeByteCount (time - timeBegin stream).toNat ++ bs)) time advance := by
  have hstored : (writeValue (writeLe stream (writeCursor stream).toNat
        (time - timeBegin stream).toNat cRelativeTimeByteCount)
        ((writeCursor stream).toNat + cRelativeTimeByteCount)).1 =
      store stream (writeCursor stream).toNat
        (leBytes cRelativeTimeByteCount (time - timeBegin stream).toNat ++ bs) := by
    rw [hwrite, writeLe_eq, ← store_append, length_leBytes]
  have hcount : ∀ stored v, itemCount (storeU64 stored 56 v) = itemCount stored :=
    fun stored v => loadU64_storeU64_disjoint _ _ (by omega)
  have hend : ∀ stored v u, timeEnd (storeU64 (storeU64 stored 56 v) 40 u) = timeEnd stored :=
    fun stored v u => by
      rw [timeEnd, loadU64_storeU64_disjoint _ _ (by omega),
        loadU64_storeU64_disjoint _ _ (by omega), timeEnd]
  simp only [appendItem, streamWriteU64Le, hstored, booked, hcount, hend]

/-- With the header in place the item does not reach back into the fields that
are read after it is stored. -/
theorem booked_store {stream : Memory}
    (hheader : sizeofStreamHeader ≤ (writeCursor stream).toNat) (bs : List UInt8)
    (time advance : UInt64) :
    booked (store stream (writeCursor stream).toNat bs) time advance =
      appended stream bs time advance := by
  rw [sizeofStreamHeader] at hheader
  have hcursor : writeCursor (store stream (writeCursor stream).toNat bs) = writeCursor stream :=
    loadU64_store_disjoint _ _ (by omega)
  have hcount : itemCount (store stream (writeCursor stream).toNat bs) = itemCount stream :=
    loadU64_store_disjoint _ _ (by omega)
  have hend : timeEnd (store stream (writeCursor stream).toNat bs) = timeEnd stream :=
    loadU64_store_disjoint _ _ (by omega)
  rw [booked, appended, hcursor, hcount, hend]

/-- The space test of the writer a value is handed to. The fixed-width writers
make none. -/
def Write.accepts (w : Write) (stream : Memory) : Bool :=
  match w.value with
  | .data payload => writeCursor stream + (Value.data payload).advance ≤ streamSize stream
  | .u8 _ | .u16 _ | .u32 _ | .f32 _ => true

/-- What a call of a writer does to a stream, whatever its header holds. -/
theorem Write.apply_eq_booked (stream : Memory) (w : Write) :
    w.apply stream =
      if w.accepts stream then
        (true, booked (store stream (writeCursor stream).toNat
          (w.itemBytes (timeBegin stream))) w.time w.value.advance)
      else (false, stream) := by
  obtain ⟨time, value⟩ := w
  cases value with
  | data payload =>
      have hitem := appendItem_eq stream time (copyData payload.bytes) payload.bytes
        (fun _ _ => rfl)
      by_cases hfit : writeCursor stream + (Value.data payload).advance ≤ streamSize stream
      · simp only [Write.apply, writeData, Write.accepts, Write.itemBytes, Value.bytes, hitem,
          hfit, decide_true, if_true]
        exact if_pos hfit
      · simp only [Write.apply, writeData, Write.accepts, hfit, decide_false]
        exact if_neg hfit
  | u8 value =>
      have hitem := appendItem_eq stream time (writeByte value) [value] (fun _ _ => rfl)
      simp [Write.apply, writeU8, Write.accepts, Write.itemBytes, Value.bytes, Value.advance, hitem]
  | u16 value =>
      have hitem := appendItem_eq stream time (streamWriteU16Le value) (leBytes 2 value.toNat)
        (fun mem dest => writeLe_eq mem dest value.toNat 2)
      simp [Write.apply, writeU16, Write.accepts, Write.itemBytes, Value.bytes, Value.advance,
        hitem]
  | u32 value =>
      have hitem := appendItem_eq stream time (streamWriteU32Le value) (leBytes 4 value.toNat)
        (fun mem dest => writeLe_eq mem dest value.toNat 4)
      simp [Write.apply, writeU32, Write.accepts, Write.itemBytes, Value.bytes, Value.advance,
        hitem]
  | f32 bits =>
      have hitem := appendItem_eq stream time (streamWriteF32Le bits) (leBytes 4 bits.toNat)
        (fun mem dest => writeLe_eq mem dest bits.toNat 4)
      simp [Write.apply, writeF32, Write.accepts, Write.itemBytes, Value.bytes, Value.advance,
        hitem]

theorem Write.apply_fst (stream : Memory) (w : Write) : (w.apply stream).1 = w.accepts stream := by
  rw [Write.apply_eq_booked]
  cases w.accepts stream <;> rfl

theorem Write.apply_eq {stream : Memory}
    (hheader : sizeofStreamHeader ≤ (writeCursor stream).toNat) (w : Write) :
    w.apply stream =
      if w.accepts stream then
        (true, appended stream (w.itemBytes (timeBegin stream)) w.time w.value.advance)
      else (false, stream) := by
  rw [Write.apply_eq_booked, booked_store hheader]

end Stream

end ConArtist
