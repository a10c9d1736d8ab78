import ConArtist.Stream.Layout

/-!
# Reading a variable-size stream back

The documented layout of an item of a variable-size stream is five bytes of time
offset, four bytes of data size, and the data. `walkVariable` is the reader of
that layout, and `walkVariable_documented` says that it recovers what the layout
encodes. `stream_write_data` leaves the four size bytes out, so the region it
writes is shorter than the layout of its items, and the reader recovers the items
of no run but the empty one.
-/

namespace ConArtist

namespace Stream

open ByteMemory Machine

/-- An item handed to `stream_write_data`. -/
structure Item where
  time : UInt64
  data : Payload

def Item.write (item : Item) : Write := ⟨item.time, .data item.data⟩

/-- What reading an item back has to give: its offset and its data. -/
def Item.read (begin : UInt64) (item : Item) : ℕ × List UInt8 :=
  (item.write.offset begin, item.data.bytes)

/-- The documented layout of an item:
`[u8[5] time_offset, u8[4] data_size, u8[data_size] data]`. -/
def Item.documented (begin : UInt64) (item : Item) : List UInt8 :=
  leBytes 5 (item.time - begin).toNat ++ leBytes 4 item.data.bytes.length ++ item.data.bytes

/-- Walking a region by the documented layout. -/
def walkVariable (bs : List UInt8) : Option (List (ℕ × List UInt8)) :=
  if bs = [] then some []
  else if bs.length < 9 + leValue ((bs.drop 5).take 4) then none
  else (walkVariable (bs.drop (9 + leValue ((bs.drop 5).take 4)))).map fun items =>
    (leValue (bs.take 5), (bs.drop 9).take (leValue ((bs.drop 5).take 4))) :: items
termination_by bs.length
decreasing_by
  rw [List.length_drop]
  omega

theorem walkVariable_documented (begin : UInt64) (items : List Item) :
    walkVariable (items.flatMap fun item => item.documented begin) =
      some (items.map fun item => item.read begin) := by
  induction items with
  | nil => simp [walkVariable]
  | cons item items ih =>
      have hlen := item.data.length_lt
      rw [List.flatMap_cons]
      generalize (items.flatMap fun item => item.documented begin) = rest at ih ⊢
      have hsplit : item.documented begin ++ rest =
          leBytes 5 (item.time - begin).toNat ++
            (leBytes 4 item.data.bytes.length ++ (item.data.bytes ++ rest)) := by
        simp [Item.documented]
      have hsize : leValue (((item.documented begin ++ rest).drop 5).take 4) =
          item.data.bytes.length := by
        rw [hsplit, List.drop_left' (length_leBytes _ _), List.take_left' (length_leBytes _ _),
          leValue_leBytes_of_lt hlen]
      have htime : leValue ((item.documented begin ++ rest).take 5) =
          item.write.offset begin := by
        rw [hsplit, List.take_left' (length_leBytes _ _), leValue_leBytes]
        rfl
      have hdata : ((item.documented begin ++ rest).drop 9).take item.data.bytes.length =
          item.data.bytes := by
        rw [hsplit, ← List.append_assoc, List.drop_left' (by simp), List.take_left]
      have hrest : (item.documented begin ++ rest).drop (9 + item.data.bytes.length) = rest :=
        List.drop_left' (by simp [Item.documented]; omega)
      have hne : item.documented begin ++ rest ≠ [] := by
        simp [Item.documented, leBytes]
      rw [walkVariable, if_neg hne, hsize, htime, hdata, hrest, ih, if_neg]
      · rfl
      · simp [Item.documented]
        omega

/-- A walk that succeeds has taken nine bytes more than the data for every
item. -/
theorem length_of_walkVariable {bs : List UInt8} {items : List (ℕ × List UInt8)}
    (h : walkVariable bs = some items) :
    bs.length = (items.map fun item => 9 + item.2.length).sum := by
  fun_induction walkVariable bs generalizing items with
  | case1 => simp_all
  | case2 => cases h
  | case3 bs hne hlen ih =>
      obtain ⟨rest, hrest, rfl⟩ := Option.map_eq_some_iff.mp h
      have hih := ih hrest
      rw [List.length_drop] at hih
      simp only [List.map_cons, List.sum_cons, List.length_take, List.length_drop]
      omega

/-- The reader's layout takes four bytes more than the writer's for every
item. -/
theorem sum_read_eq (begin : UInt64) (items : List Item) :
    ((items.map fun item => item.read begin).map fun it => 9 + it.2.length).sum =
      totalSize (items.map Item.write) + 4 * items.length := by
  induction items with
  | nil => rfl
  | cons item items ih =>
      rw [List.map_cons, List.map_cons, List.sum_cons, ih, List.map_cons, totalSize_cons,
        List.length_cons]
      simp only [Item.read, Item.write, Value.size]
      omega

theorem Value.toNat_advance_le (v : Value) : v.advance.toNat ≤ 5 + v.size := by
  cases v with
  | data payload =>
      have hsize : payload.size.toNat = payload.bytes.length := by
        rw [Payload.size, UInt32.toNat_ofNat', Nat.mod_eq_of_lt payload.length_lt]
      rw [Value.advance, Value.size, UInt32.toNat_toUInt64, UInt32.toNat_add, hsize]
      exact Nat.mod_le _ _
  | u8 | u16 | u32 | f32 => exact Nat.le_of_eq rfl

/-- The cursor moves by at most the size of the items, also where the `u32` sum
of `stream_write_data` wraps. -/
theorem writeCursor_writeAll_le {stream : Memory} (ws : List Write) (hok : HeaderOk stream)
    (hfit : (writeCursor stream).toNat + totalSize ws ≤ (streamSize stream).toNat) :
    (writeCursor (writeAll stream ws)).toNat ≤ (writeCursor stream).toNat + totalSize ws := by
  induction ws generalizing stream with
  | nil => rw [writeAll, List.foldl_nil, totalSize_nil, Nat.add_zero]
  | cons w ws ih =>
      rw [totalSize_cons] at hfit ⊢
      have hle := w.value.toNat_advance_le
      have hlt := (streamSize stream).toNat_lt
      have hcursor : (writeCursor stream + w.value.advance).toNat =
          (writeCursor stream).toNat + w.value.advance.toNat := by
        rw [UInt64.toNat_add]
        exact Nat.mod_eq_of_lt (by omega)
      have hacc : w.accepts stream = true := by
        obtain ⟨time, value⟩ := w
        cases value with
        | data payload =>
            simp only [Write.accepts, decide_eq_true_eq, UInt64.le_iff_toNat_le]
            rw [hcursor]
            omega
        | u8 | u16 | u32 | f32 => rfl
      have happly : (w.apply stream).2 =
          appended stream (w.itemBytes (timeBegin stream)) w.time w.value.advance := by
        rw [Write.apply_eq hok.header_le, if_pos hacc]
      have hheader := hok.header_le
      have hok' : HeaderOk (w.apply stream).2 := by
        constructor
        · rw [happly, writeCursor_appended, hcursor]
          omega
        · rw [happly, writeCursor_appended, hcursor, streamSize_appended hok.header_le]
          omega
      have h := ih hok' (by
        rw [happly, writeCursor_appended, hcursor, streamSize_appended hok.header_le]
        omega)
      rw [happly, writeCursor_appended, hcursor] at h
      rw [writeAll, List.foldl_cons, happly]
      exact h.trans (by omega)

/-- For every registered read-write stream, its cursor behind its header, and
every run of calls that writes the items through `stream_write_data` and fits in
the stream: walking the written region by the documented layout gives the items back
exactly when there is none. -/
theorem walkVariable_iff_nil (m m' : StreamManager) (streamId : ℕ) (stream : Memory)
    (calls : List (ℕ × Write)) (items : List Item) (hreg : m.rwStreams[streamId]? = some stream)
    (hheader : sizeofStreamHeader ≤ (writeCursor stream).toNat)
    (hrun : run writeStep m calls = some m')
    (hitems : callsOn streamId calls = items.map Item.write)
    (hfit : (writeCursor stream).toNat + totalSize (callsOn streamId calls) ≤
      (streamSize stream).toNat) :
    ∃ stream', m'.rwStreams[streamId]? = some stream' ∧
      (walkVariable (load stream' (writeCursor stream).toNat
            ((writeCursor stream').toNat - (writeCursor stream).toNat)) =
          some (items.map fun item => item.read (timeBegin stream)) ↔ items = []) := by
  refine ⟨_, run_writeStep hrun hreg, ?_⟩
  have hok : HeaderOk stream := ⟨hheader, by omega⟩
  have hle := writeCursor_writeAll_le (callsOn streamId calls) hok hfit
  rw [hitems] at hle ⊢
  constructor
  · intro hwalk
    have hlen := length_of_walkVariable hwalk
    rw [length_load, sum_read_eq] at hlen
    exact List.eq_nil_of_length_eq_zero (by omega)
  · rintro rfl
    simp [writeAll, load, walkVariable]

/-- One call of `stream_write_data` on a new stream: one item was written, and the
walk of the region does not give it back. -/
theorem walkVariable_newStream :
    ∃ m' stream', run writeStep ⟨[newStream 100 0]⟩
        [(0, Item.write ⟨5, ⟨[1, 2], by decide⟩⟩)] = some m' ∧
      m'.rwStreams[0]? = some stream' ∧
      walkVariable (load stream' 64 ((writeCursor stream').toNat - 64)) ≠
        some [(5, [1, 2])] := by
  have hok := headerOk_newStream 100 0 (by decide)
  obtain ⟨stream', hreg', hiff⟩ := walkVariable_iff_nil ⟨[newStream 100 0]⟩ _ 0 (newStream 100 0)
    [(0, Item.write ⟨5, ⟨[1, 2], by decide⟩⟩)] [⟨5, ⟨[1, 2], by decide⟩⟩] rfl hok.header_le rfl rfl
    (by rw [writeCursor_newStream, streamSize_newStream]; decide)
  rw [writeCursor_newStream, timeBegin_newStream] at hiff
  exact ⟨_, stream', rfl, hreg', fun h => by simpa using hiff.mp h⟩

/-- One item whose data ends like the next item begins. -/
def oneItem : List Item := [⟨0, ⟨[1, 0, 0, 0, 0, 0, 2], by decide⟩⟩]

/-- The two items with the same bytes. -/
def twoItems : List Item := [⟨0, ⟨[1], by decide⟩⟩, ⟨0, ⟨[2], by decide⟩⟩]

/-- Two different item sequences leave the same bytes on a new stream, so no
reader can tell them apart, and the walk gives neither back. -/
theorem streamWriteData_ambiguous :
    oneItem.map (Item.read 0) ≠ twoItems.map (Item.read 0) ∧
      load (writeAll (newStream 100 0) (oneItem.map Item.write)) 64 12 =
        load (writeAll (newStream 100 0) (twoItems.map Item.write)) 64 12 ∧
      walkVariable (load (writeAll (newStream 100 0) (twoItems.map Item.write)) 64 12) ≠
        some (twoItems.map (Item.read 0)) := by
  have hok := headerOk_newStream 100 0 (by decide)
  have hregion : ∀ items : List Item, (∀ w ∈ items.map Item.write, w.value.SizeOk) →
      totalSize (items.map Item.write) = 12 →
        load (writeAll (newStream 100 0) (items.map Item.write)) 64 12 =
          regionBytes 0 (items.map Item.write) := by
    intro items hsize htotal
    have hfit : (writeCursor (newStream 100 0)).toNat + totalSize (items.map Item.write) ≤
        (streamSize (newStream 100 0)).toNat := by
      rw [writeCursor_newStream, streamSize_newStream, htotal]
      decide
    have hwrote := (wrote_writeAll (items.map Item.write) hok hsize hfit).region
    rwa [writeCursor_newStream, timeBegin_newStream, htotal] at hwrote
  have hone := hregion oneItem (by simp [oneItem, Item.write, Value.SizeOk, Value.size]) rfl
  have htwo := hregion twoItems (by simp [twoItems, Item.write, Value.SizeOk, Value.size]) rfl
  refine ⟨by simp [oneItem, twoItems, Item.read], by rw [hone, htwo]; decide, ?_⟩
  intro hwalk
  have hlen := length_of_walkVariable hwalk
  rw [length_load] at hlen
  exact absurd hlen (by decide)

end Stream

end ConArtist
