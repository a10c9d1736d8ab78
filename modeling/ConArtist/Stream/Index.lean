import ConArtist.Stream.Layout

/-!
# Item indexing on fixed-size streams

`Indexed b stream` is what addressing items by their index needs: the cursor
stands at `b + m_item_count * (5 + m_sizeof_item)`. No writer looks at
`m_sizeof_item`, so a run of writes keeps it exactly when every value written
has that size.
-/

namespace ConArtist

namespace Stream

open ByteMemory Machine

/-- The cursor stands behind `m_item_count` items of the stream's item size, the
first of them at `b`. -/
def Indexed (b : ℕ) (stream : Memory) : Prop :=
  (writeCursor stream).toNat =
    b + (itemCount stream).toNat * (5 + (sizeofItem stream).toNat)

theorem mem_callsOn {streamId : ℕ} {calls : List (ℕ × Write)} {w : Write} :
    w ∈ callsOn streamId calls ↔ (streamId, w) ∈ calls := by
  simp [callsOn]

section Appended

variable {stream : Memory} {w : Write} {b : ℕ}

/-- The item leaves the cursor below 2⁶⁴, and the sum of its sizes does not wrap. -/
def Lays (stream : Memory) (w : Write) : Prop :=
  w.accepts stream = true ∧ w.value.SizeOk ∧
    (writeCursor stream).toNat + (5 + w.value.size) < 2 ^ 64

theorem lays_of_fits (hsize : w.value.SizeOk) (hfit : Fits stream w) : Lays stream w := by
  have hlt := (streamSize stream).toNat_lt
  rw [Fits] at hfit
  exact ⟨accepts_of_fits hsize hfit, hsize, by omega⟩

theorem apply_snd_of_lays (hheader : sizeofStreamHeader ≤ (writeCursor stream).toNat)
    (hlays : Lays stream w) : (w.apply stream).2 =
      appended stream (w.itemBytes (timeBegin stream)) w.time w.value.advance := by
  rw [Write.apply_eq hheader, if_pos hlays.1]

theorem toNat_writeCursor_apply (hheader : sizeofStreamHeader ≤ (writeCursor stream).toNat)
    (hlays : Lays stream w) : (writeCursor (w.apply stream).2).toNat =
      (writeCursor stream).toNat + (5 + w.value.size) := by
  obtain ⟨-, hsize, hlt⟩ := id hlays
  rw [apply_snd_of_lays hheader hlays, writeCursor_appended, UInt64.toNat_add,
    Value.toNat_advance hsize]
  exact Nat.mod_eq_of_lt hlt

theorem sizeofItem_apply (hheader : sizeofStreamHeader ≤ (writeCursor stream).toNat)
    (hlays : Lays stream w) : sizeofItem (w.apply stream).2 = sizeofItem stream := by
  rw [apply_snd_of_lays hheader hlays]
  rw [sizeofStreamHeader] at hheader
  rw [sizeofItem, loadU32, load_congr stream 16 4, sizeofItem, loadU32]
  intro i hlo hhi
  exact appended_apply (by rw [Bookkeeping]; omega) (by omega)

/-- An indexed stream is so after an item exactly when the item has the stream's item
size. -/
theorem indexed_apply_iff (hheader : sizeofStreamHeader ≤ (writeCursor stream).toNat)
    (hidx : Indexed b stream) (hlays : Lays stream w) :
    Indexed b (w.apply stream).2 ↔ w.value.size = (sizeofItem stream).toNat := by
  have hlt := hlays.2.2
  have hcount : (itemCount stream).toNat ≤ (writeCursor stream).toNat := by
    rw [hidx]
    calc (itemCount stream).toNat
        ≤ (itemCount stream).toNat * (5 + (sizeofItem stream).toNat) :=
          Nat.le_mul_of_pos_right _ (by omega)
      _ ≤ b + (itemCount stream).toNat * (5 + (sizeofItem stream).toNat) := Nat.le_add_left _ _
  -- the count does not wrap: every item takes at least one byte
  have hcount' : (itemCount (w.apply stream).2).toNat = (itemCount stream).toNat + 1 := by
    rw [apply_snd_of_lays hheader hlays, itemCount_appended, UInt64.toNat_add]
    exact Nat.mod_eq_of_lt (by simp; omega)
  rw [Indexed, toNat_writeCursor_apply hheader hlays, hcount', sizeofItem_apply hheader hlays, hidx,
    Nat.add_mul, ← Nat.add_assoc]
  omega

end Appended

/-- The call, if it is on the stream, is accepted there and lays its item below 2⁶⁴. -/
def CallLays (streamId : ℕ) (m : StreamManager) (call : ℕ × Write) : Prop :=
  call.1 = streamId → ∀ s, m.rwStreams[streamId]? = some s → Lays s call.2

/-- The stream is indexed behind its header, for items of the size `item`. -/
def IndexedAs (streamId b item : ℕ) (m : StreamManager) : Prop :=
  ∀ s, m.rwStreams[streamId]? = some s →
    sizeofStreamHeader ≤ (writeCursor s).toNat ∧ Indexed b s ∧ (sizeofItem s).toNat = item

section Step

variable {streamId b item : ℕ} {m m' : StreamManager} {call : ℕ × Write}

/-- A call leaves the stream as it was, or does to it what its writer does. -/
theorem stream_of_writeStep (hstep : writeStep m call = some m') {s' : Memory}
    (hs' : m'.rwStreams[streamId]? = some s') :
    (call.1 ≠ streamId ∧ m.rwStreams[streamId]? = some s') ∨
      ∃ s, call.1 = streamId ∧ m.rwStreams[streamId]? = some s ∧ s' = (call.2.apply s).2 := by
  obtain ⟨target, htarget, rfl⟩ := writeStep_eq_some.mp hstep
  rw [List.getElem?_set] at hs'
  split at hs'
  case isTrue hid =>
    split at hs'
    case isTrue => exact .inr ⟨target, hid, hid ▸ htarget, (Option.some.inj hs').symm⟩
    case isFalse => cases hs'
  case isFalse hid => exact .inl ⟨hid, hs'⟩

theorem IndexedAs.step (h : IndexedAs streamId b item m) (hlays : CallLays streamId m call)
    (hsize : call.1 = streamId → call.2.value.size = item) (hstep : writeStep m call = some m') :
    IndexedAs streamId b item m' := by
  intro s' hs'
  rcases stream_of_writeStep hstep hs' with ⟨-, hs⟩ | ⟨s, hid, hs, rfl⟩
  · exact h s' hs
  · obtain ⟨hheader, hidx, hitem⟩ := h s hs
    have hcall := hlays hid s hs
    refine ⟨?_, ?_, ?_⟩
    · rw [toNat_writeCursor_apply hheader hcall]
      omega
    · exact (indexed_apply_iff hheader hidx hcall).mpr (hitem ▸ hsize hid)
    · rw [sizeofItem_apply hheader hcall, hitem]

theorem IndexedAs.not_indexed (h : IndexedAs streamId b item m)
    (hlays : CallLays streamId m call)
    (hsize : ¬ (call.1 = streamId → call.2.value.size = item))
    (hstep : writeStep m call = some m') :
    ¬ ∀ s, m'.rwStreams[streamId]? = some s → Indexed b s := by
  rw [Classical.not_imp] at hsize
  obtain ⟨hid, hsize⟩ := hsize
  obtain ⟨s, hs, rfl⟩ := writeStep_eq_some.mp hstep
  rw [hid] at hs
  obtain ⟨hheader, hidx, hitem⟩ := h s hs
  intro hall
  have hidx' := hall (call.2.apply s).2 (by
    rw [hid]
    exact List.getElem?_set_self (List.getElem?_eq_some_iff.mp hs).1)
  exact hsize (hitem ▸ (indexed_apply_iff hheader hidx (hlays hid s hs)).mp hidx')

end Step

/-- For every registered stream, its cursor behind its header and behind `m_item_count`
items of size `m_sizeof_item`, and every run of writer calls that accepts all calls on it
and leaves its cursor below 2⁶⁴: the stream is indexed in every state of the run exactly
when every value written to it has the stream's item size. A value of another size is not
refused: it is accepted whenever it fits, and moves the cursor by its own size. -/
theorem indexed_iff_sizes (m m' : StreamManager) (streamId : ℕ) (stream : Memory) (b : ℕ)
    (calls : List (ℕ × Write)) (hreg : m.rwStreams[streamId]? = some stream)
    (hheader : sizeofStreamHeader ≤ (writeCursor stream).toNat) (hidx : Indexed b stream)
    (hrun : run writeStep m calls = some m') (hlays : Along writeStep (CallLays streamId) m calls) :
    (Throughout writeStep (fun n => ∀ s, n.rwStreams[streamId]? = some s → Indexed b s) m calls ↔
        ∀ w ∈ callsOn streamId calls, w.value.size = (sizeofItem stream).toNat) ∧
      ∀ w : Write, w.value.SizeOk → Fits stream w →
        (w.apply stream).1 = true ∧
          (writeCursor (w.apply stream).2).toNat =
            (writeCursor stream).toNat + (5 + w.value.size) := by
  constructor
  · have hstart : IndexedAs streamId b (sizeofItem stream).toNat m := by
      intro s hs
      obtain rfl := Option.some.inj (hreg.symm.trans hs)
      exact ⟨hheader, hidx, rfl⟩
    rw [throughout_iff_along_of_along (I := IndexedAs streamId b (sizeofItem stream).toNat)
      (C := fun _ call => call.1 = streamId → call.2.value.size = (sizeofItem stream).toNat)
      (fun n h s hs => (h s hs).2.1)
      (fun n n' call _ h hl hsize hstep => h.step hl hsize hstep)
      (fun n n' call _ h hl hsize hstep => h.not_indexed hl hsize hstep) hstart hlays,
      along_const_iff hrun]
    constructor
    · intro h w hw
      exact h (streamId, w) (mem_callsOn.mp hw) rfl
    · rintro h ⟨id, w⟩ hcall rfl
      exact h w (mem_callsOn.mpr hcall)
  · intro w hw hfits
    have hlaysw := lays_of_fits hw hfits
    exact ⟨by rw [Write.apply_fst, hlaysw.1], toNat_writeCursor_apply hheader hlaysw⟩

/-- A stream of one-byte items stays indexed under a `u8` write. -/
theorem indexed_newStream :
    Throughout writeStep (fun n => ∀ s, n.rwStreams[0]? = some s → Indexed 64 s)
      ⟨[newStream 100 1]⟩ [(0, ⟨5, .u8 9⟩)] := by
  have hok := headerOk_newStream 100 1 (by decide)
  have hidx : Indexed 64 (newStream 100 1) := by
    rw [Indexed, writeCursor_newStream, itemCount_newStream, sizeofItem_newStream]
    decide
  refine (indexed_iff_sizes ⟨[newStream 100 1]⟩ _ 0 (newStream 100 1) 64 [(0, ⟨5, .u8 9⟩)]
    rfl hok.header_le hidx rfl fun _ _ => ⟨fun _ s hs => ?_, trivial⟩).1.mpr ?_
  · obtain rfl : newStream 100 1 = s := Option.some.inj hs
    refine lays_of_fits (by simp [Value.SizeOk, Value.size]) ?_
    rw [Fits, writeCursor_newStream, streamSize_newStream]
    decide
  · rw [sizeofItem_newStream]
    simp [callsOn, Value.size]

/-- A `u16` write on a stream of one-byte items is accepted, and the stream is
indexed no more. -/
theorem streamWriteU16_breaks_index :
    ∃ m' stream', Indexed 64 (newStream 100 1) ∧ HeaderOk (newStream 100 1) ∧
      (sizeofItem (newStream 100 1)).toNat ≠ (Value.u16 7).size ∧
      streamWriteU16 ⟨[newStream 100 1]⟩ 0 5 7 = some (true, m') ∧
      m'.rwStreams[0]? = some stream' ∧ ¬ Indexed 64 stream' := by
  have hok := headerOk_newStream 100 1 (by decide)
  have hidx : Indexed 64 (newStream 100 1) := by
    rw [Indexed, writeCursor_newStream, itemCount_newStream, sizeofItem_newStream]
    decide
  have hfit : Fits (newStream 100 1) ⟨5, .u16 7⟩ := by
    rw [Fits, writeCursor_newStream, streamSize_newStream]
    decide
  have hlays := lays_of_fits (by simp [Value.SizeOk, Value.size]) hfit
  refine ⟨_, _, hidx, hok, ?_, rfl, rfl, ?_⟩
  · rw [sizeofItem_newStream]
    decide
  · intro hidx'
    have hsize := (indexed_apply_iff hok.header_le hidx hlays).mp hidx'
    rw [sizeofItem_newStream] at hsize
    exact absurd hsize (by decide)

end Stream

end ConArtist
