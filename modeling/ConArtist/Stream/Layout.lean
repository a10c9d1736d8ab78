import Mathlib.Algebra.BigOperators.Group.List.Basic
import ConArtist.Stream.Space

/-!
# The bytes a run of writes leaves behind

`Wrote stream stream' ws` says what the writes `ws` did to a stream, whatever
their widths: where the cursor ended, which bytes lie behind the old cursor, that
nothing else moved but the bookkeeping, and what the bookkeeping says. A run of
writes that fits in the stream does exactly that (`wrote_writeAll`), and a run on
the manager does it to each of its streams (`run_writeStep`).

`decodeItems` reads a region item by item, given the widths of its values.
-/

namespace ConArtist

namespace Stream

open ByteMemory Machine

/-- The bytes of the items, in call order. -/
def regionBytes (begin : UInt64) (ws : List Write) : List UInt8 :=
  ws.flatMap fun w => w.itemBytes begin

def totalSize (ws : List Write) : ℕ := (ws.map fun w => 5 + w.value.size).sum

@[simp] theorem totalSize_nil : totalSize [] = 0 := rfl

@[simp] theorem totalSize_cons (w : Write) (ws : List Write) :
    totalSize (w :: ws) = 5 + w.value.size + totalSize ws := by
  simp [totalSize]

def writeAll (stream : Memory) (ws : List Write) : Memory :=
  ws.foldl (fun stream w => (w.apply stream).2) stream

/-- What the writes `ws` did to `stream`. -/
structure Wrote (stream stream' : Memory) (ws : List Write) : Prop where
  cursor : (writeCursor stream').toNat = (writeCursor stream).toNat + totalSize ws
  region : load stream' (writeCursor stream).toNat (totalSize ws) =
    regionBytes (timeBegin stream) ws
  frame : ∀ i, ¬ Bookkeeping i →
    i < (writeCursor stream).toNat ∨ (writeCursor stream).toNat + totalSize ws ≤ i →
      stream' i = stream i
  itemCount : itemCount stream' = itemCount stream + UInt64.ofNat ws.length
  timeEnd : timeEnd stream' = ws.foldl (fun t w => max w.time t) (timeEnd stream)

theorem Wrote.nil (stream : Memory) : Wrote stream stream [] where
  cursor := by simp
  region := by simp [load, regionBytes]
  frame := fun _ _ _ => rfl
  itemCount := by simp
  timeEnd := rfl

theorem Wrote.cons {stream stream' : Memory} {w : Write} {ws : List Write}
    (hok : HeaderOk stream) (hsize : w.value.SizeOk) (hfit : Fits stream w)
    (h : Wrote (w.apply stream).2 stream' ws) : Wrote stream stream' (w :: ws) := by
  have hheader := hok.header_le
  rw [Write.apply_eq hheader, if_pos (accepts_of_fits hsize hfit)] at h
  replace h : Wrote (appended stream (w.itemBytes (timeBegin stream)) w.time w.value.advance)
    stream' ws := h
  have hcursor := toNat_writeCursor_appended hsize hfit (w.itemBytes (timeBegin stream))
  have hlen := w.length_itemBytes (timeBegin stream)
  rw [sizeofStreamHeader] at hheader
  -- the item just written lies before the cursor the others start from
  have hkept : load stream' (writeCursor stream).toNat (5 + w.value.size) =
      w.itemBytes (timeBegin stream) := by
    have hitem : load (appended stream (w.itemBytes (timeBegin stream)) w.time w.value.advance)
        (writeCursor stream).toNat (5 + w.value.size) = w.itemBytes (timeBegin stream) := by
      rw [← hlen]
      exact load_appended hok.header_le
    refine (load_congr _ _ _ fun i hlo hhi => h.frame i ?_ ?_).trans hitem
    · rw [Bookkeeping]
      omega
    · rw [hcursor]
      omega
  constructor
  · rw [h.cursor, hcursor, totalSize_cons, Nat.add_assoc]
  · have hrest := h.region
    rw [hcursor, timeBegin_appended hok.header_le] at hrest
    rw [totalSize_cons, load_add, hkept, hrest]
    rfl
  · intro i hbook hout
    rw [totalSize_cons] at hout
    rw [h.frame i hbook (by rw [hcursor]; omega), appended_apply hbook (by rw [hlen]; omega)]
  · have hcount := h.itemCount
    rw [itemCount_appended] at hcount
    rw [hcount, List.length_cons, UInt64.ofNat_add, UInt64.add_assoc]
    exact congrArg _ (UInt64.add_comm _ _)
  · rw [h.timeEnd, timeEnd_appended, List.foldl_cons]

theorem wrote_writeAll {stream : Memory} (ws : List Write) (hok : HeaderOk stream)
    (hsize : ∀ w ∈ ws, w.value.SizeOk)
    (hfit : (writeCursor stream).toNat + totalSize ws ≤ (streamSize stream).toNat) :
    Wrote stream (writeAll stream ws) ws := by
  induction ws generalizing stream with
  | nil => exact Wrote.nil stream
  | cons w ws ih =>
      have hw := hsize w List.mem_cons_self
      have hfit₁ : Fits stream w := by
        rw [totalSize_cons] at hfit
        rw [Fits]
        omega
      refine Wrote.cons hok hw hfit₁ ?_
      have hok₁ := headerOk_apply hok hw (Or.inl hfit₁)
      refine ih hok₁ (fun v hv => hsize v (List.mem_cons_of_mem w hv)) ?_
      rw [Write.apply_eq hok.header_le, if_pos (accepts_of_fits hw hfit₁),
        toNat_writeCursor_appended hw hfit₁, streamSize_appended hok.header_le]
      rw [totalSize_cons] at hfit
      omega

/-- The writes of a run that go to the stream `streamId`, in call order. -/
def callsOn (streamId : ℕ) (calls : List (ℕ × Write)) : List Write :=
  (calls.filter fun call => call.1 = streamId).map Prod.snd

theorem run_writeStep {m m' : StreamManager} {calls : List (ℕ × Write)}
    (hrun : run writeStep m calls = some m') {streamId : ℕ} {stream : Memory}
    (hreg : m.rwStreams[streamId]? = some stream) :
    m'.rwStreams[streamId]? = some (writeAll stream (callsOn streamId calls)) := by
  induction calls generalizing m stream with
  | nil =>
      cases hrun
      exact hreg
  | cons call calls ih =>
      obtain ⟨n, hstep, hrest⟩ := (run_cons_eq_some writeStep).mp hrun
      obtain ⟨target, htarget, rfl⟩ := writeStep_eq_some.mp hstep
      have hlen : streamId < m.rwStreams.length := (List.getElem?_eq_some_iff.mp hreg).1
      by_cases hid : call.1 = streamId
      · obtain rfl : stream = target := Option.some.inj (hreg.symm.trans (hid ▸ htarget))
        have hreg' : (m.rwStreams.set call.1 (call.2.apply stream).2)[streamId]? =
            some (call.2.apply stream).2 := by
          simp [hid, hlen]
        simpa [callsOn, hid, writeAll] using ih hrest hreg'
      · have hreg' : (m.rwStreams.set call.1 (call.2.apply target).2)[streamId]? = some stream := by
          simpa [hid] using hreg
        simpa [callsOn, hid] using ih hrest hreg'

/-- The raw bits of a value as a number. -/
def Value.bits : Value → ℕ
  | .data payload => leValue payload.bytes
  | .u8 value => value.toNat
  | .u16 value => value.toNat
  | .u32 value => value.toNat
  | .f32 bits => bits.toNat

theorem Value.leValue_bytes (v : Value) : leValue v.bytes = v.bits := by
  cases v with
  | data payload => rfl
  | u8 value => simp [Value.bytes, Value.bits, leValue]
  | u16 value => exact leValue_leBytes_of_lt value.toNat_lt
  | u32 value => exact leValue_leBytes_of_lt value.toNat_lt
  | f32 bits => exact leValue_leBytes_of_lt bits.toNat_lt

/-- The time offset stored with an item: forty bits of the relative time. -/
def Write.offset (w : Write) (begin : UInt64) : ℕ := (w.time - begin).toNat % 2 ^ 40

/-- Reading a region item by item, given the widths of the values: the offset
and the value of each item. The region has to end with the last item. -/
def decodeItems : List ℕ → List UInt8 → Option (List (ℕ × ℕ))
  | [], [] => some []
  | [], _ :: _ => none
  | size :: sizes, bs =>
      if bs.length < 5 + size then none
      else (decodeItems sizes (bs.drop (5 + size))).map fun items =>
        (leValue (bs.take 5), leValue ((bs.drop 5).take size)) :: items

theorem decodeItems_regionBytes (begin : UInt64) (ws : List Write) :
    decodeItems (ws.map fun w => w.value.size) (regionBytes begin ws) =
      some (ws.map fun w => (w.offset begin, w.value.bits)) := by
  induction ws with
  | nil => rfl
  | cons w ws ih =>
      have hlen := w.length_itemBytes begin
      have hregion : regionBytes begin (w :: ws) = w.itemBytes begin ++ regionBytes begin ws := rfl
      have hdrop : (w.itemBytes begin ++ regionBytes begin ws).drop (5 + w.value.size) =
          regionBytes begin ws := by rw [← hlen, List.drop_left]
      have htime : leValue ((w.itemBytes begin ++ regionBytes begin ws).take 5) =
          w.offset begin := by
        have htake : (w.itemBytes begin ++ regionBytes begin ws).take 5 =
            leBytes 5 (w.time - begin).toNat := by
          rw [Write.itemBytes, List.append_assoc, cRelativeTimeByteCount]
          exact List.take_left' (length_leBytes _ _)
        rw [htake, leValue_leBytes]
        rfl
      have hvalue : leValue (((w.itemBytes begin ++ regionBytes begin ws).drop 5).take
          w.value.size) = w.value.bits := by
        rw [Write.itemBytes, List.append_assoc, cRelativeTimeByteCount,
          List.drop_left' (length_leBytes _ _), List.take_left' w.value.length_bytes,
          Value.leValue_bytes]
      rw [List.map_cons, List.map_cons, hregion, decodeItems, hdrop, htime, hvalue, ih, if_neg]
      · rfl
      · rw [List.length_append, hlen]
        omega

/-- A value of one of the four fixed-width writers. -/
def Value.Fixed : Value → Prop
  | .data _ => False
  | .u8 _ | .u16 _ | .u32 _ | .f32 _ => True

theorem Value.Fixed.sizeOk {v : Value} (h : v.Fixed) : v.SizeOk := by
  cases v with
  | data payload => exact h.elim
  | u8 | u16 | u32 | f32 => simp [Value.SizeOk, Value.size]

/-- For every registered read-write stream, its cursor behind its header, and
every run of writer calls whose calls on the stream are fixed-width ones that fit
in it: the stream holds, from the old cursor to the new one, exactly the items in
call order; nothing else of it changed but the bookkeeping; the count grew by
the number of calls; the end time is the maximum; and reading the region item by
item gives the offsets and the values back. -/
theorem fixedWrites_layout (m m' : StreamManager) (streamId : ℕ) (stream : Memory)
    (calls : List (ℕ × Write)) (hreg : m.rwStreams[streamId]? = some stream)
    (hheader : sizeofStreamHeader ≤ (writeCursor stream).toNat)
    (hrun : run writeStep m calls = some m')
    (hfixed : ∀ w ∈ callsOn streamId calls, w.value.Fixed)
    (hfit : (writeCursor stream).toNat + totalSize (callsOn streamId calls) ≤
      (streamSize stream).toNat) :
    ∃ stream', m'.rwStreams[streamId]? = some stream' ∧
      Wrote stream stream' (callsOn streamId calls) ∧
      decodeItems ((callsOn streamId calls).map fun w => w.value.size)
          (load stream' (writeCursor stream).toNat
            ((writeCursor stream').toNat - (writeCursor stream).toNat)) =
        some ((callsOn streamId calls).map fun w =>
          (w.offset (timeBegin stream), w.value.bits)) := by
  have hok : HeaderOk stream := ⟨hheader, by omega⟩
  have hwrote := wrote_writeAll (callsOn streamId calls) hok
    (fun w hw => (hfixed w hw).sizeOk) hfit
  refine ⟨_, run_writeStep hrun hreg, hwrote, ?_⟩
  rw [hwrote.cursor, Nat.add_sub_cancel_left, hwrote.region]
  exact decodeItems_regionBytes (timeBegin stream) (callsOn streamId calls)

/-- Two items of different widths on a new stream. -/
theorem fixedWrites_newStream :
    ∃ m' stream', run writeStep ⟨[newStream 100 0]⟩
        [(0, ⟨5, .u8 9⟩), (0, ⟨7, .u16 258⟩)] = some m' ∧
      m'.rwStreams[0]? = some stream' ∧
      load stream' 64 13 = [5, 0, 0, 0, 0, 9, 7, 0, 0, 0, 0, 2, 1] := by
  have hok := headerOk_newStream 100 0 (by decide)
  obtain ⟨stream', hreg', hwrote, -⟩ := fixedWrites_layout ⟨[newStream 100 0]⟩ _ 0
    (newStream 100 0) [(0, ⟨5, .u8 9⟩), (0, ⟨7, .u16 258⟩)] rfl hok.header_le rfl
    (by simp [callsOn, Value.Fixed])
    (by rw [writeCursor_newStream, streamSize_newStream]; decide)
  have hregion := hwrote.region
  rw [writeCursor_newStream, timeBegin_newStream] at hregion
  exact ⟨_, stream', rfl, hreg', hregion⟩

/-- A stream of 100 bytes whose cursor stands inside its header. -/
def inHeader : Memory := storeU64 (newStream 100 0) 56 36

/-- An item that fits in it is laid over the item count. -/
theorem fixedWrites_inHeader :
    ∃ m' stream', (writeCursor inHeader).toNat + totalSize [⟨5, .u8 9⟩] ≤
        (streamSize inHeader).toNat ∧
      streamWriteU8 ⟨[inHeader]⟩ 0 5 9 = some (true, m') ∧ m'.rwStreams[0]? = some stream' ∧
      ¬ Wrote inHeader stream' [⟨5, .u8 9⟩] := by
  refine ⟨_, _, by decide, rfl, rfl, fun h => ?_⟩
  exact absurd h.itemCount (by decide)

end Stream

end ConArtist
