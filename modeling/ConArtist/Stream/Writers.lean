import ConArtist.Foundation.Run
import ConArtist.Stream.Header

/-!
# The stream writers

The five writers of `stream_manager.cpp`. Each stores five little-endian bytes
of the time relative to `m_time_begin`, then the value, and moves the
bookkeeping fields on. They differ in the way the value is stored and in one
point more: `stream_write_data` alone asks whether the item fits.

`appendItem` is the common body, in the order in which the source writes;
`appendItem_eq` says what it leaves behind.
-/

namespace ConArtist

namespace Stream

open ByteMemory

/-- `c_relative_time_byte_count`. -/
def cRelativeTimeByteCount : ℕ := 5

/-- `dest[i] = (u8)(value & 0xFF); value >>= 8;` for `byteCount` bytes. -/
def writeLe (mem : Memory) (dest value : ℕ) : ℕ → Memory
  | 0 => mem
  | byteCount + 1 =>
      writeLe (store mem dest [UInt8.ofNat (value &&& 0xFF)]) (dest + 1) (value >>> 8) byteCount

/-- `stream_write_u64_le`: the memory and the advanced pointer. -/
def streamWriteU64Le (mem : Memory) (dest : ℕ) (value : UInt64) (byteCount : ℕ) : Memory × ℕ :=
  (writeLe mem dest value.toNat byteCount, dest + byteCount)

/-- `stream_write_u32_le`. -/
def streamWriteU32Le (value : UInt32) (mem : Memory) (dest : ℕ) : Memory × ℕ :=
  (writeLe mem dest value.toNat 4, dest + 4)

/-- `stream_write_f32_le`, on the raw bits of the value. -/
def streamWriteF32Le (asU32 : UInt32) (mem : Memory) (dest : ℕ) : Memory × ℕ :=
  streamWriteU32Le asU32 mem dest

/-- `stream_write_u16_le`. -/
def streamWriteU16Le (value : UInt16) (mem : Memory) (dest : ℕ) : Memory × ℕ :=
  let mem := store mem dest [UInt8.ofNat (value.toNat &&& 0xFF)]
  let mem := store mem (dest + 1) [UInt8.ofNat ((value.toNat >>> 8) &&& 0xFF)]
  (mem, dest + 2)

/-- `write_cursor[0] = value;` -/
def writeByte (value : UInt8) (mem : Memory) (dest : ℕ) : Memory × ℕ :=
  (store mem dest [value], dest)

/-- The `stream_write_data` that copies: `memcpy(dest, data, size)`. -/
def copyData (data : List UInt8) (mem : Memory) (dest : ℕ) : Memory × ℕ :=
  (store mem dest data, dest + data.length)

/-- The body the five writers share, from the write cursor to the bookkeeping.
The header fields are read again where the source reads them again. -/
def appendItem (stream : Memory) (time : UInt64)
    (writeValue : Memory → ℕ → Memory × ℕ) (advance : UInt64) : Memory :=
  let dest := (writeCursor stream).toNat
  let rtime := time - timeBegin stream
  let timed := streamWriteU64Le stream dest rtime cRelativeTimeByteCount
  let stream := (writeValue timed.1 timed.2).1
  let stream := storeU64 stream 56 (writeCursor stream + advance)
  let stream := storeU64 stream 40 (itemCount stream + 1)
  storeU64 stream 48 (max time (timeEnd stream))

/-- A buffer handed over with a `u32` size. -/
structure Payload where
  bytes : List UInt8
  length_lt : bytes.length < 2 ^ 32

/-- The `size` argument that goes with a buffer. -/
def Payload.size (data : Payload) : UInt32 := UInt32.ofNat data.bytes.length

/-- `stream_write_data` on the stream it resolved. The space test adds in
32 bits first and in 64 bits after. -/
def writeData (stream : Memory) (time : UInt64) (data : Payload) : Bool × Memory :=
  let advance : UInt64 := ((5 : UInt32) + data.size).toUInt64
  if writeCursor stream + advance ≤ streamSize stream then
    (true, appendItem stream time (copyData data.bytes) advance)
  else
    (false, stream)

/-- `stream_write_u8` on the stream it resolved. -/
def writeU8 (stream : Memory) (time : UInt64) (value : UInt8) : Bool × Memory :=
  (true, appendItem stream time (writeByte value) (5 + 1))

/-- `stream_write_u16` on the stream it resolved. -/
def writeU16 (stream : Memory) (time : UInt64) (value : UInt16) : Bool × Memory :=
  (true, appendItem stream time (streamWriteU16Le value) (5 + 2))

/-- `stream_write_u32` on the stream it resolved. -/
def writeU32 (stream : Memory) (time : UInt64) (value : UInt32) : Bool × Memory :=
  (true, appendItem stream time (streamWriteU32Le value) (5 + 4))

/-- `stream_write_f32` on the stream it resolved. -/
def writeF32 (stream : Memory) (time : UInt64) (value : UInt32) : Bool × Memory :=
  (true, appendItem stream time (streamWriteF32Le value) (5 + 4))

/-- The part of `stream_manager_t` the writers use: the mapped read-write
streams, the first `m_num_rw_streams` entries of `m_rw_streams`. -/
structure StreamManager where
  rwStreams : List Memory

/-- `m->m_rw_streams[stream_id]`, then the writer on that stream. An index at or
behind `m_num_rw_streams` names no stream. -/
def StreamManager.onStream (m : StreamManager) (streamId : ℕ)
    (write : Memory → Bool × Memory) : Option (Bool × StreamManager) :=
  m.rwStreams[streamId]?.map fun stream =>
    ((write stream).1, ⟨m.rwStreams.set streamId (write stream).2⟩)

/-- `stream_write_data`. -/
def streamWriteData (m : StreamManager) (streamId : ℕ) (time : UInt64) (data : Payload) :=
  m.onStream streamId fun stream => writeData stream time data

/-- `stream_write_u8`. -/
def streamWriteU8 (m : StreamManager) (streamId : ℕ) (time : UInt64) (value : UInt8) :=
  m.onStream streamId fun stream => writeU8 stream time value

/-- `stream_write_u16`. -/
def streamWriteU16 (m : StreamManager) (streamId : ℕ) (time : UInt64) (value : UInt16) :=
  m.onStream streamId fun stream => writeU16 stream time value

/-- `stream_write_u32`. -/
def streamWriteU32 (m : StreamManager) (streamId : ℕ) (time : UInt64) (value : UInt32) :=
  m.onStream streamId fun stream => writeU32 stream time value

/-- `stream_write_f32`. -/
def streamWriteF32 (m : StreamManager) (streamId : ℕ) (time : UInt64) (value : UInt32) :=
  m.onStream streamId fun stream => writeF32 stream time value

/-- A value handed to one of the five writers. -/
inductive Value where
  | data (data : Payload)
  | u8 (value : UInt8)
  | u16 (value : UInt16)
  | u32 (value : UInt32)
  | f32 (bits : UInt32)

def Value.size : Value → ℕ
  | .data payload => payload.bytes.length
  | .u8 _ => 1
  | .u16 _ => 2
  | .u32 _ => 4
  | .f32 _ => 4

/-- A call of one of the writers, without the stream it is for. -/
structure Write where
  time : UInt64
  value : Value

/-- The writer a value is handed to, on the stream it resolved. -/
def Write.apply (w : Write) (stream : Memory) : Bool × Memory :=
  match w.value with
  | .data data => writeData stream w.time data
  | .u8 value => writeU8 stream w.time value
  | .u16 value => writeU16 stream w.time value
  | .u32 value => writeU32 stream w.time value
  | .f32 value => writeF32 stream w.time value

/-- The call of the writer for the value. -/
def streamWrite (m : StreamManager) (streamId : ℕ) (w : Write) : Option (Bool × StreamManager) :=
  match w.value with
  | .data data => streamWriteData m streamId w.time data
  | .u8 value => streamWriteU8 m streamId w.time value
  | .u16 value => streamWriteU16 m streamId w.time value
  | .u32 value => streamWriteU32 m streamId w.time value
  | .f32 value => streamWriteF32 m streamId w.time value

theorem streamWrite_eq (m : StreamManager) (streamId : ℕ) (w : Write) :
    streamWrite m streamId w = m.onStream streamId w.apply := by
  obtain ⟨time, value⟩ := w
  cases value <;> rfl

/-- One step of a run of writer calls on any streams of the manager. -/
def writeStep (m : StreamManager) (call : ℕ × Write) : Option StreamManager :=
  (streamWrite m call.1 call.2).map Prod.snd

end Stream

end ConArtist
