import ConArtist.Foundation.ByteMemory

/-!
# The stream header in its bytes

A read-write stream is a mapped file that starts with `stream_header_t`. The
writers address the file by byte, header included, so the model keeps the bytes
and reads each header field at its offset. The host is little endian, which is
the byte order the stream files are documented to stay on.

The last three fields, `m_item_count`, `m_time_end` and `m_write_cursor`, are
the bookkeeping of the writers: they fill the offsets from 40 to 63.
-/

namespace ConArtist

namespace Stream

open ByteMemory

/-- `sizeof(stream_header_t)`. -/
def sizeofStreamHeader : ℕ := 64

section Fields

variable (stream : Memory)

/-- `m_user_id`. -/
def userId : UInt64 := loadU64 stream 0

/-- `m_sizeof_item`. -/
def sizeofItem : UInt32 := loadU32 stream 16

/-- `m_time_begin`. -/
def timeBegin : UInt64 := loadU64 stream 24

/-- `m_stream_size`. -/
def streamSize : UInt64 := loadU64 stream 32

/-- `m_item_count`. -/
def itemCount : UInt64 := loadU64 stream 40

/-- `m_time_end`. -/
def timeEnd : UInt64 := loadU64 stream 48

/-- `m_write_cursor`. -/
def writeCursor : UInt64 := loadU64 stream 56

/-- The offsets of `m_item_count`, `m_time_end` and `m_write_cursor`. -/
def Bookkeeping (i : ℕ) : Prop := 40 ≤ i ∧ i < 64

instance (i : ℕ) : Decidable (Bookkeeping i) := inferInstanceAs (Decidable (_ ∧ _))

/-- The header is in place: the write cursor stands behind it and inside the
stream. This is the header of a stream that was set up for writing. -/
structure HeaderOk : Prop where
  header_le : sizeofStreamHeader ≤ (writeCursor stream).toNat
  cursor_le : (writeCursor stream).toNat ≤ (streamSize stream).toNat

end Fields

/-- A stream of `size` bytes for items of `item` bytes, with its header set up
and no item in it yet. -/
def newStream (size : UInt64) (item : UInt32) : Memory :=
  storeU64 (storeU64 (store (fun _ => 0) 16 (leBytes 4 item.toNat)) 32 size) 56 64

section NewStream

variable (size : UInt64) (item : UInt32)

@[simp] theorem writeCursor_newStream : writeCursor (newStream size item) = 64 := by
  rw [writeCursor, newStream, loadU64_storeU64_same]

@[simp] theorem streamSize_newStream : streamSize (newStream size item) = size := by
  rw [streamSize, newStream, loadU64_storeU64_disjoint _ _ (by omega), loadU64_storeU64_same]

@[simp] theorem itemCount_newStream : itemCount (newStream size item) = 0 := by
  rw [itemCount, newStream, loadU64_storeU64_disjoint _ _ (by omega),
    loadU64_storeU64_disjoint _ _ (by omega), loadU64_store_disjoint _ _ (by simp)]
  rfl

@[simp] theorem timeBegin_newStream : timeBegin (newStream size item) = 0 := by
  rw [timeBegin, newStream, loadU64_storeU64_disjoint _ _ (by omega),
    loadU64_storeU64_disjoint _ _ (by omega), loadU64_store_disjoint _ _ (by simp)]
  rfl

@[simp] theorem sizeofItem_newStream : sizeofItem (newStream size item) = item := by
  have hload := load_store_same (fun _ => 0) 16 (leBytes 4 item.toNat)
  rw [length_leBytes] at hload
  rw [sizeofItem, loadU32, newStream, storeU64, storeU64,
    load_store_disjoint _ _ _ _ _ (by simp), load_store_disjoint _ _ _ _ _ (by simp), hload,
    leValue_leBytes_of_lt item.toNat_lt, UInt32.ofNat_toNat]

theorem headerOk_newStream (h : sizeofStreamHeader ≤ size.toNat) :
    HeaderOk (newStream size item) where
  header_le := by rw [writeCursor_newStream]; exact Nat.le_refl 64
  cursor_le := by rw [writeCursor_newStream, streamSize_newStream]; exact h

end NewStream

end Stream

end ConArtist
