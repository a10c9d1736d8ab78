import ConArtist.Stream.Space

/-!
# Do the items keep their times

An item carries five bytes of the time relative to `m_time_begin`, which is
documented to be the time of the first item and is set nowhere. A `Recording` is
a stream with the accepted items: where each lies and the time it was written with. `TimesKept`
says that the times can be read back, `InRange` when a write can be, and
`Laid` that its item lies behind the header and before the cursor it leaves.
-/

namespace ConArtist

namespace Stream

open ByteMemory Machine

/-- An accepted item: where it lies and the time it was written with. -/
structure Stamp where
  pos : ℕ
  time : UInt64

/-- A stream and its accepted items, in call order. -/
structure Recording where
  stream : Memory
  stamps : List Stamp

/-- A call of one of the writers, remembered when it is accepted. -/
def record (r : Recording) (w : Write) : Option Recording :=
  some ⟨(w.apply r.stream).2, if (w.apply r.stream).1 then
    r.stamps ++ [⟨(writeCursor r.stream).toNat, w.time⟩] else r.stamps⟩

/-- `m_time_begin` plus the five-byte offset stored with an item. -/
def decodedTime (stream : Memory) (pos : ℕ) : ℕ :=
  (timeBegin stream).toNat + leValue (load stream pos cRelativeTimeByteCount)

/-- The items keep their times: the decoded time of each is the time it was
written with, which lies between the two times of the header, and the decoded
times are ordered as the times written. -/
structure TimesKept (r : Recording) : Prop where
  decoded : ∀ it ∈ r.stamps, decodedTime r.stream it.pos = it.time.toNat
  begin_le : ∀ it ∈ r.stamps, timeBegin r.stream ≤ it.time
  le_end : ∀ it ∈ r.stamps, it.time ≤ timeEnd r.stream
  order : ∀ it ∈ r.stamps, ∀ jt ∈ r.stamps,
    decodedTime r.stream it.pos ≤ decodedTime r.stream jt.pos ↔ it.time ≤ jt.time

/-- If the call is accepted, its item is laid behind the header and the cursor
moves past it. -/
def Laid (r : Recording) (w : Write) : Prop :=
  w.accepts r.stream = true →
    sizeofStreamHeader ≤ (writeCursor r.stream).toNat ∧ w.value.SizeOk ∧
      (writeCursor r.stream).toNat + (5 + w.value.size) < 2 ^ 64

/-- If the call is accepted, its time is at most forty bits after `m_time_begin`. -/
def InRange (r : Recording) (w : Write) : Prop :=
  w.accepts r.stream = true →
    timeBegin r.stream ≤ w.time ∧ w.time.toNat < (timeBegin r.stream).toNat + 2 ^ 40

/-- The items lie behind the header and before the cursor. -/
def StampsLaid (r : Recording) : Prop :=
  ∀ it ∈ r.stamps, sizeofStreamHeader ≤ it.pos ∧
    it.pos + cRelativeTimeByteCount ≤ (writeCursor r.stream).toNat

theorem record_eq_some {r r' : Recording} {w : Write} (hlaid : Laid r w)
    (h : record r w = some r') :
    (w.accepts r.stream = true ∧
        r' = ⟨appended r.stream (w.itemBytes (timeBegin r.stream)) w.time w.value.advance,
          r.stamps ++ [⟨(writeCursor r.stream).toNat, w.time⟩]⟩) ∨
      (w.accepts r.stream = false ∧ r' = r) := by
  rw [record, Option.some.injEq] at h
  cases haccepts : w.accepts r.stream with
  | true =>
      have happly := Write.apply_eq (hlaid haccepts).1 w
      rw [haccepts, if_pos rfl] at happly
      rw [happly, if_pos rfl] at h
      exact Or.inl ⟨rfl, h.symm⟩
  | false =>
      have happly := Write.apply_eq_booked r.stream w
      rw [haccepts, if_neg Bool.false_ne_true] at happly
      rw [happly, if_neg Bool.false_ne_true] at h
      exact Or.inr ⟨rfl, h.symm⟩

theorem mem_stamps {stamps : List Stamp} {it jt : Stamp} :
    it ∈ stamps ++ [jt] ↔ it ∈ stamps ∨ it = jt := by
  rw [List.mem_append, List.mem_singleton]

section Accepted

variable {r : Recording} {w : Write}

/-- A forty-bit offset gives the time back exactly when the time is in its range. -/
theorem offset_eq_iff {begin time : UInt64} (hbegin : begin ≤ time) :
    begin.toNat + (time - begin).toNat % 256 ^ cRelativeTimeByteCount = time.toNat ↔
      time.toNat < begin.toNat + 2 ^ 40 := by
  have hpow : 256 ^ cRelativeTimeByteCount = 2 ^ 40 := by norm_num [cRelativeTimeByteCount]
  have hle := UInt64.le_iff_toNat_le.mp hbegin
  rw [hpow, UInt64.toNat_sub_of_le _ _ hbegin]
  omega

theorem decodedTime_appended
    (hheader : sizeofStreamHeader ≤ (writeCursor r.stream).toNat) :
    decodedTime (appended r.stream (w.itemBytes (timeBegin r.stream)) w.time w.value.advance)
        (writeCursor r.stream).toNat =
      (timeBegin r.stream).toNat +
        (w.time - timeBegin r.stream).toNat % 256 ^ cRelativeTimeByteCount := by
  have hitem : load (appended r.stream (w.itemBytes (timeBegin r.stream)) w.time w.value.advance)
      (writeCursor r.stream).toNat (w.itemBytes (timeBegin r.stream)).length =
      w.itemBytes (timeBegin r.stream) := load_appended hheader
  rw [Write.length_itemBytes, load_add] at hitem
  have hbytes : (w.itemBytes (timeBegin r.stream)).take 5 =
      leBytes cRelativeTimeByteCount (w.time - timeBegin r.stream).toNat := by
    rw [Write.itemBytes, cRelativeTimeByteCount]
    exact List.take_left' (length_leBytes _ _)
  have hoffset := congrArg (List.take 5) hitem
  rw [List.take_left' (length_load _ _ _), hbytes] at hoffset
  rw [decodedTime, timeBegin_appended hheader]
  exact congrArg _ ((congrArg leValue hoffset).trans (leValue_leBytes _ _))

theorem decodedTime_appended_of_mem (hstamps : StampsLaid r)
    (hheader : sizeofStreamHeader ≤ (writeCursor r.stream).toNat) (bs : List UInt8)
    (time advance : UInt64) {it : Stamp} (hit : it ∈ r.stamps) :
    decodedTime (appended r.stream bs time advance) it.pos = decodedTime r.stream it.pos := by
  obtain ⟨hpos, hend⟩ := hstamps it hit
  rw [sizeofStreamHeader] at hpos
  rw [decodedTime, decodedTime, timeBegin_appended hheader]
  congr 2
  refine load_congr _ _ _ fun i hlo hhi => appended_apply ?_ (Or.inl (by omega))
  rw [Bookkeeping]
  omega

end Accepted

theorem max_eq (a b : UInt64) : max a b = if a ≤ b then b else a := rfl

theorem left_le_max (a b : UInt64) : a ≤ max a b := by
  rw [max_eq]
  split
  · assumption
  · exact UInt64.le_refl a

theorem right_le_max (a b : UInt64) : b ≤ max a b := by
  rw [max_eq]
  split
  · exact UInt64.le_refl b
  · exact UInt64.le_of_lt (UInt64.not_le.mp ‹_›)

theorem TimesKept.of_decoded {r : Recording}
    (decoded : ∀ it ∈ r.stamps, decodedTime r.stream it.pos = it.time.toNat)
    (begin_le : ∀ it ∈ r.stamps, timeBegin r.stream ≤ it.time)
    (le_end : ∀ it ∈ r.stamps, it.time ≤ timeEnd r.stream) : TimesKept r where
  decoded := decoded
  begin_le := begin_le
  le_end := le_end
  order := by
    intro it hit jt hjt
    rw [decoded it hit, decoded jt hjt, UInt64.le_iff_toNat_le]

theorem timesKept_record {r r' : Recording} {w : Write} (hstamps : StampsLaid r)
    (hkept : TimesKept r) (hlaid : Laid r w) (hrange : InRange r w)
    (h : record r w = some r') : StampsLaid r' ∧ TimesKept r' := by
  obtain ⟨haccepts, rfl⟩ | ⟨-, rfl⟩ := record_eq_some hlaid h
  · obtain ⟨hheader, hsize, haddress⟩ := hlaid haccepts
    obtain ⟨hbegin, hlt⟩ := hrange haccepts
    have hcursor : (writeCursor (appended r.stream (w.itemBytes (timeBegin r.stream)) w.time
        w.value.advance)).toNat = (writeCursor r.stream).toNat + (5 + w.value.size) := by
      rw [writeCursor_appended, UInt64.toNat_add, Value.toNat_advance hsize]
      exact Nat.mod_eq_of_lt haddress
    constructor
    · intro it hit
      have hend : it.pos + cRelativeTimeByteCount ≤
          (writeCursor r.stream).toNat + (5 + w.value.size) := by
        obtain hold | rfl := mem_stamps.mp hit
        · exact (hstamps it hold).2.trans (Nat.le_add_right _ _)
        · exact Nat.add_le_add_left (Nat.le_add_right _ _) _
      refine ⟨?_, hend.trans_eq hcursor.symm⟩
      obtain hold | rfl := mem_stamps.mp hit
      · exact (hstamps it hold).1
      · exact hheader
    · refine TimesKept.of_decoded ?_ ?_ ?_
      · intro it hit
        obtain hold | rfl := mem_stamps.mp hit
        · exact (decodedTime_appended_of_mem hstamps hheader _ _ _ hold).trans
            (hkept.decoded it hold)
        · exact (decodedTime_appended hheader).trans ((offset_eq_iff hbegin).mpr hlt)
      · intro it hit
        rw [timeBegin_appended hheader]
        obtain hold | rfl := mem_stamps.mp hit
        · exact hkept.begin_le it hold
        · exact hbegin
      · intro it hit
        rw [timeEnd_appended]
        obtain hold | rfl := mem_stamps.mp hit
        · exact UInt64.le_trans (hkept.le_end it hold) (right_le_max _ _)
        · exact left_le_max _ _
  · exact ⟨hstamps, hkept⟩

theorem not_timesKept_record {r r' : Recording} {w : Write} (hlaid : Laid r w)
    (hrange : ¬ InRange r w) (h : record r w = some r') : ¬ TimesKept r' := by
  obtain ⟨haccepts, rfl⟩ | ⟨hrefused, -⟩ := record_eq_some hlaid h
  · intro hkept
    obtain ⟨hheader, -, -⟩ := hlaid haccepts
    have hmem : (⟨(writeCursor r.stream).toNat, w.time⟩ : Stamp) ∈
        r.stamps ++ [⟨(writeCursor r.stream).toNat, w.time⟩] := List.mem_append_right _ (by simp)
    have hbegin := hkept.begin_le _ hmem
    have hdecoded := hkept.decoded _ hmem
    rw [timeBegin_appended hheader] at hbegin
    rw [decodedTime_appended hheader] at hdecoded
    exact hrange fun _ => ⟨hbegin, (offset_eq_iff hbegin).mp hdecoded⟩
  · exact absurd (fun haccepts => by simp [hrefused] at haccepts) hrange

/-- For every stream, whatever its header holds, and every run of calls of the
five writers at any times: if every accepted item is laid behind the header and
its time is at most forty bits after `m_time_begin`, the items keep their times in
every state reached. On the runs whose items are laid so, this is exact: the
items keep their times if and only if the accepted times are in that range. -/
theorem timesKept_iff (stream : Memory) (ws : List Write) :
    (Along record (fun r w => Laid r w ∧ InRange r w) ⟨stream, []⟩ ws →
        Throughout record TimesKept ⟨stream, []⟩ ws) ∧
      (Along record Laid ⟨stream, []⟩ ws →
        (Throughout record TimesKept ⟨stream, []⟩ ws ↔
          Along record InRange ⟨stream, []⟩ ws)) := by
  have hstart : StampsLaid ⟨stream, []⟩ ∧ TimesKept ⟨stream, []⟩ :=
    ⟨by simp [StampsLaid], TimesKept.of_decoded (by simp) (by simp) (by simp)⟩
  have hiff : Along record Laid ⟨stream, []⟩ ws →
      (Throughout record TimesKept ⟨stream, []⟩ ws ↔ Along record InRange ⟨stream, []⟩ ws) :=
    throughout_iff_along_of_along (fun _ hr => hr.2)
      (fun r r' w _ hr hlaid hrange h => timesKept_record hr.1 hr.2 hlaid hrange h)
      (fun r r' w _ _ hlaid hrange h => not_timesKept_record hlaid hrange h) hstart
  refine ⟨fun h => ?_, hiff⟩
  rw [along_and] at h
  exact (hiff h.1).mpr h.2

/-- One item on a new stream, at a time the offset holds. -/
theorem timesKept_newStream :
    Throughout record TimesKept ⟨newStream 100 0, []⟩ [⟨5, .u8 9⟩] := by
  refine (timesKept_iff (newStream 100 0) [⟨5, .u8 9⟩]).1 fun t _ => ⟨⟨fun _ => ?_, fun _ => ?_⟩,
    trivial⟩
  · rw [writeCursor_newStream]
    exact ⟨by decide, by simp [Value.SizeOk, Value.size], by decide⟩
  · rw [timeBegin_newStream]
    decide

/-- The begin time of a new stream is zero. An item written in the year 2025, in
milliseconds since 1970, does not keep its time. -/
theorem timesLost_newStream :
    ¬ Throughout record TimesKept ⟨newStream 100 0, []⟩ [⟨1760000000000, .u8 9⟩] := by
  have hlaid : Laid ⟨newStream 100 0, []⟩ ⟨1760000000000, .u8 9⟩ := fun _ => by
    rw [writeCursor_newStream]
    exact ⟨by decide, by simp [Value.SizeOk, Value.size], by decide⟩
  have hrange : ¬ InRange ⟨newStream 100 0, []⟩ ⟨1760000000000, .u8 9⟩ := fun h => by
    have hlt := (h rfl).2
    rw [timeBegin_newStream] at hlt
    exact absurd hlt (by decide)
  intro h
  exact not_timesKept_record hlaid hrange rfl (h.2 _ rfl)

end Stream

end ConArtist
