import ConArtist.Foundation.Framing
import ConArtist.Server.Receive

/-!
# Framing of what a client sends

The messages of a connection should not depend on how the bytes arrive. `serve` is
compared with the framing of the concatenated stream. The calls of
`read_from_client` amount to `arrive`, which frames the bytes piece by piece and
forgets the start of a message at each `EAGAIN`: the counts of the bytes already in
the buffer are local to a call. So the messages are the right ones as long as
`EAGAIN` comes between messages only, and no longer once it has come within one.
-/

namespace ConArtist

namespace Server

open Framing

/-- What a header says: the payload length, if the magic is there and the length
fits the buffer. -/
def checkHeader (cap : UInt32) (header : List UInt8) : Option ℕ :=
  if readU32Be header usMessageOffsetMagic ≠ usMessageMagic then none
  else if readU32Be header usMessageOffsetLen > cap - UInt32.ofNat usMessageHeaderSize then none
  else some (readU32Be header usMessageOffsetLen).toNat

/-- The reference framing of a stream. -/
def frameStream (cap : UInt32) (stream : List UInt8) : Framed UInt8 :=
  frame usMessageHeaderSize (checkHeader cap) stream

def extendStream (cap : UInt32) (f : Framed UInt8) (bytes : List UInt8) : Framed UInt8 :=
  f.extend usMessageHeaderSize (checkHeader cap) bytes

/-- The bytes that arrive before the end of the stream or an error. -/
def streamOf : List Arrival → List UInt8
  | [] => []
  | .data b bs :: arrivals => b :: bs ++ streamOf arrivals
  | .again :: arrivals => streamOf arrivals
  | .intr :: arrivals => streamOf arrivals
  | .eof :: _ => []
  | .fail :: _ => []

/-- What the first end of the stream or error leaves in store; `none` when neither is
among the arrivals. -/
def ending : List Arrival → Option (List Arrival)
  | [] => none
  | .data _ _ :: arrivals => ending arrivals
  | .again :: arrivals => ending arrivals
  | .intr :: arrivals => ending arrivals
  | .eof :: arrivals => some (.eof :: arrivals)
  | .fail :: arrivals => some arrivals

/-- Forget the start of a message. -/
def forget (f : Framed UInt8) : Framed UInt8 :=
  match f.tail with
  | .waiting _ => ⟨f.frames, .waiting []⟩
  | .bad unread => ⟨f.frames, .bad unread⟩

/-- What the calls make of the arrivals. -/
def arrive (cap : UInt32) : Framed UInt8 → List Arrival → Framed UInt8
  | f, [] => forget f
  | f, .data b bs :: arrivals => arrive cap (extendStream cap f (b :: bs)) arrivals
  | f, .again :: arrivals => arrive cap (forget f) arrivals
  | f, .intr :: arrivals => arrive cap f arrivals
  | f, .eof :: _ => forget f
  | f, .fail :: _ => forget f

section Framing

variable {cap : UInt32}

@[simp] theorem forget_forget (f : Framed UInt8) : forget (forget f) = forget f := by
  obtain ⟨frames, start | unread⟩ := f <;> rfl

theorem headerSize_pos : 0 < usMessageHeaderSize := by
  rw [usMessageHeaderSize]
  omega

theorem extendStream_append (f : Framed UInt8) (bs cs : List UInt8) :
    extendStream cap f (bs ++ cs) = extendStream cap (extendStream cap f bs) cs :=
  extend_append headerSize_pos f bs cs

/-- From between two messages the bytes that follow are framed on their own. -/
theorem extendStream_waiting_nil (frames : List (List UInt8)) (bs : List UInt8) :
    extendStream cap ⟨frames, .waiting []⟩ bs =
      ⟨frames ++ (frameStream cap bs).frames, (frameStream cap bs).tail⟩ := rfl

theorem arrive_bad (frames : List (List UInt8)) (unread : List UInt8) (arrivals : List Arrival) :
    arrive cap ⟨frames, .bad unread⟩ arrivals = ⟨frames, .bad (unread ++ streamOf arrivals)⟩ := by
  induction arrivals generalizing unread with
  | nil => simp [arrive, forget, streamOf]
  | cons arrival arrivals ih =>
      cases arrival with
      | data b bs =>
          rw [arrive, extendStream, Framed.extend, ih, streamOf, List.append_assoc]
      | again => exact ih unread
      | intr => exact ih unread
      | eof => simp [arrive, forget, streamOf]
      | fail => simp [arrive, forget, streamOf]

end Framing

section Reading

variable {cap : UInt32}

/-- What a `read` takes from the store. -/
inductive Reads (n : ℕ) (arrivals : List Arrival) : ReadResult → List Arrival → Prop where
  | bytes (bs : List UInt8) (arrivals' : List Arrival) (hpos : 0 < bs.length)
      (hle : bs.length ≤ n) (hweight : weight arrivals' + bs.length = weight arrivals)
      (hended : ending arrivals' = ending arrivals)
      (harrive : ∀ cap f, arrive cap f arrivals = arrive cap (extendStream cap f bs) arrivals') :
      Reads n arrivals (.bytes bs) arrivals'
  | empty (hnil : arrivals = []) : Reads n arrivals .again []
  | again (arrivals' : List Arrival) (hcons : arrivals = .again :: arrivals') :
      Reads n arrivals .again arrivals'
  | intr (arrivals' : List Arrival) (hcons : arrivals = .intr :: arrivals') :
      Reads n arrivals .intr arrivals'
  | eof (arrivals' : List Arrival) (hcons : arrivals = .eof :: arrivals') :
      Reads n arrivals .eof arrivals
  | fail (arrivals' : List Arrival) (hcons : arrivals = .fail :: arrivals') :
      Reads n arrivals .fail arrivals'

theorem reads_read {n : ℕ} (hn : 0 < n) (arrivals : List Arrival) :
    Reads n arrivals (read n arrivals).1 (read n arrivals).2 := by
  cases arrivals with
  | nil => exact .empty rfl
  | cons arrival arrivals =>
      cases arrival with
      | data b bs =>
          have hsplit := List.take_append_drop n (b :: bs)
          rcases hdrop : (b :: bs).drop n with _ | ⟨c, cs⟩
          · have hle : (b :: bs).length ≤ n := List.drop_eq_nil_iff.mp hdrop
            simp only [read, hdrop]
            refine .bytes (b :: bs) arrivals (by simp) hle ?_ rfl fun cap f => rfl
            rw [weight_cons, Arrival.weight, List.length_cons]
            omega
          · rw [hdrop] at hsplit
            have hlength := congrArg List.length hsplit
            have hlt : n < (b :: bs).length := by
              by_contra hge
              rw [List.drop_eq_nil_iff.mpr (Nat.not_lt.mp hge)] at hdrop
              cases hdrop
            have htake : ((b :: bs).take n).length = n := by
              rw [List.length_take]
              omega
            simp only [read, hdrop]
            refine .bytes ((b :: bs).take n) (.data c cs :: arrivals) (by omega) htake.le ?_ rfl
              fun cap f => ?_
            · simp only [List.length_append, List.length_cons] at hlength
              rw [weight_cons, weight_cons, Arrival.weight, Arrival.weight]
              omega
            · rw [arrive, arrive, ← extendStream_append, hsplit]
      | again => exact .again arrivals rfl
      | intr => exact .intr arrivals rfl
      | eof => exact .eof arrivals rfl
      | fail => exact .fail arrivals rfl

/-- How a loop that has `n` bytes to read ends. `bs` is what it read: all it was to
read, or less when it returns. -/
inductive LoopEnds (n : ℕ) (arrivals : List Arrival) (bs : List UInt8) :
    Exit → List Arrival → Prop where
  | filled (arrivals' : List Arrival) (hlen : bs.length = n)
      (hweight : weight arrivals' + bs.length ≤ weight arrivals)
      (hended : ending arrivals' = ending arrivals)
      (harrive : ∀ cap f start, arrive cap (extendStream cap f start) arrivals =
        arrive cap (extendStream cap f (start ++ bs)) arrivals') :
      LoopEnds n arrivals bs .filled arrivals'
  | again (arrivals' : List Arrival) (hlen : bs.length < n)
      (hless : arrivals' = [] ∨ weight arrivals' < weight arrivals)
      (hended : ending arrivals' = ending arrivals)
      (harrive : ∀ cap f start, arrive cap (extendStream cap f start) arrivals =
        arrive cap (forget (extendStream cap f (start ++ bs))) arrivals') :
      LoopEnds n arrivals bs (.returns 0) arrivals'
  | closed (arrivals' : List Arrival) (hlen : bs.length < n)
      (hended : ending arrivals = some arrivals')
      (harrive : ∀ cap f start, arrive cap (extendStream cap f start) arrivals =
        forget (extendStream cap f (start ++ bs))) :
      LoopEnds n arrivals bs (.returns (-1)) arrivals'

theorem LoopEnds.cons {n : ℕ} {arrivals arrivals' arrivals'' : List Arrival} {bs cs : List UInt8}
    {exit : Exit} (hle : bs.length ≤ n) (hweight : weight arrivals' + bs.length ≤ weight arrivals)
    (hended : ending arrivals' = ending arrivals)
    (harrive : ∀ cap f start, arrive cap (extendStream cap f start) arrivals =
      arrive cap (extendStream cap f (start ++ bs)) arrivals')
    (h : LoopEnds (n - bs.length) arrivals' cs exit arrivals'') :
    LoopEnds n arrivals (bs ++ cs) exit arrivals'' := by
  have happend : (bs ++ cs).length = bs.length + cs.length := List.length_append
  cases h with
  | filled _ hlen hweight' hended' harrive' =>
      refine .filled _ (by omega) (by omega) (hended'.trans hended) fun cap f start => ?_
      rw [harrive, harrive', List.append_assoc]
  | again _ hlen hless hended' harrive' =>
      refine .again _ (by omega) (hless.imp_right fun _ => by omega) (hended'.trans hended)
        fun cap f start => ?_
      rw [harrive, harrive', List.append_assoc]
  | closed _ hlen hended' harrive' =>
      refine .closed _ (by omega) (hended.symm.trans hended') fun cap f start => ?_
      rw [harrive, harrive', List.append_assoc]

theorem LoopEnds.intr {n : ℕ} {arrivals arrivals' : List Arrival} {bs : List UInt8} {exit : Exit}
    (h : LoopEnds n arrivals bs exit arrivals') :
    LoopEnds n (.intr :: arrivals) bs exit arrivals' := by
  cases h with
  | filled _ hlen hweight hended harrive =>
      exact .filled _ hlen (by rw [weight_cons]; omega) hended harrive
  | again _ hlen hless hended harrive =>
      exact .again _ hlen (hless.imp_right fun _ => by rw [weight_cons]; omega) hended harrive
  | closed _ hlen hended harrive => exact .closed _ hlen hended harrive

theorem blit_of_le {buf bs : List UInt8} {offset : ℕ} (h : offset + bs.length ≤ buf.length) :
    ∃ buf', blit buf offset bs = some buf' ∧ buf'.length = buf.length ∧
      buf'.take (offset + bs.length) = buf.take offset ++ bs := by
  have htake : (buf.take offset ++ bs).length = offset + bs.length := by
    rw [List.length_append, List.length_take]
    omega
  refine ⟨_, if_pos h, ?_, ?_⟩
  · rw [List.length_append, htake, List.length_drop]
    omega
  · rw [← htake, List.take_left]

theorem readLoop_spec (base size : ℕ) {fuel got : ℕ} {buf : List UInt8} {arrivals : List Arrival}
    (hfuel : weight arrivals < fuel) (hgot : got ≤ size) (hbuf : base + size ≤ buf.length) :
    ∃ exit buf' arrivals' bs,
      readLoop base size fuel got buf arrivals = some (exit, buf', arrivals') ∧
      buf'.length = buf.length ∧
      buf'.take (base + got + bs.length) = buf.take (base + got) ++ bs ∧
      LoopEnds (size - got) arrivals bs exit arrivals' := by
  induction fuel generalizing got buf arrivals with
  | zero => omega
  | succ fuel ih =>
      rcases Nat.lt_or_ge got size with hlt | hge
      · have hread := reads_read (by omega : 0 < size - got) arrivals
        rw [readLoop, if_pos hlt]
        obtain ⟨result, arrivals', hresult⟩ :
          ∃ result arrivals', read (size - got) arrivals = (result, arrivals') := ⟨_, _, rfl⟩
        rw [hresult] at hread ⊢
        simp only at hread
        have hnone : ([] : List UInt8).length < size - got := by
          rw [List.length_nil]
          omega
        have hstop : buf.take (base + got + ([] : List UInt8).length) =
            buf.take (base + got) ++ [] := by simp
        cases hread with
        | bytes bs _ hpos hle hweight hended harrive =>
            obtain ⟨buf', hblit, hlen, htake⟩ :=
              blit_of_le (show base + got + bs.length ≤ buf.length by omega)
            obtain ⟨exit, buf'', arrivals'', cs, hloop, hlen', htake', hends⟩ :=
              ih (show weight arrivals' < fuel by omega) (show got + bs.length ≤ size by omega)
                (show base + size ≤ buf'.length by omega)
            refine ⟨exit, buf'', arrivals'', bs ++ cs, by simp only [hblit, hloop], by omega,
              ?_, ?_⟩
            · rw [← Nat.add_assoc] at htake'
              rw [List.length_append, ← Nat.add_assoc, htake', htake, List.append_assoc]
            · rw [← Nat.sub_sub] at hends
              refine hends.cons hle hweight.le hended fun cap f start => ?_
              rw [harrive, extendStream_append]
        | empty hnil =>
            refine ⟨_, buf, [], [], rfl, rfl, hstop, ?_⟩
            subst hnil
            refine .again [] hnone (Or.inl rfl) rfl fun cap f start => ?_
            rw [arrive, arrive, forget_forget, List.append_nil]
        | again _ hcons =>
            subst hcons
            refine ⟨_, buf, _, [], rfl, rfl, hstop, ?_⟩
            refine .again _ hnone (Or.inr ?_) rfl fun cap f start => ?_
            · rw [weight_cons, Arrival.weight]
              omega
            · rw [arrive, List.append_nil]
        | intr _ hcons =>
            subst hcons
            rw [weight_cons, Arrival.weight] at hfuel
            obtain ⟨exit, buf', arrivals'', bs, hloop, hlen, htake, hends⟩ :=
              ih (show weight arrivals' < fuel by omega) hgot hbuf
            exact ⟨exit, buf', arrivals'', bs, hloop, hlen, htake, hends.intr⟩
        | eof _ hcons =>
            subst hcons
            refine ⟨_, buf, _, [], rfl, rfl, hstop, ?_⟩
            refine .closed _ hnone rfl fun cap f start => ?_
            rw [arrive, List.append_nil]
        | fail _ hcons =>
            subst hcons
            refine ⟨_, buf, _, [], rfl, rfl, hstop, ?_⟩
            refine .closed _ hnone rfl fun cap f start => ?_
            rw [arrive, List.append_nil]
      · refine ⟨.filled, buf, arrivals, [], ?_, rfl, by simp, ?_⟩
        · rw [readLoop, if_neg (by omega)]
        · exact .filled _ (by rw [List.length_nil]; omega) (by simp) rfl fun cap f start => by
            rw [List.append_nil]

end Reading

section Calls

variable {cap : UInt32}

theorem readU32Be_take (buf : List UInt8) {n offset : ℕ} (h : offset + 4 ≤ n) :
    readU32Be (buf.take n) offset = readU32Be buf offset := by
  have hget : ∀ i < n, (buf.take n).getD i 0 = buf.getD i 0 := by
    intro i hi
    rw [List.getD_eq_getElem?_getD, List.getElem?_take_of_lt hi, List.getD_eq_getElem?_getD]
  rw [readU32Be, hget _ (by omega), hget _ (by omega), hget _ (by omega), hget _ (by omega),
    readU32Be]

theorem checkHeader_take (buf : List UInt8) :
    checkHeader cap (buf.take usMessageHeaderSize) = checkHeader cap buf := by
  have hmagic : usMessageOffsetMagic + 4 ≤ usMessageHeaderSize := by decide
  have hlen : usMessageOffsetLen + 4 ≤ usMessageHeaderSize := by decide
  rw [checkHeader, checkHeader, readU32Be_take buf hmagic, readU32Be_take buf hlen]

/-- The header that `read_from_client` accepts, in numbers. -/
theorem checkHeader_eq_some {header : List UInt8} {len : ℕ} (hcap : usMessageHeaderSize ≤ cap.toNat)
    (h : checkHeader cap header = some len) :
    len = (readU32Be header usMessageOffsetLen).toNat ∧ usMessageHeaderSize + len ≤ cap.toNat := by
  rw [checkHeader] at h
  split at h
  · cases h
  · split at h
    · cases h
    · rename_i hlen
      cases h
      refine ⟨rfl, ?_⟩
      have hsub : (cap - UInt32.ofNat usMessageHeaderSize).toNat =
          cap.toNat - usMessageHeaderSize :=
        UInt32.toNat_sub_of_le _ _ (UInt32.le_iff_toNat_le.mpr hcap)
      rw [gt_iff_lt, UInt32.lt_iff_toNat_lt, hsub] at hlen
      omega

theorem extendStream_nil (frames : List (List UInt8)) :
    extendStream cap ⟨frames, .waiting []⟩ [] = ⟨frames, .waiting []⟩ := by
  have hnil : frameStream cap [] = ⟨[], .waiting []⟩ := frame_of_short headerSize_pos headerSize_pos
  rw [extendStream_waiting_nil, hnil, List.append_nil]

/-- How a call of `read_from_client` ends that starts between two messages: it used
up what had arrived, met the end of the stream or an error, or met a bad header. -/
inductive CallEnds (cap : UInt32) (arrivals : List Arrival) (out : Received) : Prop where
  | again (hexit : out.exit = .returns 0)
      (hless : out.arrivals = [] ∨ weight out.arrivals < weight arrivals)
      (hended : ending out.arrivals = ending arrivals)
      (harrive : ∀ frames, arrive cap ⟨frames, .waiting []⟩ arrivals =
        arrive cap ⟨frames ++ out.messages, .waiting []⟩ out.arrivals)
  | ended (hexit : out.exit = .returns (-1)) (hended : ending arrivals = some out.arrivals)
      (harrive : ∀ frames, arrive cap ⟨frames, .waiting []⟩ arrivals =
        ⟨frames ++ out.messages, .waiting []⟩)
  | bad (hexit : out.exit = .returns (-1))
      (harrive : ∀ frames, arrive cap ⟨frames, .waiting []⟩ arrivals =
        ⟨frames ++ out.messages, .bad (streamOf out.arrivals)⟩)

theorem LoopEnds.callEnds {n : ℕ} {arrivals arrivals₀ arrivals' : List Arrival}
    {start bs buf : List UInt8} {rc : ℤ} (h : LoopEnds n arrivals bs (.returns rc) arrivals')
    (hweight : weight arrivals ≤ weight arrivals₀) (hended : ending arrivals = ending arrivals₀)
    (hstart : ∀ frames, arrive cap ⟨frames, .waiting []⟩ arrivals₀ =
      arrive cap (extendStream cap ⟨frames, .waiting []⟩ start) arrivals)
    (hwait : bs.length < n → frameStream cap (start ++ bs) = ⟨[], .waiting (start ++ bs)⟩) :
    CallEnds cap arrivals₀ ⟨.returns rc, buf, [], arrivals'⟩ := by
  cases h with
  | again _ hlen hless hended' harrive =>
      refine .again rfl (hless.imp_right fun _ => by simp only; omega) (hended'.trans hended)
        fun frames => ?_
      rw [hstart, harrive, extendStream_waiting_nil, hwait hlen]
      rfl
  | closed _ hlen hended' harrive =>
      refine .ended rfl (hended.symm.trans hended') fun frames => ?_
      rw [hstart, harrive, extendStream_waiting_nil, hwait hlen]
      rfl

theorem CallEnds.cons {arrivals arrivals' : List Arrival} {out : Received} {message : List UInt8}
    (h : CallEnds cap arrivals' out) (hweight : weight arrivals' ≤ weight arrivals)
    (hended : ending arrivals' = ending arrivals)
    (harrive : ∀ frames, arrive cap ⟨frames, .waiting []⟩ arrivals =
      arrive cap ⟨frames ++ [message], .waiting []⟩ arrivals') :
    CallEnds cap arrivals { out with messages := message :: out.messages } := by
  cases h with
  | again hexit hless hended' harrive' =>
      refine .again hexit (hless.imp_right fun _ => by simp only; omega) (hended'.trans hended)
        fun frames => ?_
      rw [harrive, harrive', List.append_assoc, List.singleton_append]
  | ended hexit hended' harrive' =>
      refine .ended hexit (hended.symm.trans hended') fun frames => ?_
      rw [harrive, harrive', List.append_assoc, List.singleton_append]
  | bad hexit harrive' =>
      refine .bad hexit fun frames => ?_
      rw [harrive, harrive', List.append_assoc, List.singleton_append]

theorem readFromClientLoop_filled (hcap : usMessageHeaderSize ≤ cap.toNat) {fuel : ℕ}
    {buf buf' : List UInt8} {arrivals arrivals' : List Arrival}
    (hloop : readLoop 0 usMessageHeaderSize fuel 0 buf arrivals = some (.filled, buf', arrivals')) :
    readFromClientLoop cap (fuel + 1) buf arrivals =
      match checkHeader cap buf' with
      | none => some ⟨.returns (-1), buf', [], arrivals'⟩
      | some len =>
          match readLoop usMessageHeaderSize len fuel 0 buf' arrivals' with
          | none => none
          | some (.returns rc, buf, arrivals) => some ⟨.returns rc, buf, [], arrivals⟩
          | some (.fault, buf, arrivals) => some ⟨.fault, buf, [], arrivals⟩
          | some (.filled, buf, arrivals) =>
              (readFromClientLoop cap fuel buf arrivals).map fun out =>
                { out with messages := buf.take (usMessageHeaderSize + len) :: out.messages } := by
  rw [readFromClientLoop, hloop]
  by_cases hmagic : readU32Be buf' usMessageOffsetMagic = usMessageMagic
  · by_cases hlen : readU32Be buf' usMessageOffsetLen > cap - UInt32.ofNat usMessageHeaderSize
    · simp only [checkHeader, hmagic, ne_eq, not_true_eq_false, if_false, if_pos hlen]
    · have hcheck : checkHeader cap buf' = some (readU32Be buf' usMessageOffsetLen).toNat := by
        rw [checkHeader, if_neg (not_not.mpr hmagic), if_neg hlen]
      obtain ⟨-, hfit⟩ := checkHeader_eq_some hcap hcheck
      have hused : (UInt32.ofNat usMessageHeaderSize + readU32Be buf' usMessageOffsetLen).toNat =
          usMessageHeaderSize + (readU32Be buf' usMessageOffsetLen).toNat := by
        have hlt := cap.toNat_lt
        rw [UInt32.toNat_add]
        exact Nat.mod_eq_of_lt (lt_of_le_of_lt hfit hlt)
      rcases hread : readLoop usMessageHeaderSize (readU32Be buf' usMessageOffsetLen).toNat fuel 0
        buf' arrivals' with _ | ⟨exit, buf'', arrivals''⟩
      · simp only [hcheck, hmagic, ne_eq, not_true_eq_false, if_false, if_neg hlen, hread]
      · cases exit <;>
          simp only [hcheck, hmagic, ne_eq, not_true_eq_false, if_false, if_neg hlen, hread, hused]
  · simp only [checkHeader, if_pos hmagic]

theorem readFromClientLoop_spec (hcap : usMessageHeaderSize ≤ cap.toNat) {fuel : ℕ}
    {buf : List UInt8} {arrivals : List Arrival} (hfuel : weight arrivals + 2 ≤ fuel)
    (hbuf : buf.length = cap.toNat) :
    ∃ out, readFromClientLoop cap fuel buf arrivals = some out ∧ out.buf.length = cap.toNat ∧
      CallEnds cap arrivals out := by
  induction fuel generalizing buf arrivals with
  | zero => omega
  | succ fuel ih =>
      obtain ⟨exit, buf₁, arrivals₁, header, hloop, hlen₁, htake, hends⟩ :=
        readLoop_spec 0 usMessageHeaderSize (show weight arrivals < fuel by omega) (Nat.zero_le _)
          (show 0 + usMessageHeaderSize ≤ buf.length by omega)
      simp only [Nat.zero_add, List.take_zero, List.nil_append] at htake
      rw [Nat.sub_zero] at hends
      have hnil : ∀ frames, arrive cap ⟨frames, .waiting []⟩ arrivals =
          arrive cap (extendStream cap ⟨frames, .waiting []⟩ []) arrivals := fun frames => by
        rw [extendStream_nil]
      cases exit with
      | returns rc =>
          rw [readFromClientLoop, hloop]
          exact ⟨_, rfl, hlen₁.trans hbuf, hends.callEnds le_rfl rfl hnil fun hshort =>
            frame_of_short headerSize_pos hshort⟩
      | fault => cases hends
      | filled =>
          cases hends with
          | filled _ hlen hweight hended harrive =>
              rw [hlen] at htake
              have hheader : checkHeader cap buf₁ = checkHeader cap header := by
                rw [← htake, checkHeader_take]
              have hfull : header.take usMessageHeaderSize = header :=
                List.take_of_length_le hlen.le
              rw [readFromClientLoop_filled hcap hloop, hheader]
              rcases hcheck : checkHeader cap header with _ | len
              · refine ⟨_, rfl, hlen₁.trans hbuf, .bad rfl fun frames => ?_⟩
                have hbad : frameStream cap header = ⟨[], .bad []⟩ := by
                  rw [frameStream, frame_of_bad headerSize_pos hlen.ge (by rw [hfull, hcheck]),
                    List.drop_of_length_le hlen.le]
                rw [hnil, harrive, List.nil_append, extendStream_waiting_nil, hbad, arrive_bad]
                rfl
              · obtain ⟨-, hfit⟩ := checkHeader_eq_some hcap hcheck
                obtain ⟨exit, buf₂, arrivals₂, payload, hloop₂, hlen₂, htake₂, hends₂⟩ :=
                  readLoop_spec usMessageHeaderSize len (show weight arrivals₁ < fuel by omega)
                    (Nat.zero_le _) (show usMessageHeaderSize + len ≤ buf₁.length by omega)
                rw [Nat.sub_zero] at hends₂
                rw [Nat.add_zero, htake] at htake₂
                have hstart : ∀ frames, arrive cap ⟨frames, .waiting []⟩ arrivals =
                    arrive cap (extendStream cap ⟨frames, .waiting []⟩ header) arrivals₁ :=
                  fun frames => by rw [hnil, harrive, List.nil_append]
                have hcheck' : ∀ bs, checkHeader cap ((header ++ bs).take usMessageHeaderSize) =
                    some len := fun bs => by
                  rw [List.take_append_of_le_length hlen.ge, hfull, hcheck]
                simp only [hloop₂]
                cases exit with
                | returns rc =>
                    refine ⟨_, rfl, hlen₂.trans (hlen₁.trans hbuf),
                      hends₂.callEnds (by omega) hended hstart fun hcut => ?_⟩
                    exact frame_of_cut headerSize_pos (by rw [List.length_append]; omega)
                      (hcheck' payload) (by rw [List.length_append]; omega)
                | fault => cases hends₂
                | filled =>
                    cases hends₂ with
                    | filled _ hlen' hweight' hended' harrive' =>
                        have hpos := headerSize_pos
                        obtain ⟨out, hout, houtlen, hcall⟩ :=
                          ih (show weight arrivals₂ + 2 ≤ fuel by omega)
                            (hlen₂.trans (hlen₁.trans hbuf))
                        simp only [hout, Option.map_some]
                        refine ⟨_, rfl, houtlen, hcall.cons (by omega) (hended'.trans hended)
                          fun frames => ?_⟩
                        have hmessage : frameStream cap (header ++ payload) =
                            ⟨[header ++ payload], .waiting []⟩ :=
                          frame_message headerSize_pos (hcheck' payload)
                            (by rw [List.length_append]; omega)
                        rw [hlen'] at htake₂
                        rw [hstart, harrive', extendStream_waiting_nil, hmessage, htake₂]

/-- A connection between two messages, with its buffer of at least a header. -/
structure Receiving (connection : UsConn) : Prop where
  header_le : usMessageHeaderSize ≤ connection.cap.toNat
  buf_length : ∃ buf, connection.buf = .block buf ∧ buf.length = connection.cap.toNat

theorem readFromClient_spec {connection : UsConn} (hconn : Receiving connection)
    (arrivals : List Arrival) :
    ∃ out connection', readFromClient connection arrivals = some (out, connection') ∧
      Receiving connection' ∧ connection'.cap = connection.cap ∧
      CallEnds connection.cap arrivals out := by
  obtain ⟨hcap, buf, hbuf, hlen⟩ := hconn
  obtain ⟨out, hout, houtlen, hcall⟩ := readFromClientLoop_spec hcap le_rfl hlen
  refine ⟨out, { connection with
    buf := .block out.buf
    used := if out.messages = [] then connection.used else 0 }, ?_,
    ⟨hcap, out.buf, rfl, houtlen⟩, rfl, hcall⟩
  simp only [readFromClient, hbuf, hout, Option.map_some]

/-- How the calls end when the framing of the stream ends with `tail`: closed right
behind a bad header, else closed right at the end of the stream or the error, else
open. -/
def Served.EndsWith (served : Served) (arrivals : List Arrival) (tail : Tail UInt8) : Prop :=
  match tail with
  | .bad unread => served.closed = true ∧ streamOf served.arrivals = unread
  | .waiting _ =>
      match ending arrivals with
      | some left => served.closed = true ∧ served.arrivals = left
      | none => served.closed = false

theorem weight_pos (arrival : Arrival) : 0 < arrival.weight := by
  cases arrival with
  | data b bs => exact Nat.succ_pos _
  | _ => exact Nat.one_pos

/-- The calls on a connection come to what `arrive` makes of the arrivals. -/
theorem serve_spec {fuel : ℕ} {connection : UsConn} (hconn : Receiving connection)
    {arrivals : List Arrival} (hfuel : weight arrivals < fuel) :
    ∃ served tail, serve fuel connection arrivals = some served ∧
      (∀ frames, arrive connection.cap ⟨frames, .waiting []⟩ arrivals =
        ⟨frames ++ served.messages, tail⟩) ∧
      served.EndsWith arrivals tail := by
  induction fuel generalizing connection arrivals with
  | zero => omega
  | succ fuel ih =>
      cases arrivals with
      | nil =>
          refine ⟨⟨false, [], []⟩, .waiting [], rfl, fun frames => ?_, rfl⟩
          rw [List.append_nil]
          rfl
      | cons arrival arrivals =>
          obtain ⟨⟨exit, buf, messages, arrivals'⟩, connection', hcall, hconn', hcap, hends⟩ :=
            readFromClient_spec hconn (arrival :: arrivals)
          rw [serve, hcall]
          cases hends with
          | again hexit hless hended harrive =>
              cases hexit
              have hpos := weight_pos arrival
              rw [weight_cons] at hfuel
              have hfuel' : weight arrivals' < fuel := by
                rcases hless with hnil | hless
                · simp only at hnil
                  rw [hnil, weight_nil]
                  omega
                · rw [weight_cons] at hless
                  simp only at hless
                  omega
              obtain ⟨served, tail, hserved, hserves, hends⟩ := ih hconn' hfuel'
              rw [hcap] at hserves
              refine ⟨{ served with messages := messages ++ served.messages }, tail,
                by simp [hserved], fun frames => ?_, ?_⟩
              · rw [harrive, hserves, List.append_assoc]
              · unfold Served.EndsWith at hends ⊢
                rwa [← hended]
          | ended hexit hended harrive =>
              cases hexit
              refine ⟨⟨true, messages, arrivals'⟩, _, rfl, harrive, ?_⟩
              rw [Served.EndsWith, hended]
              exact ⟨rfl, rfl⟩
          | bad hexit harrive =>
              cases hexit
              exact ⟨⟨true, messages, arrivals'⟩, _, rfl, harrive, rfl, rfl⟩

end Calls

end Server

end ConArtist
