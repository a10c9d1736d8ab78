import Mathlib.Data.List.Basic

/-!
# Framing a stream into messages

A stream of items is a sequence of messages. Each starts with a header of
`headerSize` items, from which `check` reads how many more items belong to the
message, or that the stream is not well formed. `frame` cuts a stream into its
messages and tells what is left: the start of a message that is still waiting for
items, or what follows a bad header.

`Framed.extend` frames the items that arrive later. Framing a stream in pieces gives
what framing it at once does (`frame_append`), and a message that has started is
told by the items to come (`exists_completion`).
-/

namespace Framing

/-- What is left of a stream after its messages. -/
inductive Tail (α : Type*) where
  | waiting (start : List α)
  | bad (unread : List α)

structure Framed (α : Type*) where
  frames : List (List α)
  tail : Tail α

variable {α : Type*} (headerSize : ℕ) (check : List α → Option ℕ)

/-- Cut at most `n` messages off the stream. -/
def frameUpTo : ℕ → List α → Framed α
  | 0, items => ⟨[], .waiting items⟩
  | n + 1, items =>
      if items.length < headerSize then ⟨[], .waiting items⟩
      else
        match check (items.take headerSize) with
        | none => ⟨[], .bad (items.drop headerSize)⟩
        | some len =>
            if items.length < headerSize + len then ⟨[], .waiting items⟩
            else
              let rest := frameUpTo n (items.drop (headerSize + len))
              ⟨items.take (headerSize + len) :: rest.frames, rest.tail⟩

/-- The messages of a stream and what is left. -/
def frame (items : List α) : Framed α := frameUpTo headerSize check items.length items

/-- Frame the items that follow. -/
def Framed.extend (f : Framed α) (items : List α) : Framed α :=
  match f.tail with
  | .waiting start =>
      ⟨f.frames ++ (frame headerSize check (start ++ items)).frames,
        (frame headerSize check (start ++ items)).tail⟩
  | .bad unread => ⟨f.frames, .bad (unread ++ items)⟩

variable {headerSize check} (hpos : 0 < headerSize)
include hpos

theorem frameUpTo_of_le {n : ℕ} {items : List α} (hn : items.length ≤ n) :
    frameUpTo headerSize check n items = frame headerSize check items := by
  induction n using Nat.strongRecOn generalizing items with
  | ind n ih =>
      rcases items with _ | ⟨x, items⟩
      · cases n with
        | zero => rfl
        | succ n =>
            have hnil : ([] : List α).length < headerSize := hpos
            rw [frameUpTo, if_pos hnil]
            rfl
      · obtain ⟨n, rfl⟩ : ∃ k, n = k + 1 := ⟨n - 1, by simp at hn; omega⟩
        rw [List.length_cons] at hn
        rw [frame, List.length_cons, frameUpTo, frameUpTo]
        have hrest : ∀ len, ((x :: items).drop (headerSize + len)).length ≤ items.length := by
          intro len
          rw [List.length_drop, List.length_cons]
          omega
        split
        · rfl
        · split
          · rfl
          · split
            · rfl
            · rw [ih n (by omega) (Nat.le_trans (hrest _) (by omega))]
              rcases Nat.lt_or_ge items.length (n + 1) with hlt | hge
              · rw [ih items.length hlt (hrest _)]
              · omega

theorem frame_eq (items : List α) :
    frame headerSize check items =
      if items.length < headerSize then ⟨[], .waiting items⟩
      else
        match check (items.take headerSize) with
        | none => ⟨[], .bad (items.drop headerSize)⟩
        | some len =>
            if items.length < headerSize + len then ⟨[], .waiting items⟩
            else
              ⟨items.take (headerSize + len) ::
                (frame headerSize check (items.drop (headerSize + len))).frames,
                (frame headerSize check (items.drop (headerSize + len))).tail⟩ := by
  rw [← frameUpTo_of_le hpos (Nat.le_succ items.length), frameUpTo]
  split
  · rfl
  · split
    · rfl
    · split
      · rfl
      · rw [frameUpTo_of_le hpos (by rw [List.length_drop]; omega)]

theorem frame_of_short {items : List α} (h : items.length < headerSize) :
    frame headerSize check items = ⟨[], .waiting items⟩ := by
  rw [frame_eq hpos, if_pos h]

theorem frame_of_bad {items : List α} (h : headerSize ≤ items.length)
    (hcheck : check (items.take headerSize) = none) :
    frame headerSize check items = ⟨[], .bad (items.drop headerSize)⟩ := by
  rw [frame_eq hpos, if_neg (by omega), hcheck]

theorem frame_of_cut {items : List α} {len : ℕ} (h : headerSize ≤ items.length)
    (hcheck : check (items.take headerSize) = some len) (hlen : items.length < headerSize + len) :
    frame headerSize check items = ⟨[], .waiting items⟩ := by
  rw [frame_eq hpos, if_neg (by omega), hcheck]
  exact if_pos hlen

theorem frame_message_append {message rest : List α} {len : ℕ}
    (hcheck : check (message.take headerSize) = some len)
    (hlen : message.length = headerSize + len) :
    frame headerSize check (message ++ rest) =
      ⟨message :: (frame headerSize check rest).frames, (frame headerSize check rest).tail⟩ := by
  rw [frame_eq hpos, if_neg (by rw [List.length_append]; omega),
    List.take_append_of_le_length (by omega), hcheck]
  simp only
  rw [if_neg (by rw [List.length_append]; omega), ← hlen, List.take_left, List.drop_left]

theorem frame_message {message : List α} {len : ℕ}
    (hcheck : check (message.take headerSize) = some len)
    (hlen : message.length = headerSize + len) :
    frame headerSize check message = ⟨[message], .waiting []⟩ := by
  have hrest : frame headerSize check ([] : List α) = ⟨[], .waiting []⟩ := frame_of_short hpos hpos
  have h : frame headerSize check (message ++ []) = _ := frame_message_append hpos hcheck hlen
  rwa [List.append_nil, hrest] at h

/-- The cases of a stream: no message at its front yet, a bad header, or a message. -/
theorem frame_cases (items : List α) :
    frame headerSize check items = ⟨[], .waiting items⟩ ∨
    (headerSize ≤ items.length ∧ check (items.take headerSize) = none) ∨
    ∃ message rest len, items = message ++ rest ∧
      check (message.take headerSize) = some len ∧ message.length = headerSize + len := by
  rcases Nat.lt_or_ge items.length headerSize with hshort | hheader
  · exact Or.inl (frame_of_short hpos hshort)
  · rcases hcheck : check (items.take headerSize) with _ | len
    · exact Or.inr (Or.inl ⟨hheader, rfl⟩)
    · rcases Nat.lt_or_ge items.length (headerSize + len) with hcut | hfull
      · exact Or.inl (frame_of_cut hpos hheader hcheck hcut)
      · refine Or.inr (Or.inr ⟨items.take (headerSize + len), items.drop (headerSize + len), len,
          (List.take_append_drop _ _).symm, ?_, ?_⟩)
        · rw [List.take_take, Nat.min_eq_left (Nat.le_add_right _ _), hcheck]
        · rw [List.length_take, Nat.min_eq_left hfull]

variable (check) in
theorem frame_induction {P : List α → Prop} (items : List α)
    (wait : ∀ items, frame headerSize check items = ⟨[], .waiting items⟩ → P items)
    (bad : ∀ items, headerSize ≤ items.length → check (items.take headerSize) = none → P items)
    (message : ∀ message rest len, check (message.take headerSize) = some len →
      message.length = headerSize + len → P rest → P (message ++ rest)) : P items := by
  induction hn : items.length using Nat.strongRecOn generalizing items with
  | ind n ih =>
      rcases frame_cases hpos items with hwait | ⟨hheader, hcheck⟩ |
        ⟨first, rest, len, rfl, hcheck, hlen⟩
      · exact wait items hwait
      · exact bad items hheader hcheck
      · rw [List.length_append] at hn
        exact message first rest len hcheck hlen (ih rest.length (by omega) rest rfl)

theorem frame_of_waiting {items start : List α}
    (h : (frame headerSize check items).tail = .waiting start) :
    frame headerSize check start = ⟨[], .waiting start⟩ := by
  induction items using frame_induction check hpos with
  | wait items hwait =>
      rw [hwait] at h
      cases h
      exact hwait
  | bad items hheader hcheck =>
      rw [frame_of_bad hpos hheader hcheck] at h
      cases h
  | message message rest len hcheck hlen ih =>
      rw [frame_message_append hpos hcheck hlen] at h
      exact ih h

theorem eq_flatten_append {items start : List α} {frames : List (List α)}
    (h : frame headerSize check items = ⟨frames, .waiting start⟩) :
    items = frames.flatten ++ start ∧
      frame headerSize check frames.flatten = ⟨frames, .waiting []⟩ := by
  induction items using frame_induction check hpos generalizing frames with
  | wait items hwait =>
      rw [hwait] at h
      cases h
      exact ⟨rfl, frame_of_short hpos hpos⟩
  | bad items hheader hcheck =>
      rw [frame_of_bad hpos hheader hcheck] at h
      cases h
  | message message rest len hcheck hlen ih =>
      rw [frame_message_append hpos hcheck hlen] at h
      have htail : (frame headerSize check rest).tail = .waiting start := congrArg Framed.tail h
      have hrest : frame headerSize check rest =
          ⟨(frame headerSize check rest).frames, .waiting start⟩ := by rw [← htail]
      obtain ⟨hitems, hframe⟩ := ih hrest
      cases congrArg Framed.frames h
      rw [List.flatten_cons, List.append_assoc, ← hitems, frame_message_append hpos hcheck hlen,
        hframe]
      exact ⟨rfl, rfl⟩

theorem length_flatten_le (items : List α) :
    (frame headerSize check items).frames.flatten.length ≤ items.length := by
  induction items using frame_induction check hpos with
  | wait items hwait =>
      rw [hwait]
      exact Nat.zero_le _
  | bad items hheader hcheck =>
      rw [frame_of_bad hpos hheader hcheck]
      exact Nat.zero_le _
  | message message rest len hcheck hlen ih =>
      rw [frame_message_append hpos hcheck hlen, List.flatten_cons, List.length_append,
        List.length_append]
      exact Nat.add_le_add_left ih _

theorem length_le_of_mem_frames {items message : List α}
    (h : message ∈ (frame headerSize check items).frames) : message.length ≤ items.length :=
  Nat.le_trans (List.sublist_flatten_of_mem h).length_le (length_flatten_le hpos items)

theorem frame_append (items more : List α) :
    frame headerSize check (items ++ more) =
      (frame headerSize check items).extend headerSize check more := by
  induction items using frame_induction check hpos with
  | wait items hwait =>
      rw [hwait]
      rfl
  | bad items hheader hcheck =>
      rw [frame_of_bad hpos hheader hcheck, frame_of_bad hpos]
      · simp only [Framed.extend, List.drop_append_of_le_length hheader]
      · rw [List.length_append]
        omega
      · rwa [List.take_append_of_le_length hheader]
  | message message rest len hcheck hlen ih =>
      rw [List.append_assoc, frame_message_append hpos hcheck hlen,
        frame_message_append hpos hcheck hlen, ih]
      rcases htail : (frame headerSize check rest).tail with start | unread <;>
        simp only [Framed.extend, htail, List.cons_append]

theorem extend_append (f : Framed α) (items more : List α) :
    f.extend headerSize check (items ++ more) =
      (f.extend headerSize check items).extend headerSize check more := by
  obtain ⟨frames, start | unread⟩ := f
  · simp only [Framed.extend]
    rw [← List.append_assoc, frame_append hpos (start ++ items) more]
    rcases htail : (frame headerSize check (start ++ items)).tail with start' | unread <;>
      simp only [Framed.extend, htail, List.append_assoc]
  · simp only [Framed.extend, List.append_assoc]

/-- A message that has started is told by items to come: with them either its
header is bad, or the message is complete. -/
theorem exists_completion [Inhabited α] {start : List α} (hstart : start ≠ [])
    (h : frame headerSize check start = ⟨[], .waiting start⟩) :
    ∃ more, more ≠ [] ∧
      ((∃ unread, frame headerSize check (start ++ more) = ⟨[], .bad unread⟩) ∧
          more.length < headerSize ∨
        frame headerSize check (start ++ more) = ⟨[start ++ more], .waiting []⟩) := by
  have hlength := List.length_pos_iff.mpr hstart
  -- items to the end of the message, once its header is there
  have hmessage : ∀ header len, headerSize ≤ header.length →
      check (header.take headerSize) = some len → header.length < headerSize + len →
      frame headerSize check (header ++ List.replicate (headerSize + len - header.length) default) =
        ⟨[header ++ List.replicate (headerSize + len - header.length) default], .waiting []⟩ := by
    intro header len hheader hcheck hcut
    have hlen : (header ++ List.replicate (headerSize + len - header.length) default).length =
        headerSize + len := by
      rw [List.length_append, List.length_replicate]
      omega
    exact frame_message hpos (by rwa [List.take_append_of_le_length hheader]) hlen
  rcases Nat.lt_or_ge start.length headerSize with hshort | hheader
  · obtain ⟨header, hdef⟩ : ∃ header, header =
      start ++ List.replicate (headerSize - start.length) default := ⟨_, rfl⟩
    have hfull : header.length = headerSize := by
      rw [hdef, List.length_append, List.length_replicate]
      omega
    have hpad : List.replicate (headerSize - start.length) (default : α) ≠ [] := by
      rw [← List.length_pos_iff, List.length_replicate]
      omega
    rcases hcheck : check (header.take headerSize) with _ | len
    · refine ⟨_, hpad, Or.inl ⟨⟨[], ?_⟩, ?_⟩⟩
      · rw [← hdef, frame_of_bad hpos (Nat.le_of_eq hfull.symm) hcheck,
          List.drop_of_length_le (Nat.le_of_eq hfull)]
      · rw [List.length_replicate]
        omega
    · rcases Nat.eq_zero_or_pos len with rfl | hlen
      · exact ⟨_, hpad, Or.inr (by rw [← hdef]; exact frame_message hpos hcheck hfull)⟩
      · refine ⟨List.replicate (headerSize - start.length) default ++
          List.replicate (headerSize + len - header.length) default, ?_, Or.inr ?_⟩
        · exact List.append_ne_nil_of_left_ne_nil hpad _
        · rw [← List.append_assoc, ← hdef]
          exact hmessage header len (Nat.le_of_eq hfull.symm) hcheck (by omega)
  · rcases hcheck : check (start.take headerSize) with _ | len
    · rw [frame_of_bad hpos hheader hcheck] at h
      cases h
    · rcases Nat.lt_or_ge start.length (headerSize + len) with hcut | hwhole
      · refine ⟨List.replicate (headerSize + len - start.length) default, ?_,
          Or.inr (hmessage start len hheader hcheck hcut)⟩
        rw [← List.length_pos_iff, List.length_replicate]
        omega
      · rw [frame_eq hpos, if_neg (by omega), hcheck] at h
        simp only [if_neg (Nat.not_lt.mpr hwhole)] at h
        cases h

end Framing
