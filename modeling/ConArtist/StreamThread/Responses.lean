import ConArtist.Channel.Queue
import ConArtist.StreamThread.Model

/-!
# The responses of the stream thread

A response is a pointer into the array of the active requests, to an element that has left the
part in use. What is there when the main thread reads it is the request that was answered when
the element was the last in use, for otherwise the last one has moved there, and when no
request was received into the element since. Then each response shows its own request with
its file, no request is answered twice, and none is lost from the array.
-/

namespace ConArtist

namespace StreamThread

open Machine
open StreamRequest (Parser FileView)

namespace Thread

variable {t t' : Thread}

/-- What the loops of `pop_known_request` find, from a place on. -/
theorem findKnown_eq_some {requests : List Copy} {k i j : ℕ}
    (h : t.findKnown k requests = some (i, j)) : ∃ n x, i = k + n ∧ requests[n]? = some x ∧
      t.findMapping x.userId = some j := by
  induction requests generalizing k with
  | nil => cases h
  | cons request requests ih =>
      rw [findKnown] at h
      cases hfind : t.findMapping request.userId with
      | some j' =>
          rw [hfind] at h
          cases h
          exact ⟨0, request, rfl, rfl, hfind⟩
      | none =>
          rw [hfind] at h
          obtain ⟨n, x, rfl, hx, hmapping⟩ := ih h
          exact ⟨n + 1, x, by omega, hx, hmapping⟩

/-- What `find_mapping` finds has the id. -/
theorem mapping_of_findMapping {userId : UInt64} {j : ℕ} (h : t.findMapping userId = some j) :
    ∃ m, t.mappings[j]? = some m ∧ m.id = userId := by
  obtain ⟨hlt, hid, -⟩ := List.findIdx?_eq_some_iff_getElem.mp h
  exact ⟨t.mappings[j], List.getElem?_eq_getElem hlt, of_decide_eq_true hid⟩

/-- The request that `pop_known_request` finds, and the array after it. -/
theorem popKnownRequest_eq_some {i j : ℕ} (h : t.popKnownRequest = some (some (i, j), t')) :
    ∃ x last, t.active[i]? = some x ∧ t.findMapping x.userId = some j ∧
      t.activeRequests[t.activeRequestsSize - 1]? = some last ∧
      t' = { t with
        activeRequests := t.activeRequests.set i last
        activeRequestsSize := t.activeRequestsSize - 1 } := by
  rw [popKnownRequest] at h
  cases hfind : t.findKnown 0 t.active with
  | none =>
      rw [hfind] at h
      cases h
  | some found =>
      obtain ⟨i', j'⟩ := found
      rw [hfind] at h
      obtain ⟨last, hlast, heq⟩ := Option.map_eq_some_iff.mp h
      cases heq
      obtain ⟨n, x, hn, hx, hmapping⟩ := findKnown_eq_some hfind
      obtain rfl : i = n := by omega
      exact ⟨x, last, hx, hmapping, hlast, rfl⟩

theorem popKnownRequest_none (h : t.popKnownRequest = some (none, t')) : t' = t := by
  rw [popKnownRequest] at h
  split at h
  case h_1 =>
    cases h
    rfl
  case h_2 =>
    obtain ⟨last, -, heq⟩ := Option.map_eq_some_iff.mp h
    cases heq

theorem append_eq_some {request : Copy} (h : t.append request = some t') :
    t.activeRequestsSize < t.activeRequests.length ∧ t' = { t with
      activeRequests := t.activeRequests.set t.activeRequestsSize request
      activeRequestsSize := t.activeRequestsSize + 1 } := by
  rw [append] at h
  split at h
  case isTrue hlt =>
    cases h
    exact ⟨hlt, rfl⟩
  case isFalse => cases h

theorem active_append {request : Copy} (h : t.append request = some t') :
    t'.active = t.active ++ [request] := by
  obtain ⟨hlt, rfl⟩ := append_eq_some h
  rw [active, active, List.take_add_one, List.getElem?_set_self hlt, List.take_set_of_le le_rfl]
  rfl

/-- No active request before the last one has a mapping. -/
def LastKnown (t : Thread) : Prop :=
  ∀ x ∈ t.active.dropLast, t.findMapping x.userId = none

instance (t : Thread) : Decidable t.LastKnown :=
  inferInstanceAs (Decidable (∀ x ∈ t.active.dropLast, t.findMapping x.userId = none))

/-- When only the last active request can be known, it leaves the array, and no element moves. -/
theorem popKnownRequest_last {i j : ℕ} (hlast : t.LastKnown)
    (h : t.popKnownRequest = some (some (i, j), t')) :
    ∃ x, t.activeRequestsSize = i + 1 ∧ t.activeRequests[i]? = some x ∧
      t.active = t'.active ++ [x] ∧ t.findMapping x.userId = some j ∧
      t' = { t with activeRequestsSize := i } := by
  obtain ⟨x, last, hx, hmapping, hget, rfl⟩ := popKnownRequest_eq_some h
  have hsize : i < t.activeRequestsSize := by
    by_contra hge
    rw [active, List.getElem?_take_eq_none (not_lt.mp hge)] at hx
    cases hx
  have hcell : t.activeRequests[i]? = some x := by
    rwa [active, List.getElem?_take_of_lt hsize] at hx
  have hlength : t.active.length = t.activeRequestsSize := by
    obtain ⟨hlt, -⟩ := List.getElem?_eq_some_iff.mp hget
    rw [active, List.length_take]
    omega
  have hi : t.activeRequestsSize = i + 1 := by
    by_contra hne
    have hmem : x ∈ t.active.dropLast := by
      refine List.mem_of_getElem? (i := i) ?_
      rw [List.getElem?_dropLast, if_pos (by omega), hx]
    rw [hlast x hmem] at hmapping
    cases hmapping
  have hsame : t.activeRequests.set i last = t.activeRequests := by
    rw [hi, Nat.add_sub_cancel, hcell] at hget
    obtain ⟨hlt, rfl⟩ := List.getElem?_eq_some_iff.mp hcell
    cases hget
    exact List.set_getElem_self hlt
  refine ⟨x, hi, hcell, ?_, hmapping, ?_⟩
  · rw [active, active, hsame, hi, Nat.add_sub_cancel, List.take_add_one, hcell]
    rfl
  · rw [hsame, hi, Nat.add_sub_cancel]

/-- What `update_mappings` leaves alone. -/
theorem updateMappings_eq_some {parse : Parser} {file : Option FileView}
    (h : t.updateMappings parse file = some t') :
    ∃ fileMtime mappings, t' = { t with fileMtime := fileMtime, mappings := mappings } := by
  have hsame : some t = some t' → ∃ fileMtime mappings,
      t' = { t with fileMtime := fileMtime, mappings := mappings } := by
    intro heq
    cases heq
    exact ⟨t.fileMtime, t.mappings, rfl⟩
  cases file with
  | none => exact hsame h
  | some view =>
      rw [updateMappings] at h
      split at h
      case h_1 => exact hsame h
      case h_2 mtime =>
        dsimp only at h
        split at h
        case isTrue => exact hsame h
        case isFalse =>
          split at h
          case isTrue =>
            cases h
            exact ⟨_, _, rfl⟩
          case isFalse => cases h

end Thread

/-- The element shows the request that was answered, with the file that was created for it:
for a mapping of its user id, and with its size. -/
structure Shows (basePath : BasePath) (pushed : List Request) (a : Answer) (x : Copy)
    (request : Request) : Prop where
  pushed : pushed[a.origin]? = some request
  mapped : a.mapping.id = request.userId
  filepath : a.filepath = a.mapping.filepath basePath
  mmfileSize : a.mmfileSize = request.mmfileSize
  shown : x.toRequest = { request with mmfile := a.mmfile }

theorem getElem?_append_of_eq_some {α : Type*} {xs : List α} {k : ℕ} {x : α} (h : xs[k]? = some x)
    (ys : List α) : (xs ++ ys)[k]? = some x := by
  obtain ⟨hlt, -⟩ := List.getElem?_eq_some_iff.mp h
  exact (List.getElem?_append_left hlt).trans h

theorem Shows.push {basePath : BasePath} {pushed : List Request} {a : Answer} {x : Copy}
    {request : Request} (h : Shows basePath pushed a x request) (new : Request) :
    Shows basePath (pushed ++ [new]) a x request :=
  ⟨getElem?_append_of_eq_some h.pushed _, h.mapped, h.filepath, h.mmfileSize, h.shown⟩

namespace System

variable {parse : Parser} {s s' : System}

/-- The pushes whose requests were answered. -/
def answered (s : System) : List ℕ := s.answers.map fun response => response.2.origin

/-- The main thread has not read the response of this number, whose pointer goes to `i`. -/
def Unread (s : System) (k i : ℕ) : Prop :=
  (s.popped ≤ k ∧ ∃ a, s.answers[k]? = some (i, a)) ∨ (k, i) ∈ s.held

/-- The pointers of the responses that the main thread has not read. -/
def unread (s : System) : List ℕ :=
  (s.answers.drop s.popped).map Prod.fst ++ s.held.map Prod.snd

theorem Unread.mem {k i : ℕ} (h : s.Unread k i) : i ∈ s.unread := by
  rcases h with ⟨hle, a, ha⟩ | hheld
  · refine List.mem_append_left _ (List.mem_map.mpr ⟨(i, a), ?_, rfl⟩)
    refine List.mem_of_getElem? (i := k - s.popped) ?_
    rw [List.getElem?_drop, Nat.add_sub_cancel' hle, ha]
  · exact List.mem_append_right _ (List.mem_map_of_mem hheld)

/-- What is read of a response is its own request, no request is answered twice, and one that
was not answered yet waits in the channel or is in the array, as it was pushed. -/
structure OwnData (s : System) : Prop where
  reads : ∀ k x, (k, x) ∈ s.reads →
    ∃ i a request, s.answers[k]? = some (i, a) ∧ Shows s.thread.basePath s.pushed a x request
  once : s.answered.Nodup
  waiting : ∃ items, s.thread.channelRequests.Holds items ∧
    ∀ p < s.pushed.length, p ∈ s.received ∨ p ∈ items
  active : ∀ p request, p ∈ s.received → s.pushed[p]? = some request → p ∉ s.answered →
    s.phase.current ≠ some p → ∃ x ∈ s.thread.active, x.origin = p ∧ x.toRequest = request

/-- No element moves to the place of a response, and none is received into it before the
response is read. -/
def InPlace (s : System) : Action → Prop
  | .receive => s.thread.channelRequests.empty ∨ s.thread.activeRequestsSize ∉ s.unread
  | .popKnownRequest => s.thread.LastKnown
  | _ => True

instance (s : System) : ∀ action, Decidable (s.InPlace action)
  | .receive => inferInstanceAs
      (Decidable (s.thread.channelRequests.empty ∨ s.thread.activeRequestsSize ∉ s.unread))
  | .popKnownRequest => inferInstanceAs (Decidable s.thread.LastKnown)
  | .push _ | .updateMappings _ | .create _ | .respond | .popResponse | .read _ =>
      inferInstanceAs (Decidable True)

/-- The part of the array that the known request has just left. -/
def Leaving (s : System) : Phase → Prop
  | .creating i j origin => i = s.thread.activeRequestsSize ∧ ∃ x m,
      s.thread.activeRequests[i]? = some x ∧ x.origin = origin ∧
        s.pushed[origin]? = some x.toRequest ∧ s.thread.mappings[j]? = some m ∧ m.id = x.userId
  | .responding i a => i = s.thread.activeRequestsSize ∧ ∃ x request,
      s.thread.activeRequests[i]? = some x ∧ Shows s.thread.basePath s.pushed a x request
  | _ => True

/-- What holds as long as the elements stay in their places. -/
structure Kept (s : System) : Prop where
  requests : ∃ n ≤ s.pushed.length, s.received = List.range n ∧
    s.thread.channelRequests.Holds (List.range' n (s.pushed.length - n))
  responses : s.popped ≤ s.answers.length ∧
    s.thread.channelResponses.Holds ((s.answers.drop s.popped).map Prod.fst)
  copies : ∀ x ∈ s.thread.active, s.pushed[x.origin]? = some x.toRequest
  perm : (s.thread.active.map Copy.origin ++ s.phase.current.toList ++ s.answered).Perm s.received
  held : ∀ k i, (k, i) ∈ s.held → k < s.popped ∧ ∃ a, s.answers[k]? = some (i, a)
  unread : ∀ k i a, s.Unread k i → s.answers[k]? = some (i, a) →
    s.thread.activeRequestsSize + s.phase.current.toList.length ≤ i ∧
      ∃ x request, s.thread.activeRequests[i]? = some x ∧
        Shows s.thread.basePath s.pushed a x request
  reads : ∀ k x, (k, x) ∈ s.reads →
    ∃ i a request, s.answers[k]? = some (i, a) ∧ Shows s.thread.basePath s.pushed a x request
  leaving : s.Leaving s.phase

theorem Kept.nodup (h : s.Kept) :
    (s.thread.active.map Copy.origin ++ s.phase.current.toList ++ s.answered).Nodup := by
  obtain ⟨n, -, hreceived, -⟩ := h.requests
  rw [h.perm.nodup_iff, hreceived]
  exact List.nodup_range

theorem Kept.ownData (h : s.Kept) : s.OwnData := by
  obtain ⟨n, hn, hreceived, hholds⟩ := h.requests
  refine ⟨h.reads, (List.nodup_append.mp h.nodup).2.1, ⟨_, hholds, fun p hp => ?_⟩, ?_⟩
  · rw [hreceived, List.mem_range, List.mem_range'_1]
    omega
  · intro p request hp hpushed hanswered hcurrent
    have hmem := h.perm.mem_iff.mpr hp
    rw [List.mem_append, List.mem_append, Option.mem_toList] at hmem
    rcases hmem with (hactive | heq) | hanswer
    · obtain ⟨x, hx, rfl⟩ := List.mem_map.mp hactive
      refine ⟨x, hx, rfl, ?_⟩
      exact Option.some.inj ((h.copies x hx).symm.trans hpushed)
    · exact absurd heq hcurrent
    · exact absurd hanswer hanswered

section Steps

theorem Kept.push (h : s.Kept) {request : Request} (hstep : s.push request = some s') :
    s'.Kept := by
  rw [System.push, Channel.push] at hstep
  by_cases hfull : s.thread.channelRequests.full
  · rw [if_pos hfull] at hstep
    cases hstep
  · obtain ⟨n, hn, hreceived, hholds⟩ := h.requests
    obtain ⟨ch, hput, -, hholds'⟩ := hholds.put hfull s.pushed.length
    rw [if_neg hfull, hput] at hstep
    cases hstep
    refine {
      requests := ?_
      responses := h.responses
      copies := ?_
      perm := h.perm
      held := h.held
      unread := ?_
      reads := ?_
      leaving := ?_ }
    · refine ⟨n, ?_, hreceived, ?_⟩
      · rw [List.length_append]
        omega
      · have hlength : (s.pushed ++ [request]).length - n = s.pushed.length - n + 1 := by
          rw [List.length_append, List.length_singleton]
          omega
        rw [hlength, List.range'_1_concat, Nat.add_sub_cancel' hn]
        exact hholds'
    · exact fun x hx => getElem?_append_of_eq_some (h.copies x hx) _
    · intro k i a hunread ha
      obtain ⟨hle, x, r, hx, hshows⟩ := h.unread k i a hunread ha
      exact ⟨hle, x, r, hx, hshows.push request⟩
    · intro k x hx
      obtain ⟨i, a, r, ha, hshows⟩ := h.reads k x hx
      exact ⟨i, a, r, ha, hshows.push request⟩
    · have hleaving := h.leaving
      cases hphase : s.phase with
      | creating i j origin =>
          rw [hphase] at hleaving
          obtain ⟨hi, x, m, hx, horigin, hpushed, hm⟩ := hleaving
          exact ⟨hi, x, m, hx, horigin, getElem?_append_of_eq_some hpushed _, hm⟩
      | responding i a =>
          rw [hphase] at hleaving
          obtain ⟨hi, x, r, hx, hshows⟩ := hleaving
          exact ⟨hi, x, r, hx, hshows.push request⟩
      | receiving | updating | searching => trivial

theorem Kept.loop (h : s.Kept) (hcurrent : s.phase.current = none) (fileMtime : ℤ)
    (mappings : List StreamMapping) {phase : Phase} (hphase : phase.current = none) :
    { s with
      thread := { s.thread with fileMtime := fileMtime, mappings := mappings }
      phase := phase : System }.Kept := by
  refine {
    requests := h.requests
    responses := h.responses
    copies := h.copies
    perm := ?_
    held := h.held
    unread := ?_
    reads := h.reads
    leaving := ?_ }
  · have hperm := h.perm
    rw [hcurrent, ← hphase] at hperm
    exact hperm
  · have hunread := h.unread
    rw [hcurrent, ← hphase] at hunread
    exact hunread
  · cases phase with
    | receiving | updating | searching => trivial
    | creating => cases hphase
    | responding => cases hphase

theorem accept_eq_some {p : ℕ} {ch : Channel} (h : s.accept p ch = some s') :
    ∃ request t, s.pushed[p]? = some request ∧
      { s.thread with channelRequests := ch : Thread }.append ⟨request, p⟩ = some t ∧
      s' = { s with thread := t, phase := .updating, received := s.received ++ [p] } := by
  obtain ⟨request, hrequest, h⟩ := Option.bind_eq_some_iff.mp h
  obtain ⟨t, ht, h⟩ := Option.bind_eq_some_iff.mp h
  cases h
  exact ⟨request, t, hrequest, ht, rfl⟩

theorem receive_eq_some (h : s.receive = some s') :
    (s.thread.channelRequests.empty ∧ s' = { s with phase := .updating }) ∨
      ¬ s.thread.channelRequests.empty ∧ ∃ p ch,
        s.thread.channelRequests.take = some (p, ch) ∧ s.accept p ch = some s' := by
  rw [receive, Channel.pop, Channel.popNowait] at h
  by_cases hempty : s.thread.channelRequests.empty
  · rw [if_pos hempty, if_pos hempty] at h
    split at h
    case isTrue => cases h
    case isFalse =>
      cases h
      exact .inl ⟨hempty, rfl⟩
  · rw [if_neg hempty, if_neg hempty] at h
    cases htake : s.thread.channelRequests.take with
    | none =>
        rw [htake] at h
        split at h <;> cases h
    | some out =>
        rw [htake] at h
        refine .inr ⟨hempty, out.1, out.2, rfl, ?_⟩
        split at h <;> exact h

theorem Kept.receive (h : s.Kept) (hcurrent : s.phase.current = none)
    (hplace : s.InPlace .receive) (hstep : s.receive = some s') : s'.Kept := by
  rcases receive_eq_some hstep with ⟨-, rfl⟩ | ⟨hempty, p, ch, htake, haccept⟩
  · exact h.loop hcurrent s.thread.fileMtime s.thread.mappings rfl
  · obtain ⟨request, t, hrequest, happend, rfl⟩ := accept_eq_some haccept
    have hactive := Thread.active_append happend
    obtain ⟨hlt, rfl⟩ := Thread.append_eq_some happend
    obtain ⟨n, hn, hreceived, hholds⟩ := h.requests
    obtain ⟨p', items, ch', hitems, htake', -, hholds'⟩ := hholds.take hempty
    rw [htake] at htake'
    cases htake'
    obtain ⟨rfl, hpos, rfl⟩ := List.range'_eq_cons_iff.mp hitems
    have hfree : ∀ k i, s.Unread k i → i ≠ s.thread.activeRequestsSize := by
      rintro k i hunread rfl
      exact hplace.resolve_left hempty hunread.mem
    have hperm := h.perm
    have hunread := h.unread
    rw [hcurrent] at hperm hunread
    refine {
      requests := ⟨n + 1, Nat.lt_of_sub_pos hpos, ?_, ?_⟩
      responses := h.responses
      copies := ?_
      perm := ?_
      held := h.held
      unread := ?_
      reads := h.reads
      leaving := trivial }
    · rw [hreceived, List.range_succ]
    · rw [Nat.sub_add_eq]
      exact hholds'
    · intro x hx
      rw [hactive] at hx
      rcases List.mem_append.mp hx with hx | hx
      · exact h.copies x hx
      · cases List.mem_singleton.mp hx
        exact hrequest
    · -- the new element goes to the end, as the pointer does
      rw [hactive, List.map_append]
      refine List.Perm.trans ?_ (hperm.append_right [n])
      simp only [Phase.current, Option.toList_none, List.append_nil, List.append_assoc]
      exact (List.perm_append_comm).append_left _
    · intro k i a hk ha
      obtain ⟨hle, x, r, hx, hshows⟩ := hunread k i a hk ha
      have hne := hfree k i hk
      refine ⟨?_, x, r, ?_, hshows⟩
      · simp only [Phase.current, Option.toList_none, List.length_nil] at hle ⊢
        omega
      · rw [List.getElem?_set_ne (Ne.symm hne)]
        exact hx

theorem popKnownRequest_eq_some (h : s.popKnownRequest = some s') :
    s' = { s with phase := .receiving } ∨ ∃ i j t x,
      s.thread.popKnownRequest = some (some (i, j), t) ∧ s.thread.activeRequests[i]? = some x ∧
      s' = { s with thread := t, phase := .creating i j x.origin } := by
  obtain ⟨⟨found, t⟩, hpop, h⟩ := Option.bind_eq_some_iff.mp h
  cases found with
  | none =>
      cases h
      obtain rfl := Thread.popKnownRequest_none hpop
      exact .inl rfl
  | some found =>
      obtain ⟨i, j⟩ := found
      obtain ⟨x, hx, h⟩ := Option.bind_eq_some_iff.mp h
      cases h
      exact .inr ⟨i, j, t, x, hpop, hx, rfl⟩

theorem Kept.popKnownRequest (h : s.Kept) (hcurrent : s.phase.current = none)
    (hplace : s.InPlace .popKnownRequest) (hstep : s.popKnownRequest = some s') : s'.Kept := by
  rcases popKnownRequest_eq_some hstep with rfl | ⟨i, j, t, x, hpop, hx, rfl⟩
  · exact h.loop hcurrent s.thread.fileMtime s.thread.mappings rfl
  · obtain ⟨x', hsize, hx', hactive, hmapping, rfl⟩ := Thread.popKnownRequest_last hplace hpop
    obtain rfl : x = x' := Option.some.inj (hx.symm.trans hx')
    obtain ⟨m, hm, hid⟩ := Thread.mapping_of_findMapping hmapping
    have hperm := h.perm
    have hunread := h.unread
    rw [hcurrent, hactive, List.map_append] at hperm
    rw [hcurrent, hsize] at hunread
    have hmem : x ∈ s.thread.active := hactive ▸ List.mem_append_right _ (List.mem_singleton_self x)
    refine {
      requests := h.requests
      responses := h.responses
      copies := fun y hy => h.copies y (hactive ▸ List.mem_append_left _ hy)
      perm := ?_
      held := h.held
      unread := hunread
      reads := h.reads
      leaving := ⟨rfl, x, m, hx, rfl, h.copies x hmem, hm, hid⟩ }
    rw [Option.toList_none, List.append_nil] at hperm
    exact hperm

theorem Kept.create (h : s.Kept) {i j origin : ℕ} (hphase : s.phase = .creating i j origin)
    {created : Option ℕ} (hstep : s.create i j origin created = some s') : s'.Kept := by
  obtain ⟨mapping, hmapping, hstep⟩ := Option.bind_eq_some_iff.mp hstep
  obtain ⟨x, hx, hstep⟩ := Option.bind_eq_some_iff.mp hstep
  cases hstep
  have hleaving := h.leaving
  have hperm := h.perm
  have hunread := h.unread
  rw [hphase] at hleaving hperm hunread
  obtain ⟨hi, x', m, hx', horigin, hpushed, hm, hid⟩ := hleaving
  obtain rfl : x = x' := Option.some.inj (hx.symm.trans hx')
  obtain rfl : mapping = m := Option.some.inj (hmapping.symm.trans hm)
  obtain ⟨hlt, -⟩ := List.getElem?_eq_some_iff.mp hx
  have hactive : (s.thread.activeRequests.set i { x with mmfile := created }).take
      s.thread.activeRequestsSize = s.thread.active := List.take_set_of_le hi.ge
  refine {
    requests := h.requests
    responses := h.responses
    copies := ?_
    perm := ?_
    held := h.held
    unread := ?_
    reads := h.reads
    leaving := ⟨hi, { x with mmfile := created }, x.toRequest, List.getElem?_set_self hlt,
      hpushed, hid, rfl, rfl, rfl⟩ }
  · intro y hy
    exact h.copies y (hactive ▸ hy)
  · rw [Thread.active, hactive]
    exact hperm
  · intro k i' a hk ha
    obtain ⟨hle, y, r, hy, hshows⟩ := hunread k i' a hk ha
    have hne : i ≠ i' := by
      have hlength : (Phase.creating i j origin).current.toList.length = 1 := rfl
      omega
    exact ⟨hle, y, r, (List.getElem?_set_ne hne).trans hy, hshows⟩

theorem Kept.respond (h : s.Kept) {i : ℕ} {a : Answer} (hphase : s.phase = .responding i a)
    (hstep : s.respond i a = some s') : s'.Kept := by
  rw [System.respond, Channel.push] at hstep
  obtain ⟨hpopped, hholds⟩ := h.responses
  by_cases hfull : s.thread.channelResponses.full
  · rw [if_pos hfull] at hstep
    cases hstep
  · obtain ⟨ch, hput, -, hholds'⟩ := hholds.put hfull i
    rw [if_neg hfull, hput] at hstep
    cases hstep
    have hleaving := h.leaving
    have hperm := h.perm
    have hunread := h.unread
    rw [hphase] at hleaving hperm hunread
    obtain ⟨hi, x, request, hx, hshows⟩ := hleaving
    refine {
      requests := h.requests
      responses := ⟨?_, ?_⟩
      copies := h.copies
      perm := ?_
      held := ?_
      unread := ?_
      reads := ?_
      leaving := trivial }
    · rw [List.length_append]
      exact hpopped.trans (Nat.le_add_right _ _)
    · rw [List.drop_append_of_le_length hpopped, List.map_append]
      exact hholds'
    · -- the request that was current is the last of the answered ones
      refine List.Perm.trans ?_ hperm
      rw [answered, answered, List.map_append]
      simp only [Phase.current, Option.toList_none, Option.toList_some, List.append_nil,
        List.append_assoc]
      exact (List.perm_append_comm).append_left _
    · intro k i' hheld
      obtain ⟨hk, b, hb⟩ := h.held k i' hheld
      exact ⟨hk, b, getElem?_append_of_eq_some hb _⟩
    · intro k i' b hk hb
      rcases Nat.lt_or_ge k s.answers.length with hlt | hge
      · -- an earlier response
        rw [List.getElem?_append_left hlt] at hb
        have hk' : s.Unread k i' := by
          rcases hk with ⟨hle, -⟩ | hheld
          · exact .inl ⟨hle, b, hb⟩
          · exact .inr hheld
        obtain ⟨hle, y, r, hy, hshows'⟩ := hunread k i' b hk' hb
        refine ⟨?_, y, r, hy, hshows'⟩
        simp only [Phase.current, Option.toList_none, Option.toList_some, List.length_nil] at hle ⊢
        omega
      · rw [List.getElem?_append_right hge] at hb
        obtain ⟨-, heq⟩ := List.mem_singleton.mp (List.mem_of_getElem? hb)
        exact ⟨hi.ge, x, request, hx, hshows⟩
    · intro k y hy
      obtain ⟨i', b, r, hb, hshows'⟩ := h.reads k y hy
      exact ⟨i', b, r, getElem?_append_of_eq_some hb _, hshows'⟩

theorem Kept.popResponse (h : s.Kept) (hstep : s.popResponse = some s') : s'.Kept := by
  rw [System.popResponse, Channel.popNowait] at hstep
  obtain ⟨hpopped, hholds⟩ := h.responses
  by_cases hempty : s.thread.channelResponses.empty
  · rw [if_pos hempty] at hstep
    cases hstep
    exact h
  · obtain ⟨i, items, ch, hitems, htake, -, hholds'⟩ := hholds.take hempty
    rw [if_neg hempty, htake] at hstep
    cases hstep
    have hlt : s.popped < s.answers.length := by
      by_contra hge
      rw [List.drop_of_length_le (not_lt.mp hge)] at hitems
      cases hitems
    rw [List.drop_eq_getElem_cons hlt, List.map_cons] at hitems
    obtain ⟨hi, hitems⟩ := List.cons.inj hitems
    have hnext : s.answers[s.popped]? = some (i, s.answers[s.popped].2) := by
      rw [List.getElem?_eq_getElem hlt, ← hi]
    have hunread : ∀ k i', (s.popped + 1 ≤ k ∧ ∃ a, s.answers[k]? = some (i', a)) ∨
        (k, i') ∈ s.held ++ [(s.popped, i)] → s.Unread k i' := by
      rintro k i' (⟨hle, ha⟩ | hheld)
      · exact .inl ⟨by omega, ha⟩
      · rcases List.mem_append.mp hheld with hheld | hnew
        · exact .inr hheld
        · cases List.mem_singleton.mp hnew
          exact .inl ⟨le_rfl, _, hnext⟩
    refine {
      requests := h.requests
      responses := ⟨hlt, hitems ▸ hholds'⟩
      copies := h.copies
      perm := h.perm
      held := ?_
      unread := fun k i' a hk ha => h.unread k i' a (hunread k i' hk) ha
      reads := h.reads
      leaving := h.leaving }
    intro k i' hheld
    rcases List.mem_append.mp hheld with hheld | hnew
    · obtain ⟨hk, ha⟩ := h.held k i' hheld
      exact ⟨hk.trans (Nat.lt_succ_self _), ha⟩
    · cases List.mem_singleton.mp hnew
      exact ⟨Nat.lt_succ_self _, _, hnext⟩

theorem Kept.read (h : s.Kept) {k : ℕ} (hstep : s.read k = some s') : s'.Kept := by
  obtain ⟨⟨number, i⟩, hheld, hstep⟩ := Option.bind_eq_some_iff.mp hstep
  obtain ⟨x, hx, hstep⟩ := Option.bind_eq_some_iff.mp hstep
  cases hstep
  have hmem : (number, i) ∈ s.held := List.mem_of_getElem? hheld
  obtain ⟨-, a, ha⟩ := h.held number i hmem
  obtain ⟨-, y, request, hy, hshows⟩ := h.unread number i a (.inr hmem) ha
  obtain rfl : x = y := Option.some.inj (hx.symm.trans hy)
  have hless : ∀ k' i', (k', i') ∈ s.held.eraseIdx k → (k', i') ∈ s.held :=
    fun k' i' hk' => (List.eraseIdx_sublist s.held k).subset hk'
  refine {
    requests := h.requests
    responses := h.responses
    copies := h.copies
    perm := h.perm
    held := fun k' i' hk' => h.held k' i' (hless k' i' hk')
    unread := fun k' i' b hk' hb => h.unread k' i' b (hk'.imp_right (hless k' i')) hb
    reads := ?_
    leaving := h.leaving }
  intro k' z hz
  rcases List.mem_append.mp hz with hz | hz
  · exact h.reads k' z hz
  · cases List.mem_singleton.mp hz
    exact ⟨i, a, request, ha, hshows⟩

theorem Kept.step (h : s.Kept) {action : Action} (hplace : s.InPlace action)
    (hstep : s.step parse action = some s') : s'.Kept := by
  cases steps_of_step hstep with
  | push hpush => exact h.push hpush
  | receive hphase hreceive => exact h.receive (by rw [hphase]; rfl) hplace hreceive
  | updateMappings hphase hupdate heq =>
      subst heq
      obtain ⟨fileMtime, mappings, rfl⟩ := Thread.updateMappings_eq_some hupdate
      exact h.loop (by rw [hphase]; rfl) fileMtime mappings rfl
  | popKnownRequest hphase hpop => exact h.popKnownRequest (by rw [hphase]; rfl) hplace hpop
  | create hphase hcreate => exact h.create hphase hcreate
  | respond hphase hrespond => exact h.respond hphase hrespond
  | popResponse hpop => exact h.popResponse hpop
  | read hread => exact h.read hread

theorem kept_start {basePath : BasePath} {t : Thread} (h : initStreamThread basePath = some t) :
    (start t).Kept := by
  rw [initStreamThread, Option.bind_eq_bind, Option.bind_eq_some_iff] at h
  obtain ⟨requests, hrequests, h⟩ := h
  obtain ⟨responses, hresponses, h⟩ := Option.bind_eq_some_iff.mp h
  cases h
  have hempty : ∀ ch, Channel.init 1024 = some ch → ch.Holds [] := by
    intro ch hch
    obtain ⟨ch', hch', hlists⟩ := Channel.exists_init (Nat.succ_pos 1023)
    obtain rfl : ch = ch' := Option.some.inj (hch.symm.trans hch')
    exact ⟨[], List.range 1024, hlists, rfl⟩
  refine {
    requests := ⟨0, le_rfl, rfl, hempty requests hrequests⟩
    responses := ⟨le_rfl, hempty responses hresponses⟩
    copies := fun x hx => absurd hx List.not_mem_nil
    perm := .nil
    held := fun k i hheld => absurd hheld List.not_mem_nil
    unread := fun k i a _ ha => nomatch ha
    reads := fun k x hx => absurd hx List.not_mem_nil
    leaving := trivial }

end Steps

/-- The responses show their own requests on every run on which the elements stay in their
places. -/
theorem ownData_of_inPlace {basePath : BasePath} {t : Thread}
    (h : initStreamThread basePath = some t) (parse : Parser) (actions : List Action)
    (hplace : Along (step parse) InPlace (start t) actions) :
    Throughout (step parse) OwnData (start t) actions :=
  throughout_of_along (fun _ => Kept.ownData) (fun _ _ _ _ hk hC hstep => hk.step hC hstep)
    (kept_start h) hplace

section Zero

/-- A file with the line `000000000000=a`. -/
def fileOfZero : FileView := ⟨some 5, List.replicate 12 48 ++ [61, 97]⟩

/-- The lines of this file, and no others. -/
def parseZero : Parser := fun content => if content = fileOfZero.content then [(0, [97])] else []

/-- A request without a mapping is active, and then one for the file comes. Its response is
read before a third request is received. -/
def lastIsKnown : List Action :=
  [.push ⟨5, 2, 64, none⟩, .receive, .updateMappings none, .popKnownRequest,
    .push ⟨0, 4, 32, none⟩, .receive, .updateMappings (some fileOfZero), .popKnownRequest,
    .create (some 7), .respond, .popKnownRequest, .popResponse, .read 0,
    .push ⟨6, 8, 16, none⟩, .receive]

/-- The file changes when its request is active already, with one without a mapping behind. -/
def firstIsKnown : List Action :=
  [.push ⟨0, 2, 64, none⟩, .receive, .updateMappings none, .popKnownRequest,
    .push ⟨5, 4, 32, none⟩, .receive, .updateMappings (some fileOfZero), .popKnownRequest,
    .create (some 7), .respond, .popResponse, .read 0]

/-- The known request is the last one when it is answered. -/
theorem ownData_lastIsKnown : ∃ t s, initStreamThread ⟨[], 1024⟩ = some t ∧
    run (step parseZero) (start t) lastIsKnown = some s ∧
    s.reads.map (fun r => (r.1, r.2.toRequest)) = [(0, ⟨0, 4, 32, some 7⟩)] ∧
    Throughout (step parseZero) OwnData (start t) lastIsKnown := by
  have hrun : ((initStreamThread ⟨[], 1024⟩).bind fun t =>
      run (step parseZero) (start t) lastIsKnown).map
      (fun s => s.reads.map fun r => (r.1, r.2.toRequest)) = some [(0, ⟨0, 4, 32, some 7⟩)] := by
    decide +kernel
  have hplace : (initStreamThread ⟨[], 1024⟩).all (fun t =>
      decide (Along (step parseZero) InPlace (start t) lastIsKnown)) = true := by
    decide +kernel
  obtain ⟨s, hs, hreads⟩ := Option.map_eq_some_iff.mp hrun
  obtain ⟨t, ht, hs⟩ := Option.bind_eq_some_iff.mp hs
  rw [ht] at hplace
  exact ⟨t, s, ht, hs, hreads,
    ownData_of_inPlace ht parseZero lastIsKnown (of_decide_eq_true hplace)⟩

/-- The response of the first request shows the second one, which has moved to its place. -/
theorem shows_other_request : ∃ t s, initStreamThread ⟨[], 1024⟩ = some t ∧
    run (step parseZero) (start t) firstIsKnown = some s ∧
    s.reads.map (fun r => (r.1, r.2.toRequest)) = [(0, ⟨5, 4, 32, some 7⟩)] ∧
    ¬ Throughout (step parseZero) OwnData (start t) firstIsKnown := by
  have hrun : ((initStreamThread ⟨[], 1024⟩).bind fun t =>
      run (step parseZero) (start t) firstIsKnown).map
      (fun s => (s.pushed, s.answered, s.reads.map fun r => (r.1, r.2.toRequest))) =
        some ([⟨0, 2, 64, none⟩, ⟨5, 4, 32, none⟩], [0], [(0, ⟨5, 4, 32, some 7⟩)]) := by
    decide +kernel
  obtain ⟨s, hs, hdata⟩ := Option.map_eq_some_iff.mp hrun
  obtain ⟨t, ht, hs⟩ := Option.bind_eq_some_iff.mp hs
  obtain ⟨hpushed, hdata⟩ := Prod.mk.inj hdata
  obtain ⟨hanswered, hreads⟩ := Prod.mk.inj hdata
  refine ⟨t, s, ht, hs, hreads, fun h => ?_⟩
  have hown := throughout_iff_initial.mp h _ s List.prefix_rfl hs
  obtain ⟨⟨k, x⟩, hx, heq⟩ := List.mem_map.mp (hreads ▸ List.mem_singleton_self _)
  obtain ⟨rfl, hrequest⟩ := Prod.mk.inj heq
  obtain ⟨i, a, request, ha, hshows⟩ := hown.reads _ x hx
  -- the answer was for the first push, with another user id
  have horigin : s.answered[0]? = some a.origin := by
    rw [answered, List.getElem?_map, ha]
    rfl
  rw [hanswered] at horigin
  have hfirst := hshows.pushed
  rw [← Option.some.inj horigin, hpushed] at hfirst
  cases hfirst
  have huser : (5 : UInt64) = 0 := congrArg Request.userId (hrequest.symm.trans hshows.shown)
  exact absurd huser (by decide)

end Zero

end System

end StreamThread

end ConArtist
