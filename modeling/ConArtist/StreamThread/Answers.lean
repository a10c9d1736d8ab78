import ConArtist.StreamThread.Known

/-!
# No request is answered twice

What a response shows can be another request, for it is a pointer into an array whose elements
move. What the thread does for the requests is in order all the same, on every run: each one that
was received is in the array, in the hands of the thread or answered, and not twice; the file of an
answer has the name of a mapping of the request's own id; and when the thread comes back to
the head of its loop, no request with a mapping is left unanswered.
-/

namespace ConArtist

namespace StreamThread

open Machine
open StreamRequest (Parser FileView)

namespace Thread

variable {t t' : Thread}

theorem exists_firstMapped (h : ∃ x ∈ t.active, t.Mapped x.userId) :
    ∃ pre x post, t.FirstMapped pre x post := by
  classical
  obtain ⟨y, hy, hmapped⟩ := h
  have hsome : (t.active.find? fun x => decide (t.Mapped x.userId)).isSome :=
    List.find?_isSome.mpr ⟨y, hy, decide_eq_true hmapped⟩
  obtain ⟨x, hx⟩ := Option.isSome_iff_exists.mp hsome
  obtain ⟨hfirst, pre, post, hactive, hbefore⟩ := List.find?_eq_some_iff_append.mp hx
  exact ⟨pre, x, post, hactive, fun z hz => by simpa using hbefore z hz, of_decide_eq_true hfirst⟩

theorem not_mapped_of_popKnownRequest (hsize : t.activeRequestsSize ≤ t.activeRequests.length)
    (h : t.popKnownRequest = some (none, t')) : ∀ x ∈ t.active, ¬ t.Mapped x.userId := by
  intro x hx hmapped
  obtain ⟨pre, y, post, hfirst⟩ := exists_firstMapped ⟨x, hx, hmapped⟩
  obtain ⟨j, t'', mapping, last, hpop, -⟩ := popKnownRequest_known hsize hfirst
  cases hpop.symm.trans h

/-- When `pop_known_request` finds a request, this one leaves the array and the others stay. -/
theorem popKnownRequest_perm {i j : ℕ} (hsize : t.activeRequestsSize ≤ t.activeRequests.length)
    (h : t.popKnownRequest = some (some (i, j), t')) :
    ∃ x m, t.activeRequests[i]? = some x ∧ x ∈ t.active ∧ t'.mappings[j]? = some m ∧
      m.id = x.userId ∧ (x :: t'.active).Perm t.active := by
  obtain ⟨x, last, hx, hmapping, hlast, ht'⟩ := popKnownRequest_eq_some h
  have hlt : i < t.activeRequestsSize := by
    by_contra hge
    rw [active, List.getElem?_take_eq_none (not_lt.mp hge)] at hx
    cases hx
  have hcell : t.activeRequests[i]? = some x := by
    rwa [active, List.getElem?_take_of_lt hlt] at hx
  have hmem : x ∈ t.active := List.mem_of_getElem? hx
  obtain ⟨m, hm, hid⟩ := mapping_of_findMapping hmapping
  obtain ⟨pre, y, post, hfirst⟩ := exists_firstMapped ⟨x, hmem, m, List.mem_of_getElem? hm, hid⟩
  obtain ⟨j', t'', mapping, last', hpop, -, -, -, -, hperm⟩ := popKnownRequest_known hsize hfirst
  -- the request that was found is the first one with a mapping
  rw [h] at hpop
  cases hpop
  obtain rfl : x = y := by
    rw [hfirst.active, List.getElem?_append_right le_rfl, Nat.sub_self] at hx
    exact (Option.some.inj hx).symm
  refine ⟨x, m, hcell, hmem, by rw [ht']; exact hm, hid, ?_⟩
  rw [hfirst.active]
  exact (hperm.cons x).trans List.perm_middle.symm

end Thread

namespace System

variable {parse : Parser} {s s' : System}

/-- The answer is for a mapping of the id that was pushed, and its file has the name of it. -/
def Named (s : System) (origin : ℕ) (m : StreamMapping) (filepath : List UInt8) : Prop :=
  ∃ request, s.pushed[origin]? = some request ∧ m.id = request.userId ∧
    filepath = m.filepath s.thread.basePath

/-- Each request that was received is active, in the hands of the thread or answered, and once so.
It is answered under its own name, and before the thread comes back to the head of its loop with a
mapping for it; and the responses come out in the order of the answers. -/
structure AnswersAll (s : System) : Prop where
  received : ∃ n ≤ s.pushed.length, s.received = List.range n
  once : (s.thread.active.map Copy.origin ++ s.phase.current.toList ++ s.answered).Perm s.received
  named : ∀ i a, (i, a) ∈ s.answers → s.Named a.origin a.mapping a.filepath
  prompt : s.phase = .receiving → ∀ p ∈ s.received, ∀ request, s.pushed[p]? = some request →
    s.thread.Mapped request.userId → p ∈ s.answered
  responses : s.popped ≤ s.answers.length ∧
    s.thread.channelResponses.Holds ((s.answers.drop s.popped).map Prod.fst)

/-- What the thread has in its hands. -/
def Handles (s : System) : Phase → Prop
  | .receiving => ∀ x ∈ s.thread.active, ¬ s.thread.Mapped x.userId
  | .creating _ j origin => ∃ m, s.thread.mappings[j]? = some m ∧
      s.Named origin m (m.filepath s.thread.basePath)
  | .responding _ a => s.Named a.origin a.mapping a.filepath
  | _ => True

/-- The invariant of the runs. The file of an active request may be another one. -/
structure Serves (s : System) : Prop where
  requests : ∃ n ≤ s.pushed.length, s.received = List.range n ∧
    s.thread.channelRequests.Holds (List.range' n (s.pushed.length - n))
  responses : s.popped ≤ s.answers.length ∧
    s.thread.channelResponses.Holds ((s.answers.drop s.popped).map Prod.fst)
  size : s.thread.activeRequestsSize ≤ s.thread.activeRequests.length
  copies : ∀ x ∈ s.thread.active, ∃ request, s.pushed[x.origin]? = some request ∧
    x.userId = request.userId
  perm : (s.thread.active.map Copy.origin ++ s.phase.current.toList ++ s.answered).Perm s.received
  named : ∀ i a, (i, a) ∈ s.answers → s.Named a.origin a.mapping a.filepath
  handles : s.Handles s.phase

theorem Serves.answersAll (h : s.Serves) : s.AnswersAll := by
  obtain ⟨n, hn, hreceived, -⟩ := h.requests
  refine ⟨⟨n, hn, hreceived⟩, h.perm, h.named, ?_, h.responses⟩
  intro hphase p hp request hrequest hmapped
  have hperm := h.perm
  have hhandles := h.handles
  rw [hphase] at hperm hhandles
  have hmem := hperm.mem_iff.mpr hp
  have hcurrent : Phase.receiving.current = none := rfl
  rw [hcurrent, Option.toList_none, List.append_nil, List.mem_append] at hmem
  rcases hmem with hactive | hanswered
  · obtain ⟨x, hx, rfl⟩ := List.mem_map.mp hactive
    obtain ⟨request', hrequest', hid⟩ := h.copies x hx
    obtain rfl : request' = request := Option.some.inj (hrequest'.symm.trans hrequest)
    exact absurd (hid ▸ hmapped) (hhandles x hx)
  · exact hanswered

section Steps

theorem Named.push {origin : ℕ} {m : StreamMapping} {filepath : List UInt8}
    (h : s.Named origin m filepath) (hpushed : ∃ new, s'.pushed = s.pushed ++ new)
    (hbase : s'.thread.basePath = s.thread.basePath) : s'.Named origin m filepath := by
  obtain ⟨request, hrequest, hid, hfilepath⟩ := h
  obtain ⟨new, hnew⟩ := hpushed
  refine ⟨request, ?_, hid, hbase ▸ hfilepath⟩
  rw [hnew]
  exact getElem?_append_of_eq_some hrequest new

theorem Serves.push (h : s.Serves) {request : Request} (hstep : s.push request = some s') :
    s'.Serves := by
  rw [System.push, Channel.push] at hstep
  by_cases hfull : s.thread.channelRequests.full
  · rw [if_pos hfull] at hstep
    cases hstep
  · obtain ⟨n, hn, hreceived, hholds⟩ := h.requests
    obtain ⟨ch, hput, -, hholds'⟩ := hholds.put hfull s.pushed.length
    rw [if_neg hfull, hput] at hstep
    cases hstep
    have hhandles := h.handles
    refine {
      requests := ⟨n, ?_, hreceived, ?_⟩
      responses := h.responses
      size := h.size
      copies := ?_
      perm := h.perm
      named := fun i a ha => (h.named i a ha).push ⟨[request], rfl⟩ rfl
      handles := ?_ }
    · rw [List.length_append]
      exact hn.trans (Nat.le_add_right _ _)
    · have hlength : (s.pushed ++ [request]).length - n = s.pushed.length - n + 1 := by
        rw [List.length_append, List.length_singleton]
        omega
      rw [hlength, List.range'_1_concat, Nat.add_sub_cancel' hn]
      exact hholds'
    · intro x hx
      obtain ⟨r, hr, hid⟩ := h.copies x hx
      exact ⟨r, getElem?_append_of_eq_some hr _, hid⟩
    · dsimp only
      cases hphase : s.phase with
      | receiving =>
          rw [hphase] at hhandles
          exact hhandles
      | creating i j origin =>
          rw [hphase] at hhandles
          obtain ⟨m, hm, hnamed⟩ := hhandles
          exact ⟨m, hm, hnamed.push ⟨[request], rfl⟩ rfl⟩
      | responding i a =>
          rw [hphase] at hhandles
          exact hhandles.push ⟨[request], rfl⟩ rfl
      | updating | searching => trivial

theorem Serves.loop (h : s.Serves) (hcurrent : s.phase.current = none) (fileMtime : ℤ)
    (mappings : List StreamMapping) {phase : Phase} (hphase : phase.current = none)
    (hhandles : { s with
      thread := { s.thread with fileMtime := fileMtime, mappings := mappings } : System }.Handles
        phase) :
    { s with
      thread := { s.thread with fileMtime := fileMtime, mappings := mappings }
      phase := phase : System }.Serves := by
  have hperm := h.perm
  rw [hcurrent, ← hphase] at hperm
  refine ⟨h.requests, h.responses, h.size, h.copies, hperm, h.named, ?_⟩
  cases phase with
  | receiving => exact hhandles
  | updating | searching => trivial
  | creating => cases hphase
  | responding => cases hphase

theorem Serves.receive (h : s.Serves) (hcurrent : s.phase.current = none)
    (hstep : s.receive = some s') : s'.Serves := by
  rcases receive_eq_some hstep with ⟨-, rfl⟩ | ⟨hempty, p, ch, htake, haccept⟩
  · exact h.loop hcurrent s.thread.fileMtime s.thread.mappings rfl trivial
  · obtain ⟨request, t, hrequest, happend, rfl⟩ := accept_eq_some haccept
    have hactive := Thread.active_append happend
    obtain ⟨hlt, rfl⟩ := Thread.append_eq_some happend
    obtain ⟨n, hn, hreceived, hholds⟩ := h.requests
    obtain ⟨p', items, ch', hitems, htake', -, hholds'⟩ := hholds.take hempty
    rw [htake] at htake'
    cases htake'
    obtain ⟨rfl, hpos, rfl⟩ := List.range'_eq_cons_iff.mp hitems
    have hperm := h.perm
    rw [hcurrent] at hperm
    refine {
      requests := ⟨n + 1, Nat.lt_of_sub_pos hpos, ?_, ?_⟩
      responses := h.responses
      size := ?_
      copies := ?_
      perm := ?_
      named := h.named
      handles := trivial }
    · rw [hreceived, List.range_succ]
    · rw [Nat.sub_add_eq]
      exact hholds'
    · rw [List.length_set]
      exact hlt
    · intro x hx
      rw [hactive] at hx
      rcases List.mem_append.mp hx with hx | hx
      · exact h.copies x hx
      · cases List.mem_singleton.mp hx
        exact ⟨request, hrequest, rfl⟩
    · rw [hactive, List.map_append]
      refine List.Perm.trans ?_ (hperm.append_right [n])
      simp only [Phase.current, Option.toList_none, List.append_nil, List.append_assoc]
      exact (List.perm_append_comm).append_left _

theorem Serves.popKnownRequest (h : s.Serves) (hcurrent : s.phase.current = none)
    (hstep : s.popKnownRequest = some s') : s'.Serves := by
  obtain ⟨⟨found, t⟩, hpop, hstep⟩ := Option.bind_eq_some_iff.mp hstep
  cases found with
  | none =>
      cases hstep
      obtain rfl := Thread.popKnownRequest_none hpop
      exact h.loop hcurrent s.thread.fileMtime s.thread.mappings rfl
        (Thread.not_mapped_of_popKnownRequest h.size hpop)
  | some found =>
      obtain ⟨i, j⟩ := found
      obtain ⟨x', hx', hstep⟩ := Option.bind_eq_some_iff.mp hstep
      cases hstep
      obtain ⟨x, m, hx, hmem, hm, hid, hleaves⟩ := Thread.popKnownRequest_perm h.size hpop
      obtain rfl : x' = x := Option.some.inj (hx'.symm.trans hx)
      obtain ⟨-, last, -, -, hlast, rfl⟩ := Thread.popKnownRequest_eq_some hpop
      obtain ⟨request, hrequest, huser⟩ := h.copies x' hmem
      have hperm := h.perm
      rw [hcurrent, Option.toList_none, List.append_nil] at hperm
      refine {
        requests := h.requests
        responses := h.responses
        size := ?_
        copies := fun y hy => h.copies y (hleaves.mem_iff.mp (List.mem_cons_of_mem _ hy))
        perm := ?_
        named := h.named
        handles := ⟨m, hm, request, hrequest, hid.trans huser, rfl⟩ }
      · have hsize := h.size
        rw [List.length_set]
        dsimp only
        omega
      · -- the request goes from the array into the hands of the thread
        refine List.Perm.trans (List.Perm.append_right _ ?_) hperm
        refine List.Perm.trans ?_ (hleaves.map Copy.origin)
        exact List.perm_append_singleton _ _

/-- The pointer to the file is written to an element, which keeps its request. -/
theorem Serves.create (h : s.Serves) {i j origin : ℕ} (hphase : s.phase = .creating i j origin)
    {created : Option ℕ} (hstep : s.create i j origin created = some s') : s'.Serves := by
  obtain ⟨mapping, hmapping, hstep⟩ := Option.bind_eq_some_iff.mp hstep
  obtain ⟨x, hx, hstep⟩ := Option.bind_eq_some_iff.mp hstep
  cases hstep
  have hhandles := h.handles
  have hperm := h.perm
  rw [hphase] at hhandles hperm
  obtain ⟨m, hm, hnamed⟩ := hhandles
  obtain rfl : mapping = m := Option.some.inj (hmapping.symm.trans hm)
  have hset : ∀ {β : Type} (f : Copy → β), f { x with mmfile := created } = f x →
      ((s.thread.activeRequests.set i { x with mmfile := created }).take
        s.thread.activeRequestsSize).map f = s.thread.active.map f := by
    intro β f hf
    rw [List.map_take, List.map_set, hf, Thread.active, List.map_take]
    congr 1
    refine List.ext_getElem? fun k => ?_
    rw [List.getElem?_set]
    split
    case isTrue heq =>
      subst heq
      obtain ⟨hlt, -⟩ := List.getElem?_eq_some_iff.mp hx
      rw [List.length_map, if_pos hlt, List.getElem?_map, hx, Option.map_some]
    case isFalse => rfl
  refine {
    requests := h.requests
    responses := h.responses
    size := by rw [List.length_set]; exact h.size
    copies := ?_
    perm := ?_
    named := h.named
    handles := hnamed }
  · intro y hy
    have hmem : (y.origin, y.userId) ∈
        s.thread.active.map fun x => (x.origin, x.userId) := by
      rw [← hset (fun x => (x.origin, x.userId)) rfl]
      exact List.mem_map_of_mem hy
    obtain ⟨z, hz, heq⟩ := List.mem_map.mp hmem
    obtain ⟨horigin, huser⟩ := Prod.mk.inj heq
    obtain ⟨request, hrequest, hid⟩ := h.copies z hz
    exact ⟨request, horigin ▸ hrequest, huser ▸ hid⟩
  · rw [Thread.active, hset Copy.origin rfl]
    exact hperm

theorem Serves.respond (h : s.Serves) {i : ℕ} {a : Answer} (hphase : s.phase = .responding i a)
    (hstep : s.respond i a = some s') : s'.Serves := by
  rw [System.respond, Channel.push] at hstep
  obtain ⟨hpopped, hholds⟩ := h.responses
  by_cases hfull : s.thread.channelResponses.full
  · rw [if_pos hfull] at hstep
    cases hstep
  · obtain ⟨ch, hput, -, hholds'⟩ := hholds.put hfull i
    rw [if_neg hfull, hput] at hstep
    cases hstep
    have hhandles := h.handles
    have hperm := h.perm
    rw [hphase] at hhandles hperm
    refine {
      requests := h.requests
      responses := ⟨?_, ?_⟩
      size := h.size
      copies := h.copies
      perm := ?_
      named := ?_
      handles := trivial }
    · rw [List.length_append]
      exact hpopped.trans (Nat.le_add_right _ _)
    · rw [List.drop_append_of_le_length hpopped, List.map_append]
      exact hholds'
    · refine List.Perm.trans ?_ hperm
      rw [answered, answered, List.map_append]
      simp only [Phase.current, Option.toList_none, Option.toList_some, List.append_nil,
        List.append_assoc]
      exact (List.perm_append_comm).append_left _
    · intro k b hb
      rcases List.mem_append.mp hb with hb | hb
      · exact h.named k b hb
      · cases List.mem_singleton.mp hb
        exact hhandles

theorem Serves.popResponse (h : s.Serves) (hstep : s.popResponse = some s') : s'.Serves := by
  rw [System.popResponse, Channel.popNowait] at hstep
  obtain ⟨hpopped, hholds⟩ := h.responses
  by_cases hempty : s.thread.channelResponses.empty
  · rw [if_pos hempty] at hstep
    cases hstep
    exact h
  · obtain ⟨i, items, ch, hitems, htake, -, hholds'⟩ := hholds.take hempty
    rw [if_neg hempty, htake] at hstep
    cases hstep
    have hlt : s.popped < s.answers.length := by
      by_contra hge
      rw [List.drop_of_length_le (not_lt.mp hge)] at hitems
      cases hitems
    rw [List.drop_eq_getElem_cons hlt, List.map_cons] at hitems
    obtain ⟨-, hitems⟩ := List.cons.inj hitems
    exact ⟨h.requests, ⟨hlt, hitems ▸ hholds'⟩, h.size, h.copies, h.perm, h.named, h.handles⟩

theorem Serves.read (h : s.Serves) {k : ℕ} (hstep : s.read k = some s') : s'.Serves := by
  obtain ⟨⟨number, i⟩, -, hstep⟩ := Option.bind_eq_some_iff.mp hstep
  obtain ⟨x, -, hstep⟩ := Option.bind_eq_some_iff.mp hstep
  cases hstep
  exact ⟨h.requests, h.responses, h.size, h.copies, h.perm, h.named, h.handles⟩

theorem Serves.step (h : s.Serves) {action : Action} (hstep : s.step parse action = some s') :
    s'.Serves := by
  cases steps_of_step hstep with
  | push hpush => exact h.push hpush
  | receive hphase hreceive => exact h.receive (by rw [hphase]; rfl) hreceive
  | updateMappings hphase hupdate heq =>
      subst heq
      obtain ⟨fileMtime, mappings, rfl⟩ := Thread.updateMappings_eq_some hupdate
      exact h.loop (by rw [hphase]; rfl) fileMtime mappings rfl trivial
  | popKnownRequest hphase hpop => exact h.popKnownRequest (by rw [hphase]; rfl) hpop
  | create hphase hcreate => exact h.create hphase hcreate
  | respond hphase hrespond => exact h.respond hphase hrespond
  | popResponse hpop => exact h.popResponse hpop
  | read hread => exact h.read hread

theorem serves_start {basePath : BasePath} {t : Thread} (h : initStreamThread basePath = some t) :
    (start t).Serves := by
  have hkept := kept_start h
  rw [initStreamThread, Option.bind_eq_bind, Option.bind_eq_some_iff] at h
  obtain ⟨requests, -, h⟩ := h
  obtain ⟨responses, -, h⟩ := Option.bind_eq_some_iff.mp h
  cases h
  exact {
    requests := hkept.requests
    responses := hkept.responses
    size := Nat.zero_le _
    copies := fun x hx => ⟨x.toRequest, hkept.copies x hx, rfl⟩
    perm := hkept.perm
    named := fun i a ha => absurd ha List.not_mem_nil
    handles := fun x hx => absurd hx List.not_mem_nil }

end Steps

end System

/-- For every run of the stream thread and the main thread, with any requests, any changes of the
mappings file and any outcome of the creation of the files: each request received is active, in
hand or answered, and none is answered twice; an answer is under the name of a mapping of the
request's own id, and none that has a mapping is left when the thread comes back to the head of
its loop. -/
theorem requests_answered_once {basePath : BasePath} {t : Thread}
    (h : initStreamThread basePath = some t) (parse : Parser) (actions : List Action) :
    Throughout (System.step parse) System.AnswersAll (System.start t) actions :=
  throughout_of_step (fun _ => System.Serves.answersAll)
    (fun _ _ _ _ hserves hstep => hserves.step hstep) (System.serves_start h)

/-- The response of the first request shows the second one, and yet the first one is answered
under its name. -/
theorem requests_answered_once_firstIsKnown : ∃ t s, initStreamThread ⟨[], 1024⟩ = some t ∧
    run (System.step System.parseZero) (System.start t) System.firstIsKnown = some s ∧
    s.answered = [0] ∧
    Throughout (System.step System.parseZero) System.AnswersAll (System.start t)
      System.firstIsKnown := by
  have hrun : ((initStreamThread ⟨[], 1024⟩).bind fun t =>
      run (System.step System.parseZero) (System.start t) System.firstIsKnown).map
        System.answered = some [0] := by
    decide +kernel
  obtain ⟨s, hs, hanswered⟩ := Option.map_eq_some_iff.mp hrun
  obtain ⟨t, ht, hs⟩ := Option.bind_eq_some_iff.mp hs
  exact ⟨t, s, ht, hs, hanswered, requests_answered_once ht System.parseZero _⟩

end StreamThread

end ConArtist
