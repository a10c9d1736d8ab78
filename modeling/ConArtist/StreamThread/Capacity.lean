import ConArtist.StreamThread.Known

/-!
# Do the tables of the stream thread stay within their arrays

The array of the active requests has 256 elements and that of the mappings 1024, and
the thread asks of neither whether it is full. A request stays active until there is a
mapping for it, so the requests of ids without one add up, while the channel they come
through has room for 1024 at a time; and there is a mapping for every line of the file.

`TablesOk` says that the tables are within their arrays, `StaysInside` that an action
leaves them there. `RoomFor` asks that fewer than 256 of the requests received are
unanswered when another one comes, and for a file of 1024 lines at most.
-/

namespace ConArtist

namespace StreamThread

open Machine
open StreamRequest (Parser FileView)

/-- The lines that `update_mappings` stores, when it sees that the file has changed. -/
def Thread.reload (parse : Parser) (t : Thread) : Option FileView → List (UInt64 × List UInt8)
  | none => []
  | some view =>
      if view.mtime = none ∨ view.mtime = some t.fileMtime then [] else parse view.content

namespace System

/-- The two tables are within their arrays, and each name is followed by its closing zero
inside its field. -/
structure TablesOk (s : System) : Prop where
  activeRequests : s.thread.activeRequestsSize ≤ s.thread.activeRequests.length
  mappings : s.thread.mappings.length ≤ s.thread.mappingsCapacity
  names : ∀ m ∈ s.thread.mappings, m.name.length < nameLen

/-- The action is that of the thread which takes a request out of the channel. -/
def Receives (s : System) : Action → Prop
  | .receive => s.phase = .receiving ∧ ¬ s.thread.channelRequests.empty
  | _ => False

/-- The lines that the action stores. -/
def reload (parse : Parser) (s : System) : Action → List (UInt64 × List UInt8)
  | .updateMappings file =>
      match s.phase with
      | .updating => s.thread.reload parse file
      | _ => []
  | _ => []

/-- The sizes that the action counts up are within the arrays. -/
structure StaysInside (parse : Parser) (s : System) (action : Action) : Prop where
  activeRequests : s.Receives action →
    s.thread.activeRequestsSize + 1 ≤ s.thread.activeRequests.length
  mappings : (s.reload parse action).length ≤ s.thread.mappingsCapacity

/-- There is room for what the action adds. -/
structure RoomFor (parse : Parser) (s : System) (action : Action) : Prop where
  activeRequests : s.Receives action → s.received.length < s.answers.length + 256
  mappings : (s.reload parse action).length ≤ 1024

/-- What holds in every state: the lengths of the arrays, and that a request received is
active, in the hands of the thread, or answered. -/
structure Counted (s : System) : Prop where
  length : s.thread.activeRequests.length = 256
  capacity : s.thread.mappingsCapacity = 1024
  tables : s.TablesOk
  count : s.received.length =
    s.thread.activeRequestsSize + s.phase.current.toList.length + s.answers.length

section Steps

variable {parse : Parser} {s s' : System}

/-- An action that adds no active request and leaves the mappings keeps the tables. -/
theorem Counted.keep (h : s.Counted)
    (hlength : s'.thread.activeRequests.length = s.thread.activeRequests.length)
    (hsize : s'.thread.activeRequestsSize ≤ s.thread.activeRequestsSize)
    (hmappings : s'.thread.mappings = s.thread.mappings)
    (hcapacity : s'.thread.mappingsCapacity = s.thread.mappingsCapacity)
    (hcount : s'.received.length =
      s'.thread.activeRequestsSize + s'.phase.current.toList.length + s'.answers.length) :
    s'.Counted where
  length := hlength.trans h.length
  capacity := hcapacity.trans h.capacity
  tables :=
    { activeRequests := hlength ▸ hsize.trans h.tables.activeRequests
      mappings := hmappings ▸ hcapacity ▸ h.tables.mappings
      names := hmappings ▸ h.tables.names }
  count := hcount

theorem Counted.push (h : s.Counted) {request : Request} (hstep : s.push request = some s') :
    s'.Counted := by
  rw [System.push] at hstep
  split at hstep
  case h_1 =>
    cases hstep
    exact h.keep rfl le_rfl rfl rfl h.count
  case h_2 => cases hstep

theorem Counted.receive (h : s.Counted) (hphase : s.phase = .receiving)
    (hstep : s.receive = some s') : s'.Counted := by
  have hcount := h.count
  rw [hphase] at hcount
  obtain ⟨-, rfl⟩ | ⟨-, p, ch, -, haccept⟩ := receive_eq_some hstep
  · exact h.keep rfl le_rfl rfl rfl hcount
  · obtain ⟨request, t, -, happend, rfl⟩ := accept_eq_some haccept
    obtain ⟨hlt, rfl⟩ := Thread.append_eq_some happend
    refine ⟨?_, h.capacity, ⟨?_, h.tables.mappings, h.tables.names⟩, ?_⟩
    · rw [List.length_set, h.length]
    · rw [List.length_set]
      exact hlt
    · simp only [Phase.current, Option.toList_none, List.length_nil, List.length_append,
        List.length_singleton] at hcount ⊢
      omega

/-- What is loaded from the file is within the array, and cut to the field. -/
theorem Counted.updateMappings (h : s.Counted) (hphase : s.phase = .updating)
    {file : Option FileView} {t : Thread} (ht : s.thread.updateMappings parse file = some t) :
    { s with thread := t, phase := .searching : System }.Counted := by
  have hcount := h.count
  rw [hphase] at hcount
  have hsame : { s with phase := .searching : System }.Counted :=
    h.keep rfl le_rfl rfl rfl hcount
  cases file with
  | none =>
      cases ht
      exact hsame
  | some view =>
      rw [Thread.updateMappings] at ht
      split at ht
      case h_1 =>
        cases ht
        exact hsame
      case h_2 mtime =>
        dsimp only at ht
        split at ht
        case isTrue =>
          cases ht
          exact hsame
        case isFalse =>
          split at ht
          case isFalse => cases ht
          case isTrue hle =>
            cases ht
            refine ⟨h.length, h.capacity, ⟨h.tables.activeRequests, ?_, ?_⟩, hcount⟩
            · rw [List.length_map]
              exact hle
            · intro m hm
              obtain ⟨line, -, rfl⟩ := List.mem_map.mp hm
              exact Nat.lt_of_le_of_lt (List.length_take_le _ _) (by decide)

theorem Counted.popKnownRequest (h : s.Counted) (hphase : s.phase = .searching)
    (hstep : s.popKnownRequest = some s') : s'.Counted := by
  have hcount := h.count
  rw [hphase] at hcount
  obtain rfl | ⟨i, j, t, x, hpop, -, rfl⟩ := popKnownRequest_eq_some hstep
  · exact h.keep rfl le_rfl rfl rfl hcount
  · obtain ⟨y, last, hy, -, -, rfl⟩ := Thread.popKnownRequest_eq_some hpop
    have hi : i < s.thread.activeRequestsSize := by
      have hlt := (List.getElem?_eq_some_iff.mp hy).1
      rw [Thread.active, List.length_take] at hlt
      exact Nat.lt_of_lt_of_le hlt (Nat.min_le_left _ _)
    refine h.keep List.length_set (Nat.sub_le _ _) rfl rfl ?_
    simp only [Phase.current, Option.toList_none, Option.toList_some, List.length_nil,
      List.length_singleton] at hcount ⊢
    omega

theorem Counted.create (h : s.Counted) {i j origin : ℕ} (hphase : s.phase = .creating i j origin)
    {created : Option ℕ} (hstep : s.create i j origin created = some s') : s'.Counted := by
  have hcount := h.count
  rw [hphase] at hcount
  obtain ⟨mapping, -, hstep⟩ := Option.bind_eq_some_iff.mp hstep
  obtain ⟨x, -, hstep⟩ := Option.bind_eq_some_iff.mp hstep
  cases hstep
  exact h.keep List.length_set le_rfl rfl rfl hcount

theorem Counted.respond (h : s.Counted) {i : ℕ} {a : Answer} (hphase : s.phase = .responding i a)
    (hstep : s.respond i a = some s') : s'.Counted := by
  have hcount := h.count
  rw [hphase] at hcount
  rw [System.respond] at hstep
  split at hstep
  case h_1 =>
    cases hstep
    refine h.keep rfl le_rfl rfl rfl ?_
    simp only [Phase.current, Option.toList_none, Option.toList_some, List.length_nil,
      List.length_singleton, List.length_append] at hcount ⊢
    omega
  case h_2 => cases hstep

theorem Counted.popResponse (h : s.Counted) (hstep : s.popResponse = some s') : s'.Counted := by
  rw [System.popResponse] at hstep
  split at hstep
  case h_1 =>
    cases hstep
    exact h.keep rfl le_rfl rfl rfl h.count
  case h_2 =>
    cases hstep
    exact h.keep rfl le_rfl rfl rfl h.count
  case h_3 => cases hstep

theorem Counted.read (h : s.Counted) {k : ℕ} (hstep : s.read k = some s') : s'.Counted := by
  obtain ⟨⟨number, i⟩, -, hstep⟩ := Option.bind_eq_some_iff.mp hstep
  obtain ⟨x, -, hstep⟩ := Option.bind_eq_some_iff.mp hstep
  cases hstep
  exact h.keep rfl le_rfl rfl rfl h.count

theorem Counted.step (h : s.Counted) {action : Action} (hstep : s.step parse action = some s') :
    s'.Counted := by
  cases steps_of_step hstep with
  | push hpush => exact h.push hpush
  | receive hphase hreceive => exact h.receive hphase hreceive
  | updateMappings hphase hupdate heq => exact heq ▸ h.updateMappings hphase hupdate
  | popKnownRequest hphase hpop => exact h.popKnownRequest hphase hpop
  | create hphase hcreate => exact h.create hphase hcreate
  | respond hphase hrespond => exact h.respond hphase hrespond
  | popResponse hpop => exact h.popResponse hpop
  | read hread => exact h.read hread

/-- An action leaves the tables within their arrays exactly when there is room. -/
theorem Counted.staysInside_iff (h : s.Counted) {action : Action} :
    s.StaysInside parse action ↔ s.RoomFor parse action := by
  have hreceives : s.Receives action →
      (s.thread.activeRequestsSize + 1 ≤ s.thread.activeRequests.length ↔
        s.received.length < s.answers.length + 256) := by
    intro hreceives
    have hcount := h.count
    have hlength := h.length
    cases action with
    | receive =>
        rw [hreceives.1] at hcount
        simp only [Phase.current, Option.toList_none, List.length_nil] at hcount
        omega
    | push | updateMappings | popKnownRequest | create | respond | popResponse | read =>
        exact hreceives.elim
  constructor
  · rintro ⟨hrequests, hmappings⟩
    exact ⟨fun hr => (hreceives hr).mp (hrequests hr), h.capacity ▸ hmappings⟩
  · rintro ⟨hrequests, hmappings⟩
    exact ⟨fun hr => (hreceives hr).mpr (hrequests hr), h.capacity.symm ▸ hmappings⟩

theorem counted_start {basePath : BasePath} {t : Thread}
    (h : initStreamThread basePath = some t) : (start t).Counted := by
  rw [initStreamThread, Option.bind_eq_bind, Option.bind_eq_some_iff] at h
  obtain ⟨requests, -, h⟩ := h
  obtain ⟨responses, -, h⟩ := Option.bind_eq_some_iff.mp h
  cases h
  exact ⟨List.length_replicate, rfl, ⟨Nat.zero_le _, Nat.zero_le _,
    fun m hm => absurd hm List.not_mem_nil⟩, rfl⟩

end Steps

section Filling

/-- A request for an id without a mapping goes through the loop of the thread. -/
def unmappedRound : List Action :=
  [.push ⟨5, 2, 64, none⟩, .receive, .updateMappings none, .popKnownRequest]

/-- A thread without mappings, with `n` active requests and none in the channel. -/
structure Filling (s : System) (n : ℕ) : Prop where
  phase : s.phase = .receiving
  mappings : s.thread.mappings = []
  size : s.thread.activeRequestsSize = n
  length : s.thread.activeRequests.length = 256
  requests : s.thread.channelRequests.Holds []
  capacity : s.thread.channelRequests.capacity = 1024

theorem filling_start (basePath : BasePath) :
    ∃ t, initStreamThread basePath = some t ∧ (start t).Filling 0 := by
  obtain ⟨ch, hch, hlists⟩ := Channel.exists_init (Nat.succ_pos 1023)
  have hcapacity := hlists.length_add
  rw [List.length_nil, List.length_range, Nat.zero_add] at hcapacity
  have hinit : initStreamThread basePath = some {
      basePath := basePath
      channelRequests := ch
      channelResponses := ch
      fileMtime := 0
      mappings := []
      mappingsCapacity := 1024
      activeRequests := List.replicate 256 ⟨⟨0, 0, 0, none⟩, 0⟩
      activeRequestsSize := 0 } := by
    rw [initStreamThread, hch]
    rfl
  exact ⟨_, hinit, rfl, rfl, rfl, List.length_replicate, ⟨[], _, hlists, rfl⟩, hcapacity.symm⟩

variable {parse : Parser} {s : System} {n : ℕ}

theorem Filling.push (h : s.Filling n) (request : Request) :
    ∃ ch, s.push request = some { s with
        thread := { s.thread with channelRequests := ch }
        pushed := s.pushed ++ [request] } ∧
      ch.Holds [s.pushed.length] ∧ ch.capacity = 1024 := by
  have hroom : ¬ s.thread.channelRequests.full := by
    rw [Channel.full, h.capacity, ← h.requests.size]
    decide
  obtain ⟨ch, hput, hcapacity, hholds⟩ := h.requests.put hroom s.pushed.length
  refine ⟨ch, ?_, hholds, hcapacity.trans h.capacity⟩
  rw [System.push, Channel.push, if_neg hroom, hput]
  rfl

theorem receive_eq_accept {p : ℕ} {ch : Channel} (hdata : ¬ s.thread.channelRequests.empty)
    (htake : s.thread.channelRequests.take = some (p, ch)) : s.receive = s.accept p ch := by
  rw [receive, Channel.pop, Channel.popNowait, if_neg hdata, if_neg hdata, htake]
  split <;> rfl

/-- As long as the array has room, the request stays active, and the thread waits for the
next one. -/
theorem Filling.round (h : s.Filling n) (hn : n < 256) :
    ∃ s', run (step parse) s unmappedRound = some s' ∧ s'.Filling (n + 1) := by
  obtain ⟨ch, hpush, hholds, hcapacity⟩ := h.push ⟨5, 2, 64, none⟩
  have hdata : ¬ ch.empty := by
    rw [Channel.empty, ← hholds.size, List.length_singleton]
    exact Nat.one_ne_zero
  obtain ⟨p, items, ch', hitems, htake, hcapacity', hholds'⟩ := hholds.take hdata
  obtain ⟨rfl, rfl⟩ := List.cons.inj hitems
  have hlt : s.thread.activeRequestsSize < s.thread.activeRequests.length := by
    rw [h.size, h.length]
    exact hn
  -- the thread with the request in its array
  obtain ⟨t, ht⟩ : ∃ t : Thread, t = { s.thread with
    channelRequests := ch'
    activeRequests := s.thread.activeRequests.set s.thread.activeRequestsSize
      ⟨⟨5, 2, 64, none⟩, s.pushed.length⟩
    activeRequestsSize := s.thread.activeRequestsSize + 1 } := ⟨_, rfl⟩
  have hunknown : t.popKnownRequest = some (none, t) := by
    refine Thread.popKnownRequest_unknown fun x _ hmapped => ?_
    obtain ⟨m, hm, -⟩ := hmapped
    rw [ht] at hm
    have hnil := h.mappings
    simp only [hnil, List.not_mem_nil] at hm
  obtain ⟨s₂, hs₂⟩ : ∃ s₂ : System, s₂ = { s with
    thread := t
    phase := .updating
    pushed := s.pushed ++ [⟨5, 2, 64, none⟩]
    received := s.received ++ [s.pushed.length] } := ⟨_, rfl⟩
  have hreceive : System.step parse { s with
      thread := { s.thread with channelRequests := ch }
      pushed := s.pushed ++ [⟨5, 2, 64, none⟩] } .receive = some s₂ := by
    simp only [System.step, h.phase]
    rw [receive_eq_accept hdata htake, accept, List.getElem?_concat_length, hs₂, ht]
    simp only [Thread.append, hlt, if_true, Option.bind_eq_bind, Option.bind_some]
  have hupdate : System.step parse s₂ (.updateMappings none) =
      some { s₂ with phase := .searching } := by
    rw [hs₂]
    rfl
  have hpop : System.step parse { s₂ with phase := .searching } .popKnownRequest =
      some { s₂ with phase := .receiving } := by
    rw [hs₂]
    simp only [System.step, System.popKnownRequest, hunknown, Option.bind_eq_bind,
      Option.bind_some]
  refine ⟨{ s₂ with phase := .receiving }, ?_, ?_⟩
  · have hpush' : System.step parse s (.push ⟨5, 2, 64, none⟩) = _ := hpush
    rw [unmappedRound, run_cons, hpush', Option.bind_some, run_cons, hreceive, Option.bind_some,
      run_cons, hupdate, Option.bind_some, run_cons, hpop, Option.bind_some, run_nil]
  · rw [hs₂, ht]
    refine ⟨rfl, h.mappings, congrArg (· + 1) h.size, ?_, hholds', hcapacity'.trans hcapacity⟩
    rw [List.length_set, h.length]

theorem exists_filling (parse : Parser) {t : Thread} (h : (start t).Filling 0) :
    ∀ n ≤ 256, ∃ s, run (step parse) (start t) (List.replicate n unmappedRound).flatten = some s ∧
      s.Filling n := by
  intro n
  induction n with
  | zero => exact fun _ => ⟨start t, rfl, h⟩
  | succ n ih =>
      intro hn
      obtain ⟨s, hrun, hs⟩ := ih (Nat.le_of_succ_le hn)
      obtain ⟨s', hround, hs'⟩ := hs.round hn
      refine ⟨s', ?_, hs'⟩
      rw [List.replicate_succ', List.flatten_append, List.flatten_singleton]
      exact (run_append_eq_some _).mpr ⟨s, hrun, hround⟩

end Filling

/-- For every run of the stream thread and the main thread, with any requests and any
content of the mappings file: the tables are within their arrays in every state and no
action counts them past their ends, exactly when at every request that is received fewer
than 256 were received and not answered, and every changed file has at most 1024
lines. -/
theorem tables_inside_iff {basePath : BasePath} {t : Thread}
    (h : initStreamThread basePath = some t) (parse : Parser) (actions : List Action) :
    (Throughout (step parse) TablesOk (start t) actions ∧
        Attempts (step parse) (StaysInside parse) (start t) actions) ↔
      Attempts (step parse) (RoomFor parse) (start t) actions := by
  have hstart := counted_start h
  rw [throughout_and_attempts_iff, and_iff_right hstart.tables]
  refine attempts_iff_attempts (I := Counted) (fun s action s' hs _ hstep => hs.step hstep) ?_
    hstart
  intro s action hs
  rw [← hs.staysInside_iff]
  exact and_iff_left fun s' hstep => (hs.step hstep).tables

/-- One request is received, and a file of one line is loaded. -/
theorem tables_inside_one : ∃ t, initStreamThread ⟨[], 1024⟩ = some t ∧
    Throughout (step parseZero) TablesOk (start t)
      [.push ⟨0, 4, 32, none⟩, .receive, .updateMappings (some fileOfZero)] ∧
    Attempts (step parseZero) (StaysInside parseZero) (start t)
      [.push ⟨0, 4, 32, none⟩, .receive, .updateMappings (some fileOfZero)] := by
  obtain ⟨t, ht, -⟩ := filling_start ⟨[], 1024⟩
  have hlines : ∀ s, (reload parseZero s (.updateMappings (some fileOfZero))).length ≤ 1024 := by
    intro s
    rw [reload]
    split
    · rw [Thread.reload]
      split <;> decide
    · exact Nat.zero_le _
  refine ⟨t, ht, (tables_inside_iff ht parseZero _).mpr ?_⟩
  refine ⟨⟨fun h => h.elim, Nat.zero_le _⟩,
    fun s hs => ⟨⟨fun _ => ?_, Nat.zero_le _⟩, fun s' _ => ?_⟩⟩
  · rw [System.step, System.push] at hs
    split at hs
    case h_1 =>
      cases hs
      exact Nat.succ_pos 255
    case h_2 => cases hs
  · exact ⟨⟨fun h => h.elim, hlines s'⟩, fun _ _ => trivial⟩

/-- After 256 requests for an id without a mapping the next one is stored behind the end
of the array. -/
theorem active_overrun : ∃ t, initStreamThread ⟨[], 1024⟩ = some t ∧
    ¬ (Throughout (step parseZero) TablesOk (start t)
        ((List.replicate 256 unmappedRound).flatten ++ [.push ⟨5, 2, 64, none⟩] ++ [.receive]) ∧
      Attempts (step parseZero) (StaysInside parseZero) (start t)
        ((List.replicate 256 unmappedRound).flatten ++ [.push ⟨5, 2, 64, none⟩] ++
          [.receive])) := by
  obtain ⟨t, ht, hstart⟩ := filling_start ⟨[], 1024⟩
  obtain ⟨s, hrun, hs⟩ := exists_filling parseZero hstart 256 (Nat.le_refl 256)
  obtain ⟨ch, hpush, hholds, -⟩ := hs.push ⟨5, 2, 64, none⟩
  have hpushed : run (step parseZero) (start t)
      ((List.replicate 256 unmappedRound).flatten ++ [.push ⟨5, 2, 64, none⟩]) = some _ :=
    (run_append_eq_some _).mpr ⟨s, hrun, (run_cons_eq_some _).mpr ⟨_, hpush, rfl⟩⟩
  refine ⟨t, ht, fun h => not_attempts_append hpushed (fun hinside => ?_) h.2⟩
  have hdata : ¬ ch.empty := by
    rw [Channel.empty, ← hholds.size, List.length_singleton]
    exact Nat.one_ne_zero
  have hfits := hinside.activeRequests ⟨hs.phase, hdata⟩
  rw [hs.size, hs.length] at hfits
  exact absurd hfits (by decide)

end System

end StreamThread

end ConArtist
