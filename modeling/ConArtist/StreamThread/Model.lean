import ConArtist.Channel.Model
import ConArtist.StreamRequest.Jobs

/-!
# The stream thread

The model of `stream_thread_t` in `stream_manager.cpp`. The thread copies the requests that
the main thread pushes into the array of the active ones. Once there is a mapping for a
request it leaves the array, and what goes back through the channel of the responses is the
pointer to its element.

A pointer to a pushed request is the place of the push, and a pointer to an active request is
its place in the array. The file system comes with the actions: what is seen of the mappings
file, and whether `create_rw` succeeds. What is followed of the requests is kept with them:
which push an element is a copy of, and what a response was pushed for.
-/

namespace ConArtist

namespace StreamThread

open StreamRequest (Parser FileView)

/-- `stream_request_t`. -/
structure Request where
  userId : UInt64
  streamId : UInt32
  mmfileSize : UInt64
  /-- The handle of the file, `none` for a null pointer. -/
  mmfile : Option ℕ
deriving DecidableEq

/-- An element of `m_active_requests`, with the push that it is a copy of. -/
structure Copy extends Request where
  origin : ℕ

/-- `stream_mapping_t`. The name is without its closing zero. -/
structure StreamMapping where
  id : UInt64
  name : List UInt8

/-- The length of `m_name`. -/
def nameLen : ℕ := 256 - 8

/-- The base path of a thread, with `MAXPATHLEN`, which the platform gives. -/
structure BasePath where
  path : List UInt8
  maxPathLen : ℕ

/-- The path of a file, with the name up to its first zero. -/
def StreamMapping.filepath (m : StreamMapping) (basePath : BasePath) : List UInt8 :=
  (basePath.path ++ "/".toUTF8.data.toList ++ m.name.takeWhile (· ≠ 0) ++
    ".rwstream".toUTF8.data.toList).take (basePath.maxPathLen - 1)

/-- `stream_thread_t`. Of the mappings it has those in use. -/
structure Thread where
  basePath : BasePath
  channelRequests : Channel
  channelResponses : Channel
  /-- `st_mtime` of `m_mappings_file_stat`. -/
  fileMtime : ℤ
  mappings : List StreamMapping
  mappingsCapacity : ℕ
  activeRequests : List Copy
  activeRequestsSize : ℕ

/-- `init_stream_thread`. The active requests are not initialised, and none is read before it
is written. -/
def initStreamThread (basePath : BasePath) : Option Thread := do
  let channelRequests ← Channel.init 1024
  let channelResponses ← Channel.init 1024
  some {
    basePath := basePath
    channelRequests := channelRequests
    channelResponses := channelResponses
    fileMtime := 0
    mappings := []
    mappingsCapacity := 1024
    activeRequests := List.replicate 256 ⟨⟨0, 0, 0, none⟩, 0⟩
    activeRequestsSize := 0 }

namespace Thread

def active (t : Thread) : List Copy := t.activeRequests.take t.activeRequestsSize

/-- `update_mappings`, with what it sees when it opens the file. More lines than there is
room for leave the array. -/
def updateMappings (parse : Parser) (t : Thread) (file : Option FileView) : Option Thread :=
  match file with
  | none => some t
  | some view =>
      match view.mtime with
      | none => some t
      | some mtime =>
          let lines := parse view.content
          if mtime = t.fileMtime then some t
          else if lines.length ≤ t.mappingsCapacity then
            some { t with
              mappings := lines.map fun line => ⟨line.1, line.2.take (nameLen - 1)⟩
              fileMtime := mtime }
          else none

/-- The inner loop of `pop_known_request`: the first mapping for an id. -/
def findMapping (t : Thread) (userId : UInt64) : Option ℕ :=
  t.mappings.findIdx? fun m => m.id = userId

/-- The outer loop of `pop_known_request`, from the request at a place on. -/
def findKnown (t : Thread) (i : ℕ) : List Copy → Option (ℕ × ℕ)
  | [] => none
  | request :: requests =>
      match t.findMapping request.userId with
      | some j => some (i, j)
      | none => t.findKnown (i + 1) requests

/-- `pop_known_request`: the places of the request and of its mapping. The last active request
moves into the place. -/
def popKnownRequest (t : Thread) : Option (Option (ℕ × ℕ) × Thread) :=
  match t.findKnown 0 t.active with
  | none => some (none, t)
  | some (i, j) =>
      t.activeRequests[t.activeRequestsSize - 1]?.map fun last =>
        (some (i, j), { t with
          activeRequests := t.activeRequests.set i last
          activeRequestsSize := t.activeRequestsSize - 1 })

/-- `m_active_requests[m_active_requests_size++] = *request`. -/
def append (t : Thread) (request : Copy) : Option Thread :=
  if t.activeRequestsSize < t.activeRequests.length then
    some { t with
      activeRequests := t.activeRequests.set t.activeRequestsSize request
      activeRequestsSize := t.activeRequestsSize + 1 }
  else none

end Thread

/-- What a response is pushed for: the request that left the array, with its mapping, and what
`create_rw` was called with and left in the pointer. -/
structure Answer where
  origin : ℕ
  mapping : StreamMapping
  filepath : List UInt8
  mmfileSize : UInt64
  mmfile : Option ℕ

/-- Where the thread is in its loop. -/
inductive Phase where
  | receiving
  | updating
  | searching
  | creating (knownRequest knownMapping origin : ℕ)
  | responding (knownRequest : ℕ) (answer : Answer)

/-- The push whose request is being answered. -/
def Phase.current : Phase → Option ℕ
  | .creating _ _ origin => some origin
  | .responding _ answer => some answer.origin
  | _ => none

/-- The thread and the main thread. The requests that were pushed, those received, and the
answers are in order. The main thread has popped a number of responses, and holds the pointers
that it has not read yet, each with its number. -/
structure System where
  thread : Thread
  phase : Phase
  pushed : List Request
  received : List ℕ
  answers : List (ℕ × Answer)
  popped : ℕ
  held : List (ℕ × ℕ)
  reads : List (ℕ × Copy)

/-- The steps of the two threads. -/
inductive Action where
  | push (request : Request)
  | receive
  | updateMappings (file : Option FileView)
  | popKnownRequest
  | create (created : Option ℕ)
  | respond
  | popResponse
  | read (k : ℕ)

namespace System

/-- A new thread, when nothing was pushed yet. -/
def start (t : Thread) : System where
  thread := t
  phase := .receiving
  pushed := []
  received := []
  answers := []
  popped := 0
  held := []
  reads := []

/-- The main thread pushes a request. -/
def push (s : System) (request : Request) : Option System :=
  match s.thread.channelRequests.push s.pushed.length with
  | some (some ch) =>
      some { s with
        thread := { s.thread with channelRequests := ch }
        pushed := s.pushed ++ [request] }
  | _ => none

/-- A pointer that was popped is followed, and the request is copied. -/
def accept (s : System) (p : ℕ) (ch : Channel) : Option System := do
  let request ← s.pushed[p]?
  let thread ← { s.thread with channelRequests := ch }.append ⟨request, p⟩
  some { s with thread := thread, phase := .updating, received := s.received ++ [p] }

/-- The start of the loop: the thread waits for a request when none is active. -/
def receive (s : System) : Option System :=
  if s.thread.activeRequestsSize = 0 then
    match s.thread.channelRequests.pop with
    | some (some (p, ch)) => s.accept p ch
    | _ => none
  else
    match s.thread.channelRequests.popNowait with
    | some (some p, ch) => s.accept p ch
    | some (none, ch) =>
        some { s with thread := { s.thread with channelRequests := ch }, phase := .updating }
    | none => none

/-- A call of `pop_known_request`. -/
def popKnownRequest (s : System) : Option System := do
  match ← s.thread.popKnownRequest with
  | (none, t) => some { s with thread := t, phase := .receiving }
  | (some (i, j), t) =>
      let request ← s.thread.activeRequests[i]?
      some { s with thread := t, phase := .creating i j request.origin }

/-- The file of the known request is created, with the size and for the pointer of the element
that `known_request` points to now. -/
def create (s : System) (i j origin : ℕ) (created : Option ℕ) : Option System := do
  let mapping ← s.thread.mappings[j]?
  let request ← s.thread.activeRequests[i]?
  some { s with
    thread := { s.thread with
      activeRequests := s.thread.activeRequests.set i { request with mmfile := created } }
    phase := .responding i {
      origin := origin
      mapping := mapping
      filepath := mapping.filepath s.thread.basePath
      mmfileSize := request.mmfileSize
      mmfile := created } }

def respond (s : System) (i : ℕ) (answer : Answer) : Option System :=
  match s.thread.channelResponses.push i with
  | some (some ch) =>
      some { s with
        thread := { s.thread with channelResponses := ch }
        phase := .searching
        answers := s.answers ++ [(i, answer)] }
  | _ => none

/-- The main thread pops a response. -/
def popResponse (s : System) : Option System :=
  match s.thread.channelResponses.popNowait with
  | some (some i, ch) =>
      some { s with
        thread := { s.thread with channelResponses := ch }
        popped := s.popped + 1
        held := s.held ++ [(s.popped, i)] }
  | some (none, ch) => some { s with thread := { s.thread with channelResponses := ch } }
  | none => none

/-- The main thread reads a response that it holds, and is done with it. -/
def read (s : System) (k : ℕ) : Option System := do
  let (number, i) ← s.held[k]?
  let request ← s.thread.activeRequests[i]?
  some { s with held := s.held.eraseIdx k, reads := s.reads ++ [(number, request)] }

def step (parse : Parser) (s : System) : Action → Option System
  | .push request => s.push request
  | .receive =>
      match s.phase with
      | .receiving => s.receive
      | _ => none
  | .updateMappings file =>
      match s.phase with
      | .updating => (s.thread.updateMappings parse file).map fun t =>
          { s with thread := t, phase := .searching }
      | _ => none
  | .popKnownRequest =>
      match s.phase with
      | .searching => s.popKnownRequest
      | _ => none
  | .create created =>
      match s.phase with
      | .creating i j origin => s.create i j origin created
      | _ => none
  | .respond =>
      match s.phase with
      | .responding i answer => s.respond i answer
      | _ => none
  | .popResponse => s.popResponse
  | .read k => s.read k

/-- What a step does. An action of the thread is one of its phase. -/
inductive Steps (parse : Parser) (s s' : System) : Action → Prop
  | push {request : Request} (eq_some : s.push request = some s') :
      Steps parse s s' (.push request)
  | receive (phase : s.phase = .receiving) (eq_some : s.receive = some s') :
      Steps parse s s' .receive
  | updateMappings {file : Option FileView} {t : Thread} (phase : s.phase = .updating)
      (eq_some : s.thread.updateMappings parse file = some t)
      (eq : s' = { s with thread := t, phase := .searching }) :
      Steps parse s s' (.updateMappings file)
  | popKnownRequest (phase : s.phase = .searching) (eq_some : s.popKnownRequest = some s') :
      Steps parse s s' .popKnownRequest
  | create {i j origin : ℕ} {created : Option ℕ} (phase : s.phase = .creating i j origin)
      (eq_some : s.create i j origin created = some s') : Steps parse s s' (.create created)
  | respond {i : ℕ} {answer : Answer} (phase : s.phase = .responding i answer)
      (eq_some : s.respond i answer = some s') : Steps parse s s' .respond
  | popResponse (eq_some : s.popResponse = some s') : Steps parse s s' .popResponse
  | read {k : ℕ} (eq_some : s.read k = some s') : Steps parse s s' (.read k)

theorem steps_of_step {parse : Parser} {s s' : System} {action : Action}
    (h : s.step parse action = some s') : Steps parse s s' action := by
  cases action with
  | push request => exact .push h
  | receive =>
      rw [step] at h
      split at h
      case h_1 hphase => exact .receive hphase h
      case h_2 => cases h
  | updateMappings file =>
      rw [step] at h
      split at h
      case h_1 hphase =>
        obtain ⟨t, ht, hs⟩ := Option.map_eq_some_iff.mp h
        exact .updateMappings hphase ht hs.symm
      case h_2 => cases h
  | popKnownRequest =>
      rw [step] at h
      split at h
      case h_1 hphase => exact .popKnownRequest hphase h
      case h_2 => cases h
  | create created =>
      rw [step] at h
      split at h
      case h_1 hphase => exact .create hphase h
      case h_2 => cases h
  | respond =>
      rw [step] at h
      split at h
      case h_1 hphase => exact .respond hphase h
      case h_2 => cases h
  | popResponse => exact .popResponse h
  | read k => exact .read h

end System

end StreamThread

end ConArtist
