import ConArtist.Foundation.Binary64
import ConArtist.Foundation.Run

/-!
# Stream requests

The model of the functions of `stream_request.cpp` that the main loop calls. A request
lives in a slot of `m_requests`, and its number goes through the free, the active and the
done list. An access outside an array, or through a pointer that was never set, has no
result.

The job manager is on the other side: an update returns the calls of `push_job` that it
makes, and takes what its calls of `pop_job` hand back. The library's sort is a
parameter. Memory that is read before it is written holds any values; where none is
read, the model has zeros. Numbers of type `i32` are unbounded.
-/

namespace ConArtist

namespace StreamRequest

open Machine

/-- `stream_request_t`. -/
structure Request where
  mappingIndex : ℤ
  version : ℤ
  streamId : UInt32
  userId : UInt64
  mmfileSize : UInt64
  /-- The handle of the file, `none` for a null pointer. -/
  mmfile : Option ℕ

def dMappingNameMaxlen : ℕ := 64

/-- `stream_mappings_t`. The names are slots of 64 bytes. -/
structure StreamMappings where
  version : ℤ
  fileContent : List UInt8
  fileContentSize : ℕ
  fileContentCapacity : ℕ
  mappingsFilepath : List UInt8
  /-- `st_mtime` of `m_mappings_file_stat`. -/
  fileMtime : ℤ
  mappingIds : List UInt64
  mappingNames : List (List UInt8)
  mappingsSorted : List ℤ
  mappingsSize : ℕ
  mappingsCapacity : ℕ

/-- `xs[i]` for an index of type `i32`. -/
def fetch {α : Type*} (xs : List α) (i : ℤ) : Option α :=
  if 0 ≤ i then xs[i.toNat]? else none

/-- The type of `nsort::sort<i32>`: a comparison, which fails on an index outside the array
that it looks up, and the numbers to sort. -/
abbrev Nsort := (ℤ → ℤ → Option ℤ) → List ℤ → Option (List ℤ)

namespace StreamMappings

/-- The loop of `find_mapping`. As `left` starts at 0, `mid` is not negative. -/
def findMappingLoop (m : StreamMappings) (userId : UInt64) (left right : ℤ) : Option ℤ :=
  if left ≤ right then
    let mid := (left + right) / 2
    match fetch m.mappingsSorted mid with
    | none => none
    | some midIndex =>
        match fetch m.mappingIds midIndex with
        | none => none
        | some midId =>
            if userId < midId then findMappingLoop m userId left (mid - 1)
            else if midId < userId then findMappingLoop m userId (mid + 1) right
            else some midIndex
  else some (-1)
termination_by (right + 1 - left).toNat

/-- `find_mapping`. -/
def findMapping (m : StreamMappings) (userId : UInt64) : Option ℤ :=
  m.findMappingLoop userId 0 (m.mappingsSize - 1)

/-- `add_mapping`. -/
def addMapping (m : StreamMappings) (userId : UInt64) (name : List UInt8) :
    Option StreamMappings :=
  if m.mappingsSize < m.mappingNames.length ∧ m.mappingsSize < m.mappingIds.length then
    some { m with
      mappingNames := m.mappingNames.set m.mappingsSize name
      mappingIds := m.mappingIds.set m.mappingsSize userId
      mappingsSize := m.mappingsSize + 1 }
  else none

/-- `mapping_cmp_fn`. -/
def mappingCmpFn (m : StreamMappings) (lhsIndex rhsIndex : ℤ) : Option ℤ := do
  let lhsId ← fetch m.mappingIds lhsIndex
  let rhsId ← fetch m.mappingIds rhsIndex
  if lhsId < rhsId then some (-1)
  else if rhsId < lhsId then some 1
  else some 0

/-- `sort_mappings`, with the library's sort. -/
def sortMappings (nsort : Nsort) (m : StreamMappings) : Option StreamMappings :=
  (nsort m.mappingCmpFn (m.mappingsSorted.take m.mappingsSize)).map fun sorted =>
    { m with mappingsSorted := sorted ++ m.mappingsSorted.drop m.mappingsSize }

/-- The loop that adds the entries of a loaded table that are not there yet. -/
def merge (m loaded : StreamMappings) : List ℕ → Option StreamMappings
  | [] => some m
  | i :: is => do
      let userId ← loaded.mappingIds[i]?
      let name ← loaded.mappingNames[i]?
      let found ← m.findMapping userId
      if 0 ≤ found then m.merge loaded is
      else (← m.addMapping userId name).merge loaded is

/-- What an update does with a loaded table. -/
def mergeLoaded (nsort : Nsort) (m loaded : StreamMappings) : Option StreamMappings := do
  let merged ← m.merge loaded (List.range loaded.mappingsSize)
  if m.mappingsSize < merged.mappingsSize then merged.sortMappings nsort else some merged

end StreamMappings

/-- An array of slot numbers with its size. There are no cells when the array was never
allocated. -/
structure Slots where
  cells : Option (List ℕ)
  size : ℕ

namespace Slots

/-- `array[size++] = i`. -/
def push (s : Slots) (i : ℕ) : Option Slots :=
  s.cells.bind fun cells =>
    if s.size < cells.length then some { cells := some (cells.set s.size i), size := s.size + 1 }
    else none

/-- `array[--size]`. -/
def pop (s : Slots) : Option (ℕ × Slots) :=
  s.cells.bind fun cells => cells[s.size - 1]?.map fun i => (i, { s with size := s.size - 1 })

/-- The numbers in the list. -/
def items (s : Slots) : List ℕ := (s.cells.getD []).take s.size

end Slots

/-- The pointers that go through jobs: the manager, a table by its place in `buffers`, a
request by its place in `m_requests`. -/
inductive JobData where
  | null
  | manager
  | mappings (k : ℕ)
  | request (i : ℕ)

inductive JobFn where
  | updateMappingsJobFn
  | streamRequestFn

/-- The arguments of a call of `push_job`. -/
structure PushedJob where
  channel : ℤ
  jobFn : JobFn
  jobData0 : JobData
  jobData1 : JobData

/-- `stream_request_manager_t`. The two tables are in `buffers`, and `m_loaded_mappings`
and `m_mappings` are places there. With it goes `MAXPATHLEN`, which the platform gives. -/
structure StreamRequestManager where
  maxPathLen : ℕ
  mappingsChannel : ℤ
  streamRequestChannel : ℤ
  streamsBasepath : List UInt8
  lastMappingsCheckTime : Binary64
  loadedMappings : Option ℕ
  mappings : ℕ
  buffers : List StreamMappings
  requests : List Request
  requestsCapacity : ℕ
  freeRequests : Slots
  activeRequests : Slots
  doneRequests : Slots

/-- A table as `create_stream_request_manager` makes it; it sets neither the version nor
the entries of `m_mappings_sorted`. -/
def newMappings (filepath : List UInt8) (version : ℤ) (sorted : ℕ → ℤ) : StreamMappings where
  version := version
  fileContent := List.replicate (64 * 1024) 0
  fileContentSize := 0
  fileContentCapacity := 64 * 1024
  mappingsFilepath := filepath
  fileMtime := 0
  mappingIds := List.replicate 1024 0
  mappingNames := List.replicate 1024 (List.replicate dMappingNameMaxlen 0)
  mappingsSorted := (List.range 1024).map sorted
  mappingsSize := 0
  mappingsCapacity := 1024

/-- `create_stream_request_manager`, with the channels that `init_channel` returns and what
the memory of the two tables holds. `m_done_requests` is not allocated. -/
def createStreamRequestManager (maxPathLen : ℕ) (mappingsChannel streamRequestChannel : ℤ)
    (now : Binary64) (streamsBasepath mappingsFilepath : List UInt8) (versions : ℕ → ℤ)
    (sorted : ℕ → ℕ → ℤ) : StreamRequestManager where
  maxPathLen := maxPathLen
  mappingsChannel := mappingsChannel
  streamRequestChannel := streamRequestChannel
  streamsBasepath := streamsBasepath
  lastMappingsCheckTime := now
  loadedMappings := some 0
  mappings := 1
  buffers := (List.range 2).map fun i => newMappings mappingsFilepath (versions i) (sorted i)
  requests := List.replicate 256 ⟨0, 0, 0, 0, 0, none⟩
  requestsCapacity := 256
  freeRequests := { cells := some (List.replicate 256 0), size := 0 }
  activeRequests := { cells := some (List.replicate 256 0), size := 0 }
  doneRequests := { cells := none, size := 0 }

namespace StreamRequestManager

/-- `push_stream_request`. -/
def push (m : StreamRequestManager) (userId : UInt64) (streamId : UInt32) (mmfileSize : UInt64)
    (mmfile : Option ℕ) : Option StreamRequestManager :=
  if 0 < m.freeRequests.size then do
    let (requestIndex, free) ← m.freeRequests.pop
    let req ← m.requests[requestIndex]?
    let mappings ← m.buffers[m.mappings]?
    let active ← m.activeRequests.push requestIndex
    some { m with
      freeRequests := free
      requests := m.requests.set requestIndex { req with
        userId := userId
        mmfileSize := mmfileSize
        mappingIndex := -1
        version := mappings.version - 1
        streamId := streamId
        mmfile := mmfile }
      activeRequests := active }
  else some m

/-- `pop_stream_request`, with the user id and the file of a finished request. -/
def pop (m : StreamRequestManager) :
    Option (Option (UInt64 × Option ℕ) × StreamRequestManager) :=
  if 0 < m.doneRequests.size then do
    let (requestIndex, done) ← m.doneRequests.pop
    let req ← m.requests[requestIndex]?
    let free ← m.freeRequests.push requestIndex
    some (some (req.userId, req.mmfile), { m with doneRequests := done, freeRequests := free })
  else some (none, m)

/-- The start of an update: every ten seconds the mappings file is checked. -/
def checkMappingsFile (m : StreamRequestManager) (now : Binary64) :
    StreamRequestManager × List PushedJob :=
  match m.loadedMappings with
  | none => (m, [])
  | some k =>
      if Binary64.SumBelow m.lastMappingsCheckTime 10 now then
        ({ m with lastMappingsCheckTime := now, loadedMappings := none },
          [⟨m.mappingsChannel, .updateMappingsJobFn, .mappings k, .null⟩])
      else (m, [])

/-- A finished mappings job: its second pointer is taken for the loaded table, and what is
new there goes into `m_mappings`. The loaded table is not `m_mappings` itself, which goes
through no job. -/
def collectMappings (nsort : Nsort) (m : StreamRequestManager) (job : JobData × JobData) :
    Option StreamRequestManager :=
  match job.2 with
  | .mappings k => do
      let loaded ← m.buffers[k]?
      let mappings ← m.buffers[m.mappings]?
      let merged ← mappings.mergeLoaded nsort loaded
      some { m with loadedMappings := some k, buffers := m.buffers.set m.mappings merged }
  | _ => none

/-- A finished stream request job: its first pointer is taken for the request. -/
def collectRequest (m : StreamRequestManager) (job : JobData × JobData) :
    Option StreamRequestManager :=
  match job.1 with
  | .request i => (m.doneRequests.push i).map fun done => { m with doneRequests := done }
  | _ => none

/-- The check of one active request against the mappings. -/
def processRequest (m : StreamRequestManager) (requestIndex : ℕ) :
    Option (StreamRequestManager × List PushedJob) := do
  let req ← m.requests[requestIndex]?
  match req.mmfile with
  | some _ => some (m, [])
  | none =>
      let mappings ← m.buffers[m.mappings]?
      let mappingIndex ← mappings.findMapping req.userId
      if 0 ≤ mappingIndex then
        some ({ m with
          requests := m.requests.set requestIndex { req with
            mappingIndex := mappingIndex
            version := mappings.version } },
          [⟨m.streamRequestChannel, .streamRequestFn, .manager, .request requestIndex⟩])
      else some (m, [])

/-- The loop over the active requests. -/
def processRequests (m : StreamRequestManager) :
    List ℕ → Option (StreamRequestManager × List PushedJob)
  | [] => some (m, [])
  | i :: is => do
      let (m, jobs) ← m.processRequest i
      let (m, jobs') ← m.processRequests is
      some (m, jobs ++ jobs')

/-- `update_stream_requests`, with what `pop_job` hands back on the two channels before it
returns -1, and the jobs that it pushes. -/
def update (nsort : Nsort) (m : StreamRequestManager) (now : Binary64)
    (mappingsJobs requestJobs : List (JobData × JobData)) :
    Option (StreamRequestManager × List PushedJob) := do
  let (m, jobs) := m.checkMappingsFile now
  let m ← run (collectMappings nsort) m mappingsJobs
  let m ← run collectRequest m requestJobs
  let (m, jobs') ← m.processRequests m.activeRequests.items
  some (m, jobs ++ jobs')

end StreamRequestManager

end StreamRequest

end ConArtist
