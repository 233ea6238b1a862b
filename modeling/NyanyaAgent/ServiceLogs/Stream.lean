import NyanyaAgent.ServiceLogs.Maintenance

/-!
# Service output

`_Stream` of `service_logs.py`: the output of a managed service goes to a current file, which
is closed into a segment when it is full and when the day in Seoul changes. A process may die
before any of its system calls, and the next one finds what it left.
-/
namespace NyanyaAgent.ServiceLogs
open NyanyaAgent.Schema NyanyaAgent.Relational

abbrev FileId := ℕ

/-- `astimezone(KST).date()`, as the number of the day. -/
def kstDay (t : Instant) : ℕ := (t + 9 * hourMicros) / dayMicros

/-- What the system answers to the call with a number. -/
structure Answers where
  clock : ℕ → Instant
  uuid : ℕ → ℕ
  /-- The most that `os.write` writes. -/
  count : ℕ → ℕ
  /-- Links of a file outside the log directory. -/
  foreign : ℕ → ℕ
  /-- The call is made and does not raise. -/
  alive : ℕ → Bool

inductive StreamError
  /-- The process died, or the call raised. -/
  | os
  | value (message : String)
  /-- The loop was cut off. -/
  | unfinished
  deriving DecidableEq

/-- `self.fd`: `None`, a number that is open, or one that is closed. -/
inductive Descriptor
  | none
  | on (file : FileId)
  | stale
  deriving DecidableEq

structure LogStream where
  fd : Descriptor
  size : ℕ
  day : ℕ
  deriving DecidableEq

structure ClosedSegment where
  stamp : Instant
  uuid : ℕ
  file : FileId
  deriving DecidableEq

/-- What happened to the files; a write is noted with the latest reading of the clock. -/
inductive FileEvent
  | opened (file : FileId)
  | wrote (file : FileId) (day : ℕ) (bytes : Bytes)
  deriving DecidableEq

/-- The files of one stream of a service and the process that writes them. -/
structure StreamDir where
  /-- In the order of closing. -/
  closed : List ClosedSegment := []
  current : Option FileId := none
  files : FileId → Bytes := fun _ => []
  fresh : FileId := 0
  stream : Option LogStream := none
  calls : ℕ := 0
  /-- The day of the latest reading of the clock. -/
  reading : ℕ := 0
  events : List FileEvent := []

abbrev StreamOp := Tx StreamError StreamDir

variable (env : Answers) (segmentBytes : ℕ)

def nextCall : StreamOp ℕ := do
  let n ← Tx.select fun d => d.calls
  Tx.write fun d => { d with calls := d.calls + 1 }
  pure n

/-- A system call that may not be made. -/
def systemCall : StreamOp Unit := do
  let n ← nextCall
  Tx.require (env.alive n = true) .os

def readClock : StreamOp Instant := do
  let n ← nextCall
  Tx.write fun d => { d with reading := kstDay (env.clock n) }
  pure (env.clock n)

def setStream (s : LogStream) : StreamOp Unit := Tx.write fun d => { d with stream := some s }

def linksOf (d : StreamDir) (file : FileId) : List ClosedSegment :=
  d.closed.filter fun c => c.file = file

/-- `st_nlink` of the current file. -/
def linkCount (file : FileId) : StreamOp ℕ := do
  let n ← nextCall
  let segments ← Tx.select fun d => linksOf d file
  pure (1 + segments.length + env.foreign n)

def currentFile : StreamOp FileId := do
  let current ← Tx.select fun d => d.current
  Tx.demand current .os

/-- `_safe_file(self.current)`. -/
def safeCurrent : StreamOp Unit := do
  let file ← currentFile
  let links ← linkCount env file
  Tx.require (links = 1) (.value "Unsafe log file")

def linkSegment (segment : ClosedSegment) : StreamOp Unit :=
  Tx.attempt (fun d =>
    if ∃ c ∈ d.closed, c.stamp = segment.stamp ∧ c.uuid = segment.uuid then none
    else some { d with closed := d.closed ++ [segment] }) .os

def unlinkCurrent : StreamOp Unit := do
  systemCall env
  Tx.attempt (fun d => d.current.map fun _ => { d with current := none }) .os

def closeSegment : StreamOp Unit := do
  safeCurrent env
  let stamp ← readClock env
  let n ← nextCall
  let file ← currentFile
  systemCall env
  linkSegment ⟨stamp, env.uuid n, file⟩
  unlinkCurrent env

/-- A new current file; `O_EXCL` refuses one that is there. -/
def createCurrent : StreamOp FileId := do
  systemCall env
  let file ← Tx.select fun d => d.fresh
  Tx.attempt (fun d => match d.current with
    | some _ => none
    | none => some { d with
        current := some d.fresh, files := Function.update d.files d.fresh []
        fresh := d.fresh + 1, events := d.events ++ [.opened d.fresh] }) .os
  pure file

/-- The new file and the fields that go with it. -/
def openCurrent : StreamOp Unit := do
  let file ← createCurrent env
  let now ← readClock env
  setStream ⟨.on file, 0, kstDay now⟩

def closeDescriptor (s : LogStream) (after : Descriptor) : StreamOp Unit := do
  systemCall env
  match s.fd with
  | .on _ => setStream { s with fd := after }
  | _ => Tx.raise .os

def theStream : StreamOp LogStream := do
  let stream ← Tx.select fun d => d.stream
  Tx.demand stream .os

def rotate : StreamOp Unit := do
  let s ← theStream
  closeDescriptor env s .stale
  closeSegment env
  openCurrent env

def osWrite (portion : Bytes) : StreamOp ℕ := do
  systemCall env
  let n ← nextCall
  let s ← theStream
  let count := min (env.count n) portion.length
  match s.fd with
  | .on file => do
    Tx.require (0 < count) .os
    Tx.write fun d => { d with
      files := Function.update d.files file (d.files file ++ portion.take count)
      events := d.events ++ [.wrote file d.reading (portion.take count)]
      stream := some { s with size := s.size + count } }
    pure count
  | _ => Tx.raise .os

/-- The inner loop of `write`; the first argument bounds its turns. -/
def writePortion : ℕ → Bytes → StreamOp Unit
  | _, [] => pure ()
  | 0, _ :: _ => Tx.raise .unfinished
  | turns + 1, portion => do
    let count ← osWrite env portion
    writePortion turns (portion.drop count)

/-- The check before each chunk: a full file or another day rotates. -/
def rotateIfDue : StreamOp Unit := do
  let s ← theStream
  if s.size = segmentBytes then rotate env
  else do
    let now ← readClock env
    if kstDay now ≠ s.day then rotate env else pure ()

/-- The loop of `write`; the first argument bounds its turns. -/
def writeLoop : ℕ → Bytes → StreamOp Unit
  | _, [] => pure ()
  | 0, _ :: _ => Tx.raise .unfinished
  | turns + 1, view => do
    rotateIfDue env segmentBytes
    let s ← theStream
    let part := view.take (segmentBytes - s.size)
    writePortion env part.length part
    writeLoop turns (view.drop part.length)

def write (data : Bytes) : StreamOp Unit := writeLoop env segmentBytes data.length data

def close : StreamOp Unit := do
  let s ← theStream
  if s.fd = .none then pure ()
  else do
    closeDescriptor env s .none
    if s.size ≠ 0 then closeSegment env else unlinkCurrent env

/-- What `__init__` does with a current file that a process left. -/
def recoverCurrent : StreamOp Unit := do
  let current ← Tx.select fun d => d.current
  match current with
  | none => pure ()
  | some file => do
    let links ← linkCount env file
    if links = 2 then do
      -- A crash after the link of the closed segment, before the unlink.
      let segments ← Tx.select fun d => linksOf d file
      Tx.require (segments.length = 1) (.value "Ambiguous interrupted segment")
      unlinkCurrent env
    else do
      safeCurrent env
      closeSegment env

/-- `__init__`, in a new process. -/
def start : StreamOp Unit := do
  Tx.write fun d => { d with stream := none }
  recoverCurrent env
  openCurrent env

inductive StreamAction
  | start
  | write (data : Bytes)
  | rotate
  | close

def runStream : StreamAction → StreamOp Unit
  | .start => start env
  | .write data => write env segmentBytes data
  | .rotate => rotate env
  | .close => close env

/-- One operation; what it did before it raised or died stays. -/
def stepStream (d : StreamDir) (a : StreamAction) : StreamDir :=
  (runStream env segmentBytes a d).2

end NyanyaAgent.ServiceLogs
