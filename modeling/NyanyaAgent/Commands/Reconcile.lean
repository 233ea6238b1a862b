import NyanyaAgent.Commands.Start

/-!
# Watching a command

`observe` and `cancel` of `execution_runtime.py`, which bring the ledger in line with what the
adapters say of the started commands: any number of calls, each transaction and each question a
step of its own. `recover_active` is a call of `observe` for each attempt that is not at its end.
-/
namespace NyanyaAgent.Commands
open NyanyaAgent.Schema NyanyaAgent.Relational NyanyaAgent.Queue NyanyaAgent.Leases

abbrev SessionId := ℕ

abbrev Handle := ℕ

inductive SessionStatus
  | running | stale | stopped | failed | cancelled
  deriving DecidableEq

/-- A row of `runtime_sessions`; `handle` is that of its metadata. -/
structure RuntimeSession where
  id : SessionId
  executionId : Option ExecutionId
  handle : Option Handle
  status : SessionStatus
  lastHeartbeatAt : Time
  endedAt : Option Time := none
  updatedAt : Time
  deriving DecidableEq

/-- An `AdapterObservation`. -/
structure AdapterObservation where
  status : ExecutionStatus
  running : Bool
  deriving DecidableEq

inductive Question
  | observe | cancel
  /-- `adapter.cancel`, as the time is over. -/
  | expire
  deriving DecidableEq

/-- What an adapter was asked and when, by a call that had read the execution, and its answer. -/
structure Asked where
  executionId : ExecutionId
  handle : Handle
  read : Execution
  time : Time
  question : Question
  answer : AdapterObservation
  deriving DecidableEq

inductive WatchStage
  /-- About to read the execution. -/
  | reading
  /-- About to read the sessions. -/
  | finding (e : Execution)
  /-- There is no session. -/
  | losing
  /-- About to write `cancelling`. -/
  | marking (e : Execution) (s : RuntimeSession) (h : Handle)
  /-- Inside the adapter. -/
  | asking (q : Question) (e : Execution) (s : RuntimeSession) (h : Handle)
  /-- The command runs; about to write its heartbeat. -/
  | beating (e : Execution) (s : RuntimeSession) (o : AdapterObservation)
  /-- About to write that it is stale, or no longer. -/
  | noting (status : ExecutionStatus)
  /-- About to write how it has ended. -/
  | concluding (s : RuntimeSession) (status : ExecutionStatus) (shown : SessionStatus)
  | closing (s : RuntimeSession) (shown : SessionStatus) (held : Option (ResourceKey × ℕ))
  | releasing (held : Option (ResourceKey × ℕ))
  | returned
  | raised
  deriving DecidableEq

structure WatchCall where
  executionId : ExecutionId
  /-- A call of `cancel`, or else of `observe`. -/
  cancels : Bool
  stage : WatchStage := .reading
  deriving DecidableEq

structure WatchWorld where
  ledger : CommandLedger := {}
  sessions : List RuntimeSession := []
  clock : Time := 0
  calls : List WatchCall := []
  asked : List Asked := []

/-- `_session_for_execution`: the first one of `list_runtime_sessions`, the latest update first. -/
def sessionForExecution (sessions : List RuntimeSession) (x : ExecutionId) :
    Option RuntimeSession :=
  (sessions.filter fun s => s.executionId = some x).foldl (fun best s =>
    match best with
    | none => some s
    | some b => if b.updatedAt < s.updatedAt then some s else some b) none

/-- `heartbeat_runtime_session` for a session that is there. -/
def beatSession (s : RuntimeSession) (status : SessionStatus) (now : Time)
    (sessions : List RuntimeSession) : List RuntimeSession :=
  sessions.map fun r => if r.id = s.id then
    { s with status, lastHeartbeatAt := now, updatedAt := now
             endedAt := if status = .stopped ∨ status = .failed ∨ status = .cancelled then some now
               else none }
    else r

/-- `_apply_observation` up to its first transaction. -/
def applyObservation (e : Execution) (s : RuntimeSession) (o : AdapterObservation) : WatchStage :=
  if o.running then .beating e s o
  else
    let status := if o.status.Terminal then o.status else .lost
    .concluding s status (if status = .succeeded ∨ status = .cancelled then .stopped else .failed)

section Watching
-- the names of the adapters, and `timeout_seconds` in the metadata of an execution
variable (adapters : List String) (timeout : ExecutionId → ℤ)

def TimeOver (x : ExecutionId) (e : Execution) (now : Time) : Prop :=
  ActiveAttempt e.status ∧ ∃ t ∈ e.startedAt, timeout x < now - t

instance (x : ExecutionId) (e : Execution) (now : Time) : Decidable (TimeOver timeout x e now) :=
  decidable_of_iff (ActiveAttempt e.status ∧ e.startedAt.any (fun t => timeout x < now - t) = true)
    (by cases h : e.startedAt <;> simp [TimeOver, h])

/-- `observe` or `cancel` after the read of the sessions. -/
def afterSession (x : ExecutionId) (cancels : Bool) (e : Execution) (now : Time) :
    Option RuntimeSession → WatchStage
  | none => if cancels ∨ ActiveAttempt e.status then .losing else .returned
  | some s =>
    match s.handle with
    | none => .raised
    | some h =>
      if e.adapterType ∉ adapters then .raised
      else if cancels then .marking e s h
      else if TimeOver timeout x e now then .asking .expire e s h
      else .asking .observe e s h

/-- What a call makes of the answer of the adapter. -/
def afterAnswer (e : Execution) (s : RuntimeSession) (o : AdapterObservation) :
    Question → WatchStage
  | .observe => applyObservation e s o
  | .expire =>
    if o.status ≠ .cancelled then applyObservation e s o else .concluding s .timedOut .failed
  | .cancel =>
    if o.status = .cancelled then .concluding s .cancelled .cancelled
    else .concluding s .lost .failed

/-- What a running command is seen as. -/
def seenAs (o : AdapterObservation) : ExecutionStatus :=
  if o.status = .stale then .stale else .running

/-- The next step of a call; `answer` is what the adapter says if it is asked and does not raise. -/
def watchStep (call : WatchCall) (answer : Option AdapterObservation) (w : WatchWorld) :
    WatchStage × WatchWorld :=
  let x := call.executionId
  let l := w.ledger
  match call.stage with
  | .reading =>
    match l.base.executions.get? x with
    | none => (.raised, w)
    | some e => (if call.cancels ∧ e.status.Terminal then .returned else .finding e, w)
  | .finding e =>
    (afterSession adapters timeout x call.cancels e w.clock (sessionForExecution w.sessions x), w)
  | .losing =>
    match (onBase (transitionExecution x .lost true w.clock)).commit l with
    | (.ok _, l') => (.returned, { w with ledger := l' })
    | (.error _, l') => (.raised, { w with ledger := l' })
  | .marking e s h =>
    match (onBase (transitionExecution x .cancelling true w.clock)).commit l with
    | (.ok _, l') => (.asking .cancel e s h, { w with ledger := l' })
    | (.error _, l') => (.raised, { w with ledger := l' })
  | .asking q e s h =>
    match answer with
    | none => (.raised, w)
    | some o => (afterAnswer e s o q, { w with asked := w.asked ++ [⟨x, h, e, w.clock, q, o⟩] })
  | .beating e s o =>
    let shown := if o.status = .stale then .stale else .running
    (if seenAs o = .stale ∧ e.status ≠ .stale then .noting .stale
      else if seenAs o = .running ∧ e.status = .stale then .noting .running
      else .returned,
      { w with ledger := heartbeatSession x w.clock l
               sessions := beatSession s shown w.clock w.sessions })
  | .noting status =>
    match (onBase (transitionExecution x status false w.clock)).commit l with
    | (.ok _, l') => (.returned, { w with ledger := l' })
    | (.error _, l') => (.raised, { w with ledger := l' })
  | .concluding s status shown =>
    match (onBase (transitionExecution x status true w.clock)).commit l with
    | (.ok _, l') => (.closing s shown (l'.writerLease x), { w with ledger := l' })
    | (.error _, l') => (.raised, { w with ledger := l' })
  | .closing s shown held =>
    (.releasing held, { w with ledger := heartbeatSession x w.clock l
                               sessions := beatSession s shown w.clock w.sessions })
  | .releasing held =>
    match held with
    | none => (.returned, w)
    | some (key, token) =>
      (.returned, { w with ledger := (onLeases (releaseWriterLease key x token) l).2 })
  | .returned => (.returned, w)
  | .raised => (.raised, w)

inductive WatchAction
  | observe (x : ExecutionId)
  | cancel (x : ExecutionId)
  | advance (n : ℕ) (answer : Option AdapterObservation)
  /-- The rest of the program. -/
  | other (ledger : CommandLedger) (sessions : List RuntimeSession)
  | tick (elapsed : ℕ)

def stepWatch (w : WatchWorld) : WatchAction → WatchWorld
  | .observe x => { w with calls := w.calls ++ [⟨x, false, .reading⟩] }
  | .cancel x => { w with calls := w.calls ++ [⟨x, true, .reading⟩] }
  | .advance n answer =>
    match w.calls[n]? with
    | none => w
    | some call =>
      let (stage, w') := watchStep adapters timeout call answer w
      { w' with calls := w.calls.set n { call with stage } }
  | .other ledger sessions => { w with ledger, sessions }
  | .tick elapsed => { w with clock := w.clock + elapsed }

end Watching
end NyanyaAgent.Commands
