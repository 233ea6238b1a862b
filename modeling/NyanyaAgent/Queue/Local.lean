import NyanyaAgent.Operations.Completion
import NyanyaAgent.Operations.Attempts

/-!
# The local task queue

The tasks a durable task service runs in its own process: `submit`, the choice a
dispatch makes, and the transactions of `work_queue` and of `cancel_task`. Such a task
has no operation row, and its claim record names no spec.
-/
namespace NyanyaAgent.Queue
open NyanyaAgent.Schema NyanyaAgent.Relational NyanyaAgent.Operations

variable (env : Environment)

/-- The record `claim` hands to its worker. -/
structure LocalClaim where
  taskId : TaskId
  workerId : WorkerId
  executionId : ExecutionId
  deriving DecidableEq, Repr

/-- The record as the fence and the effects test of `finish` read it. -/
def LocalClaim.record (c : LocalClaim) : ClaimRecord where
  taskId := c.taskId
  workerId := c.workerId
  executionId := c.executionId
  spec := {}
  owner := ""

def ownerKey (t : AgentTask) : String :=
  ([t.metadata.ownerKey.getD "", t.requestedBy].find? fun o => o ≠ "").getD "operator"

/-- What `submit` is given. -/
structure Submission where
  source : Option RequestId := none
  title : String := ""
  prompt : String := ""
  priority : ℤ := 100
  requestedBy : String
  ownerKey : String
  workspaceRoot : String := ""
  projectId : Option ProjectId := none
  deriving DecidableEq, Repr

/-- `find_task_by_source_request`. -/
def sourceTask (l : Ledger) (source : Option RequestId) : Option AgentTask :=
  source.bind fun q => l.tasks.rows.find? fun t => t.sourceRequestId = some q

/-- `submit`: `create_task`, or `update_task_context` of the task the request already has. -/
def submit (s : Submission) (fresh : TaskId) (now : Time) : Op TaskId := do
  let found ← Tx.select fun l => sourceTask l s.source
  match found with
  | none => do
    insertTask
      { id := fresh, sourceRequestId := s.source, title := s.title, prompt := s.prompt
        priority := s.priority, requestedBy := s.requestedBy, projectId := s.projectId
        metadata := { ownerKey := some s.ownerKey, workspaceRoot := s.workspaceRoot }
        createdAt := now, updatedAt := now }
    pure fresh
  | some t => do
    Tx.write fun l => l.updateTask t.id fun r =>
      { r with
        projectId := s.projectId.or r.projectId
        metadata := { r.metadata with
          ownerKey := some s.ownerKey, workspaceRoot := s.workspaceRoot }
        updatedAt := now }
    pure t.id

def queueOrder (a b : AgentTask) : Prop :=
  a.priority < b.priority ∨ a.priority = b.priority ∧ a.createdAt ≤ b.createdAt

instance : DecidableRel queueOrder := fun a b => by unfold queueOrder; infer_instance

/-- `pending_tasks` of an owner. -/
def pendingTasks (l : Ledger) (owner : String) : List AgentTask :=
  (l.tasks.rows.filter fun t => ¬ t.status.Terminal ∧
    t.metadata.ownerKey.getD t.requestedBy = owner).insertionSort queueOrder

/-- `ACTIVE_TASK_STATUSES`. -/
def ActiveTask (s : TaskStatus) : Prop :=
  s = .running ∨ s = .awaitingApproval ∨ s = .blocked ∨ s = .cancelling

instance (s : TaskStatus) : Decidable (ActiveTask s) := by unfold ActiveTask; infer_instance

/-- The task `_dispatch` goes on to claim, for a service with these handlers. -/
def dispatch (handlers : List TaskId) (owner : String) (l : Ledger) : Option TaskId :=
  if ∃ t ∈ pendingTasks l owner, ActiveTask t.status then none
  else ((pendingTasks l owner).find? fun t => t.status = .queued).bind fun t =>
    if t.id ∈ handlers then some t.id else none

/-- The checks of `claim`. Even an expired claim stands in the way. -/
def Claimable (l : Ledger) (k : TaskId) (owner : String) : Prop :=
  (∃ t ∈ l.tasks.get? k, t.status = .queued ∧ ownerKey t = owner) ∧ l.claims.get? k = none ∧
    ∀ c ∈ l.claims.rows, c.ownerKey = owner → c.released = true

instance (l : Ledger) (k : TaskId) (owner : String) : Decidable (Claimable l k owner) := by
  unfold Claimable; infer_instance

theorem id_started (x : ExecutionId) (entry : Time) (r : AgentTask) :
    ({ r with status := .running, currentExecutionId := some x, updatedAt := entry } :
      AgentTask).id = r.id := rfl

/-- `claim`; `adapter` is the one the task's metadata names. -/
def claim (k : TaskId) (worker : WorkerId) (owner adapter : String) (x : ExecutionId)
    (entry : Time) : Op (Option LocalClaim) := do
  let free ← Tx.select fun l => decide (Claimable l k owner)
  if free = true then do
    let workdir ← Tx.select fun l =>
      ((l.tasks.get? k).map fun t => t.metadata.workspaceRoot).getD ""
    insertExecution
      { id := x, taskId := k, adapterType := adapter, status := .running, workdir := workdir
        createdAt := entry, startedAt := some entry, updatedAt := entry
        lastHeartbeatAt := some entry }
    insertClaim { taskId := k, workerId := worker, ownerKey := owner, executionId := x,
                  expiresAt := entry + seconds 30 }
    Tx.write fun l => l.updateTask k
      (fun r => { r with status := .running, currentExecutionId := some x, updatedAt := entry })
      (id_started x entry)
    pure (some ⟨k, worker, x⟩)
  else pure none

/-- The outcome `finish` records for a reported one. -/
def recordedOutcome (l : Ledger) (c : LocalClaim) (e : Execution) (outcome : TaskOutcome) :
    TaskOutcome :=
  acknowledgedOutcome e (accountedOutcome l c.record outcome)

/-- `finish` under a record without a spec. -/
def finish (c : LocalClaim) (outcome : TaskOutcome) (freshApproval : ApprovalId)
    (entry now : Time) : Op Unit := do
  let current ← Tx.select fun l => fencedExecution l c.record entry
  let e ← Tx.demand current (.value "Stale worker result rejected")
  let recorded ← Tx.select fun l => recordedOutcome l c e outcome
  Tx.write (concludeAttempt c.record recorded.status entry)
  insertResult
    { executionId := c.executionId, taskId := c.taskId, outcome := recorded.status
      response := env.redact recorded.text, createdAt := entry, updatedAt := entry }
  Tx.write (holdOperation env c.taskId recorded)
  if recorded.status = .awaitingApproval then
    requestReview c.record none freshApproval entry now
  else pure ()
  Tx.write (Conversation.completeConn c.record .answer recorded.status now)
  Tx.write fun l => l.appendEvent
    { taskId := c.taskId, executionId := some c.executionId, eventType := .taskResult }

def executionTransitions : ExecutionStatus → List ExecutionStatus
  | .pending => [.starting, .running, .awaitingApproval, .cancelled, .failed]
  | .starting => [.running, .awaitingApproval, .cancelling, .failed, .cancelled, .timedOut]
  | .running => [.awaitingApproval, .cancelling, .succeeded, .failed, .cancelled, .timedOut, .stale]
  | .awaitingApproval => [.running, .cancelling, .failed, .cancelled, .timedOut]
  | .cancelling => [.cancelled, .failed, .timedOut, .lost]
  | .stale => [.running, .cancelling, .failed, .cancelled, .lost]
  | .succeeded | .failed | .cancelled | .timedOut | .lost => []

/-- The task status an attempt's status brings along. -/
def attemptTaskStatus : ExecutionStatus → Option TaskStatus
  | .starting | .running => some .running
  | .awaitingApproval => some .awaitingApproval
  | .stale => some .blocked
  | .succeeded => some .completed
  | .failed | .timedOut | .lost => some .failed
  | .cancelled => some .cancelled
  | .pending | .cancelling => none

/-- `TerminalExecutionTransitionError`. -/
def terminalTransition : Err := .value "Invalid execution transition from a terminal attempt"

/-- The rows `transition_execution` writes. -/
def moveAttempt (e : Execution) (status : ExecutionStatus) (now : Time) (l : Ledger) : Ledger :=
  let l := l.updateExecution e.id fun r =>
    { r with
      status := status, updatedAt := now
      startedAt := if (status = .starting ∨ status = .running) ∧ r.startedAt = none then some now
        else r.startedAt
      lastHeartbeatAt := if status = .running then some now else r.lastHeartbeatAt
      endedAt := if status.Terminal then some now else r.endedAt }
  match attemptTaskStatus status with
  | none => l
  | some s => l.updateTask e.taskId fun t =>
    { t with status := s, updatedAt := now
             completedAt := if s.Terminal then some now else none }

def transitionExecution (x : ExecutionId) (status : ExecutionStatus) (force : Bool) (now : Time) :
    Op Unit := do
  let row ← Tx.select fun l => l.executions.get? x
  let e ← Tx.demand row (.value "KeyError")
  let owner ← Tx.select fun l => (l.tasks.get? e.taskId).bind fun t => t.currentExecutionId
  Tx.require (owner = some x) (.value "Stale execution cannot change the current task")
  Tx.require (¬ (e.status.Terminal ∧ status ≠ e.status)) terminalTransition
  Tx.require (status = e.status ∨ force = true ∨ status ∈ executionTransitions e.status)
    (.value "Invalid execution transition")
  Tx.write (moveAttempt e status now)

/-- `transition_task` with `force`. -/
def transitionTask (k : TaskId) (status : TaskStatus) (now : Time) : Op Unit := do
  let row ← Tx.select fun l => l.tasks.get? k
  let _ ← Tx.demand row (.value "KeyError")
  Tx.write fun l => l.updateTask k fun t =>
    { t with status := status, updatedAt := now
             completedAt := if status.Terminal then some now else none }

/-- `ACTIVE_EXECUTION_STATUSES`. -/
def ActiveAttempt (s : ExecutionStatus) : Prop :=
  s = .pending ∨ s = .starting ∨ s = .running ∨ s = .awaitingApproval ∨ s = .cancelling ∨ s = .stale

instance (s : ExecutionStatus) : Decidable (ActiveAttempt s) := by
  unfold ActiveAttempt; infer_instance

/-- Where a `cancel_task` stands between two transactions. -/
inductive CancelStage
  /-- About to read the task. -/
  | reading
  /-- About to read the attempt the task named. -/
  | attempt (x : ExecutionId)
  /-- About to move the attempt; `held` when it was read awaiting approval. -/
  | stopping (x : ExecutionId) (held : Bool)
  /-- About to move the task itself. -/
  | forcing
  /-- `completed_attempt` is about to read the task. -/
  | settling (x : ExecutionId)
  /-- `completed_attempt` has read the task and is about to read the attempt. -/
  | settlingAttempt (x : ExecutionId) (t : AgentTask)
  /-- Returned the task. -/
  | returned (s : TaskStatus)
  /-- Returned the attempt. -/
  | returnedAttempt (s : ExecutionStatus)
  | raised
  deriving DecidableEq

/-- The transition of the attempt, and what its exception leads to. -/
def stopAttempt (x : ExecutionId) (held : Bool) (now : Time) (l : Ledger) : CancelStage × Ledger :=
  match (transitionExecution x (if held then .cancelled else .cancelling) (! held) now).commit l with
  | (.ok (), l') => (.returnedAttempt (if held then .cancelled else .cancelling), l')
  | (.error e, l') => (if e = terminalTransition then .settling x else .raised, l')

/-- The next read or transaction of `cancel_task`. -/
def cancelStep (k : TaskId) (now : Time) (l : Ledger) : CancelStage → CancelStage × Ledger
  | .reading =>
    match l.tasks.get? k with
    | none => (.raised, l)
    | some t =>
      if t.status.Terminal then (.returned t.status, l)
      else match t.currentExecutionId with
        | some x => (.attempt x, l)
        | none => (.forcing, l)
  | .attempt x =>
    match l.executions.get? x with
    | none => (.forcing, l)
    | some e =>
      if e.status.Terminal then (.settling x, l)
      else if ActiveAttempt e.status then (.stopping x (decide (e.status = .awaitingApproval)), l)
      else (.forcing, l)
  | .stopping x held => stopAttempt x held now l
  | .forcing =>
    match (transitionTask k .cancelled now).commit l with
    | (.ok (), l') => (.returned .cancelled, l')
    | (.error _, l') => (.raised, l')
  | .settling x =>
    match l.tasks.get? k with
    | none => (.raised, l)
    | some t => (.settlingAttempt x t, l)
  | .settlingAttempt x t =>
    match l.executions.get? x with
    | none => (.raised, l)
    | some e =>
      if t.currentExecutionId = some x ∧ e.taskId = k ∧ t.status.Terminal ∧ e.status.Terminal then
        (.returned t.status, l)
      else (.raised, l)
  | .returned s => (.returned s, l)
  | .returnedAttempt s => (.returnedAttempt s, l)
  | .raised => (.raised, l)

end NyanyaAgent.Queue
