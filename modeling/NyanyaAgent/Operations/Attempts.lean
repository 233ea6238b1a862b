import NyanyaAgent.Operations.Admission
import NyanyaAgent.Operations.Effects
import Mathlib.Data.List.Sort

/-!
# Attempts

How an attempt of an operation starts, renews its lease, and is taken away:
`claim`, `renew`, `recover`, `resume` and `record_start_failure`. A reading of the
clock before `BEGIN` is the separate argument `entry`.
-/
namespace NyanyaAgent.Operations
open NyanyaAgent.Schema NyanyaAgent.Relational NyanyaAgent.Conversation

variable (env : Environment)

/-- The count that `claim` compares with its slots. -/
def activeClaims (l : Ledger) : ℕ :=
  (l.claims.rows.filter fun c => c.released = false ∧ (l.operations.get? c.taskId).isSome).length

def claimOrder (a b : AgentTask × TaskOperation) : Prop :=
  a.1.priority < b.1.priority ∨ a.1.priority = b.1.priority ∧ a.1.createdAt ≤ b.1.createdAt

instance : DecidableRel claimOrder := fun a b => by unfold claimOrder; infer_instance

/-- The queued rows of one worker, by priority, age and insertion. -/
def claimable (l : Ledger) (generation : WorkerId) : List (AgentTask × TaskOperation) :=
  (l.tasks.rows.filterMap fun t =>
    match l.operations.get? t.id with
    | some o =>
      if t.status = .queued ∧ o.eligible = true ∧ o.workerGeneration = generation ∧
          o.attempts < o.maxAttempts then some (t, o) else none
    | none => none).insertionSort claimOrder

/-- Applying changes waits for every other claim of its workspace, and they wait for it. -/
def WorkspaceBusy (l : Ledger) (spec : OperationSpec) : Prop :=
  ∃ c ∈ l.claims.rows, c.released = false ∧ ∃ o ∈ l.operations.rows, o.taskId = c.taskId ∧
    o.spec.workspace = spec.workspace ∧ (spec.kind = .apply ∨ o.spec.kind = .apply)

instance (l : Ledger) (spec : OperationSpec) : Decidable (WorkspaceBusy l spec) := by
  unfold WorkspaceBusy; infer_instance

/-- The rows of a started attempt. -/
def startAttempt (t : AgentTask) (spec : OperationSpec) (worker : WorkerId) (x : ExecutionId)
    (entry now : Time) : Op Unit := do
  insertExecution
    { id := x, taskId := t.id, adapterType := "operation", status := .running
      workdir := spec.workspace, createdAt := entry, startedAt := some entry, updatedAt := entry
      lastHeartbeatAt := some entry }
  Tx.write fun l => { l with
    claims := l.claims.delete fun c => c.taskId = t.id ∧ c.released = true }
  insertClaim { taskId := t.id, workerId := worker, ownerKey := t.requestedBy, executionId := x,
                expiresAt := now + seconds 30 }
  Tx.write fun l => l.updateTask t.id fun r =>
    { r with status := .running, currentExecutionId := some x, updatedAt := entry }
  Tx.write fun l => l.updateOperation t.id fun o => { o with attempts := o.attempts + 1 }
  Tx.write fun l => l.appendEvent
    { taskId := t.id, executionId := some x, eventType := .operationClaimed }

def claim (generation : WorkerId) (slots : ℕ) (x : ExecutionId) (entry now : Time) :
    Op (Option ClaimRecord) := do
  let count ← Tx.select activeClaims
  if slots ≤ count then pure none
  else do
    let row ← Tx.select fun l => (claimable l generation).find? fun r =>
      ¬ HasEarlierWork l r.1.id ∧ ¬ WorkspaceBusy l r.2.spec
    match row with
    | none => pure none
    | some (t, o) => do
      startAttempt t o.spec generation x entry now
      pure (some ⟨t.id, generation, x, o.spec, t.requestedBy⟩)

/-- The claim row `renew` extends. -/
def Renewable (record : ClaimRecord) (now : Time) (c : TaskClaim) : Prop :=
  c.taskId = record.taskId ∧ c.workerId = record.workerId ∧ c.executionId = record.executionId ∧
    c.released = false ∧ now < c.expiresAt

instance (record : ClaimRecord) (now : Time) : DecidablePred (Renewable record now) :=
  fun c => by unfold Renewable; infer_instance

def renew (record : ClaimRecord) (entry : Time) : Op Bool := do
  let changed ← Tx.select fun l => decide (∃ c ∈ l.claims.rows, Renewable record entry c)
  if changed = true then do
    Tx.write fun l => { l with
      claims := l.claims.update (Renewable record entry) fun c =>
        { c with expiresAt := entry + seconds 30 } }
    Tx.write fun l => l.updateExecution record.executionId fun e =>
      { e with lastHeartbeatAt := some entry }
    pure true
  else pure false

/-- The worker of an operation is gone, or the lease of its claim has run out. -/
def Interrupted (l : Ledger) (o : TaskOperation) (cutoff now : Time) : Prop :=
  ∃ w ∈ l.workers.rows, w.id = o.workerGeneration ∧
    (w.closed = true ∨ w.heartbeatAt < cutoff ∨
      ∃ c ∈ l.claims.rows, c.taskId = o.taskId ∧ c.released = false ∧ c.expiresAt ≤ now)

instance (l : Ledger) (o : TaskOperation) (cutoff now : Time) :
    Decidable (Interrupted l o cutoff now) := by unfold Interrupted; infer_instance

/-- The rows `recover` holds, with their current attempts. -/
def recoverable (l : Ledger) (cutoff now : Time) : List (TaskId × Option ExecutionId) :=
  l.operations.rows.filterMap fun o =>
    match l.tasks.get? o.taskId with
    | some t =>
      if o.eligible = true ∧ Interrupted l o cutoff now ∧
          (t.status = .queued ∨ t.status = .running ∨ t.status = .cancelling) then
        some (o.taskId, t.currentExecutionId)
      else none
    | none => none

def interruptionReason : String :=
  "실행 worker가 종료되었거나 heartbeat/claim lease가 만료되었습니다. 실제 외부 실행 종료 여부는 확인되지 않았습니다."

/-- A held attempt is lost, and its claim is released. -/
def loseAttempt (k : TaskId) (x : ExecutionId) (now : Time) (l : Ledger) : Ledger :=
  { l with
    executions := l.executions.update (fun e => e.id = x ∧ ¬ e.status.Terminal) fun e =>
      { e with status := .lost, error := interruptionReason, endedAt := some now, updatedAt := now }
    claims := l.claims.update (fun c => c.taskId = k) (fun c => { c with released := true })
      TaskClaim.taskId_released }

/-- One pass of the loop in `recover`. -/
def interruptTask (now : Time) (l : Ledger) (row : TaskId × Option ExecutionId) : Ledger :=
  let l := l.updateOperation row.1 fun o =>
    { o with eligible := false, holdReason := "worker_interrupted", diagnosis := interruptionReason }
  let l := l.updateTask row.1 fun t => { t with status := .blocked, updatedAt := now }
  let l := match row.2 with
    | some x => loseAttempt row.1 x now l
    | none => l
  l.appendEvent { taskId := row.1, executionId := row.2, eventType := .operationInterrupted }

/-- `recover`; `entry` is the reading its heartbeat cutoff is taken from. -/
def recover (entry now : Time) (l : Ledger) : Ledger :=
  (recoverable l (entry - seconds 30) now).foldl (interruptTask now) l

/-- The rows of an accepted resumption. -/
def requeueTask (k : TaskId) (generation : WorkerId) (now : Time) (l : Ledger) : Ledger :=
  let l := l.updateOperation k fun o =>
    { o with eligible := true, workerGeneration := generation, holdReason := "", diagnosis := "" }
  let l := l.updateTask k fun t =>
    { t with status := .queued, completedAt := none, updatedAt := now
             metadata := { t.metadata with userDisposition := none } }
  l.appendEvent { taskId := k, eventType := .operationResumeRequested }

/-- A saved result whose sending is ambiguous. -/
def AmbiguousDelivery (l : Ledger) (t : AgentTask) : Prop :=
  ∃ r ∈ l.results.rows, t.currentExecutionId = some r.executionId ∧
    (r.deliveryStatus = .sending ∨ r.deliveryStatus = .uncertain)

instance (l : Ledger) (t : AgentTask) : Decidable (AmbiguousDelivery l t) := by
  unfold AmbiguousDelivery; infer_instance

/-- `resume` after its leading `recover`, which commits on its own. -/
def resume (reg : Registry) (k : TaskId) (owner : String) (generation : WorkerId) (now : Time) :
    Op Unit := do
  let operation ← Tx.select fun l => l.operations.get? k
  let o ← Tx.demand operation (.permission "Task owner mismatch")
  let task ← Tx.select fun l => (l.tasks.get? k).filter fun t => t.requestedBy = owner
  let t ← Tx.demand task (.permission "Task owner mismatch")
  let ambiguous ← Tx.select fun l => decide (AmbiguousDelivery l t)
  Tx.require (ambiguous = false)
    (.safeOperation "Acknowledge ambiguous result delivery before resuming this task")
  Tx.require (o.spec.kind ≠ .apply ∧ (t.status = .blocked ∨ t.status = .failed) ∧
      o.attempts < o.maxAttempts)
    (.safeOperation "This task requires plan reconciliation or has reached its attempt limit")
  let unresolved ← Tx.select fun l => decide (UnresolvedEffects l k false)
  Tx.require (unresolved = false) (.safeOperation
    "File side effects or active execution require reconciliation before another attempt")
  let effects ← Tx.select fun l => decide (∃ p ∈ l.plans.rows, p.taskId = k ∧
    (p.status = .applying ∨ p.status = .uncertain ∨ p.status = .applied ∨ p.status = .reconciled))
  Tx.require (effects = false) (.safeOperation
    "File side effects require plan reconciliation and a new request, never task replay")
  let _ ← Tx.lift (checkWorkspace env reg o.spec.workspace owner)
  let ready ← Tx.select fun l => decide (WorkerReady l generation now)
  Tx.require (ready = true) (.safeOperation "Worker not ready")
  Tx.write (requeueTask k generation now)

/-- `record_start_failure`: a diagnosis for a task whose provider never started. -/
def recordStartFailure (k : TaskId) (owner diagnosis : String) (x : ExecutionId) (entry : Time) :
    Op Unit := do
  let task ← Tx.select fun l => (l.tasks.get? k).filter fun t => t.requestedBy = owner
  let t ← Tx.demand task (.permission "Task owner mismatch")
  if t.status ≠ .blocked ∨ t.currentExecutionId ≠ none then pure ()
  else do
    insertExecution
      { id := x, taskId := k, adapterType := "operation", status := .failed, error := diagnosis
        createdAt := entry, endedAt := some entry, updatedAt := entry }
    insertResult
      { executionId := x, taskId := k, outcome := .blocked
        response := s!"원래 요청: {t.prompt}\n{diagnosis}", createdAt := entry, updatedAt := entry }
    Tx.write fun l => l.updateTask k fun t =>
      { t with currentExecutionId := some x, updatedAt := entry }
    Tx.write fun l => l.updateOperation k fun o =>
      { o with holdReason := "worker_start_failed", diagnosis }
    Tx.write fun l => l.appendEvent
      { taskId := k, executionId := some x, eventType := .operationWorkerStartFailed }

end NyanyaAgent.Operations
