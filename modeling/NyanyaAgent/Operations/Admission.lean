import NyanyaAgent.Conversation.Turns

/-!
# Admission

Worker registration and `_submit_conn`: the intake of a request that may already
have a row, the single apply task of an approved plan, and the rows that a newly
accepted operation writes.
-/
namespace NyanyaAgent.Operations
open NyanyaAgent.Schema NyanyaAgent.Relational NyanyaAgent.Conversation

variable (env : Environment)

def registerWorker (worker : WorkerId) (now : Time) : Op Unit :=
  insertWorker { id := worker, heartbeatAt := now }

def heartbeat (worker : WorkerId) (closed : Bool) (now : Time) (l : Ledger) : Ledger :=
  { l with workers := l.workers.update (fun w => w.id = worker) fun w =>
      { w with heartbeatAt := now, closed } }

/-- The plan under an identifier, when it belongs to the owner. -/
def ownedPlan (l : Ledger) (p : PlanId) (owner : String) : Option ChangePlan :=
  (l.plans.get? p).filter fun r => r.ownerKey = owner

/-- The apply tasks recorded for a plan, with their operations. -/
def applyTasks (l : Ledger) (p : PlanId) : List (AgentTask × TaskOperation) :=
  l.operations.rows.filterMap fun o =>
    if o.spec.kind = .apply ∧ o.spec.planId = some p then
      (l.tasks.get? o.taskId).map fun t => (t, o)
    else none

def existingApply (l : Ledger) (p : PlanId) (owner workspace : String) :
    Except Err (Option AgentTask) :=
  match applyTasks l p with
  | [] => .ok none
  | [(t, o)] =>
    match ownedPlan l p owner with
    | none => .error (.permission "Existing apply admission scope mismatch")
    | some plan =>
      if t.requestedBy ≠ owner ∨ plan.workspace ≠ workspace ∨ o.parentTaskId ≠ some plan.taskId ∨
          t.metadata.workspaceRoot ≠ workspace then
        .error (.permission "Existing apply admission scope mismatch")
      else if plan.status = .approved ∨ plan.status = .applying ∨ plan.status = .applied ∨
          plan.status = .uncertain ∨ plan.status = .reconciled then .ok (some t)
      else .error (.safeOperation "Existing apply plan is no longer eligible")
  | _ => .error (.safeOperation "Multiple legacy apply tasks require recovery review")

/-- What the intake lookup leaves to do. -/
inductive Intake
  | answered (task : AgentTask)
  | enter (k : TaskId)

/-- `UPDATE executions SET status='cancelled',ended_at=?` for the imported attempt. -/
def retireImported (row : AgentTask) (now : Time) (l : Ledger) : Ledger :=
  match row.currentExecutionId with
  | some x => l.updateExecution x fun e => { e with status := .cancelled, endedAt := some now }
  | none => l

/-- The `source_request_id` branch: an operation answers, a queued imported row is adopted. -/
def intakeConn (owner root : String) (source : Option RequestId) (conversationKey : Option String)
    (fresh : TaskId) (freshSession : SessionId) (now : Time) : Op Intake := do
  let prior ← Tx.select fun l => l.tasks.rows.find? fun t =>
    source ≠ none ∧ t.sourceRequestId = source
  match prior with
  | none => pure (.enter fresh)
  | some row =>
    Tx.require (row.requestedBy = owner) (.permission "Intake belongs to another owner")
    let operation ← Tx.select fun l => l.operations.get? row.id
    let turn ← Tx.select fun l => l.turns.get? row.id
    match operation, conversationKey, turn with
    | some _, some key, some _ => do
      let _ ← bindConn env row.id owner key root freshSession now
      pure (.answered row)
    | some _, _, _ => pure (.answered row)
    | none, _, _ => do
      Tx.require (row.status = .queued)
        (.safeOperation "Existing intake requires recovery review")
      let old ← Tx.select fun l => row.currentExecutionId.bind fun x => l.executions.get? x
      Tx.require (row.currentExecutionId = none ∨ ∃ e ∈ old, e.status = .pending ∧ e.legacy = true)
        (.safeOperation "Existing execution requires recovery review")
      Tx.write (retireImported row now)
      pure (.enter row.id)

/-- `INSERT … ON CONFLICT(id) DO UPDATE`: an adopted row keeps its place and its status. -/
def upsertTask (r : AgentTask) (l : Ledger) : Ledger :=
  match l.tasks.insert r with
  | some t => { l with tasks := t }
  | none => l.updateTask r.id fun t =>
      { t with metadata := r.metadata, requestedBy := r.requestedBy, prompt := r.prompt,
               title := r.title, currentExecutionId := none }

/-- The parent of a new operation: an apply belongs under its approved plan's task. -/
def admissionParent (l : Ledger) (spec : OperationSpec) (owner root : String)
    (parent : Option TaskId) : Except Err (Option TaskId) :=
  match spec.kind with
  | .request => .ok parent
  | .apply =>
    match spec.planId.bind fun p => ownedPlan l p owner with
    | none =>
      .error (.safeOperation "Apply operation must match its approved plan owner and workspace")
    | some plan =>
      if plan.workspace ≠ root ∨ plan.status ≠ .approved then
        .error (.safeOperation "Apply operation must match its approved plan owner and workspace")
      else .ok (some plan.taskId)

def admissionExisting (l : Ledger) (spec : OperationSpec) (owner root : String) :
    Except Err (Option AgentTask) :=
  match spec.kind, spec.planId with
  | .apply, some p => existingApply l p owner root
  | _, _ => .ok none

def acceptedTask (k : TaskId) (spec : OperationSpec) (owner root : String)
    (source : Option RequestId) (project : Option ProjectId) (now : Time) : AgentTask :=
  { id := k, sourceRequestId := source
    title := env.redact (if spec.prompt = "" then "Apply reviewed plan" else
      String.ofList (spec.prompt.toList.take 160))
    prompt := env.redact spec.prompt, requestedBy := owner, projectId := project
    metadata := { ownerKey := some owner, workspaceRoot := root }
    createdAt := now, updatedAt := now }

/-- The rows of a newly accepted operation. -/
def acceptConn (k : TaskId) (spec : OperationSpec) (owner : String) (generation : WorkerId)
    (root : String) (source : Option RequestId) (project : Option ProjectId)
    (parent : Option TaskId) (conversationKey : Option String) (freshSession : SessionId)
    (now : Time) : Op AgentTask := do
  let row := acceptedTask env k spec owner root source project now
  Tx.write (upsertTask row)
  Tx.lift (validate spec)
  insertOperation { taskId := k, spec, workerGeneration := generation, parentTaskId := parent }
  match conversationKey, spec.kind with
  | some key, .request => do
    let _ ← bindConn env k owner key root freshSession now
    pure ()
  | _, _ => pure ()
  Tx.write fun l => l.appendEvent { taskId := k, eventType := .operationAccepted }
  let row ← Tx.select fun l => l.tasks.get? k
  Tx.demand row (.value "Missing task row")

/-- `_submit_conn`; the caller owns the transaction. -/
def submitConn (spec : OperationSpec) (owner : String) (generation : WorkerId) (root : String)
    (source : Option RequestId) (project : Option ProjectId) (parent : Option TaskId)
    (conversationKey : Option String) (fresh : TaskId) (freshSession : SessionId) (now : Time) :
    Op AgentTask := do
  let ready ← Tx.select fun l => decide (WorkerReady l generation now)
  Tx.require (ready = true) (.safeOperation "Worker not ready")
  let intake ← intakeConn env owner root source conversationKey fresh freshSession now
  match intake with
  | .answered task => pure task
  | .enter k => do
    let existing ← Tx.select fun l => admissionExisting l spec owner root
    let existing ← Tx.lift existing
    match existing with
    | some task => pure task
    | none => do
      let parent ← Tx.select fun l => admissionParent l spec owner root parent
      let parent ← Tx.lift parent
      acceptConn env k spec owner generation root source project parent conversationKey
        freshSession now

/-- `submit`: checks before the transaction, then the admission. -/
def submit (reg : Registry) (spec : OperationSpec) (owner : String) (generation : WorkerId)
    (source : Option RequestId) (project : Option ProjectId) (parent : Option TaskId)
    (conversationKey : Option String) (fresh : TaskId) (freshSession : SessionId) (now : Time) :
    Op AgentTask := do
  Tx.lift (validate spec)
  let root ← Tx.lift (checkWorkspace env reg spec.workspace owner)
  submitConn env spec owner generation root source project parent conversationKey fresh
    freshSession now

end NyanyaAgent.Operations
