import NyanyaAgent.Leases.Writer
import NyanyaAgent.Queue.Local

/-!
# Generic approvals

The approval rows of `execution_store.py` with all their columns, and the functions that
request, decide and consume them. The clock of the command layer counts whole seconds, as that of
the leases does.
-/
namespace NyanyaAgent.Commands
open NyanyaAgent.Schema NyanyaAgent.Relational NyanyaAgent.Leases

inductive DecisionStatus
  | pending | approved | rejected | expired | consumed
  deriving DecidableEq, Repr

structure FileIdentity where
  dev : ℕ
  ino : ℕ
  size : ℕ
  mtimeNs : ℕ
  ctimeNs : ℕ
  deriving DecidableEq, Repr

/-- The keys of `metadata_json` that some function reads. -/
structure ApprovalMetadata where
  authorizedActor : Option String := none
  scopeHash : Option Hash := none
  schemaVersion : Option ℕ := none
  phase : Option String := none
  conversationKey : Option String := none
  workspace : Option String := none
  relativePath : Option String := none
  destinationId : Option String := none
  requestChannelId : Option String := none
  sha256 : Option String := none
  fileIdentity : Option FileIdentity := none
  counts : Option (List (String × ℤ)) := none
  deriving DecidableEq, Repr

structure ApprovalRecord where
  id : ApprovalId
  taskId : Option TaskId := none
  executionId : Option ExecutionId := none
  action : String
  status : DecisionStatus := .pending
  requestedBy : String
  decidedBy : String := ""
  metadata : ApprovalMetadata := {}
  requestedAt : Time
  decidedAt : Option Time := none
  expiresAt : Time
  deriving DecidableEq, Repr

/-- The ledger with the tables of the command layer. -/
structure CommandLedger where
  base : Ledger := {}
  records : Table ApprovalRecord.id := .empty
  leases : LeaseTable := .empty
  /-- `writer_lease` in the metadata of an execution. -/
  writerLease : ExecutionId → Option (ResourceKey × ℕ) := fun _ => none

abbrev CommandOp := Tx Err CommandLedger

def onBase {α : Type} (m : Op α) : CommandOp α := fun s =>
  ((m s.base).1, { s with base := (m s.base).2 })

def insertRecord (r : ApprovalRecord) : CommandOp Unit :=
  Tx.attempt (fun l => (l.records.insert r).map fun t => { l with records := t }) .integrity

def updateRecord (i : ApprovalId) (f : ApprovalRecord → ApprovalRecord)
    (hf : ∀ r, (f r).id = r.id := by intro r; rfl) (l : CommandLedger) : CommandLedger :=
  { l with records := l.records.update (fun r => r.id = i) f hf }

structure ApprovalRequest where
  action : String
  requestedBy : String
  taskId : Option TaskId := none
  executionId : Option ExecutionId := none
  ttlSeconds : ℤ := 3600
  metadata : ApprovalMetadata := {}

def Referenced (l : Ledger) (r : ApprovalRequest) : Prop :=
  (∀ k ∈ r.taskId, (l.tasks.get? k).isSome = true) ∧
    ∀ x ∈ r.executionId, (l.executions.get? x).isSome = true

instance (l : Ledger) (r : ApprovalRequest) : Decidable (Referenced l r) := by
  unfold Referenced; infer_instance

/-- `UPDATE agent_tasks SET status=?,updated_at=? WHERE id=?`. -/
def setTask (k : Option TaskId) (status : TaskStatus) (now : Time) (l : Ledger) : Ledger :=
  match k with
  | some k => l.updateTask k fun t => { t with status := status, updatedAt := now }
  | none => l

/-- `UPDATE executions SET status='awaiting_approval',updated_at=? WHERE id=?`. -/
def holdExecution (x : Option ExecutionId) (now : Time) (l : Ledger) : Ledger :=
  match x with
  | some x => l.updateExecution x fun e => { e with status := .awaitingApproval, updatedAt := now }
  | none => l

def requestApproval (r : ApprovalRequest) (fresh : ApprovalId) (now : Time) :
    CommandOp ApprovalId := do
  Tx.require (r.taskId ≠ none ∨ r.executionId ≠ none)
    (.value "task_id or execution_id is required")
  let l ← Tx.select fun s : CommandLedger => s.base
  Tx.require (Referenced l r) .integrity
  insertRecord
    { id := fresh, taskId := r.taskId, executionId := r.executionId, action := r.action
      requestedBy := r.requestedBy, metadata := r.metadata, requestedAt := now
      expiresAt := now + max 60 r.ttlSeconds }
  Tx.write fun s => { s with
    base := holdExecution r.executionId now (setTask r.taskId .awaitingApproval now s.base) }
  pure fresh

inductive Decision
  | approved | rejected
  deriving DecidableEq, Repr

def Decision.status : Decision → DecisionStatus
  | .approved => .approved
  | .rejected => .rejected

def uploadAction : String := "discord.upload.pii"

/-- The approval names an actor, and it is another one. -/
def ActorMismatch (r : ApprovalRecord) (decidedBy : String) : Prop :=
  ∃ actor ∈ r.metadata.authorizedActor, actor ≠ "" ∧ decidedBy ≠ actor

instance (r : ApprovalRecord) (decidedBy : String) : Decidable (ActorMismatch r decidedBy) := by
  unfold ActorMismatch; infer_instance

/-- The transaction of `decide_approval`, with the time the call was entered at. An error
inside the answer is raised after a commit. -/
def decideApproval (i : ApprovalId) (decision : Decision) (decidedBy : String) (entry : Time) :
    CommandOp (Except Err Unit) := do
  let row ← Tx.select fun s : CommandLedger => s.records.get? i
  let current ← Tx.demand row (.value "KeyError")
  Tx.require (current.action ≠ uploadAction)
    (.value "Use the dedicated document upload confirmation flow")
  Tx.require (¬ ActorMismatch current decidedBy) (.value "Approval actor mismatch")
  if current.status ≠ .pending then do
    Tx.require (current.status = decision.status) (.value "Approval already decided")
    pure (.ok ())
  else if current.expiresAt ≤ entry then do
    Tx.write (updateRecord i fun r => { r with status := .expired, decidedAt := some entry })
    pure (.error (.value "Approval expired"))
  else do
    Tx.write (updateRecord i fun r =>
      { r with status := decision.status, decidedBy := decidedBy, decidedAt := some entry })
    Tx.write fun s => { s with
      base := if decision = .rejected then setTask current.taskId .blocked entry s.base else s.base }
    pure (.ok ())

/-- What `check_approval` demands of an approval. -/
def Authorises (r : ApprovalRecord) (k : TaskId) (scopeHash : Hash) (now : Time) : Prop :=
  r.status = .approved ∧ r.taskId = some k ∧ r.action = "workspace.write" ∧ now < r.expiresAt ∧
    r.metadata.authorizedActor = some r.decidedBy ∧ r.decidedBy ≠ "" ∧
    r.metadata.scopeHash = some scopeHash

instance (r : ApprovalRecord) (k : TaskId) (scopeHash : Hash) (now : Time) :
    Decidable (Authorises r k scopeHash now) := by unfold Authorises; infer_instance

/-- `check_approval`; with an execution it consumes the approval. -/
def checkApproval (i : ApprovalId) (k : TaskId) (scopeHash : Hash) (x : Option ExecutionId)
    (now : Time) : CommandOp Unit := do
  let row ← Tx.select fun s : CommandLedger => s.records.get? i
  let r ← Tx.demand row (.permission "A persisted approval is required")
  Tx.require (Authorises r k scopeHash now) (.permission
    "Approval is expired, consumed, or does not match this actor and command scope")
  match x with
  | some x => Tx.write (updateRecord i fun r => { r with status := .consumed, executionId := some x })
  | none => pure ()

structure NewExecution where
  taskId : TaskId
  adapterType : String
  status : ExecutionStatus := .pending
  workdir : String := ""

theorem id_attempted (x : ExecutionId) (now : Time) (t : AgentTask) :
    ({ t with currentExecutionId := some x, updatedAt := now } : AgentTask).id = t.id := rfl

def createExecution (e : NewExecution) (fresh : ExecutionId) (now : Time) : Op Unit := do
  let row ← Tx.select fun l => l.tasks.get? e.taskId
  let _ ← Tx.demand row (.value "KeyError")
  insertExecution
    { id := fresh, taskId := e.taskId, adapterType := e.adapterType, status := e.status
      workdir := e.workdir, createdAt := now, updatedAt := now
      startedAt := if e.status = .starting ∨ e.status = .running then some now else none
      endedAt := if e.status.Terminal then some now else none
      lastHeartbeatAt := if e.status = .starting ∨ e.status = .running then some now else none }
  Tx.write fun l => l.updateTask e.taskId
    (fun t => { t with currentExecutionId := some fresh, updatedAt := now }) (id_attempted fresh now)

end NyanyaAgent.Commands
