import NyanyaAgent.Schema.Rows

/-!
# The ledger

All tables of the operation ledger, the statements that write them, and the
exceptions an operation raises. Events are append only.
-/
namespace NyanyaAgent.Schema
open NyanyaAgent.Relational

def JournalEntry.key (j : JournalEntry) : PlanId × ℕ := (j.planId, j.ordinal)

structure Ledger where
  tasks : Table AgentTask.id := .empty
  operations : Table TaskOperation.taskId := .empty
  executions : Table Execution.id := .empty
  claims : Table TaskClaim.taskId := .empty
  workers : Table OperationWorker.id := .empty
  plans : Table ChangePlan.id := .empty
  journal : Table JournalEntry.key := .empty
  drafts : Table OperationDraft.id := .empty
  approvals : Table Approval.id := .empty
  results : Table TaskResult.executionId := .empty
  sessions : Table ConversationSession.id := .empty
  turns : Table ConversationTurn.taskId := .empty
  projects : Table Project.id := .empty
  workRecords : Table WorkRecord.executionId := .empty
  wikiEntries : Table WikiEntry.id := .empty
  events : List ExecutionEvent := []

inductive Err
  | safeOperation (message : String)
  | permission (message : String)
  | value (message : String)
  /-- A primary key or uniqueness constraint refused an insertion. -/
  | integrity
  | os (message : String)
  deriving DecidableEq, Repr

/-- An operation on the ledger inside one transaction. -/
abbrev Op := Tx Err Ledger

namespace Ledger

def appendEvent (l : Ledger) (e : ExecutionEvent) : Ledger :=
  { l with events := l.events ++ [e] }

def updateTask (l : Ledger) (k : TaskId) (f : AgentTask → AgentTask)
    (hf : ∀ r, (f r).id = r.id := by intro r; rfl) : Ledger :=
  { l with tasks := l.tasks.update (fun t => t.id = k) f hf }

def updateOperation (l : Ledger) (k : TaskId) (f : TaskOperation → TaskOperation)
    (hf : ∀ r, (f r).taskId = r.taskId := by intro r; rfl) : Ledger :=
  { l with operations := l.operations.update (fun o => o.taskId = k) f hf }

def updateExecution (l : Ledger) (x : ExecutionId) (f : Execution → Execution)
    (hf : ∀ r, (f r).id = r.id := by intro r; rfl) : Ledger :=
  { l with executions := l.executions.update (fun e => e.id = x) f hf }

def updatePlan (l : Ledger) (p : PlanId) (f : ChangePlan → ChangePlan)
    (hf : ∀ r, (f r).id = r.id := by intro r; rfl) : Ledger :=
  { l with plans := l.plans.update (fun r => r.id = p) f hf }

def updateDraft (l : Ledger) (d : DraftId) (f : OperationDraft → OperationDraft)
    (hf : ∀ r, (f r).id = r.id := by intro r; rfl) : Ledger :=
  { l with drafts := l.drafts.update (fun r => r.id = d) f hf }

/-- `UPDATE task_claims SET released=1 WHERE task_id=?`. -/
def releaseClaim (l : Ledger) (k : TaskId) : Ledger :=
  { l with claims := l.claims.update (fun c => c.taskId = k) fun c => { c with released := true } }

section Rows
variable (l : Ledger)

@[simp] theorem updateTask_get? (k : TaskId) (f : AgentTask → AgentTask)
    (hf : ∀ r, (f r).id = r.id) :
    (l.updateTask k f hf).tasks.get? k = (l.tasks.get? k).map f :=
  l.tasks.get?_update_key k f hf

theorem updateTask_get?_ne {j k : TaskId} (f : AgentTask → AgentTask) (hf : ∀ r, (f r).id = r.id)
    (h : j ≠ k) : (l.updateTask k f hf).tasks.get? j = l.tasks.get? j :=
  l.tasks.get?_update_ne f hf h

@[simp] theorem updateOperation_get? (k : TaskId) (f : TaskOperation → TaskOperation)
    (hf : ∀ r, (f r).taskId = r.taskId) :
    (l.updateOperation k f hf).operations.get? k = (l.operations.get? k).map f :=
  l.operations.get?_update_key k f hf

theorem updateOperation_get?_ne {j k : TaskId} (f : TaskOperation → TaskOperation)
    (hf : ∀ r, (f r).taskId = r.taskId) (h : j ≠ k) :
    (l.updateOperation k f hf).operations.get? j = l.operations.get? j :=
  l.operations.get?_update_ne f hf h

@[simp] theorem releaseClaim_get? (k : TaskId) : (l.releaseClaim k).claims.get? k =
    (l.claims.get? k).map fun c => { c with released := true } :=
  l.claims.get?_update_key k (fun c => { c with released := true }) fun _ => rfl

theorem releaseClaim_get?_ne {j k : TaskId} (h : j ≠ k) :
    (l.releaseClaim k).claims.get? j = l.claims.get? j :=
  l.claims.get?_update_ne (fun c => { c with released := true }) (fun _ => rfl) h

@[simp] theorem updatePlan_get? (p : PlanId) (f : ChangePlan → ChangePlan)
    (hf : ∀ r, (f r).id = r.id) : (l.updatePlan p f hf).plans.get? p = (l.plans.get? p).map f :=
  l.plans.get?_update_key p f hf

theorem updatePlan_get?_ne {p q : PlanId} (f : ChangePlan → ChangePlan)
    (hf : ∀ r, (f r).id = r.id) (h : q ≠ p) :
    (l.updatePlan p f hf).plans.get? q = l.plans.get? q :=
  l.plans.get?_update_ne f hf h

@[simp] theorem updateDraft_get? (d : DraftId) (f : OperationDraft → OperationDraft)
    (hf : ∀ r, (f r).id = r.id) : (l.updateDraft d f hf).drafts.get? d = (l.drafts.get? d).map f :=
  l.drafts.get?_update_key d f hf

theorem updateDraft_get?_ne {d e : DraftId} (f : OperationDraft → OperationDraft)
    (hf : ∀ r, (f r).id = r.id) (h : e ≠ d) :
    (l.updateDraft d f hf).drafts.get? e = l.drafts.get? e :=
  l.drafts.get?_update_ne f hf h

end Rows

section Frames
variable (l : Ledger) (k : TaskId)

@[simp] theorem appendEvent_tasks (v : ExecutionEvent) : (l.appendEvent v).tasks = l.tasks := rfl
@[simp] theorem appendEvent_operations (v : ExecutionEvent) :
    (l.appendEvent v).operations = l.operations := rfl
@[simp] theorem appendEvent_executions (v : ExecutionEvent) :
    (l.appendEvent v).executions = l.executions := rfl
@[simp] theorem appendEvent_claims (v : ExecutionEvent) : (l.appendEvent v).claims = l.claims := rfl
@[simp] theorem appendEvent_workers (v : ExecutionEvent) :
    (l.appendEvent v).workers = l.workers := rfl
@[simp] theorem appendEvent_plans (v : ExecutionEvent) : (l.appendEvent v).plans = l.plans := rfl

variable (f : AgentTask → AgentTask) (hf : ∀ r, (f r).id = r.id)

@[simp] theorem updateTask_operations : (l.updateTask k f hf).operations = l.operations := rfl
@[simp] theorem updateTask_executions : (l.updateTask k f hf).executions = l.executions := rfl
@[simp] theorem updateTask_claims : (l.updateTask k f hf).claims = l.claims := rfl
@[simp] theorem updateTask_workers : (l.updateTask k f hf).workers = l.workers := rfl
@[simp] theorem updateTask_plans : (l.updateTask k f hf).plans = l.plans := rfl

variable (g : TaskOperation → TaskOperation) (hg : ∀ r, (g r).taskId = r.taskId)

@[simp] theorem updateOperation_tasks : (l.updateOperation k g hg).tasks = l.tasks := rfl
@[simp] theorem updateOperation_executions :
    (l.updateOperation k g hg).executions = l.executions := rfl
@[simp] theorem updateOperation_claims : (l.updateOperation k g hg).claims = l.claims := rfl
@[simp] theorem updateOperation_workers : (l.updateOperation k g hg).workers = l.workers := rfl
@[simp] theorem updateOperation_plans : (l.updateOperation k g hg).plans = l.plans := rfl

@[simp] theorem releaseClaim_tasks : (l.releaseClaim k).tasks = l.tasks := rfl
@[simp] theorem releaseClaim_operations : (l.releaseClaim k).operations = l.operations := rfl
@[simp] theorem releaseClaim_executions : (l.releaseClaim k).executions = l.executions := rfl
@[simp] theorem releaseClaim_workers : (l.releaseClaim k).workers = l.workers := rfl
@[simp] theorem releaseClaim_plans : (l.releaseClaim k).plans = l.plans := rfl

variable (x : ExecutionId) (u : Execution → Execution) (hu : ∀ r, (u r).id = r.id)

@[simp] theorem updateExecution_tasks : (l.updateExecution x u hu).tasks = l.tasks := rfl
@[simp] theorem updateExecution_operations :
    (l.updateExecution x u hu).operations = l.operations := rfl
@[simp] theorem updateExecution_claims : (l.updateExecution x u hu).claims = l.claims := rfl
@[simp] theorem updateExecution_workers : (l.updateExecution x u hu).workers = l.workers := rfl
@[simp] theorem updateExecution_plans : (l.updateExecution x u hu).plans = l.plans := rfl

end Frames
end Ledger

def insertTask (r : AgentTask) : Op Unit :=
  Tx.attempt (fun l => (l.tasks.insert r).map fun t => { l with tasks := t }) .integrity

def insertOperation (r : TaskOperation) : Op Unit :=
  Tx.attempt (fun l => (l.operations.insert r).map fun t => { l with operations := t }) .integrity

def insertExecution (r : Execution) : Op Unit :=
  Tx.attempt (fun l => (l.executions.insert r).map fun t => { l with executions := t }) .integrity

def insertClaim (r : TaskClaim) : Op Unit :=
  Tx.attempt (fun l => (l.claims.insert r).map fun t => { l with claims := t }) .integrity

def insertWorker (r : OperationWorker) : Op Unit :=
  Tx.attempt (fun l => (l.workers.insert r).map fun t => { l with workers := t }) .integrity

def insertPlan (r : ChangePlan) : Op Unit :=
  Tx.attempt (fun l => (l.plans.insert r).map fun t => { l with plans := t }) .integrity

def insertJournal (r : JournalEntry) : Op Unit :=
  Tx.attempt (fun l => (l.journal.insert r).map fun t => { l with journal := t }) .integrity

def insertDraft (r : OperationDraft) : Op Unit :=
  Tx.attempt (fun l => (l.drafts.insert r).map fun t => { l with drafts := t }) .integrity

def insertApproval (r : Approval) : Op Unit :=
  Tx.attempt (fun l => (l.approvals.insert r).map fun t => { l with approvals := t }) .integrity

def insertResult (r : TaskResult) : Op Unit :=
  Tx.attempt (fun l => (l.results.insert r).map fun t => { l with results := t }) .integrity

def insertSession (r : ConversationSession) : Op Unit :=
  Tx.attempt (fun l => (l.sessions.insert r).map fun t => { l with sessions := t }) .integrity

/-- Turns are also unique by session, generation and sequence. -/
def insertTurn (r : ConversationTurn) : Op Unit :=
  Tx.attempt (fun l =>
    if ∃ t ∈ l.turns.rows, t.sessionId = r.sessionId ∧ t.generation = r.generation ∧
        t.sequence = r.sequence then none
    else (l.turns.insert r).map fun t => { l with turns := t }) .integrity

end NyanyaAgent.Schema
