import NyanyaAgent.Operations.Effects

/-!
# Cancellation

`cancel` and `dismiss`: what an owner may stop, what happens to the open plans
and the apply children of the task, and when a stop is recorded as a hold because
file effects are uncertain.
-/
namespace NyanyaAgent.Operations
open NyanyaAgent.Schema NyanyaAgent.Relational

/-- The task fields a listing showed, when the caller passes them on. -/
structure Selection where
  executionId : Option ExecutionId := none
  status : Option TaskStatus := none
  updatedAt : Option Time := none

/-- `_require_selected_revision`. -/
def SelectedRevision (s : Selection) (t : AgentTask) : Prop :=
  (∀ x ∈ s.status, t.status = x) ∧ ∀ x ∈ s.updatedAt, t.updatedAt = x

instance (s : Selection) (t : AgentTask) : Decidable (SelectedRevision s t) := by
  unfold SelectedRevision; infer_instance

def dismissTask (k : TaskId) (now : Time) (l : Ledger) : Ledger :=
  (l.updateTask k fun t =>
    { t with metadata := { t.metadata with userDisposition := some now }, updatedAt := now
      }).appendEvent
    { taskId := k, eventType := .operationDismissed }

def dismissConn (t : AgentTask) (now : Time) : Op TaskStatus := do
  let unresolved ← Tx.select fun l => decide (UnresolvedEffects l t.id)
  Tx.require (t.status = .failed ∧ unresolved = false) (.safeOperation
    "Only a safe failed task can be dismissed; reconcile uncertain effects first")
  if t.metadata.userDisposition ≠ none then pure .failed
  else do
    Tx.write (dismissTask t.id now)
    pure .failed

def dismiss (k : TaskId) (owner : String) (selection : Selection) (now : Time) :
    Op TaskStatus := do
  let task ← Tx.select fun l => (l.tasks.get? k).filter fun t => t.requestedBy = owner
  let t ← Tx.demand task (.permission "Task owner mismatch")
  Tx.require (SelectedRevision selection t) (.safeOperation
    "Selected task changed; refresh the task list before controlling it")
  dismissConn t now

/-- An unexpired, unreleased claim of the current attempt that still runs. -/
def LiveClaim (l : Ledger) (t : AgentTask) (now : Time) : Prop :=
  ∃ c ∈ l.claims.rows, c.taskId = t.id ∧ t.currentExecutionId = some c.executionId ∧
    c.released = false ∧ now < c.expiresAt ∧ ∃ e ∈ l.executions.rows, e.id = c.executionId ∧
      (e.status = .running ∨ e.status = .cancelling)

instance (l : Ledger) (t : AgentTask) (now : Time) : Decidable (LiveClaim l t now) := by
  unfold LiveClaim; infer_instance

/-- A queued child will never start. -/
def stopQueuedChild (k : TaskId) (reason : String) (now : Time) (l : Ledger) : Ledger :=
  let l := l.updateTask k fun t =>
    { t with status := .cancelled, completedAt := some now, updatedAt := now }
  l.updateOperation k fun o => { o with eligible := false, holdReason := reason }

/-- A running child is asked to stop. -/
def stopRunningChild (k : TaskId) (now : Time) (l : Ledger) : Ledger :=
  let l := l.updateTask k fun t => { t with status := .cancelling, updatedAt := now }
  { l with
    executions := l.executions.update (fun e => e.taskId = k ∧ e.status = .running) fun e =>
      { e with status := .cancelling, updatedAt := now } }

/-- The child loop of `cancel` and of `_settle_closed_plan`. -/
def stopChild (reason : String) (now : Time) (l : Ledger) (child : TaskId × TaskStatus) : Ledger :=
  match child.2 with
  | .queued => stopQueuedChild child.1 reason now l
  | .running => stopRunningChild child.1 now l
  | .cancelling => stopRunningChild child.1 now l
  | _ => l

/-- The children of a task, with the status each has now. -/
def children (l : Ledger) (k : TaskId) (p : TaskOperation → Prop) [DecidablePred p] :
    List (TaskId × TaskStatus) :=
  l.operations.rows.filterMap fun o =>
    if o.parentTaskId = some k ∧ p o then
      (l.tasks.get? o.taskId).map fun t => (t.id, t.status)
    else none

/-- The open plans a cancellation revokes. -/
def openPlans (l : Ledger) (k : TaskId) : List PlanId :=
  (l.plans.rows.filter fun p => p.taskId = k ∧ (p.status = .pending ∨ p.status = .approved)).map
    (·.id)

/-- One pass of the plan loop in `cancel`. -/
def revokePlan (k : TaskId) (owner : String) (now : Time) (l : Ledger) (p : PlanId) : Ledger :=
  let l := l.updatePlan p fun r => { r with status := .revoked, decidedBy := owner }
  (children l k fun o => o.spec.planId = some p).foldl (stopChild "parent_cancelled" now) l

def rejectApprovals (k : TaskId) (owner : String) (now : Time) (l : Ledger) : Ledger :=
  { l with
    approvals := l.approvals.update (fun a => a.taskId = k ∧ a.status = .pending) fun a =>
      { a with status := .rejected, decidedBy := owner, decidedAt := some now } }

/-- The stop of a live attempt waits for its worker. -/
def requestStop (k : TaskId) (x : ExecutionId) (now : Time) (l : Ledger) : Ledger :=
  let l := l.updateExecution x fun e => { e with status := .cancelling, updatedAt := now }
  l.updateTask k fun t => { t with status := .cancelling, updatedAt := now }

/-- Attempts and effects that keep a stop without a live claim from being final. -/
def UncertainStop (l : Ledger) (k : TaskId) : Prop :=
  UnresolvedEffects l k ∨ ∃ e ∈ l.executions.rows, e.taskId = k ∧
    (e.status = .starting ∨ e.status = .running ∨ e.status = .cancelling ∨ e.status = .stale)

instance (l : Ledger) (k : TaskId) : Decidable (UncertainStop l k) := by
  unfold UncertainStop; infer_instance

def uncertainDiagnosis (uncertain : Bool) : String :=
  if uncertain then
    "Cancellation requested without a live claim; external effects require reconciliation"
  else ""

/-- The stop of a task without a live claim closes the task and every open attempt. -/
def closeTask (k : TaskId) (uncertain : Bool) (now : Time) (l : Ledger) : Ledger :=
  let l := l.updateTask k fun t =>
    { t with status := if uncertain then .blocked else .cancelled, updatedAt := now
             completedAt := if uncertain then none else some now }
  let l := l.releaseClaim k
  let l := { l with
    executions := l.executions.update (fun e => e.taskId = k ∧ ¬ e.status.Terminal) fun e =>
      { e with status := if uncertain then .lost else .cancelled
               error := uncertainDiagnosis uncertain, endedAt := some now, updatedAt := now } }
  l.updateOperation k fun o =>
    { o with holdReason := if uncertain then "cancellation_unconfirmed" else "cancelled"
             diagnosis := uncertainDiagnosis uncertain, eligible := false }

/-- `cancel`; the answer is the status it reports. -/
def cancel (k : TaskId) (owner : String) (selection : Selection) (now : Time) :
    Op TaskStatus := do
  let task ← Tx.select fun l => (l.tasks.get? k).filter fun t => t.requestedBy = owner
  let t ← Tx.demand task (.permission "Task owner mismatch")
  Tx.require (SelectedRevision selection t) (.safeOperation
    "Selected task changed; refresh the task list before controlling it")
  Tx.require (∀ x ∈ selection.executionId, t.currentExecutionId = some x)
    (.safeOperation "Execution is no longer current")
  let unresolved ← Tx.select fun l => decide (UnresolvedEffects l k)
  if t.status = .failed then dismissConn t now
  else if t.status = .completed ∨ t.status = .cancelled then do
    Tx.require (unresolved = false) (.safeOperation
      "Recorded terminal state has unresolved effects; reconcile first")
    pure t.status
  else do
    let live ← Tx.select fun l => decide (LiveClaim l t now)
    if t.status = .blocked ∧ unresolved = true then pure .blocked
    else do
      let plans ← Tx.select fun l => openPlans l k
      Tx.write (rejectApprovals k owner now)
      Tx.write fun l => plans.foldl (revokePlan k owner now) l
      match live, t.currentExecutionId with
      | true, some x => do
        Tx.write (requestStop k x now)
        Tx.write fun l => l.appendEvent { taskId := k, eventType := .operationCancelRequested }
        pure .cancelling
      | _, _ => do
        let uncertain ← Tx.select fun l => decide (UncertainStop l k)
        Tx.write (closeTask k uncertain now)
        Tx.write fun l => l.appendEvent { taskId := k, eventType := .operationCancelRequested }
        pure (if uncertain then .blocked else .cancelled)

end NyanyaAgent.Operations
