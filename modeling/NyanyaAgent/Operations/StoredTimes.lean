import NyanyaAgent.Calendar.Stamp
import NyanyaAgent.Operations.Attempts
import NyanyaAgent.Operations.Ownership
import NyanyaAgent.Plans.Decisions

/-!
# Times as texts

The expiry tests of the operations as the statements make them: on the texts that the rows
hold. A time of the model is an instant in microseconds since the year 1.
-/
namespace NyanyaAgent.Operations
open NyanyaAgent.Schema NyanyaAgent.Relational NyanyaAgent.Calendar

/-- `now` of the operation store, at an instant. -/
def storedTime (t : Time) : List Char := StampFormat.whole.text t.toNat

/-- An instant of the years 1 to 9999. -/
def Storable (t : Time) : Prop := 0 ≤ t ∧ yearOf t.toNat < 10000

/-- Every time that an expiry test reads is one of these years. -/
structure StorableTimes (l : Ledger) : Prop where
  workers : ∀ w ∈ l.workers.rows, Storable w.heartbeatAt
  claims : ∀ c ∈ l.claims.rows, Storable c.expiresAt
  plans : ∀ p ∈ l.plans.rows, Storable p.expiresAt
  drafts : ∀ d ∈ l.drafts.rows, Storable d.expiresAt

/-- The statement of `require_execution_ownership`. -/
def ownedOnTexts (l : Ledger) (record : ClaimRecord) (owner : String) (timestamp cutoff : List Char) :
    Option TaskOperation :=
  match l.operations.get? record.taskId, l.tasks.get? record.taskId,
      l.claims.get? record.taskId, l.executions.get? record.executionId,
      l.workers.get? record.workerId with
  | some o, some t, some c, some e, some w =>
    if (o.eligible = true ∧ o.workerGeneration = record.workerId) ∧
        (t.requestedBy = owner ∧ t.status = .running ∧
          t.currentExecutionId = some record.executionId) ∧
        (c.executionId = record.executionId ∧ c.workerId = record.workerId ∧ c.ownerKey = owner ∧
          c.released = false ∧ timestamp < storedTime c.expiresAt) ∧
        (e.taskId = record.taskId ∧ e.status = .running ∧ e.adapterType = "operation") ∧
        (w.closed = false ∧ cutoff < storedTime w.heartbeatAt) then some o
    else none
  | _, _, _, _, _ => none

/-- The condition of the statement of `recover` on workers and claims. -/
def InterruptedOnTexts (l : Ledger) (o : TaskOperation) (cutoff timestamp : List Char) : Prop :=
  ∃ w ∈ l.workers.rows, w.id = o.workerGeneration ∧
    (w.closed = true ∨ storedTime w.heartbeatAt < cutoff ∨
      ∃ c ∈ l.claims.rows, c.taskId = o.taskId ∧ c.released = false ∧
        ¬ timestamp < storedTime c.expiresAt)

/-- The worker check before a task is entered or resumed. -/
def WorkerReadyOnTexts (l : Ledger) (generation : WorkerId) (cutoff : List Char) : Prop :=
  ∃ w ∈ l.workers.rows, w.id = generation ∧ w.closed = false ∧ ¬ storedTime w.heartbeatAt < cutoff

/-- The claim row that a renewal finds. -/
def RenewableOnTexts (record : ClaimRecord) (timestamp : List Char) (c : TaskClaim) : Prop :=
  c.taskId = record.taskId ∧ c.workerId = record.workerId ∧ c.executionId = record.executionId ∧
    c.released = false ∧ timestamp < storedTime c.expiresAt

/-- The plans that `settle_expired` selects. -/
def expiredPlansOnTexts (l : Ledger) (timestamp : List Char) : List ChangePlan :=
  l.plans.rows.filter fun p =>
    (p.status = .pending ∨ p.status = .approved) ∧ ¬ timestamp < storedTime p.expiresAt

/-- The drafts that `maintain` selects. -/
def expiredDraftsOnTexts (l : Ledger) (timestamp : List Char) : List OperationDraft :=
  l.drafts.rows.filter fun d => d.status = .pending ∧ storedTime d.expiresAt < timestamp

end NyanyaAgent.Operations
