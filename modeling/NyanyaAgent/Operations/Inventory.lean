import NyanyaAgent.Operations.Attempts

/-!
# The recovery inventory

`recovery_inventory`: the tasks an owner is told about. An ordinary queue entry of a live
worker and a claim whose lease runs are left out, unless their delivery is in doubt.
-/
namespace NyanyaAgent.Operations
open NyanyaAgent.Schema NyanyaAgent.Relational

/-- `COALESCE(json_extract(t.metadata_json,'$.owner_key'),t.requested_by)`. -/
def taskOwner (t : AgentTask) : String := t.metadata.ownerKey.getD t.requestedBy

/-- The claim of the current attempt, in the owner's name. -/
def inventoryClaim (l : Ledger) (t : AgentTask) : Option TaskClaim :=
  (l.claims.get? t.id).filter fun c =>
    t.currentExecutionId = some c.executionId ∧ c.ownerKey = taskOwner t

def inventoryExecution (l : Ledger) (t : AgentTask) : Option Execution :=
  (inventoryClaim l t).bind fun c => (l.executions.get? c.executionId).filter fun e => e.taskId = t.id

def inventoryResult (l : Ledger) (t : AgentTask) : Option TaskResult :=
  t.currentExecutionId.bind l.results.get?

/-- `w.closed=0 AND w.heartbeat_at>?`. -/
def WorkerAlive (l : Ledger) (w : WorkerId) (cutoff : Time) : Prop :=
  ∃ r ∈ l.workers.get? w, r.closed = false ∧ cutoff < r.heartbeatAt

instance (l : Ledger) (w : WorkerId) (cutoff : Time) : Decidable (WorkerAlive l w cutoff) := by
  unfold WorkerAlive; infer_instance

def HealthyQueue (l : Ledger) (t : AgentTask) (cutoff : Time) : Prop :=
  (∃ o ∈ l.operations.get? t.id, o.eligible = true ∧ o.attempts < o.maxAttempts ∧
    o.holdReason = "" ∧ WorkerAlive l o.workerGeneration cutoff) ∧
  ∀ c ∈ inventoryClaim l t, c.released = true

instance (l : Ledger) (t : AgentTask) (cutoff : Time) : Decidable (HealthyQueue l t cutoff) := by
  unfold HealthyQueue; infer_instance

/-- The condition of a live claim on the operation of its task. -/
def ClaimedByGeneration (l : Ledger) (t : AgentTask) (c : TaskClaim) (cutoff : Time) : Prop :=
  ∀ o ∈ l.operations.get? t.id, o.eligible = true ∧ o.holdReason = "" ∧
    c.workerId = o.workerGeneration ∧ WorkerAlive l o.workerGeneration cutoff

instance (l : Ledger) (t : AgentTask) (c : TaskClaim) (cutoff : Time) :
    Decidable (ClaimedByGeneration l t c cutoff) := by
  unfold ClaimedByGeneration; infer_instance

/-- `live_claim`. -/
def InventoryLive (l : Ledger) (t : AgentTask) (cutoff now : Time) : Prop :=
  ∃ c ∈ inventoryClaim l t, c.released = false ∧ now < c.expiresAt ∧
    (∃ e ∈ inventoryExecution l t, e.status = .running ∨ e.status = .cancelling) ∧
    ClaimedByGeneration l t c cutoff

instance (l : Ledger) (t : AgentTask) (cutoff now : Time) : Decidable (InventoryLive l t cutoff now) := by
  unfold InventoryLive; infer_instance

/-- `r.delivery_status IN ('sending','uncertain')`. -/
def DeliveryIssue (l : Ledger) (t : AgentTask) : Prop :=
  ∃ r ∈ inventoryResult l t, r.deliveryStatus = .sending ∨ r.deliveryStatus = .uncertain

instance (l : Ledger) (t : AgentTask) : Decidable (DeliveryIssue l t) := by
  unfold DeliveryIssue; infer_instance

/-- The rows the query reads. -/
def InventoryScope (l : Ledger) (owner : Option String) (exclude : Option TaskId) (t : AgentTask) :
    Prop :=
  ((t.status = .blocked ∨ t.status = .failed ∨ t.status = .awaitingApproval ∨ t.status = .queued ∨
      t.status = .running ∨ t.status = .cancelling) ∨ DeliveryIssue l t) ∧
    (∀ o ∈ owner, taskOwner t = o) ∧ exclude ≠ some t.id

instance (l : Ledger) (owner : Option String) (exclude : Option TaskId) (t : AgentTask) :
    Decidable (InventoryScope l owner exclude t) := by unfold InventoryScope; infer_instance

/-- A row that the loop passes over. -/
def InventoryHidden (l : Ledger) (t : AgentTask) (cutoff now : Time) : Prop :=
  ¬ DeliveryIssue l t ∧
    (t.status = .queued ∧ HealthyQueue l t cutoff ∨
      (t.status = .running ∨ t.status = .cancelling) ∧ InventoryLive l t cutoff now ∨
      t.status = .failed ∧ t.metadata.userDisposition ≠ none)

instance (l : Ledger) (t : AgentTask) (cutoff now : Time) :
    Decidable (InventoryHidden l t cutoff now) := by unfold InventoryHidden; infer_instance

structure InventoryRow where
  task : AgentTask
  deliveryRequestId : Option RequestId
  deliveryStatus : Option DeliveryStatus
  holdReason : Option String
  /-- `request_source` and `request_channel_id`. -/
  request : Option (String × String)
  diagnosis : Option String
  attempts : ℕ

/-- The columns of one row; `requests` is the table of connector requests. -/
def inventoryRow (requests : RequestId → Option (String × String)) (l : Ledger) (t : AgentTask) :
    InventoryRow :=
  let operation := l.operations.get? t.id
  let parent := (operation.bind fun o => o.parentTaskId).bind l.tasks.get?
  let source := t.sourceRequestId <|> parent.bind fun p => p.sourceRequestId
  { task := t
    deliveryRequestId := source
    deliveryStatus := (inventoryResult l t).map fun r => r.deliveryStatus
    holdReason := operation.map fun o => o.holdReason
    request := source.bind requests
    diagnosis := (operation.map fun o => o.diagnosis) <|>
      t.metadata.legacyUpgradeHold.map fun h => h.1
    attempts := match operation with
      | none => (l.executions.rows.filter fun e => e.taskId = t.id).length
      | some o => o.attempts }

def recoveryInventory (requests : RequestId → Option (String × String)) (owner : Option String)
    (exclude : Option TaskId) (now : Time) (l : Ledger) : List InventoryRow :=
  let cutoff := now - seconds 30
  let rows := (l.tasks.rows.filter fun t => InventoryScope l owner exclude t).insertionSort
    fun a b => a.createdAt ≤ b.createdAt
  (rows.filter fun t => ¬ InventoryHidden l t cutoff now).map (inventoryRow requests l)

end NyanyaAgent.Operations
