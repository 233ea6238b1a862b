import NyanyaAgent.Leases.Writer
import NyanyaAgent.Plans.Proposal

/-!
# The quiesced upgrade

`hold_legacy_for_quiesced_upgrade`: the tasks without an operation row that may still be
worked on are blocked, their attempts lost, their claims released and their leases ended.
-/
namespace NyanyaAgent.Upgrade
open NyanyaAgent.Schema NyanyaAgent.Relational NyanyaAgent.Operations NyanyaAgent.Leases
open NyanyaAgent.Plans

structure Database where
  ledger : Ledger
  leases : LeaseTable := .empty

variable (env : Environment)

def strip (value : String) : String :=
  String.ofList (((value.toList.dropWhile isSpace).reverse.dropWhile isSpace).reverse)

/-- An event of an earlier upgrade. -/
def HeldBefore (l : Ledger) (k : TaskId) : Prop :=
  ∃ v ∈ l.events, v.taskId = k ∧ v.eventType = .operationLegacyUpgradeHeld

instance (l : Ledger) (k : TaskId) : Decidable (HeldBefore l k) := by
  unfold HeldBefore; infer_instance

/-- An attempt of the task that has not ended. -/
def Open (k : TaskId) (e : Execution) : Prop := e.taskId = k ∧ ¬ e.status.Terminal

instance (k : TaskId) : DecidablePred (Open k) := fun e => by unfold Open; infer_instance

def Unreleased (k : TaskId) (c : TaskClaim) : Prop := c.taskId = k ∧ c.released = false

instance (k : TaskId) : DecidablePred (Unreleased k) := fun c => by
  unfold Unreleased; infer_instance

def Selected (l : Ledger) (t : AgentTask) : Prop :=
  l.operations.get? t.id = none ∧
    ((¬ t.status.Terminal ∧ ¬ HeldBefore l t.id) ∨ (∃ e ∈ l.executions.rows, Open t.id e) ∨
      ∃ c ∈ l.claims.rows, Unreleased t.id c)

instance (l : Ledger) : DecidablePred (Selected l) := fun t => by unfold Selected; infer_instance

def selectedRows (l : Ledger) : List AgentTask := l.tasks.rows.filter fun t => Selected l t

def heldStatus (s : TaskStatus) : TaskStatus := if s.Terminal then s else .blocked

/-- `UPDATE agent_tasks`, with the status and the metadata the selection read. -/
def markTask (reason : String) (now : Time) (row : AgentTask) (t : AgentTask) : AgentTask :=
  { t with status := heldStatus row.status, updatedAt := now
           metadata := { row.metadata with legacyUpgradeHold := some (reason, now) } }

def loseExecution (reason : String) (now : Time) (e : Execution) : Execution :=
  { e with status := .lost, error := reason, endedAt := some now, updatedAt := now }

/-- One pass of the inner loop. -/
def loseOpen (reason : String) (now : Time) (k : TaskId) (l : Ledger) (attempt : Execution) :
    Ledger :=
  (l.updateExecution attempt.id (loseExecution reason now)).appendEvent
    { taskId := k, executionId := some attempt.id, eventType := .executionLegacyUpgradeHeld
      metadata := .heldAttempt attempt.status }

def freeClaim (now : Time) (c : TaskClaim) : TaskClaim :=
  { c with released := true, expiresAt := now }

/-- A lease of one of the task's attempts that has not run out; both times are texts. -/
def LeaseOf (l : Ledger) (k : TaskId) (timestamp : List Char) (c : WriterLease) : Prop :=
  (∃ e ∈ l.executions.rows, e.taskId = k ∧ e.id = c.ownerId) ∧ timestamp < c.expiresAt

instance (l : Ledger) (k : TaskId) (timestamp : List Char) :
    DecidablePred (LeaseOf l k timestamp) := fun c => by unfold LeaseOf; infer_instance

def endLease (timestamp : List Char) (c : WriterLease) : WriterLease :=
  { c with expiresAt := timestamp }

/-- One pass of the loop; `timestamp` is the text of `now`. -/
def holdTask (reason : String) (now : Time) (timestamp : List Char) (d : Database)
    (row : AgentTask) : Database :=
  let l := d.ledger.updateTask row.id (markTask reason now row)
  let attempts := l.executions.rows.filter fun e => Open row.id e
  let l := attempts.foldl (loseOpen reason now row.id) l
  let released := (l.claims.rows.filter fun c => Unreleased row.id c).length
  let l := { l with claims := l.claims.update (Unreleased row.id) (freeClaim now) }
  { ledger := l.appendEvent
      { taskId := row.id, executionId := row.currentExecutionId
        eventType := .operationLegacyUpgradeHeld, metadata := .heldTask row.status released }
    leases := d.leases.update (LeaseOf l row.id timestamp) (endLease timestamp) }

/-- `hold_legacy_for_quiesced_upgrade`: the number of tasks it held. -/
def holdLegacyForQuiescedUpgrade (isoformat : Time → List Char) (writersStopped : Bool)
    (reason : String) (now : Time) : Tx Err Database ℕ := do
  Tx.require (writersStopped = true ∧ strip reason ≠ "")
    (.safeOperation "Quiesced upgrade requires stopped writers and an audit reason")
  let rows ← Tx.select fun d : Database => selectedRows d.ledger
  Tx.write fun d => rows.foldl (holdTask (env.redact (strip reason)) now (isoformat now)) d
  pure rows.length

end NyanyaAgent.Upgrade
