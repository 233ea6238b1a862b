import NyanyaAgent.Commands.Approvals
import NyanyaAgent.Runs.Invariant

/-!
# Runs of the generic ledger

Any number of callers of the five functions that write a status, each transaction whole
and each read outside one a step of its own.
-/
namespace NyanyaAgent.Commands
open NyanyaAgent.Schema NyanyaAgent.Relational NyanyaAgent.Queue

/-- `TASK_TRANSITIONS`; `cancelling` has no entry. -/
def taskTransitions : TaskStatus → List TaskStatus
  | .queued => [.running, .awaitingApproval, .blocked, .completed, .failed, .cancelled]
  | .running => [.awaitingApproval, .blocked, .completed, .failed, .cancelled]
  | .awaitingApproval => [.queued, .running, .blocked, .failed, .cancelled]
  | .blocked => [.queued, .running, .failed, .cancelled]
  | .completed => []
  | .failed => [.queued]
  | .cancelled => [.queued]
  | .cancelling => []

/-- A `transition_task` that has read and checked the status and is about to write. -/
structure TaskWrite where
  taskId : TaskId
  status : TaskStatus
  deriving DecidableEq

/-- A `decide_approval` that has read the time and is about to begin its transaction. -/
structure EnteredDecision where
  approvalId : ApprovalId
  decision : Decision
  decidedBy : String
  entry : Time
  deriving DecidableEq

structure LedgerWorld where
  ledger : CommandLedger := {}
  clock : Time := 0
  writes : List TaskWrite := []
  decisions : List EnteredDecision := []

inductive LedgerAction
  | createExecution (e : NewExecution) (fresh : ExecutionId)
  | transitionExecution (x : ExecutionId) (status : ExecutionStatus) (force : Bool)
  /-- The read of a `transition_task`. -/
  | transitionTask (k : TaskId) (status : TaskStatus)
  | writeTask (n : ℕ)
  | requestApproval (r : ApprovalRequest) (fresh : ApprovalId)
  | enterDecision (i : ApprovalId) (decision : Decision) (decidedBy : String)
  | decide (n : ℕ)
  | tick (elapsed : ℕ)

/-- The read of `transition_task` without `force`. -/
def readTask (k : TaskId) (status : TaskStatus) (l : Ledger) : Option TaskWrite :=
  match l.tasks.get? k with
  | none => none
  | some t => if status ≠ t.status ∧ status ∉ taskTransitions t.status then none
    else some ⟨k, status⟩

def writeTask (c : TaskWrite) (now : Time) (l : Ledger) : Ledger :=
  l.updateTask c.taskId fun t =>
    { t with status := c.status, updatedAt := now
             completedAt := if c.status.Terminal then some now else none }

def stepLedger (w : LedgerWorld) : LedgerAction → LedgerWorld
  | .createExecution e fresh =>
    { w with ledger := ((onBase (createExecution e fresh w.clock)).commit w.ledger).2 }
  | .transitionExecution x status force =>
    { w with ledger := ((onBase (transitionExecution x status force w.clock)).commit w.ledger).2 }
  | .transitionTask k status =>
    match readTask k status w.ledger.base with
    | some c => { w with writes := w.writes ++ [c] }
    | none => w
  | .writeTask n =>
    match w.writes[n]? with
    | some c =>
      { w with
        ledger := { w.ledger with base := writeTask c w.clock w.ledger.base }
        writes := w.writes.eraseIdx n }
    | none => w
  | .requestApproval r fresh =>
    { w with ledger := ((requestApproval r fresh w.clock).commit w.ledger).2 }
  | .enterDecision i decision decidedBy =>
    { w with decisions := w.decisions ++ [⟨i, decision, decidedBy, w.clock⟩] }
  | .decide n =>
    match w.decisions[n]? with
    | some d =>
      { w with
        ledger := ((decideApproval d.approvalId d.decision d.decidedBy d.entry).commit w.ledger).2
        decisions := w.decisions.eraseIdx n }
    | none => w
  | .tick elapsed => { w with clock := w.clock + elapsed }

end NyanyaAgent.Commands
