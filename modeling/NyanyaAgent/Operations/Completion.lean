import NyanyaAgent.Conversation.Turns
import NyanyaAgent.Memory.WorkRecords
import NyanyaAgent.Operations.Effects

/-!
# Completion

`work_queue.finish`: the fence in front of a worker result, the verdict it is
turned into, and the rows one committed result writes; and the delivery of saved
results.
-/
namespace NyanyaAgent.Operations
open NyanyaAgent.Schema NyanyaAgent.Relational NyanyaAgent.Memory

variable (env : Environment)

def outcomeTaskStatus : OutcomeStatus → TaskStatus
  | .succeeded => .completed
  | .timedOut => .failed
  | .failed => .failed
  | .cancelled => .cancelled
  | .awaitingApproval => .awaitingApproval
  | .blocked => .blocked

def outcomeExecutionStatus : OutcomeStatus → ExecutionStatus
  | .succeeded => .succeeded
  | .timedOut => .timedOut
  | .failed => .failed
  | .cancelled => .cancelled
  | .awaitingApproval => .awaitingApproval
  | .blocked => .lost

/-- The claim, task and attempt rows agree that this worker still owns the attempt. -/
def Fenced (l : Ledger) (record : ClaimRecord) (timestamp : Time) (e : Execution) : Prop :=
  l.executions.get? record.executionId = some e ∧ ¬ e.status.Terminal ∧
    ∃ c ∈ l.claims.get? record.taskId, c.workerId = record.workerId ∧
      c.executionId = record.executionId ∧ c.released = false ∧ timestamp < c.expiresAt ∧
      ∃ t ∈ l.tasks.get? record.taskId, t.currentExecutionId = some record.executionId

instance (l : Ledger) (record : ClaimRecord) (timestamp : Time) (e : Execution) :
    Decidable (Fenced l record timestamp e) := by unfold Fenced; infer_instance

def fencedExecution (l : Ledger) (record : ClaimRecord) (timestamp : Time) : Option Execution :=
  (l.executions.get? record.executionId).filter fun e => Fenced l record timestamp e

/-- What an awaiting result waits for. -/
inductive Review
  | plan (status : PlanStatus) (decidedBy : String)
  | readScope
  deriving DecidableEq

/-- The latest open plan of a task, by creation time. -/
def livePlan (l : Ledger) (k : TaskId) (timestamp : Time) : Option ChangePlan :=
  (l.plans.rows.filter fun p => p.taskId = k ∧ (p.status = .pending ∨ p.status = .approved) ∧
    timestamp < p.expiresAt).foldl
    (fun best p => match best with
      | some b => if b.createdAt < p.createdAt then some p else some b
      | none => some p) none

def openReview (l : Ledger) (k : TaskId) (timestamp : Time) : Option Review :=
  match livePlan l k timestamp with
  | some p => some (.plan p.status p.decidedBy)
  | none =>
    if ∃ d ∈ l.drafts.rows, d.sourceTaskId = k ∧ d.status = .pending ∧ timestamp < d.expiresAt then
      some .readScope
    else none

/-- The task whose effects a cancellation must account for. -/
def effectTask (l : Ledger) (record : ClaimRecord) : TaskId :=
  match record.spec.kind, record.spec.planId.bind l.plans.get? with
  | .apply, some p => p.taskId
  | _, _ => record.taskId

/-- An awaiting result with nothing to review is a cancellation. -/
def reviewedOutcome (review : Option Review) (outcome : TaskOutcome) : TaskOutcome :=
  if outcome.status = .awaitingApproval ∧ review = none then
    ⟨.cancelled, "변경안이 철회되거나 만료되어 승인 대기를 종료했습니다."⟩
  else outcome

/-- A cancellation with uncertain effects is a hold. -/
def accountedOutcome (l : Ledger) (record : ClaimRecord) (outcome : TaskOutcome) : TaskOutcome :=
  if outcome.status = .cancelled ∧ UnresolvedEffects
      (l.updateExecution record.executionId fun e => { e with status := .cancelled })
      (effectTask l record) then
    ⟨.blocked, "실행은 중단했으나 외부 효과 확인이 필요합니다. reconcile로 확인하세요."⟩
  else outcome

/-- A result that is no acknowledgement of a requested cancellation is a hold. -/
def acknowledgedOutcome (e : Execution) (outcome : TaskOutcome) : TaskOutcome :=
  if e.status = .cancelling ∧ outcome.status ≠ .cancelled then
    ⟨.blocked, outcome.text ++
      "\n취소 완료를 확인하지 못했습니다. 실행 상태 확인이 필요합니다."⟩
  else outcome

/-- The outcome a reported one is recorded as. -/
def recordedOutcome (l : Ledger) (record : ClaimRecord) (e : Execution) (timestamp : Time)
    (outcome : TaskOutcome) : TaskOutcome :=
  acknowledgedOutcome e (accountedOutcome l record
    (reviewedOutcome (openReview l record.taskId timestamp) outcome))

/-- The attempt, task and claim rows of a result. -/
def concludeAttempt (record : ClaimRecord) (outcome : OutcomeStatus) (timestamp : Time)
    (l : Ledger) : Ledger :=
  let l := l.updateExecution record.executionId fun e =>
    { e with status := outcomeExecutionStatus outcome, updatedAt := timestamp
             endedAt := if (outcomeExecutionStatus outcome).Terminal then some timestamp
               else none }
  let l := l.updateTask record.taskId fun t =>
    { t with status := outcomeTaskStatus outcome, updatedAt := timestamp
             completedAt := if (outcomeTaskStatus outcome).Terminal then some timestamp
               else none }
  l.releaseClaim record.taskId

def holdOperation (k : TaskId) (outcome : TaskOutcome) (l : Ledger) : Ledger :=
  l.updateOperation k fun o =>
    { o with
      eligible := false
      holdReason := match outcome.status with
        | .succeeded => ""
        | .failed => "failed"
        | .timedOut => "timed_out"
        | .cancelled => "cancelled"
        | .awaitingApproval => "awaiting_approval"
        | .blocked => "blocked"
      diagnosis := if outcome.status = .succeeded then "" else env.redact outcome.text }

/-- An applied plan completes the parent that waits for it. -/
def completeParent (k : TaskId) (plan : ChangePlan) (timestamp : Time) (l : Ledger) : Ledger :=
  match l.tasks.get? plan.taskId with
  | some parent =>
    if parent.status = .awaitingApproval then
      (l.updateTask plan.taskId fun t =>
        { t with status := .completed, completedAt := some timestamp, updatedAt := timestamp
          }).appendEvent
        { taskId := plan.taskId, eventType := .taskPlanCompleted, metadata := .completed k plan.id }
    else l
  | none => l

/-- A successful apply needs its applied plan. -/
def applyEvidence (record : ClaimRecord) (outcome : TaskOutcome) (timestamp : Time) : Op Unit :=
  if outcome.status = .succeeded ∧ record.spec.kind = .apply then do
    let plan ← Tx.select fun l =>
      (record.spec.planId.bind l.plans.get?).filter fun p => p.status = .applied
    let plan ← Tx.demand plan (.value "Applied plan evidence missing")
    Tx.write (completeParent record.taskId plan timestamp)
  else pure ()

/-- The approval row of an awaiting result. -/
def requestReview (record : ClaimRecord) (review : Option Review) (fresh : ApprovalId)
    (timestamp now : Time) : Op Unit :=
  insertApproval
    { id := fresh, taskId := record.taskId, executionId := record.executionId
      action := if review = some .readScope then .draftReadScope else .feedbackReview
      status := match review with
        | some (.plan .approved _) => .approved
        | _ => .pending
      requestedBy := record.workerId
      decidedBy := match review with
        | some (.plan .approved by_) => by_
        | _ => ""
      reason := if review = some .readScope then "Review the exact read scope" else
        "Review the concrete file change plan; this feedback does not grant CLI write access"
      requestedAt := timestamp
      decidedAt := match review with
        | some (.plan .approved _) => some timestamp
        | _ => none
      expiresAt := now + hours 1 }

/-- `finish`; `entry` is the timestamp read before `BEGIN`. -/
def finish (reg : Registry) (rules : MemoryRules) (record : ClaimRecord) (reply : Reply)
    (outcome : TaskOutcome) (freshApproval : ApprovalId) (freshWiki : ℕ → WikiId)
    (entry now : Time) : Op Unit := do
  let current ← Tx.select fun l => fencedExecution l record entry
  let e ← Tx.demand current (.value "Stale worker result rejected")
  let review ← Tx.select fun l => openReview l record.taskId entry
  let recorded ← Tx.select fun l => recordedOutcome l record e entry outcome
  Tx.write (concludeAttempt record recorded.status entry)
  insertResult
    { executionId := record.executionId, taskId := record.taskId, outcome := recorded.status
      response := env.redact recorded.text, createdAt := entry, updatedAt := entry }
  Tx.write (holdOperation env record.taskId recorded)
  applyEvidence record recorded entry
  if recorded.status = .awaitingApproval then
    requestReview record review freshApproval entry now
  else pure ()
  Tx.write (Conversation.completeConn record reply.replyKind recorded.status now)
  Memory.completeConn env reg rules record reply recorded now freshWiki
  Tx.write fun l => l.appendEvent
    { taskId := record.taskId, executionId := some record.executionId, eventType := .taskResult }

/-- The statuses a saved result may be delivered in. -/
def deliverable : OutcomeStatus → TaskStatus → Bool
  | .succeeded, .completed => true
  | .failed, .failed => true
  | .timedOut, .failed => true
  | .awaitingApproval, .awaitingApproval => true
  | .cancelled, .cancelled => true
  | .blocked, .blocked => true
  | _, _ => false

def Sendable (l : Ledger) (k : TaskId) (owner : String) (x : ExecutionId) (attempt : ℕ)
    (r : TaskResult) : Prop :=
  r.executionId = x ∧ r.deliveryStatus = .pending ∧ ∃ t ∈ l.tasks.rows, t.id = k ∧
    t.requestedBy = owner ∧ t.currentExecutionId = some x ∧ ∃ o ∈ l.operations.rows,
      o.taskId = t.id ∧ o.attempts = attempt ∧ deliverable r.outcome t.status = true

instance (l : Ledger) (k : TaskId) (owner : String) (x : ExecutionId) (attempt : ℕ) :
    DecidablePred (Sendable l k owner x attempt) := fun r => by unfold Sendable; infer_instance

def claimDelivery (k : TaskId) (owner : String) (x : ExecutionId) (attempt : ℕ) (now : Time) :
    Op Bool := do
  let changed ← Tx.select fun l => decide (∃ r ∈ l.results.rows, Sendable l k owner x attempt r)
  Tx.write fun l => { l with
    results := l.results.update (Sendable l k owner x attempt) fun r =>
      { r with deliveryStatus := .sending, updatedAt := now } }
  pure changed

def settleDelivery (x : ExecutionId) (delivered : Bool) (error : String) (now : Time)
    (l : Ledger) : Ledger :=
  { l with
    results := l.results.update (fun r => r.executionId = x ∧ r.deliveryStatus = .sending) fun r =>
      { r with deliveryStatus := if delivered then .delivered else .uncertain
               deliveryError := error, updatedAt := now } }

def acknowledgeDelivery (k : TaskId) (owner : String) (now : Time) : Op Unit := do
  let task ← Tx.select fun l => (l.tasks.get? k).filter fun t => t.requestedBy = owner
  let t ← Tx.demand task (.permission "Task owner mismatch")
  let result ← Tx.select fun l => t.currentExecutionId.bind l.results.get?
  if ∃ r ∈ result, r.deliveryStatus = .acknowledged then pure ()
  else do
    Tx.require (∃ r ∈ result, r.deliveryStatus = .sending ∨ r.deliveryStatus = .uncertain)
      (.safeOperation "Current result has no ambiguous delivery to acknowledge")
    Tx.write fun l => { l with
      results := l.results.update (fun r => t.currentExecutionId = some r.executionId ∧
          (r.deliveryStatus = .sending ∨ r.deliveryStatus = .uncertain)) fun r =>
        { r with deliveryStatus := .acknowledged, updatedAt := now } }
    Tx.write fun l => l.appendEvent
      { taskId := k, executionId := t.currentExecutionId, eventType := .deliveryAcknowledged }

end NyanyaAgent.Operations
