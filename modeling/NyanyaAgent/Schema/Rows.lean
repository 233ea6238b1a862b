import Mathlib.Data.Int.Notation
import Mathlib.Data.Nat.Notation
import NyanyaAgent.Relational.Transaction

/-!
# Ledger rows

The records of the operation ledger. Times are microseconds, identifiers are
opaque numbers, JSON columns are kept as the values they encode, and an optional
text column that the source compares with the empty string is an `Option`.
-/
namespace NyanyaAgent.Schema

abbrev TaskId := ℕ
abbrev ExecutionId := ℕ
abbrev WorkerId := ℕ
abbrev PlanId := ℕ
abbrev DraftId := ℕ
abbrev ApprovalId := ℕ
abbrev RequestId := ℕ
abbrev ProjectId := ℕ
abbrev SessionId := ℕ
abbrev WikiId := ℕ
abbrev Time := ℤ
abbrev Bytes := List UInt8
abbrev Hash := Bytes
abbrev Path := List String

def seconds (n : ℤ) : Time := n * 1000000
def hours (n : ℤ) : Time := seconds (3600 * n)
def days (n : ℤ) : Time := hours (24 * n)

inductive TaskStatus
  | queued | running | cancelling | awaitingApproval | blocked | completed | failed | cancelled
  deriving DecidableEq, Repr

/-- `TASK_TERMINAL_STATUSES`. -/
abbrev TaskStatus.Terminal (s : TaskStatus) : Prop := s = .completed ∨ s = .failed ∨ s = .cancelled

inductive ExecutionStatus
  | pending | starting | running | stale | cancelling | awaitingApproval
  | succeeded | failed | cancelled | timedOut | lost
  deriving DecidableEq, Repr

/-- `EXECUTION_TERMINAL_STATUSES`. -/
abbrev ExecutionStatus.Terminal (s : ExecutionStatus) : Prop :=
  s = .succeeded ∨ s = .failed ∨ s = .cancelled ∨ s = .timedOut ∨ s = .lost

inductive PlanStatus
  | pending | approved | revoked | expired | applying | uncertain | applied | reconciled
  deriving DecidableEq, Repr

inductive DraftStatus
  | pending | ready | closed | applied
  deriving DecidableEq, Repr

inductive ApprovalStatus
  | pending | approved | rejected | expired
  deriving DecidableEq, Repr

inductive ApprovalAction
  | feedbackReview | draftReadScope
  deriving DecidableEq, Repr

inductive DeliveryStatus
  | pending | sending | delivered | uncertain | acknowledged
  deriving DecidableEq, Repr

/-- The statuses a `TaskOutcome` admits. -/
inductive OutcomeStatus
  | succeeded | failed | timedOut | cancelled | awaitingApproval | blocked
  deriving DecidableEq, Repr

inductive OperationKind
  | request | apply
  deriving DecidableEq, Repr

inductive Profile
  | auto | flash | luna | sol | astra
  deriving DecidableEq, Repr

inductive ReplyKind
  | answer | question
  deriving DecidableEq, Repr

inductive Provenance
  | modelResult | reviewedApply
  deriving DecidableEq, Repr

structure TaskOutcome where
  status : OutcomeStatus
  text : String
  deriving DecidableEq, Repr

/-- The serializable request; an absent identifier is the empty string of the source. -/
structure OperationSpec where
  version : ℤ := 1
  kind : OperationKind := .request
  prompt : String := ""
  workspace : String := ""
  profile : Profile := .auto
  timeoutSeconds : ℤ := 600
  planId : Option PlanId := none
  draftId : Option DraftId := none
  deriving DecidableEq, Repr

structure TaskMetadata where
  ownerKey : Option String := none
  workspaceRoot : String := ""
  userDisposition : Option Time := none
  /-- The reason and the time of a quiesced upgrade. -/
  legacyUpgradeHold : Option (String × Time) := none
  deriving DecidableEq, Repr

structure AgentTask where
  id : TaskId
  sourceRequestId : Option RequestId := none
  title : String := ""
  prompt : String := ""
  status : TaskStatus := .queued
  priority : ℤ := 100
  requestedBy : String := "operator"
  currentExecutionId : Option ExecutionId := none
  projectId : Option ProjectId := none
  metadata : TaskMetadata := {}
  createdAt : Time
  updatedAt : Time
  completedAt : Option Time := none
  deriving DecidableEq, Repr

structure TaskOperation where
  taskId : TaskId
  spec : OperationSpec
  workerGeneration : WorkerId
  eligible : Bool := true
  attempts : ℕ := 0
  maxAttempts : ℕ := 3
  holdReason : String := ""
  diagnosis : String := ""
  parentTaskId : Option TaskId := none
  deriving DecidableEq, Repr

structure Execution where
  id : ExecutionId
  taskId : TaskId
  adapterType : String
  status : ExecutionStatus := .pending
  workdir : String := ""
  error : String := ""
  legacy : Bool := false
  createdAt : Time
  startedAt : Option Time := none
  endedAt : Option Time := none
  updatedAt : Time
  lastHeartbeatAt : Option Time := none
  deriving DecidableEq, Repr

structure TaskClaim where
  taskId : TaskId
  workerId : WorkerId
  ownerKey : String
  executionId : ExecutionId
  expiresAt : Time
  released : Bool := false
  deriving DecidableEq, Repr

structure OperationWorker where
  id : WorkerId
  heartbeatAt : Time
  closed : Bool := false
  deriving DecidableEq, Repr

inductive ChangeAction
  | create | modify | delete
  deriving DecidableEq, Repr

/-- One file of a plan; contents are the encoded text. -/
structure PlannedChange where
  path : Path
  action : ChangeAction
  reason : String := ""
  content : Bytes := []
  beforeHash : Option Hash := none
  beforeContent : Bytes := []
  afterHash : Option Hash := none
  deriving DecidableEq, Repr

structure ChangePlan where
  id : PlanId
  taskId : TaskId
  ownerKey : String
  workspace : String
  planHash : Hash
  changes : List PlannedChange
  status : PlanStatus := .pending
  expiresAt : Time
  decidedBy : String := ""
  createdAt : Time
  deriving DecidableEq, Repr

inductive JournalState
  | prepared | applied
  deriving DecidableEq, Repr

structure JournalEntry where
  planId : PlanId
  ordinal : ℕ
  path : Path
  beforeHash : Option Hash
  afterHash : Option Hash
  beforeContent : Option Bytes
  state : JournalState := .prepared
  deriving DecidableEq, Repr

structure SnapshotItem where
  content : Bytes
  sha256 : Hash
  pendingDeletion : Bool := false
  deriving DecidableEq, Repr

structure OperationDraft where
  id : DraftId
  ownerKey : String
  workspace : String
  sourceTaskId : TaskId
  sessionId : Option SessionId := none
  generation : Option ℕ := none
  paths : List Path
  scopeHash : Hash
  snapshot : List (Path × SnapshotItem) := []
  status : DraftStatus
  planId : Option PlanId := none
  openTaskId : Option TaskId := none
  revision : ℕ := 1
  createdAt : Time
  updatedAt : Time
  expiresAt : Time
  deriving DecidableEq, Repr

structure Approval where
  id : ApprovalId
  taskId : TaskId
  executionId : ExecutionId
  action : ApprovalAction
  status : ApprovalStatus := .pending
  requestedBy : WorkerId
  decidedBy : String := ""
  reason : String := ""
  requestedAt : Time
  decidedAt : Option Time := none
  expiresAt : Time
  deriving DecidableEq, Repr

structure TaskResult where
  executionId : ExecutionId
  taskId : TaskId
  outcome : OutcomeStatus
  response : String
  deliveryStatus : DeliveryStatus := .pending
  deliveryError : String := ""
  createdAt : Time
  updatedAt : Time
  deriving DecidableEq, Repr

structure ConversationSession where
  id : SessionId
  ownerKey : String
  conversationHash : Hash
  workspaceRoot : String
  generation : ℕ := 1
  nextSequence : ℕ := 1
  pendingTaskId : Option TaskId := none
  pendingExecutionId : Option ExecutionId := none
  memoryResetGeneration : ℕ := 0
  createdAt : Time
  updatedAt : Time
  deriving DecidableEq, Repr

structure ConversationTurn where
  taskId : TaskId
  sessionId : SessionId
  generation : ℕ
  sequence : ℕ
  relatedTaskId : Option TaskId := none
  replyKind : ReplyKind := .answer
  completedExecutionId : Option ExecutionId := none
  createdAt : Time
  updatedAt : Time
  deriving DecidableEq, Repr

structure Project where
  id : ProjectId
  owner : String
  workspaceRoot : String
  deriving DecidableEq, Repr

inductive TextStatus
  | screened | omittedInvalid | omittedSize | omittedSensitive
  deriving DecidableEq, Repr

inductive RecordStatus
  | retained | forgotten
  deriving DecidableEq, Repr

/-- The applied plan a work record cites. -/
structure AppliedEvidence where
  planId : PlanId
  planHash : Hash
  sourceTaskId : TaskId
  sourceExecutionId : Option ExecutionId
  appliedJournalEntries : ℕ
  deriving DecidableEq, Repr

structure WorkRecord where
  executionId : ExecutionId
  taskId : TaskId
  sourceTaskId : TaskId
  ownerKey : String
  workspaceRoot : String
  projectId : Option ProjectId
  replyKind : ReplyKind
  provenance : Provenance
  requestSummary : String
  resultSummary : String
  textStatus : TextStatus
  evidence : Option AppliedEvidence
  status : RecordStatus := .retained
  createdAt : Time
  expiresAt : Time
  deriving DecidableEq, Repr

inductive WikiStatus
  | pending | approved | rejected | superseded | forgotten
  deriving DecidableEq, Repr

structure WikiEntry where
  id : WikiId
  sourceExecutionId : ExecutionId
  ownerKey : String
  workspaceRoot : String
  projectId : Option ProjectId
  sessionId : SessionId
  generation : ℕ
  topicKey : String
  title : String
  content : String
  provenance : Provenance
  status : WikiStatus := .pending
  revision : ℕ
  reviewVersion : ℕ := 1
  createdAt : Time
  updatedAt : Time
  deriving DecidableEq, Repr

/-- What `observe` reports about one file of a plan. -/
inductive Observed
  | before | after | diverged
  deriving DecidableEq, Repr

structure FileEvidence where
  path : Path
  observed : Observed
  sha256 : Option Hash
  deriving DecidableEq, Repr

inductive EventType
  | operationAccepted | operationClaimed | operationInterrupted | operationResumeRequested
  | operationCancelRequested | operationPlanClosed | operationReviewEffectsHeld
  | operationDismissed | operationWorkerStartFailed | operationRouted | executionReviewClosed
  | planProposed | planApproved | planRevoked | planExpired | planApplied | planReconciled
  | planResolved | taskResult | taskPlanCompleted | taskApplyReconciled | draftScopeApproved
  | draftReviewClosed | deliveryAcknowledged | operationLegacyUpgradeHeld
  | executionLegacyUpgradeHeld
  deriving DecidableEq, Repr

inductive EventMetadata
  | none
  | plan (planId : PlanId)
  | completed (applyTaskId : TaskId) (planId : PlanId)
  | files (evidence : List FileEvidence)
  | resolved (planId : PlanId) (evidence : List FileEvidence) (complete : Bool)
      (resolvedExecutionIds : List ExecutionId)
  | draft (draftId : DraftId)
  | heldAttempt (previous : ExecutionStatus)
  | heldTask (previous : TaskStatus) (claimsReleased : ℕ)
  deriving DecidableEq, Repr

structure ExecutionEvent where
  taskId : TaskId
  executionId : Option ExecutionId := none
  eventType : EventType
  metadata : EventMetadata := .none
  deriving DecidableEq, Repr

/-- What `claim` hands to a worker. -/
structure ClaimRecord where
  taskId : TaskId
  workerId : WorkerId
  executionId : ExecutionId
  spec : OperationSpec
  owner : String
  deriving DecidableEq, Repr

/-! Assignments that several operations make leave the key of their row alone. -/

theorem TaskClaim.taskId_released (c : TaskClaim) :
    ({ c with released := true } : TaskClaim).taskId = c.taskId := rfl

theorem ChangePlan.id_revoked (p : ChangePlan) :
    ({ p with status := .revoked } : ChangePlan).id = p.id := rfl

theorem OperationDraft.id_cleared (d : OperationDraft) :
    ({ d with snapshot := [] } : OperationDraft).id = d.id := rfl

theorem AgentTask.id_closed (uncertain : Bool) (now : Time) (t : AgentTask) :
    ({ t with status := if uncertain then .blocked else .cancelled, updatedAt := now
              completedAt := if uncertain then none else some now } : AgentTask).id = t.id := rfl

theorem Approval.id_approved (owner : String) (now : Time) (a : Approval) :
    ({ a with status := .approved, decidedBy := owner, decidedAt := some now } : Approval).id =
      a.id := rfl

end NyanyaAgent.Schema
