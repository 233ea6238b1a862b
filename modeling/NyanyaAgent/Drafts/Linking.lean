import NyanyaAgent.Operations.Effects
import NyanyaAgent.Operations.Ownership

/-!
# Draft linking

The scope of a reviewed draft, the settlement of a review wait, and
`link_plan_conn`, which lets exactly the result computed from the draft's current
revision become its plan.
-/
namespace NyanyaAgent.Drafts
open NyanyaAgent.Schema NyanyaAgent.Relational NyanyaAgent.Operations

variable (env : Environment)

/-- What a caller shows to enter a draft's conversation. -/
inductive ScopeKey
  | task (k : TaskId)
  | conversation (key : Option String)

/-- The turn of a feedback task belongs to the draft's session and project. -/
def TaskScope (l : Ledger) (draft : OperationDraft) (k : TaskId) : Prop :=
  ∃ turn ∈ l.turns.get? k, some turn.sessionId = draft.sessionId ∧
    some turn.generation = draft.generation ∧ ∃ t ∈ l.tasks.get? k,
      ∃ source ∈ l.tasks.get? draft.sourceTaskId, source.projectId = t.projectId

instance (l : Ledger) (draft : OperationDraft) (k : TaskId) : Decidable (TaskScope l draft k) := by
  unfold TaskScope; infer_instance

def scopeConn (draft : OperationDraft) (owner workspace : String) (by_ : ScopeKey)
    (current : Bool) : Op Unit := do
  Tx.require (draft.ownerKey = owner ∧ draft.workspace = workspace)
    (.permission "Draft scope mismatch")
  match draft.sessionId with
  | none => pure ()
  | some s => do
    let session ← Tx.select fun l => l.sessions.get? s
    let session ← Tx.demand session (.value "Missing session row")
    Tx.require (current = false ∨ draft.generation = some session.generation)
      (.safeOperation "Draft belongs to an earlier conversation generation")
    match by_ with
    | .task k => do
      let inScope ← Tx.select fun l => decide (TaskScope l draft k)
      Tx.require (inScope = true) (.permission "Draft conversation mismatch")
    | .conversation key =>
      Tx.require (∃ k ∈ key, env.sha256 (env.encode k) = session.conversationHash)
        (.permission "Draft conversation mismatch")

def reviewExecutionStatus : Bool → ExecutionStatus
  | true => .succeeded
  | false => .cancelled

/-- `_settle_review` with the status `completed` or `cancelled`. -/
def settleReview (k : TaskId) (completed : Bool) (now : Time) (l : Ledger) : Ledger :=
  let closed := (l.executions.rows.filter fun e => e.taskId = k ∧ e.status = .awaitingApproval).map
    fun e : Execution => ({ taskId := k, executionId := some e.id, eventType := .draftReviewClosed }
      : ExecutionEvent)
  { l with
    tasks := l.tasks.update (fun t => t.id = k ∧ t.status = .awaitingApproval) fun t =>
      { t with status := if completed then .completed else .cancelled
               completedAt := some now, updatedAt := now }
    executions := l.executions.update (fun e => e.taskId = k ∧ e.status = .awaitingApproval)
      fun e => { e with status := reviewExecutionStatus completed, endedAt := some now
                        updatedAt := now }
    events := l.events ++ closed }

def rejectReviews (k : TaskId) (now : Time) (l : Ledger) : Ledger :=
  { l with
    approvals := l.approvals.update (fun a => a.taskId = k ∧ a.status = .pending) fun a =>
      { a with status := .rejected, decidedAt := some now } }

def supersede (previous : ChangePlan) (k : TaskId) (now : Time) (l : Ledger) : Ledger :=
  let l := l.updatePlan previous.id (fun p => { p with status := .revoked }) ChangePlan.id_revoked
  let l := rejectReviews previous.taskId now l
  if previous.taskId = k then l else settleReview previous.taskId true now l

/-- `link_plan_conn`; `draft` is the row the result was computed from. -/
def linkPlanConn (draft : OperationDraft) (k : TaskId) (planId : Option PlanId)
    (record : ClaimRecord) (now : Time) : Op Unit := do
  let operation ← Tx.select fun l => ownedOperation l record draft.ownerKey now
  let o ← Tx.demand operation
    (.safeOperation "Operation lost current execution/claim ownership")
  Tx.require (record.taskId = k ∧ o.spec.kind = .request ∧ o.spec.workspace = draft.workspace ∧
      (o.spec.draftId = some draft.id ∨ o.spec.draftId = none ∧ draft.sourceTaskId = k))
    (.safeOperation "Draft feedback does not match the claimed operation")
  let row ← Tx.select fun l => l.drafts.get? draft.id
  let current ← Tx.demand (row.filter fun d => d.status = .ready ∧ d.revision = draft.revision)
    (.safeOperation "Draft changed while this result was running")
  scopeConn env current draft.ownerKey draft.workspace (.task k) true
  match current.planId with
  | none => pure ()
  | some p => do
    let plan ← Tx.select fun l => l.plans.get? p
    let previous ← Tx.demand plan (.value "Missing plan row")
    Tx.require (previous.status = .pending ∨ previous.taskId = k ∧ previous.status = .revoked)
      (.safeOperation "The previous plan is already being applied or held")
    let unresolved ← Tx.select fun l => decide (UnresolvedEffects l previous.taskId)
    Tx.require (previous.taskId = k ∨ unresolved = false)
      (.safeOperation "The previous draft has uncertain execution evidence")
    Tx.write (supersede previous k now)
  Tx.write fun l => l.updateDraft draft.id fun d =>
    { d with planId := planId, revision := d.revision + 1, updatedAt := now }

/-- The draft whose latest plan a plan has to be. -/
def planDraft (l : Ledger) (p : PlanId) : Option OperationDraft :=
  match l.plans.get? p with
  | none => none
  | some plan =>
    match l.operations.get? plan.taskId with
    | none => none
    | some o => l.drafts.rows.find? fun d =>
        o.spec.draftId = some d.id ∨ d.sourceTaskId = plan.taskId

/-- `require_plan_conn`. -/
def LatestDraftPlan (l : Ledger) (p : PlanId) : Prop :=
  ∀ d ∈ planDraft l p, d.status = .ready ∧ d.planId = some p

instance (l : Ledger) (p : PlanId) : Decidable (LatestDraftPlan l p) := by
  unfold LatestDraftPlan; infer_instance

end NyanyaAgent.Drafts
