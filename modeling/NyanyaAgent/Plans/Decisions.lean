import NyanyaAgent.Drafts.Linking
import NyanyaAgent.Operations.Admission
import NyanyaAgent.Operations.Cancellation

/-!
# Decisions

The owner's decision about a plan, the settlement of a task whose review plans
are all closed, the expiry of open plans, and the approval that admits exactly
one apply task.
-/
namespace NyanyaAgent.Plans
open NyanyaAgent.Schema NyanyaAgent.Relational NyanyaAgent.Operations NyanyaAgent.Drafts

variable (env : Environment)

inductive CloseReason
  | revoked | expired | closed
  deriving DecidableEq

def CloseReason.text : CloseReason → String
  | .revoked => "revoked"
  | .expired => "expired"
  | .closed => "closed"

def CloseReason.approvalStatus : CloseReason → ApprovalStatus
  | .expired => .expired
  | _ => .rejected

/-- A plan of the task still awaits a decision or is being applied. -/
def OpenPlan (l : Ledger) (k : TaskId) : Prop :=
  ∃ p ∈ l.plans.rows, p.taskId = k ∧
    (p.status = .pending ∨ p.status = .approved ∨ p.status = .applying)

instance (l : Ledger) (k : TaskId) : Decidable (OpenPlan l k) := by
  unfold OpenPlan; infer_instance

/-- The task's own claim is neither released nor expired. -/
def HeldClaim (l : Ledger) (k : TaskId) (now : Time) : Prop :=
  ∃ c ∈ l.claims.rows, c.taskId = k ∧ c.released = false ∧ now < c.expiresAt

instance (l : Ledger) (k : TaskId) (now : Time) : Decidable (HeldClaim l k now) := by
  unfold HeldClaim; infer_instance

def closeApprovals (k : TaskId) (owner : String) (reason : CloseReason) (now : Time)
    (l : Ledger) : Ledger :=
  { l with
    approvals := l.approvals.update (fun a => a.taskId = k ∧ a.status = .pending) fun a =>
      { a with status := reason.approvalStatus, decidedBy := owner, decidedAt := some now } }

def closedStatus (uncertain : Bool) : ExecutionStatus := if uncertain then .lost else .cancelled

def closeReviewExecutions (k : TaskId) (reason : CloseReason) (uncertain : Bool) (now : Time)
    (l : Ledger) : Ledger :=
  let closed := (l.executions.rows.filter fun e => e.taskId = k ∧ e.status = .awaitingApproval).map
    fun e : Execution =>
      ({ taskId := k, executionId := some e.id, eventType := .executionReviewClosed }
        : ExecutionEvent)
  { l with
    executions := l.executions.update (fun e => e.taskId = k ∧ e.status = .awaitingApproval)
      fun e => { e with status := closedStatus uncertain, error := s!"Review plan {reason.text}"
                        endedAt := some now, updatedAt := now }
    events := l.events ++ closed }

/-- A terminal parent with uncertain effects is held again. -/
def holdReviewEffects (k : TaskId) (now : Time) (l : Ledger) : Ledger :=
  (l.updateTask k fun t =>
    { t with status := .blocked, completedAt := none, updatedAt := now }).appendEvent
    { taskId := k, eventType := .operationReviewEffectsHeld }

/-- The parent of closed plans is cancelled, or held when effects are uncertain. -/
def settleTask (k : TaskId) (reason : CloseReason) (uncertain : Bool) (now : Time) (l : Ledger) :
    Ledger :=
  let l := l.updateTask k
    (fun t => { t with status := if uncertain then .blocked else .cancelled
                       completedAt := if uncertain then none else some now, updatedAt := now })
    (AgentTask.id_closed uncertain now)
  let l := l.updateOperation k fun o =>
    { o with eligible := false, holdReason := s!"plan_{reason.text}"
             diagnosis := if uncertain then "File effects require reconciliation" else
               s!"Review plan {reason.text} without file apply" }
  l.appendEvent { taskId := k, eventType := .operationPlanClosed }

def settleClosedPlan (k : TaskId) (owner : String) (reason : CloseReason) (now : Time)
    (l : Ledger) : Ledger :=
  if OpenPlan l k then l
  else
    let l := closeApprovals k owner reason now l
    match l.tasks.get? k with
    | none => l
    | some parent =>
      -- The worker must finish or lose its claim before the parent is settled.
      if HeldClaim l k now then l
      else if parent.status.Terminal then
        let uncertain := decide (UnresolvedEffects l k)
        let l := closeReviewExecutions k reason uncertain now l
        if uncertain = true then holdReviewEffects k now l else l
      else
        let l := (children l k fun _ => True).foldl (stopChild s!"plan_{reason.text}" now) l
        let uncertain := decide (UnresolvedEffects l k)
        settleTask k reason uncertain now (closeReviewExecutions k reason uncertain now l)

def expirePlan (now : Time) (l : Ledger) (plan : ChangePlan) : Ledger :=
  let l := l.updatePlan plan.id fun p => { p with status := .expired }
  let l := settleClosedPlan plan.taskId plan.ownerKey .expired now l
  l.appendEvent { taskId := plan.taskId, eventType := .planExpired, metadata := .plan plan.id }

def expiredPlans (l : Ledger) (entry : Time) : List ChangePlan :=
  l.plans.rows.filter fun p => (p.status = .pending ∨ p.status = .approved) ∧ p.expiresAt ≤ entry

/-- Terminal tasks that an attempt still seems to wait for. -/
def staleReviews (l : Ledger) : List TaskId :=
  (l.tasks.rows.filter fun t => t.status.Terminal ∧
    (∃ e ∈ l.executions.rows, e.taskId = t.id ∧ e.status = .awaitingApproval) ∧
    ¬ OpenPlan l t.id).map (·.id)

/-- `settle_expired`; `entry` is the timestamp read before `BEGIN`. -/
def settleExpired (entry now : Time) (l : Ledger) : Ledger :=
  let l := (expiredPlans l entry).foldl (expirePlan now) l
  (staleReviews l).foldl (fun l k => settleClosedPlan k "system" .closed now l) l

def decidePlan (p : PlanId) (owner : String) (revoke : Bool) (l : Ledger) : Ledger :=
  l.updatePlan p fun r =>
    { r with status := if revoke then .revoked else .approved, decidedBy := owner }

def approveReviews (k : TaskId) (owner : String) (now : Time) (l : Ledger) : Ledger :=
  { l with
    approvals := l.approvals.update
      (fun a => a.taskId = k ∧ a.action = .feedbackReview ∧ a.status = .pending) fun a =>
        { a with status := .approved, decidedBy := owner, decidedAt := some now } }

def ApprovableParent (l : Ledger) (k : TaskId) : Prop :=
  ∃ t ∈ l.tasks.get? k, t.status = .queued ∨ t.status = .running ∨ t.status = .awaitingApproval

instance (l : Ledger) (k : TaskId) : Decidable (ApprovableParent l k) := by
  unfold ApprovableParent; infer_instance

def decideConn (p : PlanId) (owner : String) (hash : Hash) (revoke : Bool) (now : Time) :
    Op Unit := do
  let latest ← Tx.select fun l => decide (LatestDraftPlan l p)
  Tx.require (revoke = true ∨ latest = true)
    (.safeOperation "Only the latest open draft plan can be applied")
  let row ← Tx.select fun l => (ownedPlan l p owner).filter fun r =>
    r.status = .pending ∨ r.status = .approved
  let plan ← Tx.demand row (.safeOperation "Plan is not awaiting a decision")
  let approvable ← Tx.select fun l => decide (ApprovableParent l plan.taskId)
  Tx.require (revoke = true ∨ approvable = true)
    (.safeOperation "Original task is no longer eligible for approval")
  Tx.require (revoke = true ∨ now < plan.expiresAt ∧ plan.planHash = hash)
    (.safeOperation "Plan expired or revision hash changed")
  Tx.write (decidePlan p owner revoke)
  if revoke = true then Tx.write (settleClosedPlan plan.taskId owner .revoked now)
  else Tx.write (approveReviews plan.taskId owner now)
  Tx.write fun l => l.appendEvent
    { taskId := plan.taskId, eventType := if revoke then .planRevoked else .planApproved
      metadata := .plan p }

/-- The request an approval submits. -/
def applySpec (root : String) (p : PlanId) : OperationSpec :=
  { kind := .apply, prompt := "승인된 파일 변경안 적용", workspace := root, planId := some p }

/-- `approve_and_submit_apply`: the apply task, and whether this call admitted it. -/
def approveAndSubmitApply (reg : Registry) (p : PlanId) (owner : String) (hash : Hash)
    (generation : WorkerId) (fresh : TaskId) (freshSession : SessionId) (now : Time) :
    Op (AgentTask × Bool) := do
  let row ← Tx.select fun l => (ownedPlan l p owner).filter fun r => r.planHash = hash
  let plan ← Tx.demand row (.safeOperation "Plan owner or revision hash mismatch")
  let root ← Tx.lift (checkWorkspace env reg plan.workspace owner)
  let existing ← Tx.select fun l => existingApply l p owner root
  let existing ← Tx.lift existing
  match existing with
  | some task => pure (task, false)
  | none => do
    decideConn p owner hash false now
    let task ← submitConn env (applySpec root p) owner generation root none none none none fresh
      freshSession now
    pure (task, true)

end NyanyaAgent.Plans
