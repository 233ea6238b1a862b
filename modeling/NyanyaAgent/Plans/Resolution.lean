import NyanyaAgent.Plans.Proposal
import NyanyaAgent.Operations.Admission

/-!
# Resolution

`observe`, `reconcile` and `resolve`: the owner compares the files with a plan
whose effects are uncertain and acknowledges what was observed. Nothing is
written to the files. The caller holds the workspace lock.
-/
namespace NyanyaAgent.Plans
open NyanyaAgent.Schema NyanyaAgent.Relational NyanyaAgent.Operations NyanyaAgent.Drafts

variable (env : Environment)

def observed (current : Option Hash) (item : PlannedChange) : Observed :=
  if current = item.afterHash then .after
  else if current = item.beforeHash then .before
  else .diverged

def observe (t : Workspace) : List PlannedChange → Except Err (List FileEvidence)
  | [] => .ok []
  | item :: rest =>
    match readPath t item.path with
    | .error e => .error (fsErr e)
    | .ok data =>
      match observe t rest with
      | .error e => .error e
      | .ok evidence =>
        .ok (⟨item.path, observed (digest env data) item, digest env data⟩ :: evidence)

/-- `get_plan` and `check_workspace`, which open every owner command on a plan. -/
def openPlanCommand (reg : Registry) (p : PlanId) (owner : String) : Op (ChangePlan × String) := do
  let row ← Tx.select fun l => ownedPlan l p owner
  let plan ← Tx.demand row (.permission "Plan not found for this owner")
  let root ← Tx.lift (checkWorkspace env reg plan.workspace owner)
  pure (plan, root)

def reconcile (reg : Registry) (tree : String → Workspace) (p : PlanId) (owner : String) :
    Op (List FileEvidence) := do
  let (plan, root) ← openPlanCommand env reg p owner
  let evidence ← Tx.lift (observe env (tree root) plan.changes)
  Tx.write fun l => l.appendEvent
    { taskId := plan.taskId, eventType := .planReconciled, metadata := .files evidence }
  pure evidence

/-- A live claim of the plan's task or of one of its children. -/
def ActiveFamily (l : Ledger) (k : TaskId) (now : Time) : Prop :=
  ∃ c ∈ l.claims.rows, (c.taskId = k ∨ ∃ o ∈ l.operations.get? c.taskId, o.parentTaskId = some k) ∧
    c.released = false ∧ now < c.expiresAt

instance (l : Ledger) (k : TaskId) (now : Time) : Decidable (ActiveFamily l k now) := by
  unfold ActiveFamily; infer_instance

def Resolvable (l : Ledger) (plan : ChangePlan) : Prop :=
  plan.status = .applying ∨ plan.status = .uncertain ∨
    plan.status = .applied ∧ ∀ t ∈ l.tasks.get? plan.taskId, t.status ≠ .completed

instance (l : Ledger) (plan : ChangePlan) : Decidable (Resolvable l plan) := by
  unfold Resolvable; infer_instance

/-- The held apply tasks of a plan. -/
def relatedTasks (l : Ledger) (p : PlanId) : List TaskId :=
  ((applyTasks l p).filter fun r => r.1.status = .blocked ∨ r.1.status = .failed).map (·.1.id)

/-- The lost current attempt of the plan's task, when the plan was proposed during it. -/
def lostProposer (l : Ledger) (plan : ChangePlan) (e : Execution) : Prop :=
  e.taskId = plan.taskId ∧ e.status = .lost ∧
    (∃ t ∈ l.tasks.get? plan.taskId, t.currentExecutionId = some e.id) ∧
    (∃ s ∈ e.startedAt, s ≤ plan.createdAt) ∧ ∃ f ∈ e.endedAt, plan.createdAt ≤ f

instance (l : Ledger) (plan : ChangePlan) (e : Execution) : Decidable (lostProposer l plan e) := by
  unfold lostProposer; infer_instance

def lostChild (l : Ledger) (plan : ChangePlan) (e : Execution) : Prop :=
  e.status = .lost ∧ ∃ o ∈ l.operations.get? e.taskId,
    o.parentTaskId = some plan.taskId ∧ o.spec.planId = some plan.id

instance (l : Ledger) (plan : ChangePlan) (e : Execution) : Decidable (lostChild l plan e) := by
  unfold lostChild; infer_instance

def resolvedExecutions (l : Ledger) (plan : ChangePlan) : List ExecutionId :=
  (l.executions.rows.filter fun e => lostProposer l plan e).map (·.id) ++
    (l.executions.rows.filter fun e => lostChild l plan e).map (·.id)

/-- The acknowledged plan and the event that names the attempts it accounts for. -/
def acknowledgePlan (plan : ChangePlan) (evidence : List FileEvidence) (complete : Bool)
    (l : Ledger) : Ledger :=
  let l := l.updatePlan plan.id fun p =>
    { p with status := if complete then .applied else .reconciled }
  l.appendEvent
    { taskId := plan.taskId, eventType := .planResolved
      metadata := .resolved plan.id evidence complete (resolvedExecutions l plan) }

/-- A fully accounted plan closes its ready draft. -/
def closeResolvedDraft (p : PlanId) (complete : Bool) (now : Time) (l : Ledger) : Ledger :=
  { l with
    drafts := l.drafts.update (fun d => d.planId = some p ∧ d.status = .ready) fun d =>
      { d with status := if complete then .applied else .closed, updatedAt := now
               revision := d.revision + 1 } }

def resolutionReason : String :=
  "파일 상태 확인 완료. 남은 변경은 현재 파일 기준의 새 변경안을 요청하세요."

def resolutionHold (complete unresolved : Bool) : String :=
  if unresolved then "unresolved_effects" else if complete then "" else "partial_apply_resolved"

def resolutionDiagnosis (complete unresolved : Bool) : String :=
  if complete then (if unresolved then "다른 실행 효과의 확인이 필요합니다." else "")
  else resolutionReason

def resolveParent (k : TaskId) (complete unresolved : Bool) (now : Time) (l : Ledger) : Ledger :=
  let done := complete && !unresolved
  let l := l.updateTask k fun t =>
    { t with status := if done then .completed else .blocked, updatedAt := now
             completedAt := if done then some now else none }
  l.updateOperation k fun o =>
    { o with eligible := false, holdReason := resolutionHold complete unresolved
             diagnosis := resolutionDiagnosis complete unresolved }

def childStatus (complete unresolved : Bool) : TaskStatus :=
  if unresolved then .blocked else if complete then .completed else .cancelled

/-- One pass of the loop over the plan's held apply tasks. -/
def resolveChild (p : PlanId) (complete : Bool) (now : Time) (l : Ledger) (k : TaskId) : Ledger :=
  let status := childStatus complete (decide (UnresolvedEffects l k))
  (l.updateTask k fun t =>
    { t with status, updatedAt := now
             completedAt := if status = .blocked then none else some now }).appendEvent
    { taskId := k, eventType := .taskApplyReconciled, metadata := .plan p }

def resolveConn (plan : ChangePlan) (evidence : List FileEvidence) (now : Time) : Op Unit := do
  let row ← Tx.select fun l => l.plans.get? plan.id
  let row ← Tx.demand row (.value "Missing plan row")
  let active ← Tx.select fun l => decide (ActiveFamily l plan.taskId now)
  Tx.require (active = false)
    (.safeOperation "Active execution must stop before file effects can be resolved")
  let resolvable ← Tx.select fun l => decide (Resolvable l row)
  Tx.require (resolvable = true) (.safeOperation "Only unresolved file effects can be resolved")
  let complete := evidence.all fun e => e.observed = .after
  let related ← Tx.select fun l => relatedTasks l plan.id
  Tx.write (acknowledgePlan plan evidence complete)
  let unresolved ← Tx.select fun l => decide (UnresolvedEffects l plan.taskId)
  Tx.write fun l => if unresolved = true then l else closeResolvedDraft plan.id complete now l
  Tx.write (resolveParent plan.taskId complete unresolved now)
  Tx.write fun l => related.foldl (resolveChild plan.id complete now) l

def resolve (reg : Registry) (tree : String → Workspace) (p : PlanId) (owner : String)
    (observedHash : Hash) (now : Time) : Op Unit := do
  let (plan, root) ← openPlanCommand env reg p owner
  let evidence ← Tx.lift (observe env (tree root) plan.changes)
  Tx.require (evidenceHash env evidence = observedHash)
    (.safeOperation "Observed files changed; run reconcile again")
  resolveConn plan evidence now

end NyanyaAgent.Plans
