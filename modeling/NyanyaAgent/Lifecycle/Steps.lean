import Mathlib.Logic.Relation
import NyanyaAgent.Drafts.Lifecycle
import NyanyaAgent.Operations.Attempts
import NyanyaAgent.Operations.Completion
import NyanyaAgent.Plans.Apply
import NyanyaAgent.Plans.Resolution

/-!
# Elementary changes of the ledger

Every transaction is a sequence of a few kinds of changes. A constructor of `Step`
names one change with what the transaction knows when it makes it; what the callers
promise stands under the hypothesis `lawful`. Invariants are proved once, of `Step`.
-/
namespace NyanyaAgent.Lifecycle
open NyanyaAgent.Schema NyanyaAgent.Relational NyanyaAgent.Operations NyanyaAgent.Conversation
open NyanyaAgent.Drafts NyanyaAgent.Plans

inductive Kind
  | aside | touch | retire | enter | start | renew | conclude | completeParent | interrupt
  | requeue | startFailure | stopQueued | stopRunning | requestStop | closeTask | closeReview
  | settle | settleReview | openDraft | acknowledge | dropDraft | resolveParent | resolveChild
  | revoke | expire | approve | revokeOpen | newPlan | linkDraft | newDraft | openTask
  | clearDrafts | closeDraft | admission | mark | finalize | uncertain | bind | deliver
  deriving DecidableEq

/-- Nothing a task, an attempt, a plan or a draft consists of has changed. -/
structure SameRows (l l' : Ledger) : Prop where
  tasks : l'.tasks = l.tasks
  operations : l'.operations = l.operations
  executions : l'.executions = l.executions
  claims : l'.claims = l.claims
  plans : l'.plans = l.plans
  journal : l'.journal = l.journal
  drafts : l'.drafts = l.drafts
  workers : ∀ w, (l.workers.get? w).isSome = true → (l'.workers.get? w).isSome = true
  events : ∃ vs, l'.events = l.events ++ vs ∧ ∀ v ∈ vs, v.eventType ≠ .planResolved

/-- Nor has a result, or the place of a turn. -/
structure Aside (l l' : Ledger) : Prop extends SameRows l l' where
  results : l'.results = l.results
  turns : ∀ k, turnKey l' k = turnKey l k

/-- The fields of a task that its lifecycle reads. -/
structure SameTask (t t' : AgentTask) : Prop where
  status : t'.status = t.status
  current : t'.currentExecutionId = t.currentExecutionId
  owner : t'.requestedBy = t.requestedBy

/-- The journal of a plan is written, from the contents in the tree. -/
structure JournalWritten (env : Environment) (t : Workspace) (p : PlanId)
    (changes : List PlannedChange) (first : ℕ) (j j' : Table JournalEntry.key) : Prop where
  written : ∀ i c, changes[i]? = some c → ∃ before, readPath t c.path = .ok before ∧
    digest env before = c.beforeHash ∧ j'.get? (p, first + i) = some
      { planId := p, ordinal := first + i, path := c.path, beforeHash := c.beforeHash
        afterHash := c.afterHash, beforeContent := before }
  kept : ∀ q i, q ≠ p ∨ i < first ∨ first + changes.length ≤ i → j'.get? (q, i) = j.get? (q, i)

/-- What admits an apply operation. -/
structure ApplyAdmission (l : Ledger) (spec : OperationSpec) (owner root : String)
    (parent : Option TaskId) (p : PlanId) (plan : ChangePlan) : Prop where
  planId : spec.planId = some p
  row : l.plans.get? p = some plan
  owned : plan.ownerKey = owner
  workspace : plan.workspace = root
  approved : plan.status = .approved
  under : parent = some plan.taskId
  first : applyTasks l p = []

/-- A request names no plan; one with a parent continues a draft with files to read. -/
structure RequestPromise (l : Ledger) (spec : OperationSpec) (parent : Option TaskId) : Prop where
  planId : spec.planId = none
  parent : ∀ s, parent = some s → ∃ d r, l.drafts.get? d = some r ∧ r.sourceTaskId = s ∧
    r.paths ≠ [] ∧ spec.draftId = some d

/-- What admits an operation under the identifier `k`. -/
structure Enters (lawful : Prop) (l : Ledger) (k : TaskId) (spec : OperationSpec)
    (owner root : String) (generation : WorkerId) (parent : Option TaskId) : Prop where
  valid : validate spec = .ok ()
  worker : (l.workers.get? generation).isSome = true
  apply : spec.kind = .apply → ∃ p plan, ApplyAdmission l spec owner root parent p plan
  task : lawful → l.tasks.get? k = none ∨ spec.kind = .request ∧
    ∃ t, l.tasks.get? k = some t ∧ t.status = .queued ∧ t.requestedBy = owner
  request : lawful → spec.kind = .request → RequestPromise l spec parent

/-- A claimed request works on the draft: as its continuation, or as its source. -/
def Feedback (l : Ledger) (draft : OperationDraft) (k : TaskId) : Prop :=
  ∃ o, l.operations.get? k = some o ∧ o.spec.kind = .request ∧
    (o.spec.draftId = some draft.id ∨ o.spec.draftId = none ∧ draft.sourceTaskId = k)

/-- What lets a draft take a new plan. -/
structure Links (l : Ledger) (draft row : OperationDraft) (k : TaskId) (planId : Option PlanId) :
    Prop where
  found : l.drafts.get? draft.id = some row
  ready : row.status = .ready
  revision : row.revision = draft.revision
  previous : ∀ p, row.planId = some p → ∃ q, l.plans.get? p = some q ∧ q.status = .revoked
  plan : ∀ p, planId = some p → ∃ q, l.plans.get? p = some q ∧ q.taskId = k
  operation : Feedback l draft k

/-- A child of a task that has a plan. -/
structure PlanChild (l : Ledger) (k : TaskId) (t : AgentTask) : Prop where
  task : l.tasks.get? k = some t
  operation : ∃ o plan, l.operations.get? k = some o ∧ l.plans.get? plan.id = some plan ∧
    o.parentTaskId = some plan.taskId

/-- The attempt of a task that a stop waits for. -/
structure LiveAttempt (l : Ledger) (k : TaskId) (x : ExecutionId) (now : Time) : Prop where
  task : ∃ t, l.tasks.get? k = some t ∧ t.currentExecutionId = some x ∧ ¬ t.status.Terminal ∧
    t.status ≠ .blocked
  claim : ∃ c, l.claims.get? k = some c ∧ c.executionId = x ∧ c.released = false ∧ now < c.expiresAt
  execution : ∃ e, l.executions.get? x = some e ∧ (e.status = .running ∨ e.status = .cancelling)

/-- One elementary change. -/
inductive Step (env : Environment) (lawful : Prop) : Kind → Ledger → Ledger → Prop
  | aside {l l' : Ledger} (h : Aside l l') : Step env lawful .aside l l'
  | touch {l : Ledger} {k : TaskId} (f : AgentTask → AgentTask) (hf : ∀ t, (f t).id = t.id)
      (same : ∀ t, SameTask t (f t)) : Step env lawful .touch l (l.updateTask k f hf)
  | retire {l : Ledger} {row : AgentTask} {now : Time} (task : l.tasks.get? row.id = some row)
      (queued : row.status = .queued) (operation : l.operations.get? row.id = none)
      (pending : ∀ x, row.currentExecutionId = some x → ∃ e, l.executions.get? x = some e ∧
        e.status = .pending) : Step env lawful .retire l (retireImported row now l)
  | enter {l : Ledger} {k : TaskId} {spec : OperationSpec} {owner root : String}
      {generation : WorkerId} {source : Option RequestId} {project : Option ProjectId}
      {parent : Option TaskId} {now : Time} {operations : Table TaskOperation.taskId}
      (h : Enters lawful l k spec owner root generation parent)
      (insert : l.operations.insert
        { taskId := k, spec, workerGeneration := generation, parentTaskId := parent } =
          some operations) :
      Step env lawful .enter l
        { upsertTask (acceptedTask env k spec owner root source project now) l with operations }
  | start {l : Ledger} {t : AgentTask} {o : TaskOperation} {worker : WorkerId} {x : ExecutionId}
      {entry now : Time} {executions : Table Execution.id} {claims : Table TaskClaim.taskId}
      (task : l.tasks.get? t.id = some t) (operation : l.operations.get? t.id = some o)
      (queued : t.status = .queued) (eligible : o.eligible = true)
      (attempts : o.attempts < o.maxAttempts)
      (free : ¬ WorkspaceBusy l o.spec)
      (execution : l.executions.insert
        { id := x, taskId := t.id, adapterType := "operation", status := .running
          workdir := o.spec.workspace, createdAt := entry, startedAt := some entry
          updatedAt := entry, lastHeartbeatAt := some entry } = some executions)
      (claim : (l.claims.delete fun c => c.taskId = t.id ∧ c.released = true).insert
        { taskId := t.id, workerId := worker, ownerKey := t.requestedBy, executionId := x
          expiresAt := now + seconds 30 } = some claims) :
      Step env lawful .start l
        (((({ l with executions, claims }).updateTask t.id fun r =>
          { r with status := .running, currentExecutionId := some x, updatedAt := entry
            }).updateOperation t.id fun o => { o with attempts := o.attempts + 1 }).appendEvent
          { taskId := t.id, executionId := some x, eventType := .operationClaimed })
  | renew {l : Ledger} {record : ClaimRecord} {entry : Time} :
      Step env lawful .renew l
        ({ l with claims := l.claims.update (Renewable record entry) fun c =>
            { c with expiresAt := entry + seconds 30 } }.updateExecution record.executionId fun e =>
          { e with lastHeartbeatAt := some entry })
  | conclude {l : Ledger} {record : ClaimRecord} {e : Execution} {entry : Time}
      {outcome : TaskOutcome} {results : Table TaskResult.executionId}
      (fenced : Fenced l record entry e)
      (result : l.results.insert
        { executionId := record.executionId, taskId := record.taskId
          outcome := (recordedOutcome l record e entry outcome).status
          response := env.redact (recordedOutcome l record e entry outcome).text
          createdAt := entry, updatedAt := entry } = some results) :
      Step env lawful .conclude l
        (holdOperation env record.taskId (recordedOutcome l record e entry outcome)
          { concludeAttempt record (recordedOutcome l record e entry outcome).status entry l with
            results })
  | completeParent {l : Ledger} {k : TaskId} {plan : ChangePlan} {entry : Time}
      (row : l.plans.get? plan.id = some plan) (applied : plan.status = .applied) :
      Step env lawful .completeParent l (completeParent k plan entry l)
  | interrupt {l : Ledger} {k : TaskId} {t : AgentTask} {o : TaskOperation} {now : Time}
      (task : l.tasks.get? k = some t) (operation : l.operations.get? k = some o)
      (eligible : o.eligible = true)
      (status : t.status = .queued ∨ t.status = .running ∨ t.status = .cancelling) :
      Step env lawful .interrupt l (interruptTask now l (k, t.currentExecutionId))
  | requeue {l : Ledger} {k : TaskId} {t : AgentTask} {o : TaskOperation} {generation : WorkerId}
      {now : Time} (task : l.tasks.get? k = some t) (operation : l.operations.get? k = some o)
      (status : t.status = .blocked ∨ t.status = .failed) (kind : o.spec.kind = .request)
      (attempts : o.attempts < o.maxAttempts) (resolved : ¬ UnresolvedEffects l k false)
      (effects : ∀ p r, l.plans.get? p = some r → r.taskId = k → r.status ≠ .applying ∧
        r.status ≠ .uncertain ∧ r.status ≠ .applied ∧ r.status ≠ .reconciled)
      (worker : (l.workers.get? generation).isSome = true) :
      Step env lawful .requeue l (requeueTask k generation now l)
  | startFailure {l : Ledger} {k : TaskId} {t : AgentTask} {x : ExecutionId} {diagnosis : String}
      {entry : Time} {executions : Table Execution.id} {results : Table TaskResult.executionId}
      (task : l.tasks.get? k = some t) (status : t.status = .blocked)
      (current : t.currentExecutionId = none)
      (execution : l.executions.insert
        { id := x, taskId := k, adapterType := "operation", status := .failed, error := diagnosis
          createdAt := entry, endedAt := some entry, updatedAt := entry } = some executions)
      (result : l.results.insert
        { executionId := x, taskId := k, outcome := .blocked
          response := s!"원래 요청: {t.prompt}\n{diagnosis}", createdAt := entry
          updatedAt := entry } = some results) :
      Step env lawful .startFailure l
        (((({ l with executions, results }).updateTask k fun t =>
          { t with currentExecutionId := some x, updatedAt := entry }).updateOperation k fun o =>
            { o with holdReason := "worker_start_failed", diagnosis }).appendEvent
          { taskId := k, executionId := some x, eventType := .operationWorkerStartFailed })
  | stopQueued {l : Ledger} {k : TaskId} {t : AgentTask} {reason : String} {now : Time}
      (child : PlanChild l k t) (status : t.status = .queued) :
      Step env lawful .stopQueued l (stopQueuedChild k reason now l)
  | stopRunning {l : Ledger} {k : TaskId} {t : AgentTask} {now : Time} (child : PlanChild l k t)
      (status : t.status = .running ∨ t.status = .cancelling) :
      Step env lawful .stopRunning l (stopRunningChild k now l)
  | requestStop {l : Ledger} {k : TaskId} {x : ExecutionId} {now : Time}
      (promise : lawful → LiveAttempt l k x now) :
      Step env lawful .requestStop l (requestStop k x now l)
  | closeTask {l : Ledger} {k : TaskId} {now : Time} :
      Step env lawful .closeTask l (closeTask k (decide (UncertainStop l k)) now l)
  | closeReview {l : Ledger} {k : TaskId} {t : AgentTask} {reason : CloseReason} {now : Time}
      (task : l.tasks.get? k = some t) (status : t.status.Terminal) (closed : ¬ OpenPlan l k) :
      Step env lawful .closeReview l
        (let closed := closeReviewExecutions k reason (decide (UnresolvedEffects l k)) now l
         if UnresolvedEffects l k then holdReviewEffects k now closed else closed)
  | settle {l : Ledger} {k : TaskId} {plan : ChangePlan} {reason : CloseReason} {now : Time}
      (closed : ¬ OpenPlan l k) (held : ¬ HeldClaim l k now)
      (row : l.plans.get? plan.id = some plan) (of : plan.taskId = k) :
      Step env lawful .settle l
        (settleTask k reason (decide (UnresolvedEffects l k)) now
          (closeReviewExecutions k reason (decide (UnresolvedEffects l k)) now l))
  | settleReview {l : Ledger} {k : TaskId} {completed : Bool} {now : Time}
      (resolved : ¬ UnresolvedEffects l k) :
      Step env lawful .settleReview l (settleReview k completed now l)
  | openDraft {l : Ledger} {d : DraftId} {r : OperationDraft} {t : AgentTask}
      {snapshot : List (Path × SnapshotItem)} {now : Time} (draft : l.drafts.get? d = some r)
      (pending : r.status = .pending) (task : l.tasks.get? r.sourceTaskId = some t)
      (status : t.status = .awaitingApproval) :
      Step env lawful .openDraft l
        (settleReview r.sourceTaskId true now (fillDraft d snapshot now l))
  | acknowledge {l : Ledger} {plan row : ChangePlan} {evidence : List FileEvidence}
      {complete : Bool} (plan_row : l.plans.get? plan.id = some row)
      (same : row.taskId = plan.taskId) (resolvable : Resolvable l row) :
      Step env lawful .acknowledge l (acknowledgePlan plan evidence complete l)
  | dropDraft {l : Ledger} {p : PlanId} {plan : ChangePlan} {complete : Bool} {now : Time}
      (row : l.plans.get? p = some plan)
      (settled : plan.status = .applied ∨ plan.status = .reconciled) :
      Step env lawful .dropDraft l (closeResolvedDraft p complete now l)
  | resolveParent {l : Ledger} {k : TaskId} {plan : ChangePlan} {complete : Bool} {now : Time}
      (row : l.plans.get? plan.id = some plan) (of : plan.taskId = k)
      (settled : plan.status = .applied ∨ plan.status = .reconciled) :
      Step env lawful .resolveParent l
        (resolveParent k complete (decide (UnresolvedEffects l k)) now l)
  | resolveChild {l : Ledger} {k : TaskId} {o : TaskOperation} {p : PlanId} {plan : ChangePlan}
      {complete : Bool} {now : Time} (operation : l.operations.get? k = some o)
      (kind : o.spec.kind = .apply) (planId : o.spec.planId = some p)
      (task : lawful → ∃ t, l.tasks.get? k = some t ∧ (t.status = .blocked ∨ t.status = .failed))
      (row : l.plans.get? p = some plan)
      (settled : plan.status = .applied ∨ plan.status = .reconciled) :
      Step env lawful .resolveChild l (resolveChild p complete now l k)
  | revoke {l : Ledger} {p : PlanId} {plan : ChangePlan} (decidedBy : ChangePlan → String)
      (row : l.plans.get? p = some plan)
      (status : plan.status = .pending ∨ plan.status = .approved ∨ plan.status = .revoked) :
      Step env lawful .revoke l
        (l.updatePlan p fun r => { r with status := .revoked, decidedBy := decidedBy r })
  | expire {l : Ledger} {p : PlanId} {plan : ChangePlan} (row : l.plans.get? p = some plan)
      (status : plan.status = .pending ∨ plan.status = .approved) :
      Step env lawful .expire l (l.updatePlan p fun r => { r with status := .expired })
  | approve {l : Ledger} {p : PlanId} {plan : ChangePlan} {owner : String} {now : Time}
      (row : l.plans.get? p = some plan)
      (status : plan.status = .pending ∨ plan.status = .approved)
      (latest : LatestDraftPlan l p) (parent : ApprovableParent l plan.taskId)
      (unexpired : now < plan.expiresAt) :
      Step env lawful .approve l (decidePlan p owner false l)
  | revokeOpen {l : Ledger} {k : TaskId} : Step env lawful .revokeOpen l (revokeOpenPlans k l)
  | newPlan {l : Ledger} {plan : ChangePlan} {t : AgentTask} {plans : Table ChangePlan.id}
      (insert : l.plans.insert plan = some plans)
      (status : plan.status = .pending ∨ plan.status = .approved)
      (task : l.tasks.get? plan.taskId = some t)
      (promise : lawful → (∀ o, l.operations.get? plan.taskId = some o → o.spec.kind = .request) ∧
        ∀ d r, l.drafts.get? d = some r → r.sourceTaskId = plan.taskId → r.paths = []) :
      Step env lawful .newPlan l { l with plans }
  | linkDraft {l : Ledger} {draft row : OperationDraft} {k : TaskId} {planId : Option PlanId}
      {now : Time} (h : Links l draft row k planId) :
      Step env lawful .linkDraft l (l.updateDraft draft.id fun d =>
        { d with planId := planId, revision := d.revision + 1, updatedAt := now })
  | newDraft {l : Ledger} {draft : OperationDraft} {drafts : Table OperationDraft.id}
      (insert : l.drafts.insert draft = some drafts)
      (status : draft.status = .ready ∧ draft.paths = [] ∨
        draft.status = .pending ∧ draft.paths ≠ [])
      (unlinked : draft.planId = none)
      (first : ∀ d r, l.drafts.get? d = some r → r.sourceTaskId ≠ draft.sourceTaskId)
      (promise : lawful → (∃ o, l.operations.get? draft.sourceTaskId = some o ∧
          o.spec.kind = .request ∧ o.spec.draftId = none) ∧
        ∀ p r, l.plans.get? p = some r → r.taskId ≠ draft.sourceTaskId) :
      Step env lawful .newDraft l { l with drafts }
  | openTask {l : Ledger} {d : DraftId} {k : TaskId} :
      Step env lawful .openTask l (l.updateDraft d fun r => { r with openTaskId := some k })
  | clearDrafts {l : Ledger} {cleared : List DraftId} :
      Step env lawful .clearDrafts l
        { l with
          drafts := l.drafts.update (fun d => d.id ∈ cleared) fun d => { d with snapshot := [] } }
  | closeDraft {l : Ledger} {d : DraftId} {now : Time} :
      Step env lawful .closeDraft l (l.updateDraft d fun r =>
        { r with status := .closed, updatedAt := now, revision := r.revision + 1 })
  | admission {l : Ledger} {t : Workspace} {call : ApplyCall} {now : Time}
      {journal : Table JournalEntry.key} (eligible : Eligible l call .approved now)
      (alone : ¬ EarlierApply l call.root call.plan.id)
      (written : JournalWritten env t call.plan.id call.plan.changes 0 l.journal journal) :
      Step env lawful .admission l
        ({ l with journal }.updatePlan call.plan.id fun p => { p with status := .applying })
  | mark {l : Ledger} {p : PlanId} {i : ℕ} : Step env lawful .mark l (markJournal p i l)
  | finalize {l : Ledger} {call : ApplyCall} {now : Time}
      (eligible : Eligible l call .applying now) :
      Step env lawful .finalize l (finalizePlan call now l)
  | uncertain {l : Ledger} {p : PlanId}
      (promise : lawful → ∃ plan, l.plans.get? p = some plan ∧ plan.status = .applying) :
      Step env lawful .uncertain l (recordUncertain p l)
  | bind {l l' : Ledger} {k : TaskId} (h : SameRows l l') (results : l'.results = l.results)
      (unbound : turnKey l k = none) (operation : (l.operations.get? k).isSome = true)
      (turns : ∀ j, j ≠ k → turnKey l' j = turnKey l j)
      (promise : lawful → ∃ t, l.tasks.get? k = some t ∧ t.status = .queued) :
      Step env lawful .bind l l'
  | deliver {l : Ledger} {results : Table TaskResult.executionId} (h : SameRows l { l with results })
      (kept : ∀ x, (l.results.get? x).isSome = true → (results.get? x).isSome = true) :
      Step env lawful .deliver l { l with results }

/-- A sequence of changes of the listed kinds. -/
def Chain (env : Environment) (lawful : Prop) (ks : List Kind) : Ledger → Ledger → Prop :=
  Relation.ReflTransGen fun l l' => ∃ κ ∈ ks, Step env lawful κ l l'

namespace Chain
variable {env : Environment} {lawful : Prop} {ks js : List Kind} {l l₁ l' : Ledger} {κ : Kind}

theorem refl : Chain env lawful ks l l := Relation.ReflTransGen.refl

theorem trans (h₁ : Chain env lawful ks l l₁) (h₂ : Chain env lawful ks l₁ l') :
    Chain env lawful ks l l' := Relation.ReflTransGen.trans h₁ h₂

theorem of_step (h : Step env lawful κ l l') (hκ : κ ∈ ks) : Chain env lawful ks l l' :=
  .single ⟨κ, hκ, h⟩

theorem snoc (h₁ : Chain env lawful ks l l₁) (h₂ : Step env lawful κ l₁ l') (hκ : κ ∈ ks) :
    Chain env lawful ks l l' := h₁.trans (of_step h₂ hκ)

theorem mono (h : Chain env lawful ks l l') (hs : ks ⊆ js) : Chain env lawful js l l' :=
  Relation.ReflTransGen.mono (fun _ _ ⟨κ, hκ, hstep⟩ => ⟨κ, hs hκ, hstep⟩) _ _ h

/-- What every step of the listed kinds keeps, the sequence keeps. -/
theorem invariant {I : Ledger → Prop} (hI : ∀ κ ∈ ks, ∀ l l', I l → Step env lawful κ l l' → I l')
    (h : Chain env lawful ks l l') (hl : I l) : I l' := by
  induction h with
  | refl => exact hl
  | tail _ hstep ih =>
    obtain ⟨κ, hκ, hstep⟩ := hstep
    exact hI κ hκ _ _ ih hstep

/-- A preorder that holds across every step of the listed kinds, from states with the
invariant `I`, holds across the sequence. -/
theorem relation {I : Ledger → Prop} {R : Ledger → Ledger → Prop} (hrefl : ∀ l, R l l)
    (htrans : ∀ l₁ l₂ l₃, R l₁ l₂ → R l₂ l₃ → R l₁ l₃)
    (hI : ∀ κ ∈ ks, ∀ l l', I l → Step env lawful κ l l' → I l')
    (hR : ∀ κ ∈ ks, ∀ l l', I l → Step env lawful κ l l' → R l l')
    (h : Chain env lawful ks l l') (hl : I l) : R l l' := by
  have key : I l' ∧ R l l' := by
    induction h with
    | refl => exact ⟨hl, hrefl l⟩
    | tail _ hstep ih =>
      obtain ⟨κ, hκ, hstep⟩ := hstep
      exact ⟨hI κ hκ _ _ ih.1 hstep, htrans _ _ _ ih.2 (hR κ hκ _ _ ih.1 hstep)⟩
  exact key.2

/-- A loop over rows: a pass is a sequence of changes under its guard, and keeps the
guards of the rows after it. -/
theorem foldl {ρ : Type} {f : Ledger → ρ → Ledger} {G : Ledger → ρ → Prop} {D : ρ → ρ → Prop}
    (hstep : ∀ l r, G l r → Chain env lawful ks l (f l r))
    (hkeep : ∀ l r s, D r s → G l r → G l s → G (f l r) s) {rows : List ρ} :
    ∀ {l : Ledger}, rows.Pairwise D → (∀ r ∈ rows, G l r) → Chain env lawful ks l (rows.foldl f l) := by
  induction rows with
  | nil => exact fun _ _ => refl
  | cons r rows ih =>
    intro l hD hG
    rw [List.pairwise_cons] at hD
    have hr := hG r List.mem_cons_self
    exact (hstep l r hr).trans (ih hD.2 fun s hs =>
      hkeep l r s (hD.1 s hs) hr (hG s (List.mem_cons_of_mem _ hs)))

end Chain

namespace SameRows
variable {l l₁ l' : Ledger}

theorem refl (l : Ledger) : SameRows l l :=
  ⟨rfl, rfl, rfl, rfl, rfl, rfl, rfl, fun _ => id, [], by simp, by simp⟩

theorem of_turns (h : SameBesidesTurns l l') : SameRows l l' := by
  rw [h.eq]
  exact ⟨rfl, rfl, rfl, rfl, rfl, rfl, rfl, fun _ => id, [], by simp, by simp⟩

end SameRows

namespace Aside
variable {l l₁ l' : Ledger}

theorem refl (l : Ledger) : Aside l l := ⟨.refl l, rfl, fun _ => rfl⟩

theorem of_turns (h : SameBesidesTurns l l') (hk : ∀ k, turnKey l' k = turnKey l k) : Aside l l' :=
  ⟨.of_turns h, by rw [h.eq], hk⟩

theorem of_memory (h : Memory.SameBesidesMemory l l') : Aside l l' := by
  rw [h.eq]
  exact ⟨⟨rfl, rfl, rfl, rfl, rfl, rfl, rfl, fun _ => id, [], by simp, by simp⟩, rfl, fun _ => rfl⟩

theorem appendEvent (l : Ledger) (v : ExecutionEvent) (hv : v.eventType ≠ .planResolved) :
    Aside l (l.appendEvent v) :=
  ⟨⟨rfl, rfl, rfl, rfl, rfl, rfl, rfl, fun _ => id, [v], rfl, by simpa using hv⟩, rfl, fun _ => rfl⟩

theorem approvals (l : Ledger) (a : Table Approval.id) : Aside l { l with approvals := a } :=
  ⟨⟨rfl, rfl, rfl, rfl, rfl, rfl, rfl, fun _ => id, [], by simp, by simp⟩, rfl, fun _ => rfl⟩

end Aside
end NyanyaAgent.Lifecycle
