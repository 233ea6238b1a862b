import NyanyaAgent.Plans.Proposal

/-!
# Apply

`apply` as the steps between which other programs run. Every section of the
source under `mutation_guard` is one step: its eligibility check and its file
operation happen under the ledger's write lock. A directory or file handle is
the path it was opened at.
-/
namespace NyanyaAgent.Plans
open NyanyaAgent.Schema NyanyaAgent.Relational NyanyaAgent.Operations NyanyaAgent.Drafts
open NyanyaAgent.FileTree

variable (env : Environment)

/-- Where one call of `apply` stands. -/
inductive Stage
  | lock
  | admission
  | item (i : ℕ)
  | makeDir (i depth : ℕ)
  | openDir (i depth : ℕ)
  | compare (i : ℕ)
  | unlinkItem (i : ℕ)
  | createItem (i : ℕ)
  | createTemp (i : ℕ)
  | copyMode (i : ℕ)
  | write (i offset : ℕ)
  | syncFile (i : ℕ)
  | replaceItem (i : ℕ)
  | removeTemp (i : ℕ) (failed : Bool)
  | syncDir (i : ℕ)
  | mark (i : ℕ)
  | finalize
  | failure
  | returned
  | raised
  deriving DecidableEq, Repr

/-- One call, with the plan as `get_plan` read it and the root of its workspace. -/
structure ApplyCall where
  plan : ChangePlan
  owner : String
  root : String
  record : Option ClaimRecord
  stage : Stage
  deriving DecidableEq

/-- What the outside decides in one step: the cancel event, a failing system call, and how
many bytes a write takes. -/
structure Chance where
  cancelled : Bool := false
  fault : Bool := false
  chunk : ℕ := 0
  /-- The mode `stat` reports for anything but a regular file. -/
  mode : ℕ := 0

/-- `require_apply_ownership`. -/
def OwnsApply (l : Ledger) (record : ClaimRecord) (plan : ChangePlan) (owner : String)
    (now : Time) : Prop :=
  ∃ o ∈ ownedOperation l record owner now, o.spec.workspace = plan.workspace ∧
    (o.spec.kind = .apply → o.spec.planId = some plan.id ∧ o.parentTaskId = some plan.taskId) ∧
    (o.spec.kind = .request → record.taskId = plan.taskId ∧
      ∀ c ∈ plan.changes, c.action = .create)

instance (l : Ledger) (record : ClaimRecord) (plan : ChangePlan) (owner : String) (now : Time) :
    Decidable (OwnsApply l record plan owner now) := by unfold OwnsApply; infer_instance

/-- A parent that never ran and has no child. -/
def Untouched (l : Ledger) (k : TaskId) : Prop :=
  (∃ t ∈ l.tasks.get? k, t.status = .queued ∧ t.currentExecutionId = none) ∧
    (¬ ∃ e ∈ l.executions.rows, e.taskId = k) ∧ (¬ ∃ c ∈ l.claims.rows, c.taskId = k) ∧
    ¬ ∃ o ∈ l.operations.rows, o.parentTaskId = some k

instance (l : Ledger) (k : TaskId) : Decidable (Untouched l k) := by
  unfold Untouched; infer_instance

def EligibleParent (l : Ledger) (k : TaskId) (owner : String) : Prop :=
  ∃ t ∈ l.tasks.get? k, t.requestedBy = owner ∧
    (t.status = .queued ∨ t.status = .running ∨ t.status = .awaitingApproval)

instance (l : Ledger) (k : TaskId) (owner : String) : Decidable (EligibleParent l k owner) := by
  unfold EligibleParent; infer_instance

/-- `require_eligible`, without the cancel event. -/
def Eligible (l : Ledger) (call : ApplyCall) (expected : PlanStatus) (now : Time) : Prop :=
  LatestDraftPlan l call.plan.id ∧ EligibleParent l call.plan.taskId call.owner ∧
    (match call.record with
      | none => Untouched l call.plan.taskId
      | some record => OwnsApply l record call.plan call.owner now) ∧
    ∃ p ∈ l.plans.get? call.plan.id, p.status = expected ∧ now < p.expiresAt

instance (l : Ledger) (call : ApplyCall) (expected : PlanStatus) (now : Time) :
    Decidable (Eligible l call expected now) := by
  unfold Eligible
  cases call.record <;> infer_instance

/-- The flock of the call's root is taken. -/
def Stage.HoldsLock : Stage → Prop
  | .lock => False
  | .returned => False
  | .raised => False
  | _ => True

instance (s : Stage) : Decidable s.HoldsLock := by cases s <;> (unfold Stage.HoldsLock; infer_instance)

/-- The plan was admitted and its outcome is not recorded yet. -/
def Stage.InFlight (s : Stage) : Prop := s.HoldsLock ∧ s ≠ .admission

instance (s : Stage) : Decidable s.InFlight := by unfold Stage.InFlight; infer_instance

/-- The journal rows of the admission, one for each change whose preimage is unchanged. -/
def journalChanges (t : Workspace) (p : PlanId) : List PlannedChange → ℕ → Op Unit
  | [], _ => pure ()
  | c :: rest, i => do
    let before ← Tx.lift ((readPath t c.path).mapError fsErr)
    Tx.require (digest env before = c.beforeHash)
      (.safeOperation "Preimage changed; request a new plan")
    insertJournal
      { planId := p, ordinal := i, path := c.path, beforeHash := c.beforeHash
        afterHash := c.afterHash, beforeContent := before }
    journalChanges t p rest (i + 1)

/-- Another plan of the workspace has effects that nobody has accounted for. -/
def EarlierApply (l : Ledger) (root : String) (p : PlanId) : Prop :=
  ∃ q ∈ l.plans.rows, q.workspace = root ∧ (q.status = .applying ∨ q.status = .uncertain) ∧ q.id ≠ p

instance (l : Ledger) (root : String) (p : PlanId) : Decidable (EarlierApply l root p) := by
  unfold EarlierApply; infer_instance

/-- The admission transaction: the whole journal and the new status, or nothing. -/
def admitPlan (t : Workspace) (call : ApplyCall) (cancelled : Bool) (now : Time) : Op Unit := do
  let eligible ← Tx.select fun l => decide (Eligible l call .approved now)
  Tx.require (cancelled = false ∧ eligible = true)
    (.safeOperation "Plan is not approved or expired")
  Tx.require (planHash env call.plan.changes = call.plan.planHash)
    (.safeOperation "Plan integrity failure")
  let earlier ← Tx.select fun l => decide (EarlierApply l call.root call.plan.id)
  Tx.require (earlier = false)
    (.safeOperation "An earlier file apply must be reconciled first")
  journalChanges env t call.plan.id call.plan.changes 0
  Tx.write fun l => l.updatePlan call.plan.id fun p => { p with status := .applying }

def markJournal (p : PlanId) (i : ℕ) (l : Ledger) : Ledger :=
  { l with
    journal := l.journal.update (fun j => j.planId = p ∧ j.ordinal = i)
      (fun j => { j with state := .applied }) (by intro r; rfl) }

def applyDrafts (p : PlanId) (now : Time) (l : Ledger) : Ledger :=
  { l with
    drafts := l.drafts.update (fun d => d.planId = some p ∧ d.status = .ready) fun d =>
      { d with status := .applied, updatedAt := now } }

def finalizePlan (call : ApplyCall) (now : Time) (l : Ledger) : Ledger :=
  let l := l.updatePlan call.plan.id fun p => { p with status := .applied }
  let l := applyDrafts call.plan.id now l
  l.appendEvent { taskId := call.plan.taskId, eventType := .planApplied,
                  metadata := .plan call.plan.id }

/-- The exception handler, which checks nothing. -/
def recordUncertain (p : PlanId) (l : Ledger) : Ledger :=
  l.updatePlan p fun r => { r with status := .uncertain }

/-- What `mutation_guard` checks. -/
def Guarded (l : Ledger) (call : ApplyCall) (chance : Chance) (now : Time) : Prop :=
  chance.cancelled = false ∧ Eligible l call .applying now

instance (l : Ledger) (call : ApplyCall) (chance : Chance) (now : Time) :
    Decidable (Guarded l call chance now) := by unfold Guarded; infer_instance

def tempName (p : PlanId) (i : ℕ) : String := s!".nyanya-{p}-{i}"

/-- The entry the content of a change is written to before it is complete. -/
def writeTarget (p : PlanId) (i : ℕ) (c : PlannedChange) : String :=
  match c.action with
  | .modify => tempName p i
  | _ => fileName c.path

/-- An exception after the temporary file exists runs its `finally` clause first. -/
def failStage (i : ℕ) (c : PlannedChange) : Stage :=
  match c.action with
  | .modify => .removeTemp i true
  | _ => .failure

def Unchanged (t : Workspace) (c : PlannedChange) : Prop :=
  match t.readAt maxBytes (folder c.path) (fileName c.path) with
  | .ok before => digest env before = c.beforeHash
  | .error _ => False

instance (t : Workspace) (c : PlannedChange) : Decidable (Unchanged env t c) := by
  unfold Unchanged
  split <;> infer_instance

/-- `S_IMODE(os.stat(name)) & 0o777`. -/
def statMode (t : Workspace) (path : Path) (chance : Chance) : Option ℕ :=
  match t.node path with
  | none => none
  | some (.file _ mode _) => some (mode % 512)
  | some _ => some (chance.mode % 512)

/-- Opening the next directory of a change, creating it first for a creation. -/
def descend (i depth : ℕ) (c : PlannedChange) : Stage :=
  if depth < (folder c.path).length then
    if c.action = .create then .makeDir i depth else .openDir i depth
  else .compare i

/-- The file operation of a guarded stage: the tree it leaves and the stage that follows. -/
def mutate (chance : Chance) (call : ApplyCall) (c : PlannedChange) (t : Workspace) :
    Stage → Workspace × Stage
  | .makeDir i depth =>
    match t.mkdir ((folder c.path).take depth) ((folder c.path).getD depth "") with
    | .ok t' => (t', .openDir i depth)
    | .error .exists => (t, .openDir i depth)
    | .error _ => (t, .failure)
  | .unlinkItem i =>
    if Unchanged env t c then
      match t.unlink (folder c.path) (fileName c.path) with
      | .ok t' => (t', .syncDir i)
      | .error _ => (t, .failure)
    else (t, .failure)
  | .createItem i =>
    match t.createFile (folder c.path) (fileName c.path) 384 with
    | .ok t' => (t', .write i 0)
    | .error _ => (t, .failure)
  | .createTemp i =>
    match t.createFile (folder c.path) (tempName call.plan.id i) 384 with
    | .ok t' => (t', .copyMode i)
    | .error _ => (t, .failure)
  | .copyMode i =>
    match statMode t c.path chance with
    | some mode => (t.chmod (folder c.path) (tempName call.plan.id i) mode, .write i 0)
    | none => (t, failStage i c)
  | .write i offset =>
    let chunk := (c.content.drop offset).take chance.chunk
    if chunk = [] then (t, failStage i c)
    else (t.appendFile (folder c.path) (writeTarget call.plan.id i c) chunk,
      .write i (offset + chunk.length))
  | .syncFile i => (t, if c.action = .modify then .replaceItem i else .syncDir i)
  | .replaceItem i =>
    if Unchanged env t c then
      match t.replace (folder c.path) (tempName call.plan.id i) (fileName c.path) with
      | .ok t' => (t', .removeTemp i false)
      | .error _ => (t, failStage i c)
    else (t, failStage i c)
  | .removeTemp i failed =>
    let next := if failed then Stage.failure else .syncDir i
    match t.unlink (folder c.path) (tempName call.plan.id i) with
    | .ok t' => (t', next)
    | .error .notFound => (t, next)
    | .error _ => (t, .failure)
  | .syncDir i => (t, .mark i)
  | s => (t, s)

/-- Where an exception in a guarded stage leads. -/
def refusedStage (c : PlannedChange) : Stage → Stage
  | .copyMode i => failStage i c
  | .write i _ => failStage i c
  | .syncFile i => failStage i c
  | .replaceItem i => failStage i c
  | _ => .failure

/-- Where a refused guard leads: the removal of the temporary file swallows the refusal. -/
def unguardedStage (c : PlannedChange) : Stage → Stage
  | .removeTemp _ true => .failure
  | .removeTemp i false => .syncDir i
  | s => refusedStage c s

def guardedStep (chance : Chance) (now : Time) (call : ApplyCall) (c : PlannedChange) (l : Ledger)
    (t : Workspace) (s : Stage) : Workspace × Stage :=
  if ¬ Guarded l call chance now then (t, unguardedStage c s)
  else if chance.fault = true then (t, refusedStage c s)
  else mutate env chance call c t s

/-- A stage that only reads, inside the loop over the changes. -/
def readStep (chance : Chance) (c : PlannedChange) (t : Workspace) : Stage → Stage
  | .openDir i depth =>
    if chance.fault = true then .failure
    else match t.openDir ((folder c.path).take (depth + 1)) with
      | .ok _ => descend i (depth + 1) c
      | .error _ => .failure
  | .compare i =>
    if chance.fault = true then .failure
    else if Unchanged env t c then
      match c.action with
      | .create => .createItem i
      | .modify => .createTemp i
      | .delete => .unlinkItem i
    else .failure
  | s => s

/-- A stage of the change with index `i`. -/
def itemStep (chance : Chance) (now : Time) (call : ApplyCall) (l : Ledger) (t : Workspace)
    (i : ℕ) (s : Stage) : Workspace × Stage :=
  match call.plan.changes[i]? with
  | none => (t, .failure)
  | some c =>
    match s with
    | .openDir .. => (t, readStep env chance c t s)
    | .compare _ => (t, readStep env chance c t s)
    | .write _ offset =>
      if offset < c.content.length then guardedStep env chance now call c l t s
      else (t, .syncFile i)
    | _ => guardedStep env chance now call c l t s

/-- One step of a call that holds its lock: the ledger, the tree of its root, and the stage. -/
def applyStep (chance : Chance) (now : Time) (call : ApplyCall) (l : Ledger) (t : Workspace) :
    Ledger × Workspace × Stage :=
  match call.stage with
  | .lock => (l, t, .admission)
  | .admission =>
    match Tx.commit (admitPlan env t call chance.cancelled now) l with
    | (.ok _, l') => (l', t, .item 0)
    | (.error _, _) => (l, t, .raised)
  | .item i =>
    match call.plan.changes[i]? with
    | none => (l, t, .finalize)
    | some c =>
      if chance.cancelled = true ∨ chance.fault = true then (l, t, .failure)
      else (l, t, descend i 0 c)
  | .mark i =>
    if chance.fault = true then (l, t, .failure)
    else (markJournal call.plan.id i l, t, .item (i + 1))
  | .finalize =>
    if Guarded l call chance now ∧ chance.fault = false then
      (finalizePlan call now l, t, .returned)
    else (l, t, .failure)
  | .failure =>
    if chance.fault = true then (l, t, .raised)
    else (recordUncertain call.plan.id l, t, .raised)
  | .returned => (l, t, .returned)
  | .raised => (l, t, .raised)
  | .makeDir i depth => (l, itemStep env chance now call l t i (.makeDir i depth))
  | .openDir i depth => (l, itemStep env chance now call l t i (.openDir i depth))
  | .compare i => (l, itemStep env chance now call l t i (.compare i))
  | .unlinkItem i => (l, itemStep env chance now call l t i (.unlinkItem i))
  | .createItem i => (l, itemStep env chance now call l t i (.createItem i))
  | .createTemp i => (l, itemStep env chance now call l t i (.createTemp i))
  | .copyMode i => (l, itemStep env chance now call l t i (.copyMode i))
  | .write i offset => (l, itemStep env chance now call l t i (.write i offset))
  | .syncFile i => (l, itemStep env chance now call l t i (.syncFile i))
  | .replaceItem i => (l, itemStep env chance now call l t i (.replaceItem i))
  | .removeTemp i failed => (l, itemStep env chance now call l t i (.removeTemp i failed))
  | .syncDir i => (l, itemStep env chance now call l t i (.syncDir i))

/-- `get_plan` and `check_workspace`, before the lock. -/
def startApply (reg : Registry) (p : PlanId) (owner : String) (record : Option ClaimRecord) :
    Op ApplyCall := do
  let row ← Tx.select fun l => (l.plans.get? p).filter fun r => r.ownerKey = owner
  let plan ← Tx.demand row (.permission "Plan not found for this owner")
  let root ← Tx.lift (checkWorkspace env reg plan.workspace owner)
  pure { plan, owner, root, record, stage := .lock }

end NyanyaAgent.Plans
