import Mathlib.Data.List.Sort
import NyanyaAgent.Plans.Decisions
import NyanyaAgent.Plans.Proposal

/-!
# Draft lifecycle

A read-scoped draft from its creation by a worker, over the approval that copies
its files and submits the continuation, to its explicit closing or the expiry of
its read scope.
-/
namespace NyanyaAgent.Drafts
open NyanyaAgent.Schema NyanyaAgent.Relational NyanyaAgent.Operations NyanyaAgent.Plans

variable (env : Environment)

def maxFiles : ℕ := 80
def maxSnapshotBytes : ℕ := 50000
def maxOpenDrafts : ℕ := 20

def pathText (path : Path) : String := "/".intercalate path

/-- The loop of `_paths`. -/
def collectPaths : List String → List Path → Except Err (List Path)
  | [], names => .ok names
  | value :: rest, names =>
    if 1024 < value.utf8ByteSize then .error (.safeOperation "Invalid draft file path")
    else match relative env value with
      | .error e => .error e
      | .ok name =>
        if env.contextAllowed name = false ∨ name ∈ names then
          .error (.safeOperation "Private or duplicate draft path")
        else collectPaths rest (names ++ [name])

/-- `_paths`. -/
def draftPaths (values : List String) : Except Err (List Path) :=
  if maxFiles < values.length then .error (.safeOperation "Draft file scope exceeds its bound")
  else (collectPaths env values []).map
    (List.insertionSort fun a b => (pathText a ≤ pathText b))

def openDrafts (l : Ledger) (owner : String) : ℕ :=
  (l.drafts.rows.filter fun d =>
    d.ownerKey = owner ∧ (d.status = .pending ∨ d.status = .ready)).length

/-- A new draft: without files to copy it is ready at once. -/
def newDraft (d : DraftId) (owner root : String) (source : TaskId) (turn : Option ConversationTurn)
    (paths : List Path) (now : Time) : OperationDraft :=
  { id := d, ownerKey := owner, workspace := root, sourceTaskId := source
    sessionId := turn.map (·.sessionId), generation := turn.map (·.generation), paths
    scopeHash := env.sha256 (env.dumpScope d owner root paths
      (turn.map fun t => (t.sessionId, t.generation)))
    status := if paths = [] then .ready else .pending
    createdAt := now, updatedAt := now
    expiresAt := now + if paths = [] then days 30 else hours 1 }

def create (reg : Registry) (record : ClaimRecord) (paths : List String) (d : DraftId)
    (now : Time) : Op OperationDraft := do
  let root ← Tx.lift (checkWorkspace env reg record.spec.workspace record.owner)
  let paths ← Tx.lift (draftPaths env paths)
  let prior ← Tx.select fun l => l.drafts.rows.find? fun r => r.sourceTaskId = record.taskId
  match prior with
  | some draft => do
    Tx.require (draft.paths = paths) (.safeOperation "Retry cannot replace a draft scope")
    pure draft
  | none => do
    let count ← Tx.select fun l => openDrafts l record.owner
    Tx.require (count < maxOpenDrafts)
      (.safeOperation "Close existing drafts before opening another")
    let turn ← Tx.select fun l => l.turns.get? record.taskId
    let draft := newDraft env d record.owner root record.taskId turn paths now
    insertDraft draft
    pure draft

def captureFiles (t : Workspace) : List Path → ℕ → Except Err (List (Path × SnapshotItem))
  | [], _ => .ok []
  | name :: rest, total =>
    match readPath t name with
    | .error e => .error (fsErr e)
    | .ok none => .error (.safeOperation "A planned input file is unavailable")
    | .ok (some data) =>
      if maxSnapshotBytes < total + data.length then
        .error (.safeOperation "Draft input exceeds the snapshot limit")
      else if env.decodable data = false then
        .error (.safeOperation "Draft inputs must be UTF-8 text")
      else if env.sensitive data = true then
        .error (.safeOperation "Draft input is unsupported or contains sensitive data")
      else (captureFiles t rest (total + data.length)).map fun items =>
        (name, { content := data, sha256 := env.sha256 data }) :: items

def fillDraft (d : DraftId) (snapshot : List (Path × SnapshotItem)) (now : Time) (l : Ledger) :
    Ledger :=
  l.updateDraft d fun r =>
    { r with status := .ready, snapshot, revision := r.revision + 1, updatedAt := now
             expiresAt := now + days 30 }

def approveReadScope (k : TaskId) (owner : String) (now : Time) (l : Ledger) : Ledger :=
  { l with
    approvals := l.approvals.update
      (fun a => a.taskId = k ∧ a.action = .draftReadScope ∧ a.status = .pending)
      (fun a => { a with status := .approved, decidedBy := owner, decidedAt := some now })
      (Approval.id_approved owner now) }

/-- `open_and_submit`: the continuation task, and whether this call submitted it. -/
def openAndSubmit (reg : Registry) (tree : String → Workspace) (d : DraftId) (scopeHash : Hash)
    (owner : String) (generation : WorkerId) (conversationKey : Option String) (fresh : TaskId)
    (freshSession : SessionId) (now : Time) : Op (AgentTask × Bool) := do
  let row ← Tx.select fun l => l.drafts.get? d
  let draft ← Tx.demand row (.permission "Draft scope mismatch")
  let root ← Tx.lift (checkWorkspace env reg draft.workspace owner)
  scopeConn env draft owner root (.conversation conversationKey) true
  Tx.require (draft.scopeHash = scopeHash ∧ now < draft.expiresAt)
    (.safeOperation "Draft read scope changed or expired")
  let opened ← Tx.select fun l => draft.openTaskId.bind l.tasks.get?
  match draft.status, draft.openTaskId with
  | .ready, some _ => do
    let task ← Tx.demand opened (.value "Missing task row")
    pure (task, false)
  | _, _ => do
    let source ← Tx.select fun l => l.tasks.get? draft.sourceTaskId
    let source ← Tx.demand source (.value "Missing task row")
    let operation ← Tx.select fun l => l.operations.get? draft.sourceTaskId
    let operation ← Tx.demand operation (.value "Missing operation row")
    Tx.require (draft.status = .pending ∧ source.status = .awaitingApproval)
      (.safeOperation "Draft is not waiting for read-scope approval")
    let snapshot ← Tx.lift (captureFiles env (tree root) draft.paths 0)
    Tx.write (fillDraft d snapshot now)
    Tx.write (settleReview source.id true now)
    Tx.write (approveReadScope source.id owner now)
    let root ← Tx.lift (checkWorkspace env reg root owner)
    let task ← submitConn env { operation.spec with draftId := some d } owner generation root none
      source.projectId (some source.id) conversationKey fresh freshSession now
    Tx.write fun l => l.updateDraft d fun r => { r with openTaskId := some task.id }
    Tx.write fun l => l.appendEvent
      { taskId := source.id, eventType := .draftScopeApproved, metadata := .draft d }
    pure (task, true)

def draftTasks (l : Ledger) (draft : OperationDraft) : List AgentTask :=
  l.tasks.rows.filter fun t => ∃ o ∈ l.operations.get? t.id,
    t.id = draft.sourceTaskId ∨ o.spec.draftId = some draft.id

def ActiveStatus (s : TaskStatus) : Prop := s = .queued ∨ s = .running ∨ s = .cancelling

instance (s : TaskStatus) : Decidable (ActiveStatus s) := by unfold ActiveStatus; infer_instance

/-- One pass of the loop that ends the review waits of a closed draft. -/
def closeReview (now : Time) (l : Ledger) (t : AgentTask) : Ledger :=
  if t.status = .awaitingApproval then rejectReviews t.id now (settleReview t.id false now l)
  else l

/-- `close`, with the revision its caller was shown. -/
def close (reg : Registry) (d : DraftId) (owner : String) (conversationKey : Option String)
    (seenRevision : ℕ) (now : Time) : Op Unit := do
  let row ← Tx.select fun l => l.drafts.get? d
  let draft ← Tx.demand row (.permission "Draft scope mismatch")
  let root ← Tx.lift (checkWorkspace env reg draft.workspace owner)
  scopeConn env draft owner root (.conversation conversationKey) false
  Tx.require (draft.revision = seenRevision)
    (.safeOperation "Draft changed; refresh before closing")
  let tasks ← Tx.select fun l => draftTasks l draft
  let busy ← Tx.select fun l =>
    decide (∃ t ∈ tasks, ActiveStatus t.status ∨ UnresolvedEffects l t.id)
  Tx.require (busy = false)
    (.safeOperation "Draft has active or uncertain work; preserve it for review")
  if draft.status = .closed ∨ draft.status = .applied then pure ()
  else do
    let plan ← Tx.select fun l => draft.planId.bind l.plans.get?
    Tx.require (∀ p ∈ plan, p.status = .pending ∨ p.status = .revoked ∨ p.status = .expired)
      (.safeOperation "Draft plan cannot be closed safely")
    Tx.write fun l =>
      match plan with
      | some p =>
        if p.status = .pending then
          l.updatePlan p.id (fun r => { r with status := .revoked }) ChangePlan.id_revoked
        else l
      | none => l
    Tx.write fun l => tasks.foldl (closeReview now) l
    Tx.write fun l => l.updateDraft d fun r =>
      { r with status := .closed, updatedAt := now, revision := r.revision + 1 }

def expireReadScope (k : TaskId) (now : Time) (l : Ledger) : Ledger :=
  { l with
    approvals := l.approvals.update
      (fun a => a.taskId = k ∧ a.action = .draftReadScope ∧ a.status = .pending) fun a =>
        { a with status := .expired, decidedAt := some now } }

def expireDraft (now : Time) (l : Ledger) (draft : OperationDraft) : Ledger :=
  if (∃ t ∈ l.tasks.get? draft.sourceTaskId, t.status = .awaitingApproval) ∧
      ¬ UnresolvedEffects l draft.sourceTaskId then
    let l := settleReview draft.sourceTaskId false now l
    let l := expireReadScope draft.sourceTaskId now l
    l.updateDraft draft.id fun r =>
      { r with status := .closed, updatedAt := now, revision := r.revision + 1 }
  else l

def maintain (now : Time) (l : Ledger) : Ledger :=
  let expired := (l.drafts.rows.filter fun d => d.status = .pending ∧ d.expiresAt < now).take 100
  let l := expired.foldl (expireDraft now) l
  let cleared := ((l.drafts.rows.filter fun d => (d.status = .closed ∨ d.status = .applied) ∧
    d.updatedAt < now - days 7 ∧ d.snapshot ≠ []).take 100).map (·.id)
  { l with
    drafts := l.drafts.update (fun d => d.id ∈ cleared) fun d => { d with snapshot := [] } }

end NyanyaAgent.Drafts
