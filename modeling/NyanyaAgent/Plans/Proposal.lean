import NyanyaAgent.Drafts.Linking
import NyanyaAgent.FileTree.Tree

/-!
# Proposal

How a model's file changes become an immutable plan: `relative` paths, the
preimages and hashes of each change, and the transaction that records the plan
and, for a draft, links it.
-/
namespace NyanyaAgent.Plans
open NyanyaAgent.Schema NyanyaAgent.Relational NyanyaAgent.Operations NyanyaAgent.Drafts
open NyanyaAgent.FileTree

variable (env : Environment)

abbrev Workspace := Tree String UInt8

def maxBytes : ℕ := 2000000

/-- `PurePosixPath(value).parts` of a relative path. -/
def pathParts (value : String) : Path :=
  ((value.toList.splitOn '/').map String.ofList).filter fun part => part ≠ "" ∧ part ≠ "."

def relative (value : String) : Except Err Path :=
  let parts := pathParts value
  if value = "" ∨ parts = [] ∨ value.startsWith "/" = true ∨ ".." ∈ parts ∨
      '\\' ∈ value.toList ∨ ∃ part ∈ parts, env.privatePart part = true then
    .error (.safeOperation "Unsafe or private relative file path")
  else .ok parts

def folder (path : Path) : Path := path.dropLast

def fileName (path : Path) : String := path.getLastD ""

def fsErr : FsErr → Err
  | .unsupported => .safeOperation "Only bounded, single-link regular files are supported"
  | .tooLarge => .safeOperation "File too large"
  | .notFound => .os "FileNotFoundError"
  | .exists => .os "FileExistsError"
  | .notDirectory => .os "NotADirectoryError"
  | .isDirectory => .os "IsADirectoryError"
  | .fault => .os "OSError"

/-- `read_file`. -/
def readPath (t : Workspace) (path : Path) : Except FsErr (Option Bytes) :=
  t.readFile maxBytes (folder path) (fileName path)

/-- `str.isspace` of one character. -/
def isSpace (c : Char) : Bool :=
  (9 ≤ c.toNat && c.toNat ≤ 13) || (28 ≤ c.toNat && c.toNat ≤ 32) ||
    (8192 ≤ c.toNat && c.toNat ≤ 8202) ||
    c.toNat ∈ [133, 160, 5760, 8232, 8233, 8239, 8287, 12288]

structure ProposedChange where
  path : String
  action : ChangeAction
  content : Bytes := []
  reason : String := ""

def baselineItem (baseline : List (Path × SnapshotItem)) (name : Path) : Option SnapshotItem :=
  (baseline.find? fun b => b.1 = name).map (·.2)

/-- The name a change is recorded under; a creation goes below the plan's directory. -/
def changeName (draft : Option OperationDraft) (directory parsed : Path) (action : ChangeAction) :
    Path :=
  if action = .create then
    if draft.isSome = true ∧ directory <+: parsed ∧ directory ≠ parsed then parsed
    else directory ++ parsed
  else parsed

def preimage (t : Workspace) (draft : Option OperationDraft)
    (baseline : List (Path × SnapshotItem)) (name : Path) : Except Err (Option Bytes) :=
  match draft with
  | some _ => .ok ((baselineItem baseline name).map (·.content))
  | none => (readPath t name).mapError fsErr

def postimage (action : ChangeAction) (content : Bytes) : Option Bytes :=
  if action = .delete then none else some content

def prepareChange (t : Workspace) (draft : Option OperationDraft) (directory : Path)
    (baseline : List (Path × SnapshotItem)) (seen : List Path) (item : ProposedChange) :
    Op PlannedChange := do
  let parsed ← Tx.lift (relative env item.path)
  Tx.require (item.reason.toList.all isSpace = false)
    (.safeOperation "Action and rationale required")
  let name := changeName draft directory parsed item.action
  Tx.require (name ∉ seen) (.safeOperation "Duplicate file operation")
  let before ← Tx.lift (preimage t draft baseline name)
  Tx.require (item.action = .create → before = none)
    (.safeOperation "Creation would overwrite a file")
  Tx.require (item.action ≠ .create → before ≠ none ∧
      ∃ b ∈ baselineItem baseline name, digest env before = some b.sha256)
    (.safeOperation "File changed or not present in the reviewed input snapshot")
  Tx.require (draft = none → ∀ b ∈ before, env.decodable b = true) (.value "UnicodeDecodeError")
  let data := postimage item.action item.content
  pure
    { path := name, action := item.action
      reason := String.ofList (item.reason.toList.take 2000)
      content := data.getD [], beforeHash := digest env before, beforeContent := before.getD []
      afterHash := digest env data }

def prepareChanges (t : Workspace) (draft : Option OperationDraft) (directory : Path)
    (baseline : List (Path × SnapshotItem)) :
    List ProposedChange → List Path → ℕ → Op (List PlannedChange)
  | [], _, _ => pure []
  | item :: rest, seen, total => do
    let change ← prepareChange env t draft directory baseline seen item
    Tx.require (total + change.content.length ≤ maxBytes) (.safeOperation "Plan too large")
    let changes ← prepareChanges t draft directory baseline rest (seen ++ [change.path])
      (total + change.content.length)
    pure (change :: changes)

/-- The directory new files go to. -/
def planDirectory (draft : Option OperationDraft) (taskKind stamp : String) : Path :=
  match draft with
  | some d => ["nyanya-tasks", "drafts", s!"draft_{d.id}"]
  | none => ["nyanya-tasks", taskKind, stamp]

def taskKinds : List String := ["work", "analysis", "code", "document", "data"]

def revokeOpenPlans (k : TaskId) (l : Ledger) : Ledger :=
  { l with
    plans := l.plans.update
      (fun p => p.taskId = k ∧ (p.status = .pending ∨ p.status = .approved))
      (fun p => { p with status := .revoked }) ChangePlan.id_revoked }

def recordPlan (k : TaskId) (owner root : String) (changes : List PlannedChange)
    (draft : Option (OperationDraft × ClaimRecord)) (p : PlanId) (now : Time) : Op Unit := do
  let task ← Tx.select fun l => (l.tasks.get? k).filter fun t => t.requestedBy = owner
  let _ ← Tx.demand task (.permission "Plan owner mismatch")
  let automatic := draft.isNone = true ∧ ∀ c ∈ changes, c.action = .create
  Tx.write (revokeOpenPlans k)
  insertPlan
    { id := p, taskId := k, ownerKey := owner, workspace := root
      planHash := planHash env changes, changes
      status := if automatic then .approved else .pending
      expiresAt := now + hours 1, createdAt := now }
  match draft with
  | none => pure ()
  | some (d, record) => linkPlanConn env d k (some p) record now
  Tx.write fun l => l.appendEvent { taskId := k, eventType := .planProposed, metadata := .plan p }

/-- `propose`; a draft context always comes with the claim record of its worker. -/
def propose (reg : Registry) (tree : String → Workspace) (k : TaskId) (owner root : String)
    (changes : List ProposedChange) (baseline : List (Path × SnapshotItem))
    (taskKind stamp : String) (draft : Option (OperationDraft × ClaimRecord)) (p : PlanId)
    (now : Time) : Op Unit := do
  let root ← Tx.lift (checkWorkspace env reg root owner)
  Tx.require (1 ≤ changes.length ∧ changes.length ≤ 40) (.safeOperation "Invalid change list")
  Tx.require (taskKind ∈ taskKinds) (.safeOperation "Invalid task directory kind")
  let context := draft.map (·.1)
  let prepared ← prepareChanges env (tree root) context (planDirectory context taskKind stamp)
    baseline changes [] 0
  recordPlan env k owner root prepared draft p now

/-- A draft without remaining changes drops its plan. -/
def linkNoPlan (draft : OperationDraft) (record : ClaimRecord) (now : Time) : Op Unit :=
  linkPlanConn env draft record.taskId none record now

end NyanyaAgent.Plans
