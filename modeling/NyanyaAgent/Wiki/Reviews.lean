import NyanyaAgent.Memory.Recall
import NyanyaAgent.Conversation.Turns

/-!
# Wiki reviews

`review_entry` of `wiki_store.py` and `forget_record` of `work_memory.py`: an operator
settles one topic note, or forgets the work it came from, in one transaction.
-/
namespace NyanyaAgent.Wiki
open NyanyaAgent.Schema NyanyaAgent.Relational NyanyaAgent.Operations NyanyaAgent.Memory

abbrev MemoryId := ℕ

/-- The columns of `memory_items` that forgetting reads or writes. -/
structure MemoryItem where
  id : MemoryId
  ownerKey : String
  sourceRequestId : Option RequestId
  status : String
  title : String
  content : String
  updatedAt : Time
  deriving DecidableEq

/-- The ledger with the memories that are derived from it. -/
structure WikiStore where
  ledger : Ledger := {}
  memories : Table MemoryItem.id := .empty

inductive WikiErr
  | refused (e : Err)
  | lookup (message : String)
  deriving DecidableEq

abbrev WikiOp := Tx WikiErr WikiStore

structure WikiText where
  /-- `sensitive_content`. -/
  sensitive : String → Bool
  memoryName : MemoryId → String

/-- The rows `_rows_conn` joins to an entry. -/
structure EntryJoin where
  record : WorkRecord
  work : RecordJoin
  turn : ConversationTurn
  session : ConversationSession

def entryJoin (l : Ledger) (w : WikiEntry) : Option EntryJoin := do
  let m ← l.workRecords.get? w.sourceExecutionId
  let work ← recordJoin l m
  let turn ← l.turns.get? m.sourceTaskId
  let session ← l.sessions.get? turn.sessionId
  return ⟨m, work, turn, session⟩

/-- The record cites the attempt that is current in its source task. -/
def CitesCurrent (m : WorkRecord) (source : AgentTask) : Prop :=
  ∃ e ∈ m.evidence, ∃ x ∈ e.sourceExecutionId, source.currentExecutionId = some x

instance (m : WorkRecord) (source : AgentTask) : Decidable (CitesCurrent m source) := by
  unfold CitesCurrent; infer_instance

/-- The `WHERE` clause of `_rows_conn` without its query. -/
def Available (l : Ledger) (owner root : String) (project : Option ProjectId)
    (scope : ConversationSession) (w : WikiEntry) (j : EntryJoin) : Prop :=
  w.ownerKey = owner ∧ w.workspaceRoot = root ∧ w.projectId = project ∧ w.sessionId = scope.id ∧
    scope.memoryResetGeneration ≤ w.generation ∧ w.generation = j.turn.generation ∧
    j.turn.sessionId = w.sessionId ∧ j.record.ownerKey = w.ownerKey ∧
    j.record.workspaceRoot = w.workspaceRoot ∧ j.record.projectId = w.projectId ∧
    w.provenance = j.record.provenance ∧ j.record.status = .retained ∧
    j.record.textStatus = .screened ∧ j.record.replyKind = .answer ∧
    j.work.task.requestedBy = w.ownerKey ∧ j.work.source.requestedBy = w.ownerKey ∧
    j.work.source.projectId = w.projectId ∧
    j.work.task.currentExecutionId = some j.record.executionId ∧
    j.work.task.status = .completed ∧ j.work.source.status = .completed ∧
    j.work.execution.status = .succeeded ∧ j.work.result.outcome = .succeeded ∧
    j.work.task.metadata.workspaceRoot = w.workspaceRoot ∧
    j.work.operation.spec.workspace = w.workspaceRoot ∧
    j.work.source.metadata.workspaceRoot = w.workspaceRoot ∧
    j.work.sourceOperation.spec.workspace = w.workspaceRoot ∧
    (j.work.task.projectId = w.projectId ∨
      w.provenance = .reviewedApply ∧ j.work.task.projectId = none) ∧
    (w.provenance = .modelResult ∨
      CitesCurrent j.record j.work.source ∧ ∃ p ∈ j.work.plan, AppliedPlan l j.record p)

instance (l : Ledger) (owner root : String) (project : Option ProjectId)
    (scope : ConversationSession) (w : WikiEntry) (j : EntryJoin) :
    Decidable (Available l owner root project scope w j) := by
  unfold Available; infer_instance

def scopeConn (owner root : String) (project : Option ProjectId) (k : SessionId) :
    WikiOp ConversationSession := do
  let permitted ← Tx.select fun s => decide (ProjectScope s.ledger owner root project)
  Tx.require (permitted = true)
    (.refused (.permission "Work-record project owner or workspace mismatch"))
  let session ← Tx.select fun s =>
    (s.ledger.sessions.get? k).filter fun r => r.ownerKey = owner ∧ r.workspaceRoot = root
  Tx.demand session (.refused (.permission "Wiki channel owner or workspace mismatch"))

/-- The row `_rows_conn` finds under an identifier. -/
def availableRow (l : Ledger) (owner root : String) (project : Option ProjectId)
    (scope : ConversationSession) (k : WikiId) : Option (WikiEntry × EntryJoin) :=
  match l.wikiEntries.get? k with
  | none => none
  | some w =>
    match entryJoin l w with
    | none => none
    | some j => if Available l owner root project scope w j then some (w, j) else none

def Reviewable (s : WikiStatus) : Prop := s = .pending ∨ s = .approved

instance : DecidablePred Reviewable := fun s => by unfold Reviewable; infer_instance

def SameTopic (a b : WikiEntry) : Prop :=
  a.ownerKey = b.ownerKey ∧ a.workspaceRoot = b.workspaceRoot ∧ a.projectId = b.projectId ∧
    a.sessionId = b.sessionId ∧ a.topicKey = b.topicKey

instance (a b : WikiEntry) : Decidable (SameTopic a b) := by unfold SameTopic; infer_instance

theorem SameTopic.trans {a b c : WikiEntry} (h : SameTopic a b) (h' : SameTopic b c) :
    SameTopic a c :=
  ⟨h.1.trans h'.1, h.2.1.trans h'.2.1, h.2.2.1.trans h'.2.2.1, h.2.2.2.1.trans h'.2.2.2.1,
    h.2.2.2.2.trans h'.2.2.2.2⟩

theorem SameTopic.symm {a b : WikiEntry} (h : SameTopic a b) : SameTopic b a :=
  ⟨h.1.symm, h.2.1.symm, h.2.2.1.symm, h.2.2.2.1.symm, h.2.2.2.2.symm⟩

/-- The status an entry is given, under the next version. -/
def settle (status : WikiStatus) (now : Time) (w : WikiEntry) : WikiEntry :=
  if status = .forgotten then
    { w with status := .forgotten, title := "Forgotten topic", content := "",
             reviewVersion := w.reviewVersion + 1, updatedAt := now }
  else { w with status := status, reviewVersion := w.reviewVersion + 1, updatedAt := now }

def updateEntries (s : WikiStore) (p : WikiEntry → Prop) [DecidablePred p] (status : WikiStatus)
    (now : Time) : WikiStore :=
  { s with ledger := { s.ledger with
      wikiEntries := s.ledger.wikiEntries.update p (settle status now) fun w => by
        unfold settle; split <;> rfl } }

/-- The other open entries of an approved entry's topic give way to it. -/
def supersede (w : WikiEntry) (boundary : ℕ) (now : Time) (s : WikiStore) : WikiStore :=
  updateEntries s
    (fun v => SameTopic v w ∧ v.id ≠ w.id ∧ Reviewable v.status ∧ boundary ≤ v.generation)
    .superseded now

def clearRecords (s : WikiStore) (p : WorkRecord → Prop) [DecidablePred p] : WikiStore :=
  { s with ledger := { s.ledger with
      workRecords := s.ledger.workRecords.update p fun m =>
        { m with status := .forgotten, requestSummary := "", resultSummary := "" } } }

variable (text : WikiText)

def clearMemorySource (now : Time) (memories : Table MemoryItem.id)
    (source : RequestId × String) : Table MemoryItem.id :=
  memories.update
    (fun i => i.sourceRequestId = some source.1 ∧ i.ownerKey = source.2 ∧
      (i.status ≠ "archived" ∨ i.title ≠ "Forgotten memory: " ++ text.memoryName i.id ∨
        i.content ≠ ""))
    fun i => { i with
      status := "archived", title := "Forgotten memory: " ++ text.memoryName i.id, content := "",
      updatedAt := now }

def forgottenSources (l : Ledger) (x : ExecutionId) : List (RequestId × String) :=
  match l.workRecords.get? x with
  | none => []
  | some m =>
    if m.status = .forgotten then
      ((l.tasks.rows.filter fun t =>
        (t.id = m.taskId ∨ t.id = m.sourceTaskId) ∧ t.requestedBy = m.ownerKey).filterMap
          fun t => t.sourceRequestId.map fun r => (r, m.ownerKey)).dedup
    else []

def forgetMemoryCandidates (x : ExecutionId) (now : Time) (s : WikiStore) : WikiStore :=
  { s with memories :=
      (forgottenSources s.ledger x).foldl (clearMemorySource text now) s.memories }

/-- The record is emptied with the memories and the other entries that were taken from it. -/
def forgetSource (x : ExecutionId) (p : WikiEntry → Prop) [DecidablePred p] (now : Time)
    (s : WikiStore) : WikiStore :=
  updateEntries (forgetMemoryCandidates text x now (clearRecords s fun m => m.executionId = x))
    (fun v => v.sourceExecutionId = x ∧ p v) .forgotten now

def reviewed (w : WikiEntry) (boundary : ℕ) (status : WikiStatus) (now : Time) (s : WikiStore) :
    WikiStore :=
  let s := if status = .approved then supersede w boundary now s else s
  let s := if status = .forgotten then
    forgetSource text w.sourceExecutionId (fun v => v.id ≠ w.id) now s else s
  updateEntries s (fun v => v.id = w.id) status now

variable (env : Environment) (reg : Registry)

def reviewEntry (owner workspace : String) (session : SessionId) (entry : WikiId)
    (status : WikiStatus) (version : ℤ) (project : Option ProjectId) (now : Time) :
    WikiOp (WikiId × WikiStatus × ℤ) := do
  Tx.require ((status = .approved ∨ status = .rejected ∨ status = .forgotten) ∧ 1 ≤ version)
    (.refused (.safeOperation "Invalid Wiki review"))
  let root ← Tx.lift ((memoryWorkspace env reg owner workspace).mapError .refused)
  let scope ← scopeConn owner root project session
  let row ← Tx.select fun s => availableRow s.ledger owner root project scope entry
  let found ← Tx.demand (row.filter fun r => Reviewable r.1.status)
    (.lookup "Wiki entry is not available in this scope")
  Tx.require ((found.1.reviewVersion : ℤ) = version)
    (.refused (.value "Wiki entry changed; refresh before reviewing"))
  Tx.require (status = .forgotten ∨ text.sensitive (found.1.title ++ "\n" ++ found.1.content ++
      "\n" ++ found.2.record.requestSummary ++ "\n" ++ found.2.record.resultSummary) = false)
    (.refused (.safeOperation "Wiki evidence failed content screening"))
  Tx.write (reviewed text found.1 scope.memoryResetGeneration status now)
  pure (entry, status, version + 1)

/-- `forget_record`; the answer says whether there was such a record. -/
def forgetRecord (owner workspace : String) (x : ExecutionId) (project : Option ProjectId)
    (now : Time) : WikiOp Bool := do
  let root ← Tx.lift ((memoryWorkspace env reg owner workspace).mapError .refused)
  let permitted ← Tx.select fun s => decide (ProjectScope s.ledger owner root project)
  Tx.require (permitted = true)
    (.refused (.permission "Work-record project owner or workspace mismatch"))
  let changed ← Tx.select fun s => (s.ledger.workRecords.get? x).any fun m =>
    m.ownerKey = owner ∧ m.workspaceRoot = root ∧ m.projectId = project
  Tx.write fun s => if changed = true then
    forgetSource text x
      (fun w => w.status ≠ .forgotten ∨ w.content ≠ "" ∨ w.title ≠ "Forgotten topic") now s
    else s
  pure changed

end NyanyaAgent.Wiki
