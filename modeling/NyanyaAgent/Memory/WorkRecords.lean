import NyanyaAgent.Operations.Environment

/-!
# Work records

The private record `finish` keeps of a fenced successful attempt, and the topic
notes captured with it. Text screening is a parameter; the ledger evidence that
a record needs is not.
-/
namespace NyanyaAgent.Memory
open NyanyaAgent.Schema NyanyaAgent.Relational NyanyaAgent.Operations

structure WikiNote where
  topic : String
  summary : String
  key : String
  deriving DecidableEq, Repr

/-- The text rules one completion finds. -/
structure MemoryRules where
  enabled : Bool
  /-- `_storage_disabled`. -/
  storageDisabled : String → Bool
  /-- The size and content screen, with the clipped request and result. -/
  screen : String → String → TextStatus × String × String
  /-- The topic taken from a request summary when the model proposed none. -/
  defaultTopic : String → String
  /-- `validate_proposals`. -/
  validateProposals : List (String × String) → List WikiNote

/-- What the worker adds to its claim record before finishing. -/
structure Reply where
  replyKind : ReplyKind := .answer
  modelSummary : Option String := none
  wikiCandidates : Option (List (String × String)) := none

/-- `_scope_conn`: a named project must belong to the owner and the workspace. -/
def ProjectScope (l : Ledger) (owner workspace : String) (project : Option ProjectId) : Prop :=
  ∀ p ∈ project, ∃ r ∈ l.projects.rows, r.id = p ∧ r.owner = owner ∧ r.workspaceRoot = workspace

instance (l : Ledger) (owner workspace : String) (project : Option ProjectId) :
    Decidable (ProjectScope l owner workspace project) := by unfold ProjectScope; infer_instance

/-- The join that proves a completed, fenced, successful attempt. -/
def fencedAttempt (l : Ledger) (record : ClaimRecord) :
    Option (AgentTask × TaskOperation × TaskClaim) := do
  let t ← l.tasks.get? record.taskId
  let o ← l.operations.get? record.taskId
  let r ← l.results.get? record.executionId
  let e ← l.executions.get? record.executionId
  let c ← l.claims.get? record.taskId
  if t.currentExecutionId = some record.executionId ∧ r.taskId = t.id ∧ t.status = .completed ∧
      e.status = .succeeded ∧ r.outcome = .succeeded then some (t, o, c) else none

/-- The latest applied plan of a request task, by creation time and row order. -/
def latestApplied (l : Ledger) (k : TaskId) (owner workspace : String) : Option ChangePlan :=
  (l.plans.rows.filter fun p => p.taskId = k ∧ p.ownerKey = owner ∧ p.workspace = workspace ∧
    p.status = .applied).foldl
    (fun best p => match best with
      | some b => if b.createdAt ≤ p.createdAt then some p else some b
      | none => some p) none

def citedPlan (l : Ledger) (k : TaskId) (spec : OperationSpec) (owner : String) :
    Option ChangePlan :=
  match spec.kind, spec.planId with
  | .apply, some p => (l.plans.get? p).filter fun r =>
      r.ownerKey = owner ∧ r.workspace = spec.workspace ∧ r.status = .applied
  | .apply, none => none
  | .request, _ => latestApplied l k owner spec.workspace

/-- The origin of a record: its source task, project, request text, result and evidence. -/
structure Origin where
  sourceTaskId : TaskId
  projectId : Option ProjectId
  request : String
  result : String
  provenance : Provenance
  evidence : Option AppliedEvidence

/-- The record's origin, or nothing when the evidence does not allow a record. -/
def recordOrigin (l : Ledger) (t : AgentTask) (spec : OperationSpec) (owner result : String) :
    Option Origin :=
  match citedPlan l t.id spec owner with
  | none =>
    if spec.kind = .apply then none
    else some ⟨t.id, t.projectId, spec.prompt, result, .modelResult, none⟩
  | some plan =>
    match l.tasks.get? plan.taskId, l.operations.get? plan.taskId with
    | some source, some operation =>
      let journal := l.journal.rows.filter fun j => j.planId = plan.id
      if source.requestedBy ≠ owner ∨ source.status ≠ .completed ∨
          (t.projectId ≠ none ∧ source.projectId ≠ t.projectId) ∨ journal = [] ∨
          ∃ j ∈ journal, j.state ≠ .applied then none
      else if operation.spec.workspace ≠ spec.workspace then none
      else if ¬ ProjectScope l owner spec.workspace source.projectId then none
      else some
        { sourceTaskId := plan.taskId, projectId := source.projectId,
          request := operation.spec.prompt
          result := if spec.kind = .apply then
            s!"Reviewed file plan applied; {journal.length} journal entries committed."
            else result
          provenance := .reviewedApply
          evidence := some ⟨plan.id, plan.planHash, plan.taskId, source.currentExecutionId,
            journal.length⟩ }
    | _, _ => none

def insertWiki (r : WikiEntry) : Op Unit :=
  Tx.attempt (fun l => (l.wikiEntries.insert r).map fun t => { l with wikiEntries := t }) .integrity

/-- One note of `capture_conn`: skipped when the topic already says it. -/
def captureNote (m : WorkRecord) (turn : ConversationTurn) (session : ConversationSession)
    (now : Time) (note : WikiNote) (fresh : WikiId) : Op Unit := do
  let inScope := fun w : WikiEntry => w.ownerKey = m.ownerKey ∧ w.workspaceRoot = m.workspaceRoot ∧
    w.projectId = m.projectId ∧ w.sessionId = turn.sessionId ∧ w.topicKey = note.key
  let duplicate ← Tx.select fun l => l.wikiEntries.rows.any fun w =>
    inScope w ∧ w.content = note.summary ∧ (w.status = .pending ∨ w.status = .approved) ∧
      session.memoryResetGeneration ≤ w.generation ∧
      ∃ r ∈ l.workRecords.rows, r.executionId = w.sourceExecutionId ∧ r.status = .retained
  let repeated ← Tx.select fun l => l.wikiEntries.rows.any fun w =>
    w.sourceExecutionId = m.executionId ∧ w.topicKey = note.key
  let revision ← Tx.select fun l =>
    ((l.wikiEntries.rows.filter fun w => inScope w).map (·.revision)).foldl max 0 + 1
  if duplicate = true ∨ repeated = true then pure ()
  else
    insertWiki {
      id := fresh, sourceExecutionId := m.executionId, ownerKey := m.ownerKey,
      workspaceRoot := m.workspaceRoot, projectId := m.projectId, sessionId := turn.sessionId,
      generation := turn.generation, topicKey := note.key, title := note.topic,
      content := note.summary, provenance := m.provenance, revision, createdAt := now,
      updatedAt := now }

def captureNotes (m : WorkRecord) (turn : ConversationTurn) (session : ConversationSession)
    (now : Time) (fresh : ℕ → WikiId) : List WikiNote → ℕ → Op Unit
  | [], _ => pure ()
  | note :: notes, i => do
    captureNote m turn session now note (fresh i)
    captureNotes m turn session now fresh notes (i + 1)

/-- The retained, screened answer a note may cite, with its turn and session. -/
def captureSource (l : Ledger) (x : ExecutionId) :
    Option (WorkRecord × ConversationTurn × ConversationSession) := do
  let m ← l.workRecords.get? x
  let turn ← l.turns.get? m.sourceTaskId
  let session ← l.sessions.get? turn.sessionId
  if m.status = .retained ∧ m.replyKind = .answer ∧ m.textStatus = .screened ∧
      session.memoryResetGeneration ≤ turn.generation ∧ m.ownerKey = session.ownerKey ∧
      m.workspaceRoot = session.workspaceRoot then some (m, turn, session) else none

def captureConn (rules : MemoryRules) (record : ClaimRecord) (reply : Reply) (now : Time)
    (fresh : ℕ → WikiId) : Op Unit := do
  let source ← Tx.select fun l => captureSource l record.executionId
  match source with
  | none => pure ()
  | some (m, turn, session) =>
    let proposals := reply.wikiCandidates.getD
      (if m.requestSummary = "" then [] else [(rules.defaultTopic m.requestSummary, m.resultSummary)])
    captureNotes m turn session now fresh (rules.validateProposals proposals) 0

/-- The record of one completion, inserted unless the attempt already has one. -/
def saveRecord (record : ClaimRecord) (workspace owner : String) (origin : Origin)
    (rules : MemoryRules) (reply : Reply) (now : Time) (l : Ledger) : Ledger :=
  let (status, request, result) := rules.screen origin.request origin.result
  match l.workRecords.insert {
      executionId := record.executionId, taskId := record.taskId,
      sourceTaskId := origin.sourceTaskId, ownerKey := owner, workspaceRoot := workspace,
      projectId := origin.projectId, replyKind := reply.replyKind,
      provenance := origin.provenance, requestSummary := request, resultSummary := result,
      textStatus := status, evidence := origin.evidence, createdAt := now,
      expiresAt := now + days 90 } with
  | some t => { l with workRecords := t }
  | none => l

def completeConn (env : Environment) (reg : Registry) (rules : MemoryRules) (record : ClaimRecord)
    (reply : Reply) (outcome : TaskOutcome) (now : Time) (fresh : ℕ → WikiId) : Op Unit :=
  if outcome.status ≠ .succeeded ∨ rules.enabled = false then pure ()
  else do
    let row ← Tx.select fun l => fencedAttempt l record
    let (t, o, c) ← Tx.demand (row.filter fun r =>
        r.2.2.executionId = record.executionId ∧ r.2.2.workerId = record.workerId)
      (.value "Work record requires the fenced successful attempt")
    let owner := t.requestedBy
    Tx.require (c.ownerKey = owner ∧ t.metadata.ownerKey = some owner)
      (.permission "Work-record task owner mismatch")
    Tx.require (t.metadata.workspaceRoot = o.spec.workspace)
      (.permission "Work-record task workspace mismatch")
    let registered := checkWorkspace env reg o.spec.workspace owner
    let permitted ← Tx.select fun l => decide (ProjectScope l owner o.spec.workspace t.projectId)
    let origin ← Tx.select fun l =>
      recordOrigin l t o.spec owner (reply.modelSummary.getD outcome.text)
    match registered, permitted, origin with
    | .ok root, true, some origin =>
      if root ≠ o.spec.workspace ∨ rules.storageDisabled origin.request = true then pure ()
      else do
        Tx.write (saveRecord record o.spec.workspace owner origin rules reply now)
        captureConn rules record reply now fresh
    | _, _, _ => pure ()

/-- Two ledgers that differ in their work records and topic notes at most. -/
structure SameBesidesMemory (l l' : Ledger) : Prop where
  eq : l' = { l with workRecords := l'.workRecords, wikiEntries := l'.wikiEntries }

theorem SameBesidesMemory.refl (l : Ledger) : SameBesidesMemory l l := ⟨rfl⟩

theorem SameBesidesMemory.trans {l₁ l₂ l₃ : Ledger} (h₁ : SameBesidesMemory l₁ l₂)
    (h₂ : SameBesidesMemory l₂ l₃) : SameBesidesMemory l₁ l₃ := by
  obtain ⟨h₁⟩ := h₁
  obtain ⟨h₂⟩ := h₂
  rw [h₁] at h₂
  exact ⟨h₂⟩

theorem captureNote_same {m : WorkRecord} {turn : ConversationTurn} {session : ConversationSession}
    {now : Time} {note : WikiNote} {fresh : WikiId} {l l' : Ledger} {u : Unit}
    (h : Tx.Ran (captureNote m turn session now note fresh) l u l') : SameBesidesMemory l l' := by
  unfold captureNote insertWiki at h
  simp only [Tx.ran_select_bind, Tx.ran_ite, Tx.ran_pure, Tx.ran_attempt,
    Option.map_eq_some_iff] at h
  rcases h with ⟨_, _, rfl⟩ | ⟨_, t, _, rfl⟩
  · exact .refl _
  · exact ⟨rfl⟩

theorem captureNotes_same {m : WorkRecord} {turn : ConversationTurn}
    {session : ConversationSession} {now : Time} {fresh : ℕ → WikiId} {notes : List WikiNote}
    {i : ℕ} {l l' : Ledger} {u : Unit}
    (h : Tx.Ran (captureNotes m turn session now fresh notes i) l u l') :
    SameBesidesMemory l l' := by
  induction notes generalizing i l with
  | nil =>
    simp only [captureNotes, Tx.ran_pure] at h
    exact h.2 ▸ .refl _
  | cons note notes ih =>
    simp only [captureNotes, Tx.ran_bind] at h
    obtain ⟨_, l₁, h₁, h₂⟩ := h
    exact (captureNote_same h₁).trans (ih h₂)

theorem captureConn_same {rules : MemoryRules} {record : ClaimRecord} {reply : Reply} {now : Time}
    {fresh : ℕ → WikiId} {l l' : Ledger} {u : Unit}
    (h : Tx.Ran (captureConn rules record reply now fresh) l u l') : SameBesidesMemory l l' := by
  unfold captureConn at h
  rw [Tx.ran_select_bind] at h
  split at h
  · exact (Tx.ran_pure.mp h).2 ▸ .refl _
  · exact captureNotes_same h

theorem saveRecord_same (record : ClaimRecord) (workspace owner : String) (origin : Origin)
    (rules : MemoryRules) (reply : Reply) (now : Time) (l : Ledger) :
    SameBesidesMemory l (saveRecord record workspace owner origin rules reply now l) := by
  unfold saveRecord
  dsimp only
  split <;> exact ⟨rfl⟩

/-- Recording finished work writes work records and topic notes only. -/
theorem completeConn_same {env : Environment} {reg : Registry} {rules : MemoryRules}
    {record : ClaimRecord} {reply : Reply} {outcome : TaskOutcome} {now : Time}
    {fresh : ℕ → WikiId} {l l' : Ledger} {u : Unit}
    (h : Tx.Ran (completeConn env reg rules record reply outcome now fresh) l u l') :
    SameBesidesMemory l l' := by
  unfold completeConn at h
  rw [Tx.ran_ite] at h
  rcases h with ⟨_, h⟩ | ⟨_, h⟩
  · exact (Tx.ran_pure.mp h).2 ▸ .refl _
  simp only [Tx.ran_select_bind, Tx.ran_demand_bind, Tx.ran_require_bind] at h
  obtain ⟨⟨t, o, c⟩, _, _, _, h⟩ := h
  dsimp only at h
  split at h
  · rw [Tx.ran_ite] at h
    rcases h with ⟨_, h⟩ | ⟨_, h⟩
    · exact (Tx.ran_pure.mp h).2 ▸ .refl _
    · rw [Tx.ran_write_bind] at h
      exact (saveRecord_same ..).trans (captureConn_same h)
  · exact (Tx.ran_pure.mp h).2 ▸ .refl _

end NyanyaAgent.Memory
