import NyanyaAgent.Operations.Admission
import NyanyaAgent.Runs.Invariant

/-!
# Ingress

Receipts of connector messages, the import of legacy requests and the operation submits that
meet on one request, each statement group that commits on its own as one step.
-/
namespace NyanyaAgent.Ingress
open NyanyaAgent.Schema NyanyaAgent.Relational NyanyaAgent.Operations

inductive RequestStatus
  | received | queued | running | completed | failed | cancelled | ignored
  | other (text : String)
  deriving DecidableEq, Repr

structure AgentRequest where
  id : RequestId
  source : String := "discord"
  channelId : String := ""
  userId : String := ""
  /-- `message_id` of the metadata. -/
  messageId : Option String := none
  mode : String := "auto"
  provider : String := ""
  command : String := ""
  prompt : String := ""
  status : RequestStatus := .received
  error : String := ""
  createdAt : Time
  updatedAt : Time
  startedAt : Option Time := none
  endedAt : Option Time := none
  deriving DecidableEq, Repr

structure MessageIdentity where
  source : String
  channelId : String
  userId : String
  messageId : String
  deriving DecidableEq, Repr

/-- `_validate_message_identity`. -/
def MessageIdentity.Valid (m : MessageIdentity) : Prop :=
  m.source ≠ "" ∧ m.channelId ≠ "" ∧ m.userId ≠ "" ∧ m.messageId ≠ ""

instance (m : MessageIdentity) : Decidable m.Valid := by
  unfold MessageIdentity.Valid; infer_instance

def Carries (m : MessageIdentity) (r : AgentRequest) : Prop :=
  r.source = m.source ∧ r.channelId = m.channelId ∧ r.userId = m.userId ∧
    r.messageId = some m.messageId

instance (m : MessageIdentity) (r : AgentRequest) : Decidable (Carries m r) := by
  unfold Carries; infer_instance

/-- The request rows beside the ledger. -/
structure Database where
  requests : Table AgentRequest.id
  ledger : Ledger

def messageRequestId (d : Database) (m : MessageIdentity) : Option RequestId :=
  (d.requests.rows.find? fun r => Carries m r).map (·.id)

/-- The row `create_agent_request` writes. -/
def receipt (m : MessageIdentity) (request : AgentRequest) : AgentRequest :=
  { request with
    source := m.source, channelId := m.channelId, userId := m.userId
    messageId := some m.messageId, error := "", startedAt := none, endedAt := none }

/-- `claim_agent_request`; the new identifier is the one of `request`. -/
def claimAgentRequest (m : MessageIdentity) (request : AgentRequest) :
    Tx Err Database (RequestId × Bool) := do
  Tx.require m.Valid (.value "Message identity must contain source, channel, user and message")
  let prior ← Tx.select fun d => messageRequestId d m
  match prior with
  | some q => pure (q, false)
  | none => do
    Tx.attempt (fun d => (d.requests.insert (receipt m request)).map fun t =>
      { d with requests := t }) .integrity
    pure (request.id, true)

/-- What an import derives from a request: the digests of `_legacy_ids` and `safe_summary`. -/
structure LegacyNames where
  task : RequestId → TaskId
  execution : RequestId → ExecutionId
  summary : String → String

def legacyTaskStatus : RequestStatus → TaskStatus
  | .received | .queued => .queued
  | .running => .running
  | .completed => .completed
  | .failed => .failed
  | .cancelled | .ignored => .cancelled
  | .other _ => .blocked

def legacyExecutionStatus : RequestStatus → ExecutionStatus
  | .received | .queued => .pending
  | .running => .running
  | .completed => .succeeded
  | .failed => .failed
  | .cancelled | .ignored => .cancelled
  | .other _ => .lost

/-- The request a mirror reads; control traffic is not imported. -/
def readRequest (d : Database) (q : RequestId) : Option AgentRequest :=
  (d.requests.get? q).filter fun r => r.mode ∉ ["control", "access_control", "ignored"]

/-- `SELECT id FROM agent_tasks WHERE source_request_id = ?`. -/
def adoptedTask (l : Ledger) (q : RequestId) : Option AgentTask :=
  l.tasks.rows.find? fun t => t.sourceRequestId = some q

/-- What the reads of `mirror_legacy_request` before its first write lead to. -/
inductive Look
  | answered (k : Option TaskId)
  | importing (r : AgentRequest)

def lookRequest (q : RequestId) (d : Database) : Look :=
  match readRequest d q with
  | none => .answered none
  | some r =>
    match adoptedTask d.ledger q with
    | some t => .answered (some t.id)
    | none => .importing r

variable (env : Environment) (names : LegacyNames)

def firstText (texts : List String) (default : String) : String :=
  (texts.find? fun s => s ≠ "").getD default

def legacyEnd (r : AgentRequest) : Option Time :=
  if (legacyTaskStatus r.status).Terminal then r.endedAt else none

def legacyTask (r : AgentRequest) : AgentTask :=
  { id := names.task r.id, sourceRequestId := some r.id
    title := names.summary (firstText [r.command, r.prompt] "Messenger request")
    prompt := r.prompt, status := legacyTaskStatus r.status
    requestedBy := if r.userId = "" then "operator" else r.source ++ "-user:" ++ r.userId
    createdAt := r.createdAt, updatedAt := r.updatedAt, completedAt := legacyEnd r }

def legacyExecution (r : AgentRequest) : Execution :=
  { id := names.execution r.id, taskId := names.task r.id
    adapterType := firstText [r.provider, r.mode] "messenger"
    status := legacyExecutionStatus r.status, legacy := true
    createdAt := r.createdAt, startedAt := r.startedAt, endedAt := r.endedAt
    lastHeartbeatAt := some r.updatedAt, updatedAt := r.updatedAt }

def importTask (r : AgentRequest) (l : Ledger) : Option Ledger :=
  match l.tasks.get? (names.task r.id) with
  | none =>
    if ∃ t ∈ l.tasks.rows, t.sourceRequestId = some r.id then none
    else (l.tasks.insert (legacyTask names r)).map fun t => { l with tasks := t }
  | some t =>
    if t.status ≠ legacyTaskStatus r.status then
      some (l.updateTask (names.task r.id) fun t =>
        { t with status := legacyTaskStatus r.status, updatedAt := r.updatedAt
                 completedAt := legacyEnd r })
    else some l

def importExecution (r : AgentRequest) (l : Ledger) : Option Ledger :=
  match l.executions.get? (names.execution r.id) with
  | none =>
    (l.executions.insert (legacyExecution names r)).map fun t =>
      ({ l with executions := t } : Ledger).updateTask (names.task r.id) fun t =>
        { t with currentExecutionId := some (names.execution r.id) }
  | some e =>
    if e.status ≠ legacyExecutionStatus r.status then
      some (l.updateExecution (names.execution r.id) fun e =>
        { e with status := legacyExecutionStatus r.status, error := env.redact r.error
                 startedAt := r.startedAt, endedAt := r.endedAt
                 lastHeartbeatAt := some r.updatedAt, updatedAt := r.updatedAt })
    else some l

/-- The rest of `mirror_legacy_request`, once no adopted task was found: the reads of the two
rows it may write, and its writes. Their events are left out. -/
def importRequest (r : AgentRequest) : Op TaskId := do
  Tx.attempt (importTask names r) .integrity
  Tx.attempt (importExecution env names r) .integrity
  Tx.write fun l => l.updateTask (names.task r.id) fun t => { t with updatedAt := r.updatedAt }
  pure (names.task r.id)

/-- The database, the imports between their reads and their writes with the database they
read, and the answers of the receipts so far. -/
structure IngressWorld where
  db : Database
  imports : List (AgentRequest × Database)
  receipts : List (MessageIdentity × Bool)

/-- A mirror may be called for any request, by a reconciliation or on its own. -/
inductive IngressAction
  | deliver (m : MessageIdentity) (request : AgentRequest)
  | submit (reg : Registry) (spec : OperationSpec) (owner : String) (generation : WorkerId)
      (source : Option RequestId) (project : Option ProjectId) (parent : Option TaskId)
      (conversationKey : Option String) (fresh : TaskId) (freshSession : SessionId) (now : Time)
  | look (q : RequestId)
  | write (i : ℕ)
  /-- Any other transaction on the ledger, with what it leaves. -/
  | work (after : Ledger)

def stepIngress (w : IngressWorld) : IngressAction → IngressWorld
  | .deliver m request =>
    match Tx.commit (claimAgentRequest m request) w.db with
    | (.ok answer, d) => { w with db := d, receipts := w.receipts ++ [(m, answer.2)] }
    | (.error _, _) => w
  | .submit reg spec owner generation source project parent key fresh session now =>
    { w with db := { w.db with ledger := (Tx.commit (submit env reg spec owner generation source
        project parent key fresh session now) w.db.ledger).2 } }
  | .look q =>
    match lookRequest q w.db with
    | .answered _ => w
    | .importing r => { w with imports := w.imports ++ [(r, w.db)] }
  | .write i =>
    match w.imports[i]? with
    | none => w
    | some (r, _) =>
      { w with
        db := { w.db with ledger := (Tx.commit (importRequest env names r) w.db.ledger).2 }
        imports := w.imports.eraseIdx i }
  | .work after => { w with db := { w.db with ledger := after } }

/-- The request a task carries and its owner. -/
def identityOf (l : Ledger) (k : TaskId) : Option (Option RequestId × String) :=
  (l.tasks.get? k).map fun t => (t.sourceRequestId, t.requestedBy)

/-- What other transactions leave alone: no task changes its request or its owner, no operation
goes, and what is new carries no request. -/
structure Worked (l l' : Ledger) : Prop where
  tasks : ∀ k, identityOf l' k = identityOf l k ∨
    identityOf l k = none ∧ ∃ owner, identityOf l' k = some (none, owner)
  operations : ∀ k, l.operations.get? k ≠ none → l'.operations.get? k ≠ none
  new : ∀ k, l.operations.get? k = none → l'.operations.get? k ≠ none →
    ∃ owner, identityOf l' k = some (none, owner)

/-- What the callers see to: an identifier of a new task is not in use. -/
def LegalIngress (w : IngressWorld) : IngressAction → Prop
  | .submit _ _ _ _ _ _ _ _ fresh _ _ => w.db.ledger.tasks.get? fresh = none
  | .work after => Worked w.db.ledger after
  | _ => True

/-- Nothing is committed between the reads and the writes of an import. -/
def Uninterrupted (w : IngressWorld) (a : IngressAction) : Prop :=
  LegalIngress w a ∧ ∀ i, a = .write i → ∀ r d, w.imports[i]? = some (r, d) → d = w.db

end NyanyaAgent.Ingress
