import NyanyaAgent.Operations.Environment
import NyanyaAgent.Text.Json
import Mathlib.Data.List.Sort

/-!
# Conversation context

`worker_context`: which earlier turns of a session a worker is shown, and the text they
are shown as.
-/
namespace NyanyaAgent.Conversation
open NyanyaAgent.Schema NyanyaAgent.Relational NyanyaAgent.Operations NyanyaAgent.Text

/-- The text screens of a context, with the secrets of the process they are read in. -/
structure Screens where
  /-- `_storage_disabled`. -/
  storageDisabled : String → Bool
  /-- `sensitive_content`. -/
  sensitive : String → Bool
  /-- The words of the case-folded text, each of two characters at least. -/
  words : String → List String
  /-- The stored identifier of a task. -/
  taskName : TaskId → String

def maxContextBytes : ℕ := 24 * 1024

def maxTurns : ℕ := 8

def maxRecallTurns : ℕ := 4

/-- A turn joined with its task, operation, result and latest plan. -/
structure HistoryRow where
  turn : ConversationTurn
  task : AgentTask
  operation : TaskOperation
  result : Option TaskResult
  planStatus : Option PlanStatus
  deriving DecidableEq

/-- The status of a task's latest plan in its workspace, by creation time and row order. -/
def currentPlanStatus (l : Ledger) (t : AgentTask) : Option PlanStatus :=
  ((l.plans.rows.filter fun p => p.taskId = t.id ∧ p.ownerKey = t.requestedBy ∧
    p.workspace = t.metadata.workspaceRoot).foldl
      (fun best p => match best with
        | some b => if b.createdAt ≤ p.createdAt then some p else some b
        | none => some p) none).map (·.status)

def historyRow (l : Ledger) (c : ConversationTurn) : Option HistoryRow :=
  match l.tasks.get? c.taskId, l.operations.get? c.taskId with
  | some t, some o =>
    some ⟨c, t, o, t.currentExecutionId.bind l.results.get?, currentPlanStatus l t⟩
  | _, _ => none

/-- The work of the task was forgotten. -/
def Forgotten (l : Ledger) (k : TaskId) : Prop :=
  ∃ m ∈ l.workRecords.rows.filter (fun m => m.sourceTaskId = k), m.status = .forgotten

instance (l : Ledger) (k : TaskId) : Decidable (Forgotten l k) := by
  unfold Forgotten; infer_instance

/-- The turn was taken before the one with this sequence number of the live generation. -/
def Before (session : ConversationSession) (sequence : ℕ) (c : ConversationTurn) : Prop :=
  c.generation < session.generation ∨ c.generation = session.generation ∧ c.sequence < sequence

instance (session : ConversationSession) (sequence : ℕ) (c : ConversationTurn) :
    Decidable (Before session sequence c) := by unfold Before; infer_instance

/-- The rows `_serialize` selects from. -/
def InHistory (l : Ledger) (session : ConversationSession) (sequence : ℕ)
    (project : Option ProjectId) (r : HistoryRow) : Prop :=
  session.memoryResetGeneration ≤ r.turn.generation ∧ r.task.requestedBy = session.ownerKey ∧
    r.operation.spec.workspace = session.workspaceRoot ∧ ¬ Forgotten l r.turn.taskId ∧
    Before session sequence r.turn ∧ r.task.projectId = project

instance (l : Ledger) (session : ConversationSession) (sequence : ℕ)
    (project : Option ProjectId) (r : HistoryRow) :
    Decidable (InHistory l session sequence project r) := by unfold InHistory; infer_instance

/-- `ORDER BY generation DESC, sequence DESC`. -/
def newestFirst (a b : HistoryRow) : Prop :=
  b.turn.generation < a.turn.generation ∨
    b.turn.generation = a.turn.generation ∧ b.turn.sequence ≤ a.turn.sequence

instance : DecidableRel newestFirst := fun a b => by unfold newestFirst; infer_instance

def sessionTurns (l : Ledger) (s : SessionId) : List ConversationTurn :=
  l.turns.rows.filter fun c => c.sessionId = s

def history (l : Ledger) (session : ConversationSession) (sequence : ℕ)
    (project : Option ProjectId) : List HistoryRow :=
  (((sessionTurns l session.id).filterMap (historyRow l)).filter
    (InHistory l session sequence project)).insertionSort newestFirst

/-- The words of the request that older turns are searched for. -/
def searchTokens (screens : Screens) (query : String) : List String :=
  (screens.words (String.ofList (query.toList.take 2048))).eraseDups.take 8

/-- `instr(lower(prompt || ' ' || coalesce(response,'')), token) > 0` for some token. -/
def Matches (tokens : List String) (r : HistoryRow) : Prop :=
  ∃ token ∈ tokens, ((r.task.prompt ++ " " ++ (r.result.map (·.response)).getD "").toList.map
    Char.toLower).tails.any (fun rest => token.toList.isPrefixOf rest) = true

instance (tokens : List String) (r : HistoryRow) : Decidable (Matches tokens r) := by
  unfold Matches; infer_instance

def recent (rows : List HistoryRow) : List HistoryRow := rows.take maxTurns

/-- The recalled rows, none of them a recent one. -/
def recalled (tokens : List String) (rows : List HistoryRow) : List HistoryRow :=
  if tokens ≠ [] ∧ recent rows ≠ [] then
    (rows.filter fun r => r.turn.taskId ∉ (recent rows).map (·.turn.taskId) ∧
      Matches tokens r).take maxRecallTurns
  else []

/-- The rows shown, oldest first. -/
def selected (tokens : List String) (rows : List HistoryRow) : List HistoryRow :=
  ((recent rows ++ recalled tokens rows).insertionSort newestFirst).reverse

def responseText (r : HistoryRow) : String := (r.result.map (·.response)).getD ""

/-- A row that may be shown. -/
def Shown (screens : Screens) (limit : ℕ) (r : HistoryRow) : Prop :=
  screens.storageDisabled r.task.prompt = false ∧
    r.task.prompt.utf8ByteSize + (responseText r).utf8ByteSize ≤ limit ∧
    screens.sensitive r.task.prompt = false ∧ screens.sensitive (responseText r) = false

instance (screens : Screens) (limit : ℕ) (r : HistoryRow) : Decidable (Shown screens limit r) := by
  unfold Shown; infer_instance

def statusText : TaskStatus → String
  | .queued => "queued"
  | .running => "running"
  | .cancelling => "cancelling"
  | .awaitingApproval => "awaiting_approval"
  | .blocked => "blocked"
  | .completed => "completed"
  | .failed => "failed"
  | .cancelled => "cancelled"

def outcomeText : OutcomeStatus → String
  | .succeeded => "succeeded"
  | .timedOut => "timed_out"
  | .failed => "failed"
  | .cancelled => "cancelled"
  | .awaitingApproval => "awaiting_approval"
  | .blocked => "blocked"

def planText : PlanStatus → String
  | .pending => "pending"
  | .approved => "approved"
  | .applying => "applying"
  | .applied => "applied"
  | .uncertain => "uncertain"
  | .revoked => "revoked"
  | .expired => "expired"
  | .reconciled => "reconciled"

def deliveryText : DeliveryStatus → String
  | .pending => "pending"
  | .sending => "sending"
  | .delivered => "delivered"
  | .uncertain => "uncertain"
  | .acknowledged => "acknowledged"

def replyText : ReplyKind → String
  | .answer => "answer"
  | .question => "question"

/-- The row's question is the one the session waits on. -/
def pendingQuestion (session : ConversationSession) (r : HistoryRow) : Bool :=
  decide (session.pendingTaskId = some r.turn.taskId ∧
    session.pendingExecutionId = r.task.currentExecutionId ∧
    r.result.map (·.outcome) = some .succeeded)

/-- A turn as the worker is shown it. -/
def renderTurn (screens : Screens) (session : ConversationSession) (recentIds : List TaskId)
    (r : HistoryRow) : List Char :=
  renderObject
    [("task_id", renderText (screens.taskName r.turn.taskId)),
      ("request", renderText r.task.prompt),
      ("response", renderText (responseText r)),
      ("context_source", renderText (if r.turn.taskId ∈ recentIds then "recent"
        else "related_earlier_turn")),
      ("outcome", renderText ((r.result.map fun s => outcomeText s.outcome).getD
        (statusText r.task.status))),
      ("current_task_status", renderText (statusText r.task.status)),
      ("current_plan_status",
        ((r.planStatus.map fun s => Scalar.text (planText s)).getD .null).render),
      ("delivery_status", renderText ((r.result.map fun s => deliveryText s.deliveryStatus).getD
        "no_saved_result")),
      ("reply_kind", renderText (if r.turn.completedExecutionId = r.task.currentExecutionId then
        replyText r.turn.replyKind else "answer")),
      ("pending_question", (Scalar.bool (pendingQuestion session r)).render)]

def renderContext (screens : Screens) (session : ConversationSession) (recentIds : List TaskId)
    (rows : List HistoryRow) : String :=
  String.ofList (renderObject
    [("kind", renderText "untrusted_conversation_history"),
      ("generation", (Scalar.nat session.generation).render),
      ("evidence", renderText
        "Saved attempt outcome, response and delivery; current task and plan lifecycle are separate."),
      ("turns", renderArray (rows.map (renderTurn screens session recentIds)))])

/-- A text that may be handed over. -/
def Fits (screens : Screens) (limit : ℕ) (text : String) : Prop :=
  text.utf8ByteSize ≤ limit ∧ screens.sensitive text = false

instance (screens : Screens) (limit : ℕ) (text : String) : Decidable (Fits screens limit text) := by
  unfold Fits; infer_instance

/-- The rows left when the oldest are dropped until their text fits. -/
def trim (screens : Screens) (limit : ℕ) (render : List HistoryRow → String) :
    List HistoryRow → List HistoryRow
  | [] => []
  | r :: rest => if Fits screens limit (render (r :: rest)) then r :: rest
    else trim screens limit render rest

def emptyContext : String := "\x7b\x7d"

/-- The rows `_serialize` renders. -/
def contextRows (screens : Screens) (l : Ledger) (session : ConversationSession) (sequence : ℕ)
    (query : String) (project : Option ProjectId) (limit : ℕ) : List HistoryRow :=
  let rows := history l session sequence project
  trim screens limit (renderContext screens session ((recent rows).map (·.turn.taskId)))
    ((selected (searchTokens screens query) rows).filter (Shown screens limit))

def serialize (screens : Screens) (l : Ledger) (session : ConversationSession) (sequence : ℕ)
    (query : String) (project : Option ProjectId) (maxBytes : ℤ) : Except Err String :=
  if maxBytes < 2 then
    .error (.value "Conversation context limit must allow an empty JSON object")
  else
    let limit := min maxBytes.toNat maxContextBytes
    let shown := contextRows screens l session sequence query project limit
    if shown = [] then .ok emptyContext
    else .ok (renderContext screens session
      ((recent (history l session sequence project)).map (·.turn.taskId)) shown)

variable (env : Environment)

def workerContext (reg : Registry) (screens : Screens) (l : Ledger) (k : TaskId)
    (owner workspace : String) (maxBytes : ℤ) : Except Err String :=
  match checkWorkspace env reg workspace owner with
  | .error e => .error e
  | .ok root =>
    match l.turns.get? k with
    | none => .ok emptyContext
    | some turn =>
      match l.sessions.get? turn.sessionId with
      | none => .ok emptyContext
      | some session =>
        if session.ownerKey ≠ owner ∨ session.workspaceRoot ≠ root then
          .error (.permission "Conversation context scope mismatch")
        else
          match l.tasks.get? k with
          | none => .error (.value "TypeError")
          | some task =>
            if task.requestedBy ≠ owner ∨ task.metadata.workspaceRoot ≠ root then
              .error (.permission "Conversation task scope mismatch")
            else if turn.generation ≠ session.generation then .ok emptyContext
            else serialize screens l session turn.sequence task.prompt task.projectId maxBytes

end NyanyaAgent.Conversation
