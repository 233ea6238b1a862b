import NyanyaAgent.Operations.Attempts
import NyanyaAgent.Operations.Completion
import NyanyaAgent.Drafts.Lifecycle
import NyanyaAgent.Plans.Apply
import NyanyaAgent.Plans.Resolution
import NyanyaAgent.Runs.Invariant

/-!
# The world

The ledger, the clock, the workspace trees, the calls of `apply` in progress and
the claim records handed to workers. A command is one transaction; an action is a
command, one step of an apply, the passage of time, or another program's writing.
-/
namespace NyanyaAgent.System
open NyanyaAgent.Schema NyanyaAgent.Relational NyanyaAgent.Operations NyanyaAgent.Plans
open NyanyaAgent.Drafts NyanyaAgent.Memory NyanyaAgent.Runs

structure World where
  ledger : Ledger
  clock : Time
  tree : String → Workspace
  calls : List ApplyCall := []
  issued : List ClaimRecord := []

/-- A call of `apply` holds the lock file of the root. -/
def Locked (w : World) (root : String) : Prop :=
  ∃ c ∈ w.calls, c.root = root ∧ c.stage.HoldsLock

instance (w : World) (root : String) : Decidable (Locked w root) := by
  unfold Locked; infer_instance

/-- One transaction on the ledger. -/
inductive Command
  | registerWorker (worker : WorkerId)
  | heartbeat (worker : WorkerId) (closed : Bool)
  | submit (reg : Registry) (spec : OperationSpec) (owner : String) (generation : WorkerId)
      (source : Option RequestId) (project : Option ProjectId) (conversationKey : Option String)
      (fresh : TaskId) (freshSession : SessionId)
  | approve (reg : Registry) (p : PlanId) (owner : String) (hash : Hash) (generation : WorkerId)
      (fresh : TaskId) (freshSession : SessionId)
  | claim (generation : WorkerId) (slots : ℕ) (x : ExecutionId) (entry : Time)
  | renew (record : ClaimRecord) (entry : Time)
  | finish (reg : Registry) (rules : MemoryRules) (record : ClaimRecord) (reply : Reply)
      (outcome : TaskOutcome) (freshApproval : ApprovalId) (freshWiki : ℕ → WikiId) (entry : Time)
  | recover (entry : Time)
  | resume (reg : Registry) (k : TaskId) (owner : String) (generation : WorkerId)
  | recordStartFailure (k : TaskId) (owner diagnosis : String) (x : ExecutionId) (entry : Time)
  | cancel (k : TaskId) (owner : String) (selection : Selection)
  | dismiss (k : TaskId) (owner : String) (selection : Selection)
  | assess (k : TaskId) (priority : ℤ)
  | claimDelivery (k : TaskId) (owner : String) (x : ExecutionId) (attempt : ℕ)
  | settleDelivery (x : ExecutionId) (delivered : Bool) (error : String)
  | acknowledgeDelivery (k : TaskId) (owner : String)
  | propose (reg : Registry) (k : TaskId) (owner root : String) (changes : List ProposedChange)
      (baseline : List (Path × SnapshotItem)) (taskKind stamp : String)
      (draft : Option (OperationDraft × ClaimRecord)) (p : PlanId)
  | linkNoPlan (draft : OperationDraft) (record : ClaimRecord)
  | decide (p : PlanId) (owner : String) (hash : Hash) (revoke : Bool)
  | settleExpired (entry : Time)
  | reconcile (reg : Registry) (p : PlanId) (owner : String)
  | resolve (reg : Registry) (p : PlanId) (owner : String) (observedHash : Hash)
  | createDraft (reg : Registry) (record : ClaimRecord) (paths : List String) (d : DraftId)
  | openDraft (reg : Registry) (d : DraftId) (scopeHash : Hash) (owner : String)
      (generation : WorkerId) (conversationKey : Option String) (fresh : TaskId)
      (freshSession : SessionId)
  | closeDraft (reg : Registry) (d : DraftId) (owner : String) (conversationKey : Option String)
      (seenRevision : ℕ)
  | maintain
  | resetConversation (reg : Registry) (owner key workspace : String) (freshSession : SessionId)

inductive Action
  | command (c : Command)
  | tick (elapsed : ℕ)
  | startApply (reg : Registry) (p : PlanId) (owner : String) (record : Option ClaimRecord)
  | stepApply (n : ℕ) (chance : Chance)
  | crashApply (n : ℕ)
  /-- Another program leaves the workspace in any state. -/
  | external (root : String) (tree : Workspace)

variable (env : Environment)

/-- `assessment`: the priority it computes from the model's rating. -/
def assess (k : TaskId) (priority : ℤ) (l : Ledger) : Ledger :=
  (l.updateTask k fun t => { t with priority }).appendEvent
    { taskId := k, eventType := .operationRouted }

/-- A command that needs the lock file of a plan's root. -/
def withLock {α : Type} (w : World) (reg : Registry) (p : PlanId) (owner : String) (op : Op α) :
    Op α := do
  let (_, root) ← openPlanCommand env reg p owner
  Tx.require (¬ Locked w root) (.os "BlockingIOError")
  op

/-- The transaction of a command; only `claim` answers with a record. -/
def commandOp (w : World) : Command → Op (Option ClaimRecord)
  | .registerWorker worker => do
    registerWorker worker w.clock
    pure none
  | .heartbeat worker closed => do
    Tx.write (heartbeat worker closed w.clock)
    pure none
  | .submit reg spec owner generation source project conversationKey fresh freshSession => do
    let _ ← submit env reg spec owner generation source project none conversationKey fresh
      freshSession w.clock
    pure none
  | .approve reg p owner hash generation fresh freshSession => do
    let _ ← approveAndSubmitApply env reg p owner hash generation fresh freshSession w.clock
    pure none
  | .claim generation slots x entry => claim generation slots x entry w.clock
  | .renew record entry => do
    let _ ← renew record entry
    pure none
  | .finish reg rules record reply outcome freshApproval freshWiki entry => do
    finish env reg rules record reply outcome freshApproval freshWiki entry w.clock
    pure none
  | .recover entry => do
    Tx.write (recover entry w.clock)
    pure none
  | .resume reg k owner generation => do
    resume env reg k owner generation w.clock
    pure none
  | .recordStartFailure k owner diagnosis x entry => do
    recordStartFailure k owner diagnosis x entry
    pure none
  | .cancel k owner selection => do
    let _ ← cancel k owner selection w.clock
    pure none
  | .dismiss k owner selection => do
    let _ ← dismiss k owner selection w.clock
    pure none
  | .assess k priority => do
    Tx.write (assess k priority)
    pure none
  | .claimDelivery k owner x attempt => do
    let _ ← claimDelivery k owner x attempt w.clock
    pure none
  | .settleDelivery x delivered error => do
    Tx.write (settleDelivery x delivered error w.clock)
    pure none
  | .acknowledgeDelivery k owner => do
    acknowledgeDelivery k owner w.clock
    pure none
  | .propose reg k owner root changes baseline taskKind stamp draft p => do
    propose env reg w.tree k owner root changes baseline taskKind stamp draft p w.clock
    pure none
  | .linkNoPlan draft record => do
    linkNoPlan env draft record w.clock
    pure none
  | .decide p owner hash revoke => do
    decideConn p owner hash revoke w.clock
    pure none
  | .settleExpired entry => do
    Tx.write (settleExpired entry w.clock)
    pure none
  | .reconcile reg p owner => do
    let _ ← withLock env w reg p owner (reconcile env reg w.tree p owner)
    pure none
  | .resolve reg p owner observedHash => do
    withLock env w reg p owner (resolve env reg w.tree p owner observedHash w.clock)
    pure none
  | .createDraft reg record paths d => do
    let _ ← create env reg record paths d w.clock
    pure none
  | .openDraft reg d scopeHash owner generation conversationKey fresh freshSession => do
    let _ ← openAndSubmit env reg w.tree d scopeHash owner generation conversationKey fresh
      freshSession w.clock
    pure none
  | .closeDraft reg d owner conversationKey seenRevision => do
    close env reg d owner conversationKey seenRevision w.clock
    pure none
  | .maintain => do
    Tx.write (maintain w.clock)
    pure none
  | .resetConversation reg owner key workspace freshSession => do
    let root ← Tx.lift (checkWorkspace env reg workspace owner)
    let _ ← Conversation.resetConn env owner key root freshSession w.clock
    pure none

/-- A call of `apply` takes one step; a taken lock file raises at once. -/
def stepCall (w : World) (n : ℕ) (chance : Chance) : World :=
  match w.calls[n]? with
  | none => w
  | some call =>
    if call.stage = .lock ∧ Locked w call.root then
      { w with calls := w.calls.set n { call with stage := .raised } }
    else
      let (l, t, s) := applyStep env chance w.clock call w.ledger (w.tree call.root)
      { w with ledger := l, tree := Function.update w.tree call.root t
               calls := w.calls.set n { call with stage := s } }

/-- One action; a transaction that raises leaves the world as it was. -/
def step (w : World) : Action → World
  | .command c =>
    match Tx.commit (commandOp env w c) w.ledger with
    | (.ok record, l) => { w with ledger := l, issued := w.issued ++ record.toList }
    | (.error _, _) => w
  | .tick elapsed => { w with clock := w.clock + elapsed }
  | .startApply reg p owner record =>
    match Tx.commit (startApply env reg p owner record) w.ledger with
    | (.ok call, _) => { w with calls := w.calls ++ [call] }
    | (.error _, _) => w
  | .stepApply n chance => stepCall env w n chance
  | .crashApply n =>
    match w.calls[n]? with
    | none => w
    | some call => { w with calls := w.calls.set n { call with stage := .raised } }
  | .external root tree => { w with tree := Function.update w.tree root tree }

/-- The draft a worker loaded: its revision and plan may be out of date, its identity is not. -/
def LoadedDraft (l : Ledger) (draft : OperationDraft) : Prop :=
  ∃ d, l.drafts.get? draft.id = some d ∧ d.sourceTaskId = draft.sourceTaskId ∧
    d.ownerKey = draft.ownerKey ∧ d.workspace = draft.workspace ∧ d.paths = draft.paths

/-- A worker proposes for its own claim, and for its own draft only when nothing was to be read. -/
def LegalFeedback (w : World) (draft : OperationDraft) (record : ClaimRecord) : Prop :=
  record ∈ w.issued ∧ LoadedDraft w.ledger draft ∧ (record.spec.draftId = none → draft.paths = [])

/-- Identifiers the ledger has not used, and what the callers of each command promise. -/
def LegalCommand (w : World) : Command → Prop
  | .submit _ spec _ _ source _ _ fresh _ =>
    w.ledger.tasks.get? fresh = none ∧ (spec.kind = .request → spec.planId = none) ∧
      (spec.kind = .apply → source = none)
  | .approve _ _ _ _ _ fresh _ => w.ledger.tasks.get? fresh = none
  | .openDraft _ _ _ _ _ _ fresh _ => w.ledger.tasks.get? fresh = none
  | .claim _ _ _ entry => entry ≤ w.clock
  | .renew _ entry => entry ≤ w.clock
  | .finish _ _ record _ _ _ _ entry => record ∈ w.issued ∧ entry ≤ w.clock
  | .recover entry => entry ≤ w.clock
  | .recordStartFailure _ _ _ _ entry => entry ≤ w.clock
  | .settleExpired entry => entry ≤ w.clock
  | .propose _ k _ _ _ _ _ _ (some (draft, record)) _ =>
    record.taskId = k ∧ LegalFeedback w draft record
  | .propose _ k _ _ _ _ _ _ none _ =>
    (∀ d ∈ w.ledger.drafts.rows, d.sourceTaskId ≠ k) ∧
      ∀ o, w.ledger.operations.get? k = some o → o.spec.kind = .request ∧ o.spec.draftId = none
  | .linkNoPlan draft record => LegalFeedback w draft record
  | .createDraft _ record _ _ =>
    record ∈ w.issued ∧ record.spec.kind = .request ∧ record.spec.draftId = none ∧
      ∀ p ∈ w.ledger.plans.rows, p.taskId = record.taskId →
        ∃ d ∈ w.ledger.drafts.rows, d.sourceTaskId = record.taskId
  | _ => True

def Legal (w : World) : Action → Prop
  | .command c => LegalCommand w c
  | .startApply _ _ _ (some record) => record ∈ w.issued
  | _ => True

/-- A ledger without operations: imported tasks, and a queued one never started. -/
structure ImportedLedger (l : Ledger) : Prop where
  operations : ∀ k, l.operations.get? k = none
  plans : ∀ p, l.plans.get? p = none
  journal : ∀ j, l.journal.get? j = none
  drafts : ∀ d, l.drafts.get? d = none
  executions : ∀ x e, l.executions.get? x = some e → ∃ t, l.tasks.get? e.taskId = some t ∧
    (t.status = .queued → e.status = .pending)
  claims : ∀ k c, l.claims.get? k = some c → ∃ e t, l.executions.get? c.executionId = some e ∧
    e.taskId = k ∧ l.tasks.get? k = some t ∧ (t.status = .queued → c.released = true)
  results : ∀ x r, l.results.get? x = some r → ∃ e, l.executions.get? x = some e
  turns : ∀ k, l.turns.get? k = none
  events : ∀ v ∈ l.events, v.eventType ≠ .planResolved

structure Init (w : World) : Prop where
  ledger : ImportedLedger w.ledger
  calls : w.calls = []
  issued : w.issued = []

/-- The worlds that lawful callers reach from an imported ledger. -/
def ReachableWorld (w : World) : Prop := Reachable (step env) Legal Init w

end NyanyaAgent.System
