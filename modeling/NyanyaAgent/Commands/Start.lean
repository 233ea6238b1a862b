import NyanyaAgent.Commands.Transitions

/-!
# Starting a command

`start_command` of `execution_runtime.py`: any number of calls, each transaction a step of
its own, with the decisions of approvals and the time in between.
-/
namespace NyanyaAgent.Commands
open NyanyaAgent.Schema NyanyaAgent.Relational NyanyaAgent.Queue NyanyaAgent.Leases

/-- What `command_scope` hashes. -/
structure CommandScope where
  command : List String
  cwd : String
  adapter : String
  resource : ResourceKey
  env : List (String × String)
  timeout : ℤ
  deriving DecidableEq

/-- The coordinator and the text functions it calls. -/
structure Coordinator where
  adapters : List String
  /-- The hash of the scope's JSON text. -/
  scopeHash : CommandScope → Hash
  redact : String → String
  leaseMetadata : TaskId → ApprovalId → String

/-- `none` for a resource key or an approval that is missing or empty. -/
structure CommandRequest where
  taskId : TaskId
  adapterType : String
  command : List String
  cwd : String
  timeoutSeconds : ℤ := 600
  env : List (String × String) := []
  writeResourceKey : Option ResourceKey := none
  approvalId : Option ApprovalId := none
  deriving DecidableEq

/-- What a write call works with; `cwd` is resolved. -/
structure WriteGrant where
  resourceKey : ResourceKey
  approvalId : ApprovalId
  cwd : String
  deriving DecidableEq

/-- `command_scope` but for the hash. -/
def CommandRequest.scope (r : CommandRequest) (g : WriteGrant) : CommandScope where
  command := r.command
  cwd := g.cwd
  adapter := r.adapterType
  resource := g.resourceKey
  env := r.env
  timeout := r.timeoutSeconds

/-- The seconds the lease of a call lasts. -/
def CommandRequest.ttlSeconds (r : CommandRequest) : ℤ := max 60 (r.timeoutSeconds + 30)

/-- Where a `start_command` stands between two transactions. -/
inductive StartStage
  /-- About to check the approval. -/
  | checking (g : WriteGrant)
  | creating (g : Option WriteGrant)
  | acquiring (x : ExecutionId) (g : WriteGrant)
  /-- The lease is another owner's; about to fail the execution. -/
  | refused (x : ExecutionId)
  /-- About to write the lease into the execution. -/
  | binding (x : ExecutionId) (g : WriteGrant) (lease : WriterLease)
  /-- About to consume the approval. -/
  | consuming (x : ExecutionId) (g : WriteGrant) (lease : WriterLease)
  /-- Inside `adapter.start`. -/
  | launching (x : ExecutionId) (lease : Option WriterLease)
  /-- In the handler; about to fail the execution. -/
  | failing (x : ExecutionId) (lease : Option WriterLease)
  /-- About to release the lease the failed execution names. -/
  | releasing (x : ExecutionId) (held : Option (ResourceKey × ℕ))
  /-- The adapter runs; about to record its session. -/
  | reporting (x : ExecutionId) (lease : Option WriterLease)
  | finishing (x : ExecutionId) (lease : Option WriterLease)
  | returned (x : ExecutionId)
  | raised (x : Option ExecutionId)
  deriving DecidableEq

structure StartCall where
  request : CommandRequest
  stage : StartStage
  deriving DecidableEq

/-- What a step is given: the id an insertion takes, the directory as `workdir` writes it,
and whether `adapter.start` returns. -/
structure StartInput where
  fresh : ExecutionId := 0
  workdir : String := ""
  started : Bool := true
  deriving DecidableEq

variable (co : Coordinator)

/-- A call up to its first transaction; `cwd` is the directory resolved, if there is one. -/
def enterCall (r : CommandRequest) (cwd : Option String) : StartStage :=
  if r.adapterType ∉ co.adapters then .raised none
  else match r.writeResourceKey with
    | none => .creating none
    | some key =>
      match r.approvalId, cwd with
      | some i, some cwd => .checking ⟨key, i, cwd⟩
      | _, _ => .raised none

def onLeases {α : Type} (m : Tx LeaseError LeaseTable α) (l : CommandLedger) :
    Except LeaseError α × CommandLedger :=
  ((m.commit l.leases).1, { l with leases := (m.commit l.leases).2 })

/-- `transition_execution` with the lease for the metadata. -/
def bindLease (x : ExecutionId) (g : WriteGrant) (lease : WriterLease) (now : Time) :
    CommandOp Unit := do
  onBase (transitionExecution x .starting false now)
  Tx.write fun l => { l with
    writerLease := fun y =>
      if y = x then some (co.redact g.resourceKey, lease.fenceToken) else l.writerLease y }

/-- `heartbeat_runtime_session` on the tables that the ledger has. -/
def heartbeatSession (x : ExecutionId) (now : Time) (l : CommandLedger) : CommandLedger :=
  { l with base := l.base.updateExecution x fun e =>
      { e with lastHeartbeatAt := some now, updatedAt := now } }

/-- The next transaction of `start_command`. -/
def startStep (r : CommandRequest) (input : StartInput) (now : ℕ) (l : CommandLedger) :
    StartStage → StartStage × CommandLedger
  | .checking g =>
    match (checkApproval g.approvalId r.taskId (co.scopeHash (r.scope g)) none now).commit l with
    | (.ok _, l') => (.creating (some g), l')
    | (.error _, l') => (.raised none, l')
  | .creating g =>
    let e : NewExecution :=
      { taskId := r.taskId, adapterType := r.adapterType, status := .starting
        workdir := input.workdir }
    match (onBase (createExecution e input.fresh now)).commit l with
    | (.ok _, l') =>
      (match g with
        | some g => .acquiring input.fresh g
        | none => .launching input.fresh none, l')
    | (.error _, l') => (.raised none, l')
  | .acquiring x g =>
    match onLeases (acquireWriterLease g.resourceKey x r.ttlSeconds
        (co.leaseMetadata r.taskId g.approvalId) now) l with
    | (.ok (some lease), l') => (.binding x g lease, l')
    | (.ok none, l') => (.refused x, l')
    | (.error _, l') => (.raised (some x), l')
  | .refused x =>
    (.raised (some x), ((onBase (transitionExecution x .failed false now)).commit l).2)
  | .binding x g lease =>
    match (bindLease co x g lease now).commit l with
    | (.ok _, l') => (.consuming x g lease, l')
    | (.error _, l') => (.raised (some x), l')
  | .consuming x g lease =>
    match (checkApproval g.approvalId r.taskId (co.scopeHash (r.scope g)) (some x) now).commit l with
    | (.ok _, l') => (.launching x (some lease), l')
    | (.error _, l') => (.failing x (some lease), l')
  | .launching x lease => (if input.started then .reporting x lease else .failing x lease, l)
  | .failing x _ =>
    match (onBase (transitionExecution x .failed false now)).commit l with
    | (.ok _, l') => (.releasing x (l'.writerLease x), l')
    | (.error _, l') => (.raised (some x), l')
  | .releasing x held =>
    match held with
    | some (key, token) => (.raised (some x), (onLeases (releaseWriterLease key x token) l).2)
    | none => (.raised (some x), l)
  | .reporting x lease => (.finishing x lease, heartbeatSession x now l)
  | .finishing x _ =>
    match (onBase (transitionExecution x .running false now)).commit l with
    | (.ok _, l') => (.returned x, l')
    | (.error _, l') => (.raised (some x), l')
  | .returned x => (.returned x, l)
  | .raised x => (.raised x, l)

structure StartWorld where
  ledger : CommandLedger := {}
  clock : ℕ := 0
  calls : List StartCall := []
  decisions : List EnteredDecision := []

inductive StartAction
  | enter (r : CommandRequest) (cwd : Option String)
  | advance (n : ℕ) (input : StartInput)
  | enterDecision (i : ApprovalId) (decision : Decision) (decidedBy : String)
  | decide (n : ℕ)
  | tick (elapsed : ℕ)

def stepStart (w : StartWorld) : StartAction → StartWorld
  | .enter r cwd => { w with calls := w.calls ++ [⟨r, enterCall co r cwd⟩] }
  | .advance n input =>
    match w.calls[n]? with
    | some c =>
      let (stage, ledger) := startStep co c.request input w.clock w.ledger c.stage
      { w with ledger := ledger, calls := w.calls.set n { c with stage := stage } }
    | none => w
  | .enterDecision i decision decidedBy =>
    { w with decisions := w.decisions ++ [⟨i, decision, decidedBy, w.clock⟩] }
  | .decide n =>
    match w.decisions[n]? with
    | some d =>
      { w with
        ledger := ((decideApproval d.approvalId d.decision d.decidedBy d.entry).commit w.ledger).2
        decisions := w.decisions.eraseIdx n }
    | none => w
  | .tick elapsed => { w with clock := w.clock + elapsed }

/-- A write command at `adapter.start`. -/
structure Launch where
  request : CommandRequest
  grant : WriteGrant
  executionId : ExecutionId
  deriving DecidableEq

def launched (w : StartWorld) : StartAction → List Launch
  | .advance n input =>
    match w.calls[n]? with
    | some c =>
      match c.stage, (startStep co c.request input w.clock w.ledger c.stage).1 with
      | .consuming x g _, .launching _ _ => [⟨c.request, g, x⟩]
      | _, _ => []
    | none => []
  | _ => []

def launches : StartWorld → List StartAction → List Launch
  | _, [] => []
  | w, a :: as => launched co w a ++ launches (stepStart co w a) as

end NyanyaAgent.Commands
