import NyanyaAgent.Operations.Attempts
import NyanyaAgent.Text.Reader
import Mathlib.Algebra.Ring.Nat

/-!
# Stored specifications

`operation_spec.py` over texts: what `dumps` writes into `spec_json` and what `loads` accepts,
and the scan of `claim` over the texts of its rows.
-/
namespace NyanyaAgent.Operations
open NyanyaAgent.Schema NyanyaAgent.Relational NyanyaAgent.Conversation NyanyaAgent.Text

/-- What Python's characters and numbers decide. -/
structure PythonText where
  /-- `str.isalnum` of one character. -/
  alnum : ℕ → Bool
  /-- The literal is a float equal to zero. -/
  zero : Codes → Bool

inductive LoadError
  | safeOperation (message : String)
  /-- `JSONDecodeError` and `UnicodeEncodeError`. -/
  | value
  | type
  deriving DecidableEq, Repr

/-- An `OperationSpec` instance, whose fields hold what it was made with. -/
structure SpecObject where
  version : Json := .int 1
  kind : Json := .text (codes "request")
  prompt : Json := .text []
  workspace : Json := .text []
  profile : Json := .text (codes "auto")
  timeoutSeconds : Json := .int 600
  planId : Json := .text []
  draftId : Json := .text []

def isText (s : String) : Json → Bool
  | .text t => t == codes s
  | _ => false

def unsupportedKind : LoadError := .safeOperation "Unsupported operation version or kind"

/-- A set membership, which hashes the value. -/
def checkKind : Json → Except LoadError Unit
  | .array _ | .object _ => .error .type
  | kind => if isText "request" kind ∨ isText "apply" kind then .ok () else .error unsupportedKind

def checkVersion : Json → Except LoadError Unit
  | .int 1 => .ok ()
  | _ => .error unsupportedKind

def profiles : List String := ["auto", "flash", "luna", "sol", "astra"]

def checkProfile (profile : Json) : Except LoadError Unit :=
  if profiles.any fun p => isText p profile then .ok ()
  else .error (.safeOperation "Unknown model profile")

def isSurrogate (c : ℕ) : Bool := highSurrogate c || lowSurrogate c

def encodedSize (c : ℕ) : ℕ :=
  if c ≤ 127 then 1 else if c ≤ 2047 then 2 else if c ≤ 65535 then 3 else 4

/-- `len(text.encode())`. -/
def encodedLength (s : Codes) : Except LoadError ℕ :=
  if s.any isSurrogate = true then .error .value else .ok (s.map encodedSize).sum

def checkPrompt : Json → Except LoadError Unit
  | .text p =>
    match encodedLength p with
    | .error e => .error e
    | .ok n =>
      if 60000 < n then .error (.safeOperation "Prompt exceeds operation limit") else .ok ()
  | _ => .error (.safeOperation "Prompt exceeds operation limit")

def checkTimeout : Json → Except LoadError Unit
  | .int n => if 1 ≤ n ∧ n ≤ 3600 then .ok () else .error (.safeOperation "Invalid timeout")
  | _ => .error (.safeOperation "Invalid timeout")

/-- `Path(workspace).is_absolute()`. -/
def checkAbsolute : Json → Except LoadError Unit
  | .text w =>
    if w.head? = some 47 then .ok ()
    else .error (.safeOperation "An absolute registered workspace is required")
  | _ => .error .type

variable (py : PythonText)

def truthy : Json → Bool
  | .null => false
  | .bool b => b
  | .int n => n ≠ 0
  | .float literal => ¬ py.zero literal
  | .text s => ¬ s.isEmpty
  | .array items => ¬ items.isEmpty
  | .object members => ¬ members.isEmpty

def checkPlan (kind planId : Json) : Except LoadError Unit :=
  if isText "apply" kind = true ∧ truthy py planId = false then
    .error (.safeOperation "Apply requires a persisted plan")
  else .ok ()

/-- `draft_` and characters of which every one is alphanumeric. -/
def isDraftName (d : Codes) : Bool :=
  (codes "draft_").isPrefixOf d && ! (d.drop 6).isEmpty && (d.drop 6).all py.alnum

def checkDraft (kind : Json) : Json → Except LoadError Unit
  | .text d =>
    if 80 < d.length ∨ d ≠ [] ∧ (isText "request" kind = false ∨ isDraftName py d = false) then
      .error (.safeOperation "Invalid draft identity")
    else .ok ()
  | _ => .error (.safeOperation "Invalid draft identity")

def SpecObject.validate (o : SpecObject) : Except LoadError Unit := do
  checkVersion o.version
  checkKind o.kind
  checkProfile o.profile
  checkPrompt o.prompt
  checkTimeout o.timeoutSeconds
  checkAbsolute o.workspace
  checkPlan py o.kind o.planId
  checkDraft py o.kind o.draftId

def specFields : List String :=
  ["version", "kind", "prompt", "workspace", "profile", "timeout_seconds", "plan_id", "draft_id"]

/-- The last member of a name, as in the dictionary `json.loads` builds. -/
def member (members : List (Codes × Json)) (name : String) (default : Json) : Json :=
  ((members.reverse.find? fun m => m.1 == codes name).map (·.2)).getD default

/-- `cls(**members)`. -/
def construct (members : List (Codes × Json)) : Except LoadError SpecObject :=
  if members.all fun m => specFields.any fun f => m.1 == codes f then
    .ok
      { version := member members "version" (.int 1)
        kind := member members "kind" (.text (codes "request"))
        prompt := member members "prompt" (.text [])
        workspace := member members "workspace" (.text [])
        profile := member members "profile" (.text (codes "auto"))
        timeoutSeconds := member members "timeout_seconds" (.int 600)
        planId := member members "plan_id" (.text [])
        draftId := member members "draft_id" (.text []) }
  else .error .type

def maxSpecLength : ℕ := 500000

def loads (value : Codes) : Except LoadError SpecObject :=
  if maxSpecLength < value.length then .error (.safeOperation "Operation too large")
  else
    match readJson value with
    | none => .error .value
    | some (.object members) => do
      let o ← construct members
      o.validate py
      pure o
    | some _ => .error .type

/-- A specification whose fields are of the types the class declares. -/
structure SpecRecord where
  version : ℤ
  kind : Codes
  prompt : Codes
  workspace : Codes
  profile : Codes
  timeoutSeconds : ℤ
  planId : Codes
  draftId : Codes

def SpecRecord.object (r : SpecRecord) : SpecObject where
  version := .int r.version
  kind := .text r.kind
  prompt := .text r.prompt
  workspace := .text r.workspace
  profile := .text r.profile
  timeoutSeconds := .int r.timeoutSeconds
  planId := .text r.planId
  draftId := .text r.draftId

/-- `json.dumps(asdict(spec), ensure_ascii=False, sort_keys=True)`. -/
def SpecRecord.text (r : SpecRecord) : Codes :=
  writeObject escapeCode [32]
    [(codes "draft_id", writeText escapeCode r.draftId),
     (codes "kind", writeText escapeCode r.kind),
     (codes "plan_id", writeText escapeCode r.planId),
     (codes "profile", writeText escapeCode r.profile),
     (codes "prompt", writeText escapeCode r.prompt),
     (codes "timeout_seconds", writeInt r.timeoutSeconds),
     (codes "version", writeInt r.version),
     (codes "workspace", writeText escapeCode r.workspace)]

def SpecRecord.dumps (r : SpecRecord) : Except LoadError Codes := do
  r.object.validate py
  pure r.text

/-- The texts of identifiers. -/
structure SpecNames where
  plan : PlanId → Codes
  draft : DraftId → Codes

variable (names : SpecNames)

def kindText : OperationKind → String
  | .request => "request"
  | .apply => "apply"

def profileText : Profile → String
  | .auto => "auto"
  | .flash => "flash"
  | .luna => "luna"
  | .sol => "sol"
  | .astra => "astra"

/-- The specification as the class holds it. -/
def specRecord (spec : OperationSpec) : SpecRecord where
  version := spec.version
  kind := codes (kindText spec.kind)
  prompt := codes spec.prompt
  workspace := codes spec.workspace
  profile := codes (profileText spec.profile)
  timeoutSeconds := spec.timeoutSeconds
  planId := spec.planId.elim [] names.plan
  draftId := spec.draftId.elim [] names.draft

/-- `spec_json`, as an accepted operation stores it. -/
def specJson (spec : OperationSpec) : Codes := (specRecord names spec).text

/-- `OperationSpec.loads(row["spec_json"])`. -/
def storedSpec (o : TaskOperation) : Except LoadError SpecObject := loads py (specJson names o.spec)

/-- The two workspaces are the same text, which `validate` saw to. -/
def sameText : Json → Json → Bool
  | .text s, .text t => s == t
  | _, _ => false

/-- The operations of the claims that are not released. -/
def activeOperations (l : Ledger) : List TaskOperation :=
  l.claims.rows.filterMap fun c => if c.released = false then l.operations.get? c.taskId else none

/-- `any` over the active rows, which stops at the first that conflicts. -/
def busyStored (spec : SpecObject) : List TaskOperation → Except LoadError Bool
  | [] => .ok false
  | o :: rest => do
    let other ← storedSpec py names o
    if sameText other.workspace spec.workspace = true ∧
        (isText "apply" spec.kind = true ∨ isText "apply" other.kind = true) then pure true
    else busyStored spec rest

/-- The loop of `claim` over its rows, up to the one it takes. -/
def scanStored (l : Ledger) :
    List (AgentTask × TaskOperation) → Except LoadError (Option (AgentTask × TaskOperation))
  | [] => .ok none
  | (t, o) :: rest =>
    if HasEarlierWork l t.id then scanStored l rest
    else do
      let spec ← storedSpec py names o
      let busy ← busyStored py names spec (activeOperations l)
      if busy = true then scanStored l rest else pure (some (t, o))

/-- `claim` over the stored texts; an unreadable one ends it before it writes. -/
def claimStored (generation : WorkerId) (slots : ℕ) (x : ExecutionId) (entry now : Time)
    (l : Ledger) : Except LoadError (Except Err (Option ClaimRecord) × Ledger) :=
  if slots ≤ activeClaims l then .ok (.ok none, l)
  else do
    let row ← scanStored py names l (claimable l generation)
    match row with
    | none => pure (.ok none, l)
    | some (t, o) =>
      pure (Tx.commit (do
        startAttempt t o.spec generation x entry now
        pure (some ⟨t.id, generation, x, o.spec, t.requestedBy⟩)) l)

end NyanyaAgent.Operations
