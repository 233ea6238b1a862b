import NyanyaAgent.Schema.Ledger

/-!
# The environment of an operation

What the operations read besides the ledger: path resolution, the digest, the
JSON renderings whose hashes they compare, the text screens, and the workspace
registration a call finds. Path resolution is fixed during a run; the
registration may differ from call to call.
-/
namespace NyanyaAgent.Operations
open NyanyaAgent.Schema NyanyaAgent.Relational

structure Environment where
  /-- `str(Path(value).resolve(strict=True))`, or no such file. -/
  resolve : String → Option String
  /-- `hashlib.sha256`. -/
  sha256 : Bytes → Hash
  encode : String → Bytes
  /-- The bytes are UTF-8. -/
  decodable : Bytes → Bool
  /-- `json.dumps(changes, ensure_ascii=False, sort_keys=True)`, encoded. -/
  dumpChanges : List PlannedChange → Bytes
  dumpEvidence : List FileEvidence → Bytes
  dumpScope : DraftId → String → String → List Path → Option (SessionId × ℕ) → Bytes
  redact : String → String
  /-- `private_path_part`. -/
  privatePart : String → Bool
  /-- `_context_path_allowed`. -/
  contextAllowed : Path → Bool
  /-- The null byte and secret screen of a draft input. -/
  sensitive : Bytes → Bool

/-- The workspace configuration as one call reads it. -/
structure Registry where
  isDir : String → Bool
  /-- `is_allowed_workspace_path`. -/
  allowed : String → Bool
  /-- The `workspace` entry of an owner, empty when missing. -/
  assigned : String → String

variable (env : Environment)

def digest (data : Option Bytes) : Option Hash := data.map env.sha256

def planHash (changes : List PlannedChange) : Hash := env.sha256 (env.dumpChanges changes)

def evidenceHash (evidence : List FileEvidence) : Hash := env.sha256 (env.dumpEvidence evidence)

def connectorOwner (owner : String) : Bool :=
  owner.startsWith "discord-user:" || owner.startsWith "telegram-user:"

def checkWorkspace (reg : Registry) (workspace owner : String) : Except Err String :=
  match env.resolve workspace with
  | none => .error (.os "No such file or directory")
  | some root =>
    if reg.isDir root = false ∨ root = "/" ∨ reg.allowed root = false then
      .error (.safeOperation "Workspace is not explicitly allowed")
    else if connectorOwner owner = true then
      if reg.assigned owner = "" then
        .error (.permission "Workspace registration does not match task owner")
      else match env.resolve (reg.assigned owner) with
        | none => .error (.os "No such file or directory")
        | some other =>
          if other ≠ root then
            .error (.permission "Workspace registration does not match task owner")
          else .ok root
    else .ok root

theorem resolve_of_checkWorkspace {reg : Registry} {workspace owner root : String}
    (h : checkWorkspace env reg workspace owner = .ok root) : env.resolve workspace = some root := by
  unfold checkWorkspace at h
  split at h
  · cases h
  · rename_i r hr
    rw [hr]
    split_ifs at h
    · split at h
      · cases h
      · split_ifs at h
        exact congrArg some (Except.ok.inj h)
    · exact congrArg some (Except.ok.inj h)

/-- `OperationSpec.validate`; the kind and the profile are well typed already. -/
def validate (spec : OperationSpec) : Except Err Unit :=
  if spec.version ≠ 1 then
    .error (.safeOperation "Unsupported operation version or kind")
  else if 60000 < spec.prompt.utf8ByteSize then
    .error (.safeOperation "Prompt exceeds operation limit")
  else if ¬ (1 ≤ spec.timeoutSeconds ∧ spec.timeoutSeconds ≤ 3600) then
    .error (.safeOperation "Invalid timeout")
  else if spec.workspace.startsWith "/" = false then
    .error (.safeOperation "An absolute registered workspace is required")
  else if spec.kind = .apply ∧ spec.planId = none then
    .error (.safeOperation "Apply requires a persisted plan")
  else if spec.draftId ≠ none ∧ spec.kind ≠ .request then
    .error (.safeOperation "Invalid draft identity")
  else .ok ()

theorem planId_of_validate {spec : OperationSpec} (h : validate spec = .ok ())
    (hk : spec.kind = .apply) : ∃ p, spec.planId = some p := by
  unfold validate at h
  split_ifs at h with h₁ h₂ h₃ h₄ h₅
  exact Option.ne_none_iff_exists'.mp fun hp => h₅ ⟨hk, hp⟩

/-- A worker row that is neither closed nor silent for thirty seconds. -/
def WorkerReady (l : Ledger) (generation : WorkerId) (now : Time) : Prop :=
  ∃ w ∈ l.workers.rows, w.id = generation ∧ w.closed = false ∧ now - seconds 30 ≤ w.heartbeatAt

instance (l : Ledger) (generation : WorkerId) (now : Time) :
    Decidable (WorkerReady l generation now) := by unfold WorkerReady; infer_instance

end NyanyaAgent.Operations
