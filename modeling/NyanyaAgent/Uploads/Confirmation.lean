import NyanyaAgent.Commands.Approvals

/-!
# Upload confirmations

`upload_approval.py`: the request for a confirmation, its single consumption and its
rejection. An error inside an answer is raised after a commit. As in the rest of the command layer
the clock counts whole seconds.
-/
namespace NyanyaAgent.Uploads
open NyanyaAgent.Schema NyanyaAgent.Relational NyanyaAgent.Commands

def maxPendingPerOwner : ℕ := 16

def maxTtlSeconds : ℤ := 300

def countKinds : List String :=
  ["email", "phone", "resident_id", "payment_card", "bank_account", "passport", "person_name",
    "address", "local_path"]

/-- `_ERROR`. -/
def uploadError : Err :=
  .safeOperation "업로드 확인이 유효하지 않습니다. 파일과 대상이 같은지 확인하고 새로 요청하세요."

def expiredError : Err :=
  .safeOperation "업로드 확인이 만료되었습니다. 파일을 다시 검사해 새로 요청하세요."

def text (value : String) (limit : ℕ) : Except Err String :=
  if value = "" ∨ limit < value.length ∨ value.toList.any (fun c => c.toNat < 32) = true then
    .error uploadError
  else .ok value

/-- A `PurePosixPath`: the slashes it begins with and its components. -/
structure PosixPath where
  root : List Char
  parts : List (List Char)
  deriving DecidableEq

/-- Two leading slashes are kept, any other number is one. -/
def posixRoot (value : List Char) : List Char :=
  match (value.takeWhile (· = '/')).length with
  | 0 => []
  | 2 => ['/', '/']
  | _ => ['/']

def PosixPath.of (value : String) : PosixPath where
  root := posixRoot value.toList
  parts := (value.toList.splitOn '/').filter fun part => part ≠ [] ∧ part ≠ ['.']

def PosixPath.toString (p : PosixPath) : String :=
  if p.root = [] ∧ p.parts = [] then "."
  else String.ofList (p.root ++ ['/'].intercalate p.parts)

def workspace (value : String) : Except Err String := do
  let value ← text value 4096
  let path := PosixPath.of value
  if path.root = [] ∨ ['.', '.'] ∈ path.parts then .error uploadError
  else .ok path.toString

def relative (value : String) : Except Err String := do
  let value ← text value 4096
  let path := PosixPath.of value
  if path.root ≠ [] ∨ ['.', '.'] ∈ path.parts ∨ path.parts = [] ∨
      value.toList.any (fun c => c.toNat = 92) = true then
    .error uploadError
  else .ok path.toString

def isLowerHex (c : Char) : Bool :=
  48 ≤ c.toNat && c.toNat ≤ 57 || 97 ≤ c.toNat && c.toNat ≤ 102

/-- `_digest`. -/
def digestText (value : String) : Except Err String :=
  if value.length = 64 ∧ value.toList.all isLowerHex = true then .ok value else .error uploadError

/-- The five values of an identity before they are checked. -/
structure RawIdentity where
  dev : ℤ
  ino : ℤ
  size : ℤ
  mtimeNs : ℤ
  ctimeNs : ℤ
  deriving DecidableEq

/-- `_identity`; `none` is a value that is no dictionary of just these keys to integers. -/
def identity (value : Option RawIdentity) : Except Err FileIdentity :=
  match value with
  | none => .error uploadError
  | some v =>
    if v.dev < 0 ∨ v.ino < 0 ∨ v.size < 0 ∨ v.mtimeNs < 0 ∨ v.ctimeNs < 0 then .error uploadError
    else .ok ⟨v.dev.toNat, v.ino.toNat, v.size.toNat, v.mtimeNs.toNat, v.ctimeNs.toNat⟩

def counts (value : List (String × ℤ)) : Except Err (List (String × ℤ)) :=
  if value = [] ∨ (∃ c ∈ value, c.1 ∉ countKinds) ∨ (∃ c ∈ value, c.2 < 0 ∨ 1000000 < c.2) ∨
      ∀ c ∈ value, c.2 = 0 then .error uploadError
  else .ok (value.filter fun c => c.2 ≠ 0)

/-- The metadata under `_SCOPE_KEYS`. -/
structure UploadScope where
  authorizedActor : String
  conversationKey : String
  workspace : String
  relativePath : String
  destinationId : String
  requestChannelId : String
  sha256 : String
  fileIdentity : FileIdentity
  counts : List (String × ℤ)
  deriving DecidableEq

/-- The scope of a metadata that has all of its keys. -/
def scope? (m : ApprovalMetadata) : Option UploadScope := do
  return {
    authorizedActor := ← m.authorizedActor
    conversationKey := ← m.conversationKey
    workspace := ← m.workspace
    relativePath := ← m.relativePath
    destinationId := ← m.destinationId
    requestChannelId := ← m.requestChannelId
    sha256 := ← m.sha256
    fileIdentity := ← m.fileIdentity
    counts := ← m.counts }

/-- The metadata `request_upload` writes, but for the hash. -/
def UploadScope.metadata (s : UploadScope) (hash : Hash) : ApprovalMetadata where
  authorizedActor := some s.authorizedActor
  scopeHash := some hash
  schemaVersion := some 1
  phase := some "pending"
  conversationKey := some s.conversationKey
  workspace := some s.workspace
  relativePath := some s.relativePath
  destinationId := some s.destinationId
  requestChannelId := some s.requestChannelId
  sha256 := some s.sha256
  fileIdentity := some s.fileIdentity
  counts := some s.counts

structure UploadRequest where
  ownerKey : String
  conversationKey : String
  workspace : String
  relativePath : String
  destinationId : String
  requestChannelId : String
  sha256 : String
  fileIdentity : Option RawIdentity
  counts : List (String × ℤ)
  ttl : ℤ := 300

def UploadRequest.scope (r : UploadRequest) : Except Err UploadScope := do
  if ¬ (1 ≤ r.ttl ∧ r.ttl ≤ maxTtlSeconds) then .error uploadError
  else
    return {
      authorizedActor := ← text r.ownerKey 512
      conversationKey := ← text r.conversationKey 512
      workspace := ← Uploads.workspace r.workspace
      relativePath := ← relative r.relativePath
      destinationId := ← text r.destinationId 128
      requestChannelId := ← text r.requestChannelId 128
      sha256 := ← digestText r.sha256
      fileIdentity := ← identity r.fileIdentity
      counts := ← Uploads.counts r.counts }

def PendingOf (owner : String) (r : ApprovalRecord) : Prop :=
  r.action = uploadAction ∧ r.requestedBy = owner ∧ r.status = .pending

instance (owner : String) : DecidablePred (PendingOf owner) := fun r => by
  unfold PendingOf; infer_instance

/-- The columns `_close` and `consume_upload` assign. -/
def close (status : DecisionStatus) (phase : String) (now : Time) (r : ApprovalRecord) :
    ApprovalRecord :=
  { r with
    status := status
    decidedBy := r.requestedBy
    decidedAt := some now
    metadata := { r.metadata with phase := some phase } }

theorem id_closed (status : DecisionStatus) (phase : String) (now : Time) (r : ApprovalRecord) :
    (close status phase now r).id = r.id := rfl

/-- `_close`. -/
def closeRecord (i : ApprovalId) (status : DecisionStatus) (phase : String) (now : Time)
    (l : CommandLedger) : CommandLedger :=
  { l with
    records := l.records.update (fun r => r.id = i ∧ r.action = uploadAction ∧ r.status = .pending)
      (close status phase now) (id_closed status phase now) }

def expirePending (owner : String) (now : Time) (l : CommandLedger) : CommandLedger :=
  { l with
    records := l.records.update (fun r => PendingOf owner r ∧ r.expiresAt ≤ now)
      (close .expired "expired" now) (id_closed _ _ now) }

def pendingCount (owner : String) (l : CommandLedger) : ℕ :=
  (l.records.rows.filter fun r => PendingOf owner r).length

variable (digest : UploadScope → Hash)

def requestUpload (r : UploadRequest) (fresh : ApprovalId) (now : Time) :
    CommandOp (Except Err ApprovalId) := do
  let scope ← Tx.lift r.scope
  Tx.write (expirePending r.ownerKey now)
  let pending ← Tx.select (pendingCount r.ownerKey)
  if maxPendingPerOwner ≤ pending then
    pure (.error (.safeOperation
      "대기 중인 업로드 확인이 많습니다. 기존 확인을 취소하거나 만료 후 요청하세요."))
  else do
    insertRecord
      { id := fresh, action := uploadAction, requestedBy := r.ownerKey
        metadata := scope.metadata (digest scope), requestedAt := now, expiresAt := now + r.ttl }
    pure (.ok fresh)

def owned (i : ApprovalId) (owner : String) : CommandOp ApprovalRecord := do
  let row ← Tx.select fun l : CommandLedger => l.records.get? i
  let r ← Tx.demand row uploadError
  Tx.require (r.action = uploadAction ∧ r.requestedBy = owner ∧
    r.metadata.authorizedActor = some owner) uploadError
  pure r

/-- What a send claims to be about. -/
structure UploadClaim where
  ownerKey : String
  conversationKey : String
  sha256 : String
  destinationId : String
  workspace : String
  relativePath : String
  fileIdentity : Option RawIdentity

/-- The stored values are the claimed ones, normalised alike. -/
def ClaimScope (m : ApprovalMetadata) (c : UploadClaim) : Prop :=
  (∃ v, text c.conversationKey 512 = .ok v ∧ m.conversationKey = some v) ∧
    (∃ v, digestText c.sha256 = .ok v ∧ m.sha256 = some v) ∧
    (∃ v, text c.destinationId 128 = .ok v ∧ m.destinationId = some v) ∧
    (∃ v, workspace c.workspace = .ok v ∧ m.workspace = some v) ∧
    (∃ v, relative c.relativePath = .ok v ∧ m.relativePath = some v) ∧
    ∃ v, identity c.fileIdentity = .ok v ∧ m.fileIdentity = some v

def agrees {α : Type} [DecidableEq α] (checked : Except Err α) (stored : Option α) : Bool :=
  match checked with
  | .ok v => stored = some v
  | .error _ => false

/-- The test of `consume_upload`; a value that fails its own check is invalid. -/
def valid (r : ApprovalRecord) (c : UploadClaim) : Bool :=
  decide (r.metadata.schemaVersion = some 1) && r.taskId.isNone && r.executionId.isNone &&
    agrees (text c.conversationKey 512) r.metadata.conversationKey &&
    agrees (digestText c.sha256) r.metadata.sha256 &&
    agrees (text c.destinationId 128) r.metadata.destinationId &&
    agrees (workspace c.workspace) r.metadata.workspace &&
    agrees (relative c.relativePath) r.metadata.relativePath &&
    agrees (identity c.fileIdentity) r.metadata.fileIdentity &&
    decide (∃ s ∈ scope? r.metadata, r.metadata.scopeHash = some (digest s))

def consumeUpload (i : ApprovalId) (c : UploadClaim) (now : Time) :
    CommandOp (Except Err Unit) := do
  let r ← owned i c.ownerKey
  Tx.require (r.status = .pending ∧ r.metadata.phase = some "pending") uploadError
  if r.expiresAt ≤ now then do
    Tx.write (closeRecord i .expired "expired" now)
    pure (.error expiredError)
  else if valid digest r c = false then do
    Tx.write (closeRecord i .rejected "rejected" now)
    pure (.error uploadError)
  else do
    Tx.write (closeRecord i .approved "consumed" now)
    pure (.ok ())

def rejectUpload (i : ApprovalId) (owner conversationKey : String) (now : Time) :
    CommandOp (Except Err Unit) := do
  let r ← owned i owner
  if r.metadata.conversationKey ≠ some conversationKey then
    if r.status = .pending then do
      Tx.write (closeRecord i .rejected "rejected" now)
      pure (.error uploadError)
    else Tx.raise uploadError
  else if r.status = .rejected then pure (.ok ())
  else do
    Tx.require (r.status = .pending ∧ r.metadata.phase = some "pending") uploadError
    if r.expiresAt ≤ now then Tx.write (closeRecord i .expired "expired" now)
    else Tx.write (closeRecord i .rejected "rejected" now)
    pure (.ok ())

inductive UploadAction
  | requestUpload (r : UploadRequest) (fresh : ApprovalId) (now : Time)
  | consumeUpload (i : ApprovalId) (c : UploadClaim) (now : Time)
  | rejectUpload (i : ApprovalId) (owner conversationKey : String) (now : Time)
  | decideApproval (i : ApprovalId) (decision : Decision) (decidedBy : String) (now : Time)
  | checkApproval (i : ApprovalId) (k : TaskId) (scopeHash : Hash) (x : Option ExecutionId)
      (now : Time)

def stepUpload (l : CommandLedger) : UploadAction → CommandLedger
  | .requestUpload r fresh now => ((requestUpload digest r fresh now).commit l).2
  | .consumeUpload i c now => ((consumeUpload digest i c now).commit l).2
  | .rejectUpload i owner key now => ((rejectUpload i owner key now).commit l).2
  | .decideApproval i decision decidedBy now =>
    ((Commands.decideApproval i decision decidedBy now).commit l).2
  | .checkApproval i k scopeHash x now => ((Commands.checkApproval i k scopeHash x now).commit l).2

def granted (l : CommandLedger) (i : ApprovalId) (c : UploadClaim) (now : Time) : Bool :=
  match ((consumeUpload digest i c now).commit l).1 with
  | .ok (.ok ()) => true
  | _ => false

end NyanyaAgent.Uploads
