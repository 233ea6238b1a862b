import NyanyaAgent.Runs.Durable
import NyanyaAgent.ServiceLogs.Maintenance

/-!
# Audit archives

`run_archive` of `log_archive.py`: the rows of a completed month are archived, housekeeping
rows older than ninety days are pruned behind their verified archive, and old archives that
hold nothing else expire. Every durable change is a step of its own.
-/
namespace NyanyaAgent.AuditLogs
open NyanyaAgent.Schema NyanyaAgent.Relational NyanyaAgent.Runs NyanyaAgent.ServiceLogs

structure AuditRow where
  id : String
  actor : String
  action : String
  entityType : String
  entityId : String
  detailJson : String
  createdAt : String
  deriving DecidableEq

def columns : List String :=
  ["id", "actor", "action", "entity_type", "entity_id", "detail_json", "created_at"]

def housekeepingPairs : List (String × String) :=
  [("host.registered", "host"), ("host.updated", "host"), ("memory.retrieved", "memory_item")]

def maxRows : ℕ := 100000
def maxScanRows : ℕ := 500000
def maxScanBytes : ℕ := 128 * 1024 * 1024
def maxBytes : ℕ := 64 * 1024 * 1024
def maxLineBytes : ℕ := 1024 * 1024
def maxArchives : ℕ := 240
def maxDirectoryEntries : ℕ := 1024
def deleteBatch : ℕ := 100
def maxPruneRows : ℕ := 10000

structure Manifest where
  version : ℤ := 1
  format : String := "nyanya-audit-jsonl"
  columns : List String
  source : Hash
  month : Month
  timezone : String := "Asia/Seoul"
  createdAt : Instant
  count : ℤ
  sha256 : Hash
  deriving DecidableEq

structure ArchiveContent where
  manifest : Manifest
  rows : List AuditRow
  deriving DecidableEq

/-- The links of a file: its own name, with a temporary name of this directory, or others. -/
inductive Links
  | single | temporary | other
  deriving DecidableEq

/-- A monthly archive; it has no content when it is no gzip file of canonical lines. -/
structure ArchiveFile where
  month : Month
  content : Option ArchiveContent
  size : ℕ
  /-- A regular file of this user with mode 0600. -/
  isPrivate : Bool := true
  links : Links := .single
  deriving DecidableEq

/-- The audit table and the archive directory. -/
structure AuditState where
  rows : Table AuditRow.id := .empty
  present : Bool := true
  lock : Bool := false
  archives : Table ArchiveFile.month := .empty
  /-- Entries of other names, temporary ones of no archive included. -/
  others : ℕ := 0

/-- The texts the module reads and writes. -/
structure AuditText where
  /-- `_timestamp`. -/
  stamp : String → Option Instant
  /-- `strftime('%Y-%m', created_at, '+9 hours')`. -/
  sqlMonth : String → Option Month
  lineBytes : AuditRow → ℕ
  manifestBytes : Manifest → ℕ
  gzipBytes : Manifest → List AuditRow → ℕ
  digest : List AuditRow → Hash
  source : Hash

/-- The disk and the rows the run has deleted so far. -/
structure Session where
  disk : AuditState
  deletedRows : ℕ := 0

abbrev Audit := Durable String Session

def changeDisk (f : AuditState → AuditState) : Audit Unit :=
  .change fun s => { s with disk := f s.disk }

def Housekeeping (r : AuditRow) : Prop := (r.action, r.entityType) ∈ housekeepingPairs

instance : DecidablePred Housekeeping := fun r => by unfold Housekeeping; infer_instance

variable (text : AuditText)

/-- `_month`. -/
def monthOf (r : AuditRow) : Option Month := (text.stamp r.createdAt).map kstMonth

def Old (now : Instant) (r : AuditRow) : Prop :=
  ∃ t ∈ text.stamp r.createdAt, t + 90 * dayMicros < now

instance (now : Instant) : DecidablePred (Old text now) := fun r => by unfold Old; infer_instance

/-- The month from which on archives are kept. -/
def expiration (now : Instant) : Month := kstMonth now - 100

/-- The conditions on what an archive holds. -/
def Verified (m : Month) (c : ArchiveContent) : Prop :=
  text.manifestBytes c.manifest ≤ maxLineBytes ∧ c.manifest.version = 1 ∧
    c.manifest.format = "nyanya-audit-jsonl" ∧ c.manifest.columns = columns ∧
    c.manifest.source = text.source ∧ c.manifest.month = m ∧ c.manifest.timezone = "Asia/Seoul" ∧
    c.rows.length ≤ maxRows ∧
    text.manifestBytes c.manifest + (c.rows.map text.lineBytes).sum ≤ maxBytes ∧
    (∀ r ∈ c.rows, text.lineBytes r ≤ maxLineBytes ∧ monthOf text r = some m) ∧
    (c.rows.map (·.id.toList)).Pairwise (· < ·) ∧ c.manifest.count = c.rows.length ∧
    c.manifest.sha256 = text.digest c.rows

instance (m : Month) (c : ArchiveContent) : Decidable (Verified text m c) := by
  unfold Verified; infer_instance

/-- `_read_archive`; every failure is the same error. -/
def readArchive (d : AuditState) (m : Month) (links : Links) : Option (List AuditRow) := do
  let a ← d.archives.get? m
  let c ← a.content
  if a.isPrivate = true ∧ a.links = links ∧ a.size ≤ maxBytes ∧ Verified text m c then some c.rows
  else none

def verificationFailed : String := "Archive verification failed; existing evidence retained"

/-- `_read_archive` inside a run. -/
def verified (m : Month) : Audit (List AuditRow) := do
  let s ← .select id
  match readArchive text s.disk m .single with
  | some rows => pure rows
  | none => .raise verificationFailed

/-- The entries `_names` counts. -/
def entries (d : AuditState) : ℕ :=
  d.archives.rows.length + (d.archives.rows.filter fun a => a.links = .temporary).length +
    d.others + if d.lock = true then 1 else 0

def readRows (d : AuditState) : Except String (List AuditRow) :=
  if ∃ r ∈ d.rows.rows, monthOf text r = none then
    .error "Audit timestamps must be valid timezone-aware ISO timestamps"
  else if ∃ r ∈ d.rows.rows, maxLineBytes < text.lineBytes r then
    .error "Audit record exceeds the archive line limit"
  else if maxScanRows < d.rows.rows.length ∨
      maxScanBytes < (d.rows.rows.map text.lineBytes).sum then
    .error "Audit scan exceeds the bounded maintenance limit; no pruning performed"
  else .ok (d.rows.rows.insertionSort fun a b => a.id.toList ≤ b.id.toList)

def unlinkTemporary (m : Month) (d : AuditState) : AuditState :=
  { d with archives := d.archives.update (fun a => a.month = m) fun a => { a with links := .single } }

/-- The pass of `_recover_publication` over the archives. -/
def recoverEach : List Month → Audit Unit
  | [] => pure ()
  | m :: ms => do
    let s ← .select id
    if (readArchive text s.disk m .temporary).isSome = true then changeDisk (unlinkTemporary m)
    else pure ()
    recoverEach ms

def recoverPublication : Audit Unit := do
  let s ← .select id
  .require (entries s.disk ≤ maxDirectoryEntries) "Archive directory exceeds the 1024-entry bound"
  recoverEach text (s.disk.archives.rows.map (·.month))

def manifestOf (m : Month) (rows : List AuditRow) (now : Instant) : Manifest where
  columns := columns
  source := text.source
  month := m
  createdAt := now
  count := rows.length
  sha256 := text.digest rows

/-- The archive under its final name and its temporary one. -/
def publishedArchive (m : Month) (rows : List AuditRow) (now : Instant) : ArchiveFile where
  month := m
  content := some ⟨manifestOf text m rows now, rows⟩
  size := text.gzipBytes (manifestOf text m rows now) rows
  links := .temporary

/-- `os.link`; the temporary name becomes one of the archive. -/
def publish (m : Month) (rows : List AuditRow) (now : Instant) (d : AuditState) : AuditState :=
  match d.archives.insert (publishedArchive text m rows now) with
  | some archives => { d with archives := archives, others := d.others - 1 }
  | none => d

def writeArchive (m : Month) (rows : List AuditRow) (now : Instant) : Audit Unit := do
  .require (rows.length ≤ maxRows)
    "Monthly archive exceeds the 100000-row bound; no pruning performed"
  changeDisk fun d => { d with others := d.others + 1 }
  let s ← .select id
  if maxBytes < (rows.map text.lineBytes).sum + text.manifestBytes (manifestOf text m rows now) then do
    changeDisk fun d => { d with others := d.others - 1 }
    .raise "Monthly archive exceeds size bound"
  else if (s.disk.archives.get? m).isSome = true then do
    changeDisk fun d => { d with others := d.others - 1 }
    .raise "File exists"
  else do
    changeDisk (publish text m rows now)
    changeDisk (unlinkTemporary m)

def pruneBatch (batch : List AuditRow) : Audit Unit := do
  let s ← .select id
  .require (∀ r ∈ batch, ∀ r' ∈ s.disk.rows.get? r.id, r' = r)
    "Audit row preimage changed; batch retained"
  .change fun s =>
    { disk := { s.disk with rows := s.disk.rows.delete fun r => r ∈ batch }
      deletedRows := s.deletedRows + (batch.filter fun r => r ∈ s.disk.rows.rows).length }

def pruneBatches : List (List AuditRow) → Audit Unit
  | [] => pure ()
  | b :: bs => do
    pruneBatch b
    pruneBatches bs

/-- The batches of a list of rows, for a number of batches that is enough. -/
def batchesOf : ℕ → List AuditRow → List (List AuditRow)
  | 0, _ => []
  | n + 1, rows =>
    if rows = [] then [] else rows.take deleteBatch :: batchesOf n (rows.drop deleteBatch)

def prune (m : Month) (archived candidates : List AuditRow) : Audit Unit := do
  let s ← .select id
  let checked ← verified text m
  .require (checked = archived) "Archive changed before pruning"
  let chosen := candidates.take (maxPruneRows - s.deletedRows)
  pruneBatches (batchesOf chosen.length chosen)

inductive ItemStatus
  | planned | verified | created
  deriving DecidableEq

inductive Retention
  | heldPinned | heldPending | wouldExpire
  deriving DecidableEq

structure MonthItem where
  month : Month
  status : ItemStatus := .planned
  count : ℕ := 0
  prunable : ℕ := 0
  pinned : ℕ := 0
  remainingPrunable : ℕ := 0
  expired : Bool := false
  retention : Option Retention := none
  deriving DecidableEq

/-- The expiry of an archive, under the write lock of the database. -/
def expire (m : Month) (archived : List AuditRow) : Audit Bool := do
  let checked ← verified text m
  .require (checked = archived) "Archive changed before expiration"
  let s ← .select id
  if ∃ r ∈ s.disk.rows.rows, text.sqlMonth r.createdAt = some m then pure false
  else do
    changeDisk fun d => { d with archives := d.archives.delete fun a => a.month = m }
    pure true

/-- The rows a month's archive holds, or will hold. -/
def archivedRows (now : Instant) (apply : Bool) (m : Month) (live : List AuditRow) (named : Bool) :
    Audit (List AuditRow) :=
  if named = true then do
    let archived ← verified text m
    .require (∀ r ∈ live, r ∈ archived)
      "Late or changed audit rows conflict with the immutable monthly archive"
    pure archived
  else do
    .require (live.length ≤ maxRows)
      "Monthly archive exceeds the 100000-row bound; no pruning performed"
    if apply = true then do
      writeArchive text m live now
      let checked ← verified text m
      .require (checked = live) "Archive readback differs from source rows"
      pure live
    else pure live

/-- The pruning of a month, with the rows it leaves. -/
def pruneMonth (apply : Bool) (m : Month) (archived prunable : List AuditRow) : Audit ℕ :=
  if apply = true ∧ prunable ≠ [] then do
    let s ← .select id
    prune text m archived prunable
    let s' ← .select id
    pure (prunable.length - (s'.deletedRows - s.deletedRows))
  else pure 0

def retainMonth (now : Instant) (apply : Bool) (m : Month) (archived : List AuditRow)
    (remaining : ℕ) : Audit (Bool × Option Retention) :=
  if m < expiration now then
    if ∃ r ∈ archived, ¬ Housekeeping r then pure (false, some .heldPinned)
    else if remaining ≠ 0 then pure (false, some .heldPending)
    else if apply = true then do
      let expired ← expire text m archived
      pure (expired, if expired = true then none else some .heldPending)
    else pure (false, some .wouldExpire)
  else pure (false, none)

/-- One pass of the loop over the months. -/
def runMonth (now : Instant) (apply : Bool) (m : Month) (live : List AuditRow) (named : Bool) :
    Audit MonthItem := do
  let archived ← archivedRows text now apply m live named
  let prunable := live.filter fun r => Housekeeping r ∧ Old text now r
  let remaining ← pruneMonth text apply m archived prunable
  let (expired, retention) ← retainMonth text now apply m archived remaining
  pure
    { month := m
      status := if named = true then .verified else if apply = true then .created else .planned
      count := archived.length, prunable := prunable.length
      pinned := (archived.filter fun r => ¬ Housekeeping r).length
      remainingPrunable := remaining, expired := expired, retention := retention }

/-- The loop over the months; an exception blocks its month only. -/
def runMonths (now : Instant) (apply : Bool) (rows : List AuditRow) (named : List Month) :
    List Month → Audit (List (Month × Except String MonthItem))
  | [] => pure []
  | m :: ms => do
    let item ← .attempt (runMonth text now apply m
      (rows.filter fun r => monthOf text r = some m) (m ∈ named))
    let items ← runMonths now apply rows named ms
    pure ((m, item) :: items)

def pastMonths (now : Instant) (months : List Month) : List Month :=
  (months.filter fun m => m < kstMonth now).dedup.insertionSort (· ≤ ·)

/-- `_run`. -/
def runArchives (now : Instant) (apply : Bool) : Audit (List (Month × Except String MonthItem)) := do
  let s ← .select id
  let rows ← .lift (readRows text s.disk)
  let named := if s.disk.present = true then s.disk.archives.rows.map (·.month) else []
  let rowMonths := rows.filterMap (monthOf text)
  .require (s.disk.present = false ∨ entries s.disk ≤ maxDirectoryEntries)
    "Archive directory exceeds the 1024-entry bound"
  .require (named.length ≤ maxArchives ∧ (pastMonths now rowMonths).length ≤ maxArchives)
    "Archive month count exceeds the maintenance bound"
  .require ((pastMonths now (rowMonths ++ named)).length ≤ maxArchives)
    "Combined archive month count exceeds the maintenance bound"
  runMonths text now apply rows named (pastMonths now (rowMonths ++ named))

/-- The first changes of a run that applies: the directory and its lock. -/
def enterDirectory : Audit Unit := do
  let s ← .select id
  if s.disk.present = false then changeDisk fun d => { d with present := true } else pure ()
  if s.disk.lock = false then changeDisk fun d => { d with lock := true } else pure ()

def runArchive (now : Instant) (apply : Bool) : Audit (List (Month × Except String MonthItem)) := do
  let s ← .select id
  let _ ← .lift (readRows text s.disk)
  if apply = true then do
    enterDirectory
    recoverPublication text
    runArchives text now true
  else runArchives text now false

/-- The disk when a run is stopped after some of its changes. -/
def stopped (now : Instant) (apply : Bool) (stop : ℕ) (d : AuditState) : AuditState :=
  let start : Session := ⟨d, 0⟩
  (((runArchive text now apply start).1.take stop).foldl (fun _ c => c.2) start).disk

inductive AuditAction
  | insert (r : AuditRow)
  /-- A run that ends or crashes after `stop` changes. -/
  | run (now : Instant) (apply : Bool) (stop : ℕ)

def stepAudit (d : AuditState) : AuditAction → AuditState
  | .insert r =>
    match d.rows.insert r with
    | some rows => { d with rows := rows }
    | none => d
  | .run now apply stop => stopped text now apply stop d

end NyanyaAgent.AuditLogs
