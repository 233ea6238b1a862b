import NyanyaAgent.Calendar.Iso
import NyanyaAgent.Operations.Environment
import Mathlib.Data.List.Dedup
import Mathlib.Data.List.Sort
import Mathlib.Data.String.Basic

/-!
# Service log maintenance

`maintain_service_logs` of `service_logs.py`: closed segments are archived by month, raw
copies are retired behind a verified archive, and old archives expire. A run first plans
from the two directories and then performs the plan, one file at a time.
-/
namespace NyanyaAgent.ServiceLogs
open NyanyaAgent.Schema NyanyaAgent.Relational NyanyaAgent.Operations NyanyaAgent.Calendar

/-- Microseconds since the first day of year 1 in UTC. -/
abbrev Instant := ℕ

/-- The year and the number of a month, as its four and two digits are read. -/
abbrev Month := ℕ

def hourMicros : ℕ := 3600000000

def dayMicros : ℕ := 24 * hourMicros

/-- `_month`: the calendar month in Seoul. -/
def kstMonth (t : Instant) : Month :=
  let d := Date.next^[(t + 9 * hourMicros) / dayMicros] ⟨1, 1, 1⟩
  d.year * 100 + d.month

def monthsBefore (m : Month) (count : ℕ) : Month :=
  let index := m / 100 * 12 + m % 100 - 1 - count
  index / 12 * 100 + (index % 12 + 1)

def maxArchiveFiles : ℕ := 20000

def maxArchiveBytes : ℕ := 512 * 1024 * 1024

def maxArchiveMemberBytes : ℕ := 16 * 1024 * 1024

def maxDirectoryEntries : ℕ := 100000

/-- A closed segment; `isSafe` says whether `_safe_file` accepts it. -/
structure Segment where
  name : String
  bytes : Bytes
  isSafe : Bool := true
  deriving DecidableEq

structure Record where
  name : String
  size : ℕ
  sha256 : Hash
  deriving DecidableEq

structure ArchiveContent where
  members : List (String × Bytes)
  version : ℤ := 1
  month : Month
  files : List Record
  deriving DecidableEq

/-- A monthly archive file; it has no content when its members or its manifest cannot be read. -/
structure Archive where
  month : Month
  content : Option ArchiveContent
  isSafe : Bool := true
  deriving DecidableEq

/-- The two directories, with the number of their other entries. -/
structure LogState where
  present : Bool := true
  segments : Table Segment.name := .empty
  archives : Table Archive.month := .empty
  otherLogs : ℕ := 0
  otherArchives : ℕ := 0

variable (env : Environment) (stamp : String → Option Instant)

def record (name : String) (bytes : Bytes) : Record := ⟨name, bytes.length, env.sha256 bytes⟩

def digestFile (g : Segment) : Record := record env g.name g.bytes

def monthOf (name : String) : Option Month := (stamp name).map kstMonth

def verifyArchive (a : Archive) : Except String (List Record) :=
  if a.isSafe = false then .error "Unsafe log file"
  else match a.content with
    | none => .error "Archive validation failed"
    | some c =>
      if ¬ (c.members.map (·.1)).Nodup then .error "Archive members are invalid"
      else if maxArchiveFiles < c.members.length ∨ ∃ m ∈ c.members,
          maxArchiveMemberBytes < m.2.length ∨ monthOf stamp m.1 ≠ some a.month then
        .error "Archive contains excessive or unrecognized log"
      else if maxArchiveBytes < (c.members.map (·.2.length)).sum then
        .error "Archive uncompressed data exceeds limit"
      else if c.version ≠ 1 ∨ c.month ≠ a.month then
        .error "Archive manifest contract mismatch"
      else if c.files.length ≠ c.members.length then .error "Archive manifest entries mismatch"
      else if ¬ (c.files.map (·.name)).Nodup ∨
          ∃ r ∈ c.files, r ∉ c.members.map fun m => record env m.1 m.2 then
        .error "Archive checksum mismatch"
      else .ok c.files

structure MonthPlan where
  create : List (Month × List Record) := []
  expire : List String := []
  preserve : List String := []

/-- Segments older than thirty days are expired behind their archive. -/
def splitByAge (now : Instant) (create : List (Month × List Record)) (paths : List Segment) :
    MonthPlan :=
  let old := fun g : Segment => ∃ t ∈ stamp g.name, t + 30 * dayMicros < now
  { create := create, expire := (paths.filter fun g => old g).map (·.name)
    preserve := (paths.filter fun g => ¬ old g).map (·.name) }

def segmentsOf (s : LogState) (m : Month) : List Segment :=
  (s.segments.rows.filter fun g => monthOf stamp g.name = some m).insertionSort
    fun a b => a.name.toList ≤ b.name.toList

/-- One pass of the planning loop. -/
def planMonth (now : Instant) (s : LogState) (m : Month) : Except String MonthPlan :=
  let paths := segmentsOf stamp s m
  if kstMonth now ≤ m then .ok { preserve := paths.map (·.name) }
  else match s.archives.get? m with
    | some a =>
      match verifyArchive env stamp a with
      | .error e => .error e
      | .ok records =>
        if ∀ g ∈ paths, digestFile env g ∈ records then .ok (splitByAge stamp now [] paths)
        else .error "Late or changed segment conflicts with archive"
    | none =>
      if monthsBefore (kstMonth now) 3 ≤ m then
        .ok (splitByAge stamp now [(m, paths.map (digestFile env))] paths)
      else .ok { preserve := paths.map (·.name) }

/-- The results of a loop that stops at the first exception. -/
def collect {α β : Type} (f : α → Except String β) : List α → Except String (List β)
  | [] => .ok []
  | a :: as =>
    match f a, collect f as with
    | .ok b, .ok bs => .ok (b :: bs)
    | .error e, _ => .error e
    | .ok _, .error e => .error e

structure Report where
  dryRun : Bool
  archivesCreate : List (Month × List Record) := []
  archivesExpire : List Month := []
  rawExpire : List String := []
  rawPreserved : List String := []
  archiveCount : ℕ := 0

def segmentMonths (s : LogState) : List Month :=
  (s.segments.rows.filterMap fun g => monthOf stamp g.name).dedup.insertionSort (· ≤ ·)

def archiveMonths (s : LogState) : List Month :=
  (s.archives.rows.map (·.month)).insertionSort (· ≤ ·)

def makePlan (now : Instant) (apply : Bool) (s : LogState) : Except String Report :=
  if s.present = false then .ok { dryRun := !apply }
  else if maxDirectoryEntries < s.segments.rows.length + s.otherLogs then
    .error "Service log directory has too many entries"
  else if ∃ g ∈ s.segments.rows, g.isSafe = false then .error "Unsafe log file"
  else if ∃ g ∈ s.segments.rows, stamp g.name = none then .error "Unrecognized segment"
  else if maxDirectoryEntries < s.archives.rows.length + s.otherArchives then
    .error "Service archive directory has too many entries"
  else match collect (verifyArchive env stamp) s.archives.rows with
    | .error e => .error e
    | .ok _ =>
      match collect (planMonth env stamp now s) (segmentMonths stamp s) with
      | .error e => .error e
      | .ok plans =>
        let expire := plans.flatMap (·.expire)
        .ok
          { dryRun := !apply
            archivesCreate := plans.flatMap (·.create)
            archivesExpire := (archiveMonths s).filter fun m =>
              m < monthsBefore (kstMonth now) 3 ∧ ∀ g ∈ segmentsOf stamp s m, g.name ∈ expire
            rawExpire := expire
            rawPreserved := plans.flatMap (·.preserve)
            archiveCount := s.archives.rows.length }

/-- One file operation of a run that applies its plan. -/
inductive Effect
  | publish (month : Month) (records : List Record)
  | pin (month : Month)
  | retire (name : String)
  | expire (month : Month)
  deriving DecidableEq

def newArchive (m : Month) (records : List Record) (members : List (String × Bytes)) : Archive :=
  { month := m, content := some { members := members, month := m, files := records } }

/-- The bytes of a listed segment, as long as they are the listed ones. -/
def readListed (s : LogState) (r : Record) : Except String (String × Bytes) :=
  match s.segments.get? r.name with
  | none => .error "No such file or directory"
  | some g =>
    if digestFile env g = r then .ok (g.name, g.bytes) else .error "Log changed during archive"

/-- The verified records of a month's archive, as they are when they are asked for. -/
def verifiedRecords (s : LogState) (m : Month) : Except String (List Record) :=
  match s.archives.get? m with
  | none => .error "No such file or directory"
  | some a => verifyArchive env stamp a

def perform (s : LogState) : Effect → Except String LogState
  | .publish m records =>
    if maxArchiveFiles < records.length ∨ maxArchiveBytes < (records.map (·.size)).sum then
      .error "Archive input exceeds limit"
    else match collect (readListed env s) records with
      | .error e => .error e
      | .ok members =>
        match verifyArchive env stamp (newArchive m records members) with
        | .error e => .error e
        | .ok _ =>
          match s.archives.insert (newArchive m records members) with
          | none => .error "File exists"
          | some t => .ok { s with archives := t }
  | .pin m => (verifiedRecords env stamp s m).map fun _ => s
  | .retire name =>
    match s.segments.get? name, monthOf stamp name with
    | some g, some m =>
      match verifiedRecords env stamp s m with
      | .error e => .error e
      | .ok records =>
        if digestFile env g ∈ records then
          .ok { s with segments := s.segments.delete fun r => r.name = name }
        else .error "Log changed before removal"
    | _, _ => .error "No such file or directory"
  | .expire m =>
    (verifiedRecords env stamp s m).map fun _ =>
      { s with archives := s.archives.delete fun a => a.month = m }

/-- The operations of a plan: publish, pin the archives that are relied on, retire, expire. -/
def effectsOf (r : Report) : List Effect :=
  (r.archivesCreate.map fun c => Effect.publish c.1 c.2) ++
    ((r.rawExpire.filterMap (monthOf stamp)).dedup.insertionSort (· ≤ ·)).map Effect.pin ++
      r.rawExpire.map Effect.retire ++ r.archivesExpire.map Effect.expire

/-- An operation that was performed, with the directories on both sides of it. -/
structure Performed where
  effect : Effect
  before : LogState
  after : LogState

/-- The operations are performed in order, until one raises. -/
def execute : List Effect → LogState → List Performed × Option String × LogState
  | [], s => ([], none, s)
  | e :: es, s =>
    match perform env stamp s e with
    | .error message => ([], some message, s)
    | .ok s' =>
      let r := execute es s'
      (⟨e, s, s'⟩ :: r.1, r.2)

structure Outcome where
  answer : Except String Report
  changes : List Performed
  state : LogState

def maintainServiceLogs (now : Instant) (apply : Bool) (s : LogState) : Outcome :=
  match makePlan env stamp now apply s with
  | .error e => ⟨.error e, [], s⟩
  | .ok report =>
    if apply = true then
      let r := execute env stamp (effectsOf stamp report) s
      ⟨match r.2.1 with
        | none => .ok report
        | some message => .error message, r.1, r.2.2⟩
    else ⟨.ok report, [], s⟩

end NyanyaAgent.ServiceLogs
