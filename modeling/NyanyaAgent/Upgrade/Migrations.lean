import NyanyaAgent.Runs.Invariant
import Mathlib.Data.List.Pairwise
import Mathlib.Data.List.TakeDrop

/-!
# Schema migrations

`apply_migrations`: every process brings the database up to the schema it knows before it uses it.
Processes of several versions of the program may do so at once, with or without the lock file, and
may die at any point.
-/
namespace NyanyaAgent.Upgrade

variable {σ : Type}

/-- A migration: its text, and what running it makes of a database, if it does not fail. -/
structure Migration (σ : Type) where
  version : ℕ
  name : String
  sql : String
  run : σ → Option σ

/-- A row of `schema_migrations`, but for its time. -/
structure MigrationRow where
  version : ℕ
  name : String
  checksum : String
  deriving DecidableEq

structure SchemaDb (σ : Type) where
  data : σ
  applied : List MigrationRow := []
  /-- `PRAGMA user_version`. -/
  userVersion : ℕ := 0

inductive MigrationErr
  | checksum (version : ℕ)
  | sql
  deriving DecidableEq

def MigrationErr.message : MigrationErr → Option String
  | .checksum version => some s!"Migration checksum mismatch at version {version}"
  | .sql => none

/-- Where a call stands in its list. -/
inductive MigrationStage
  | look (i : ℕ)
  | script (i : ℕ)
  | returned (version : ℕ)
  | raised (e : MigrationErr)
  deriving DecidableEq

/-- A call of `apply_migrations`, of a program with the given `MIGRATIONS`. -/
structure MigrationCall (σ : Type) where
  migrations : List (Migration σ)
  stage : MigrationStage := .look 0

section Calls
variable (sha256 : String → String)

def Migration.row (m : Migration σ) : MigrationRow := ⟨m.version, m.name, sha256 m.sql⟩

/-- The script of a migration, which is one transaction. -/
def runScript (m : Migration σ) (db : SchemaDb σ) : Option (SchemaDb σ) :=
  if db.applied.any (fun row => row.version == m.version) then none
  else (m.run db.data).map fun data =>
    { data, applied := db.applied ++ [m.row sha256], userVersion := m.version }

/-- The next statement of a call, with the migration that it ran. -/
def callStep (call : MigrationCall σ) (db : SchemaDb σ) :
    MigrationStage × SchemaDb σ × Option (Migration σ) :=
  match call.stage with
  | .look i =>
    match call.migrations[i]? with
    | none => (.returned db.userVersion, db, none)
    | some m =>
      match db.applied.find? fun row => row.version == m.version with
      | none => (.script i, db, none)
      | some row =>
        if row.checksum ≠ sha256 m.sql then (.raised (.checksum m.version), db, none)
        else (.look (i + 1), db, none)
  | .script i =>
    match call.migrations[i]? with
    | none => (.raised .sql, db, none)
    | some m =>
      match runScript sha256 m db with
      | none => (.raised .sql, db, none)
      | some db' => (.look (i + 1), db', some m)
  | .returned version => (.returned version, db, none)
  | .raised e => (.raised e, db, none)

/-- A database, the calls at work on it, and the migrations that were run on it. -/
structure MigrationWorld (σ : Type) where
  db : SchemaDb σ
  calls : List (MigrationCall σ) := []
  executed : List (Migration σ) := []

inductive MigrationAction (σ : Type)
  | change (data : σ)
  | start (migrations : List (Migration σ))
  | step (n : ℕ)
  | crash (n : ℕ)

def stepMigrations (w : MigrationWorld σ) : MigrationAction σ → MigrationWorld σ
  | .change data => { w with db := { w.db with data } }
  | .start migrations => { w with calls := w.calls ++ [{ migrations }] }
  | .step n =>
    match w.calls[n]? with
    | none => w
    | some call =>
      let (stage, db, ran) := callStep sha256 call w.db
      { db, calls := w.calls.set n { call with stage }, executed := w.executed ++ ran.toList }
  | .crash n => { w with calls := w.calls.eraseIdx n }

end Calls

/-- The program's `MIGRATIONS`, with the texts and effects of their scripts. -/
def migrations (sql : ℕ → String) (run : ℕ → σ → Option σ) : List (Migration σ) :=
  [(1, "execution-ledger"), (2, "projects-and-codex-sessions"), (3, "task-claims-and-results"),
    (4, "serializable-operations-and-reviewed-apply"), (5, "workflow-event-read-indexes"),
    (6, "audit-log-read-index"), (7, "durable-conversation-state"),
    (8, "bounded-task-work-records"), (9, "scoped-cited-wiki"),
    (10, "reviewed-draft-workspaces")].map fun (version, name) =>
      ⟨version, name, sql version, run version⟩

def Increasing (history : List (Migration σ)) : Prop :=
  history.Pairwise fun m m' => m.version < m'.version

theorem migrations_increasing (sql : ℕ → String) (run : ℕ → σ → Option σ) :
    Increasing (migrations sql run) := by
  simp [Increasing, migrations]

end NyanyaAgent.Upgrade
