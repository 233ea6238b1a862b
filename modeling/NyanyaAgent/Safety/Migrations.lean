import NyanyaAgent.Upgrade.Migrations

/-!
# The schema of the database

However many processes of whatever versions migrate a database at once, it has run the first
migrations of one history, each once and in order.
-/
namespace NyanyaAgent.Safety
open NyanyaAgent.Upgrade NyanyaAgent.Runs

variable {σ : Type} {sha256 : String → String} {history : List (Migration σ)}
  {w w' : MigrationWorld σ}

/-- A process runs a version of the program whose migrations the history begins with. -/
def OneHistory (history : List (Migration σ)) : MigrationAction σ → Prop
  | .start migrations => migrations <+: history
  | _ => True

/-- The version of the last one of the first migrations. -/
def lastVersion (history : List (Migration σ)) (n : ℕ) : ℕ :=
  ((history.take n).getLast?.map fun m => m.version).getD 0

/-- What a call knows when the first `n` migrations have been run. -/
def Knows (history migrations : List (Migration σ)) (n : ℕ) : MigrationStage → Prop
  | .look i => i ≤ n ∧ i ≤ migrations.length
  | .script i => i ≤ n ∧ i < migrations.length
  | .returned version => ∃ k ≤ n, migrations.length ≤ k ∧ version = lastVersion history k
  | .raised e => e = .sql

/-- The database has run the first `n` migrations. -/
structure Migrated (sha256 : String → String) (history : List (Migration σ)) (n : ℕ)
    (w : MigrationWorld σ) : Prop where
  bound : n ≤ history.length
  applied : w.db.applied = (history.take n).map fun m => m.row sha256
  executed : w.executed = history.take n
  version : w.db.userVersion = lastVersion history n
  calls : ∀ c ∈ w.calls, c.migrations <+: history ∧ Knows history c.migrations n c.stage

theorem Knows.mono {migrations : List (Migration σ)} {n n' : ℕ} {stage : MigrationStage}
    (h : Knows history migrations n stage) (hn : n ≤ n') : Knows history migrations n' stage := by
  cases stage with
  | look i => exact ⟨Nat.le_trans h.1 hn, h.2⟩
  | script i => exact ⟨Nat.le_trans h.1 hn, h.2⟩
  | returned version =>
    obtain ⟨k, hk, hlength, hversion⟩ := h
    exact ⟨k, Nat.le_trans hk hn, hlength, hversion⟩
  | raised e => exact h

/-- The migrations of a program are those of the history. -/
theorem getElem?_of_begins {migrations : List (Migration σ)} (h : migrations <+: history) {i : ℕ}
    {m : Migration σ} (hm : migrations[i]? = some m) : history[i]? = some m := by
  obtain ⟨rest, rfl⟩ := h
  rw [List.getElem?_append_left (List.getElem?_eq_some_iff.mp hm).1]
  exact hm

theorem version_lt (hinc : Increasing history) {i j : ℕ} {m m' : Migration σ}
    (hm : history[i]? = some m) (hm' : history[j]? = some m') (hij : i < j) :
    m.version < m'.version := by
  obtain ⟨hi, rfl⟩ := List.getElem?_eq_some_iff.mp hm
  obtain ⟨hj, rfl⟩ := List.getElem?_eq_some_iff.mp hm'
  exact List.pairwise_iff_getElem.mp hinc i j hi hj hij

/-- Whether a version was applied, by the place of its migration. -/
theorem find_applied (hinc : Increasing history) {n i : ℕ} {m : Migration σ}
    (hm : history[i]? = some m) :
    ((history.take n).map fun m => m.row sha256).find? (fun row => row.version == m.version) =
      if i < n then some (m.row sha256) else none := by
  split_ifs with hi
  · rw [List.find?_eq_some_iff_getElem]
    refine ⟨by simp [Migration.row], i, ?_, ?_, ?_⟩
    · obtain ⟨hlt, _⟩ := List.getElem?_eq_some_iff.mp hm
      simp only [List.length_map, List.length_take]
      omega
    · obtain ⟨_, rfl⟩ := List.getElem?_eq_some_iff.mp hm
      simp
    · intro j hj
      obtain ⟨hlt, rfl⟩ := List.getElem?_eq_some_iff.mp hm
      have hless := version_lt hinc (List.getElem?_eq_getElem (by omega)) hm hj
      simp only [List.getElem_map, List.getElem_take, Migration.row, Bool.not_eq_true',
        beq_eq_false_iff_ne]
      omega
  · rw [List.find?_eq_none]
    intro row hrow
    obtain ⟨m', hm', rfl⟩ := List.mem_map.mp hrow
    obtain ⟨j, hj, hjm⟩ := List.mem_take_iff_getElem.mp hm'
    have hless := version_lt hinc (List.getElem?_eq_some_iff.mpr ⟨by omega, hjm⟩) hm (by omega)
    simp only [Migration.row, beq_iff_eq]
    omega

theorem any_applied (hinc : Increasing history) {n i : ℕ} {m : Migration σ}
    (hm : history[i]? = some m) :
    ((history.take n).map fun m => m.row sha256).any (fun row => row.version == m.version) =
      decide (i < n) := by
  rw [← List.isSome_find?, find_applied hinc hm]
  split_ifs with hi <;> simp [hi]

theorem lastVersion_succ {n : ℕ} {m : Migration σ} (hm : history[n]? = some m) :
    lastVersion history (n + 1) = m.version := by
  rw [lastVersion, List.take_add_one, hm, Option.toList_some, List.getLast?_concat]
  rfl

/-- A step of a call runs nothing, or the next migration of the history. -/
theorem callStep_cases (hinc : Increasing history) {n : ℕ} (h : Migrated sha256 history n w)
    {c : MigrationCall σ} (hc : c ∈ w.calls) :
    (∃ stage, callStep sha256 c w.db = (stage, w.db, none) ∧ Knows history c.migrations n stage) ∨
      ∃ stage m data, history[n]? = some m ∧ callStep sha256 c w.db =
          (stage, ⟨data, w.db.applied ++ [m.row sha256], m.version⟩, some m) ∧
        Knows history c.migrations (n + 1) stage := by
  obtain ⟨hbegins, hknows⟩ := h.calls c hc
  obtain ⟨migrations, stage⟩ := c
  dsimp only at hbegins hknows
  cases stage with
  | look i =>
    obtain ⟨hi, hlength⟩ := hknows
    left
    simp only [callStep]
    cases hm : migrations[i]? with
    | none =>
      have hend : migrations.length ≤ i := List.getElem?_eq_none_iff.mp hm
      exact ⟨_, rfl, n, Nat.le_refl n, Nat.le_trans hend hi, h.version⟩
    | some m =>
      obtain ⟨hlt, _⟩ := List.getElem?_eq_some_iff.mp hm
      dsimp only
      rw [h.applied, find_applied hinc (getElem?_of_begins hbegins hm)]
      by_cases hin : i < n
      · rw [if_pos hin]
        refine ⟨_, if_neg fun hne => hne rfl, ?_⟩
        exact ⟨hin, hlt⟩
      · rw [if_neg hin]
        exact ⟨_, rfl, hi, hlt⟩
  | script i =>
    obtain ⟨hi, hlt⟩ := hknows
    have hm : migrations[i]? = some migrations[i] := List.getElem?_eq_getElem hlt
    have hhistory := getElem?_of_begins hbegins hm
    simp only [callStep, hm, runScript]
    rw [h.applied, any_applied hinc hhistory]
    by_cases hin : i < n
    · rw [if_pos (decide_eq_true hin)]
      exact .inl ⟨_, rfl, rfl⟩
    · obtain rfl : i = n := by omega
      rw [if_neg (by simp)]
      cases hrun : (migrations[i]).run w.db.data with
      | none => exact .inl ⟨_, rfl, rfl⟩
      | some data =>
        refine .inr ⟨_, _, data, hhistory, rfl, ?_⟩
        exact ⟨Nat.le_refl _, hlt⟩
  | returned version => exact .inl ⟨_, rfl, hknows⟩
  | raised e => exact .inl ⟨_, rfl, hknows⟩

theorem migrated_step (hinc : Increasing history) {n : ℕ} (h : Migrated sha256 history n w)
    {a : MigrationAction σ} (ha : OneHistory history a) :
    ∃ n' ≥ n, Migrated sha256 history n' (stepMigrations sha256 w a) := by
  cases a with
  | change data => exact ⟨n, Nat.le_refl n, h.bound, h.applied, h.executed, h.version, h.calls⟩
  | start migrations =>
    refine ⟨n, Nat.le_refl n, h.bound, h.applied, h.executed, h.version, fun c hc => ?_⟩
    rcases List.mem_append.mp hc with hc | hc
    · exact h.calls c hc
    · obtain rfl := List.mem_singleton.mp hc
      exact ⟨ha, Nat.zero_le _, Nat.zero_le _⟩
  | crash k =>
    refine ⟨n, Nat.le_refl n, h.bound, h.applied, h.executed, h.version, fun c hc => ?_⟩
    exact h.calls c (List.mem_of_mem_eraseIdx hc)
  | step k =>
    simp only [stepMigrations]
    cases hcall : w.calls[k]? with
    | none => exact ⟨n, Nat.le_refl n, h⟩
    | some call =>
      have hc := List.mem_of_getElem? hcall
      dsimp only
      rcases callStep_cases hinc h hc with ⟨stage, heq, hknows⟩ | ⟨stage, m, data, hm, heq, hknows⟩
      · rw [heq]
        refine ⟨n, Nat.le_refl n, h.bound, h.applied, ?_, h.version, fun c hmem => ?_⟩
        · exact (List.append_nil _).trans h.executed
        · rcases List.mem_or_eq_of_mem_set hmem with hmem | rfl
          · exact h.calls c hmem
          · exact ⟨(h.calls call hc).1, hknows⟩
      · rw [heq]
        refine ⟨n + 1, Nat.le_succ n, ?_, ?_, ?_, ?_, fun c hmem => ?_⟩
        · exact (List.getElem?_eq_some_iff.mp hm).1
        · rw [h.applied, List.take_add_one, hm, List.map_append]
          rfl
        · rw [h.executed, List.take_add_one, hm]
        · exact (lastVersion_succ hm).symm
        · rcases List.mem_or_eq_of_mem_set hmem with hmem | rfl
          · exact ⟨(h.calls c hmem).1, (h.calls c hmem).2.mono (Nat.le_succ n)⟩
          · exact ⟨(h.calls call hc).1, hknows⟩

/-- Over every run of processes whose programs share one history of migrations, each up to some
version, on a database that starts empty, with changes of its data in between and processes that
die at any point: the table holds the first `n` migrations of the history, and just these scripts
have been run, each once and in order; no call finds another checksum than its own; and a call that
returned found all its migrations applied, and answers with the version of a moment when they were. -/
theorem schema_migrated {actions : List (MigrationAction σ)} {data : σ} (hinc : Increasing history)
    (hrun : Run (stepMigrations sha256) (fun _ a => OneHistory history a) { db := { data } }
      actions w) : ∃ n, Migrated sha256 history n w := by
  refine hrun.invariant (I := fun w => ∃ n, Migrated sha256 history n w) ?_ ?_
  · rintro w a ⟨n, hn⟩ ha
    obtain ⟨n', _, hn'⟩ := migrated_step hinc hn ha
    exact ⟨n', hn'⟩
  · exact ⟨0, Nat.zero_le _, rfl, rfl, rfl, fun c hc => (by cases hc)⟩

section Examples

/-- Every script leaves its mark in the data. -/
def plainMigrations : List (Migration (List ℕ)) :=
  migrations (fun _ => "") fun n data => some (data ++ [n])

/-- Two processes, the first of an older version, meet at the first migration. -/
def twoPrograms : List (MigrationAction (List ℕ)) :=
  [.start (plainMigrations.take 1), .start (plainMigrations.take 2), .step 0, .step 1, .step 0,
    .step 1, .start (plainMigrations.take 2), .step 2, .step 2, .step 2, .step 2]

def emptyWorld : MigrationWorld (List ℕ) := { db := { data := [] } }

theorem twoPrograms_run :
    Run (stepMigrations id) (fun _ a => OneHistory plainMigrations a) emptyWorld twoPrograms
      (twoPrograms.foldl (stepMigrations id) emptyWorld) := by
  have htake : ∀ n, plainMigrations.take n <+: plainMigrations := fun n => List.take_prefix n _
  refine .cons (htake 1) (.cons (htake 2) (.cons trivial (.cons trivial (.cons trivial
    (.cons trivial (.cons (htake 2) (.cons trivial (.cons trivial (.cons trivial (.cons trivial
      (.nil _)))))))))))

theorem schema_migrated_plain :
    ∃ n, Migrated id plainMigrations n (twoPrograms.foldl (stepMigrations id) emptyWorld) :=
  schema_migrated (migrations_increasing _ _) twoPrograms_run

example : (twoPrograms.foldl (stepMigrations id) emptyWorld).calls.map (fun c => c.stage) =
    [.look 1, .raised .sql, .returned 2] := by
  decide +kernel

end Examples
end NyanyaAgent.Safety
