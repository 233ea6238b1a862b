import NyanyaAgent.Queue.Local
import NyanyaAgent.System.Invariant
import NyanyaAgent.Relational.Passes
import NyanyaAgent.Upgrade.LegacyHold

/-!
# What the quiesced upgrade holds

The tasks it selects end blocked or in their terminal status, with nothing open, claimed or
leased; every other task keeps its rows, and a second call finds nothing to hold.
-/
namespace NyanyaAgent.Safety
open NyanyaAgent.Schema NyanyaAgent.Relational NyanyaAgent.Leases NyanyaAgent.Upgrade

variable {reason : String} {now : Time} {timestamp : List Char} {d : Database} {k : TaskId}
  {x : ExecutionId} {rows : List AgentTask}

section Pass

theorem loseOpen_executions (l : Ledger) (attempt : Execution) (x : ExecutionId) :
    (loseOpen reason now k l attempt).executions.get? x =
      (l.executions.get? x).map fun e => if attempt.id = x then loseExecution reason now e else e := by
  refine (Table.get?_update_ite l.executions attempt.id x (loseExecution reason now)
    fun _ => rfl).trans ?_
  by_cases h : attempt.id = x <;> simp [h]

/-- The inner loop loses the open attempts of its task. -/
theorem loseOpen_loop (l : Ledger) (x : ExecutionId) :
    ((l.executions.rows.filter fun e => Open k e).foldl (loseOpen reason now k) l).executions.get? x =
      (l.executions.get? x).map fun e => if Open k e then loseExecution reason now e else e := by
  rw [foldl_get? (fun l : Ledger => l.executions.get? x) (loseOpen reason now k) (fun _ => True)
    (fun _ _ => id) (fun a _ => a.id = x) (loseExecution reason now) (fun _ _ _ => rfl) _
    (fun l _ a _ => loseOpen_executions l a x) l trivial]
  cases he : l.executions.get? x with
  | none => rfl
  | some e =>
    have hiff : (∃ a ∈ l.executions.rows.filter (fun e => decide (Open k e)), a.id = x) ↔
        Open k e := by
      constructor
      · rintro ⟨a, ha, hid⟩
        obtain ⟨hmem, hopen⟩ := List.mem_filter.mp ha
        have hrow := Table.get?_eq_some.mpr ⟨hmem, hid⟩
        rw [he] at hrow
        cases hrow
        exact of_decide_eq_true hopen
      · intro hopen
        obtain ⟨hmem, hid⟩ := Table.get?_eq_some.mp he
        exact ⟨e, List.mem_filter.mpr ⟨hmem, decide_eq_true hopen⟩, hid⟩
    rw [Option.map_some, Option.map_some]
    simp only [hiff]

theorem loseOpen_frame (l : Ledger) (attempts : List Execution) :
    (attempts.foldl (loseOpen reason now k) l).tasks = l.tasks ∧
      (attempts.foldl (loseOpen reason now k) l).claims = l.claims ∧
      (attempts.foldl (loseOpen reason now k) l).operations = l.operations := by
  refine ⟨?_, ?_, ?_⟩
  · exact foldl_eq Ledger.tasks (loseOpen reason now k) (fun _ _ => rfl) attempts l
  · exact foldl_eq Ledger.claims (loseOpen reason now k) (fun _ _ => rfl) attempts l
  · exact foldl_eq Ledger.operations (loseOpen reason now k) (fun _ _ => rfl) attempts l

theorem loseOpen_events (l : Ledger) (attempts : List Execution) {v : ExecutionEvent}
    (h : v ∈ l.events) : v ∈ (attempts.foldl (loseOpen reason now k) l).events := by
  induction attempts generalizing l with
  | nil => exact h
  | cons a attempts ih => exact ih _ (List.mem_append_left _ h)

/-- The events an inner loop appends are its task's. -/
theorem loseOpen_otherEvents (l : Ledger) (attempts : List Execution) {j : TaskId} (h : j ≠ k) :
    (attempts.foldl (loseOpen reason now k) l).events.filter (fun v => v.taskId = j) =
      l.events.filter fun v => v.taskId = j := by
  refine foldl_eq (fun l : Ledger => l.events.filter fun v => v.taskId = j)
    (loseOpen reason now k) (fun l a => ?_) attempts l
  have hk : ¬ k = j := fun e => h e.symm
  simp [loseOpen, Ledger.appendEvent, Ledger.updateExecution, List.filter_append, hk]

/-- The ledger besides the tables the upgrade writes. -/
def otherTables (l : Ledger) : Ledger :=
  { l with tasks := .empty, executions := .empty, claims := .empty, events := [] }

theorem holdTask_others (d : Database) (row : AgentTask) :
    otherTables (holdTask reason now timestamp d row).ledger = otherTables d.ledger := by
  refine (foldl_eq otherTables (loseOpen reason now row.id) (fun _ _ => rfl)
    ((d.ledger.updateTask row.id (markTask reason now row)).executions.rows.filter
      fun e => Open row.id e) (d.ledger.updateTask row.id (markTask reason now row))).trans rfl

theorem holdTask_otherEvents (d : Database) (row : AgentTask) {j : TaskId} (h : j ≠ row.id) :
    (holdTask reason now timestamp d row).ledger.events.filter (fun v => v.taskId = j) =
      d.ledger.events.filter fun v => v.taskId = j := by
  have hk : ¬ row.id = j := fun e => h e.symm
  unfold holdTask
  simp only [Ledger.appendEvent, List.filter_append]
  rw [loseOpen_otherEvents _ _ h]
  simp [Ledger.updateTask, hk]

theorem holdTask_tasks (d : Database) (row : AgentTask) (k : TaskId) :
    (holdTask reason now timestamp d row).ledger.tasks.get? k =
      (d.ledger.tasks.get? k).map fun t => if row.id = k then markTask reason now row t else t := by
  unfold holdTask
  simp only [Ledger.appendEvent, (loseOpen_frame _ _).1]
  refine (Table.get?_update_ite d.ledger.tasks row.id k (markTask reason now row)
    fun _ => rfl).trans ?_
  by_cases h : row.id = k <;> simp [h]

theorem holdTask_operations (d : Database) (row : AgentTask) :
    (holdTask reason now timestamp d row).ledger.operations = d.ledger.operations := by
  unfold holdTask
  simp only [Ledger.appendEvent, (loseOpen_frame _ _).2.2]
  rfl

theorem holdTask_executions (d : Database) (row : AgentTask) (x : ExecutionId) :
    (holdTask reason now timestamp d row).ledger.executions.get? x =
      (d.ledger.executions.get? x).map fun e =>
        if Open row.id e then loseExecution reason now e else e :=
  loseOpen_loop (d.ledger.updateTask row.id (markTask reason now row)) x

theorem holdTask_claims (d : Database) (row : AgentTask) (k : TaskId) :
    (holdTask reason now timestamp d row).ledger.claims.get? k =
      (d.ledger.claims.get? k).map fun c => if Unreleased row.id c then freeClaim now c else c := by
  unfold holdTask
  simp only [Ledger.appendEvent, (loseOpen_frame _ _).2.1]
  exact Table.get?_update _ _ (freeClaim now) (fun _ => rfl) k

/-- The executions keep their tasks through the loop. -/
def SameOwners (d d' : Database) : Prop :=
  ∀ x, (d'.ledger.executions.get? x).map Execution.taskId =
    (d.ledger.executions.get? x).map Execution.taskId

theorem sameOwners_holdTask {d₀ : Database} (row : AgentTask) (h : SameOwners d₀ d) :
    SameOwners d₀ (holdTask reason now timestamp d row) := by
  intro x
  rw [holdTask_executions, Option.map_map, ← h x]
  congr 1
  funext e
  by_cases ho : Open row.id e <;> simp [ho, loseExecution]

theorem leaseOf_iff {d₀ : Database} (h : SameOwners d₀ d) (c : WriterLease) :
    LeaseOf d.ledger k timestamp c ↔ LeaseOf d₀.ledger k timestamp c := by
  have hmap : ∀ d : Database, (∃ e ∈ d.ledger.executions.rows, e.taskId = k ∧ e.id = c.ownerId) ↔
      (d.ledger.executions.get? c.ownerId).map Execution.taskId = some k := by
    intro d
    rw [Option.map_eq_some_iff]
    constructor
    · rintro ⟨e, he, hk, hid⟩
      exact ⟨e, Table.get?_eq_some.mpr ⟨he, hid⟩, hk⟩
    · rintro ⟨e, he, hk⟩
      obtain ⟨hmem, hid⟩ := Table.get?_eq_some.mp he
      exact ⟨e, hmem, hk, hid⟩
  unfold LeaseOf
  rw [hmap, hmap, h]

theorem holdTask_leases {d₀ : Database} (h : SameOwners d₀ d) (row : AgentTask)
    (key : ResourceKey) :
    (holdTask reason now timestamp d row).leases.get? key =
      (d.leases.get? key).map fun c =>
        if LeaseOf d₀.ledger row.id timestamp c then endLease timestamp c else c := by
  have hsame : SameOwners d₀ (holdTask reason now timestamp d row) := sameOwners_holdTask row h
  have hiff : ∀ c, LeaseOf (holdTask reason now timestamp d row).ledger row.id timestamp c ↔
      LeaseOf d₀.ledger row.id timestamp c := leaseOf_iff hsame
  refine (Table.get?_update d.leases (LeaseOf _ row.id timestamp) (endLease timestamp)
    (fun _ => rfl) key).trans ?_
  congr 1
  funext c
  exact if_congr (hiff c) rfl rfl

theorem heldBefore_holdTask (row : AgentTask) :
    HeldBefore (holdTask reason now timestamp d row).ledger row.id ∧
      ∀ j, HeldBefore d.ledger j → HeldBefore (holdTask reason now timestamp d row).ledger j := by
  refine ⟨⟨_, List.mem_append_right _ (List.mem_singleton_self _), rfl, rfl⟩, ?_⟩
  rintro j ⟨v, hv, hj, hevent⟩
  exact ⟨v, List.mem_append_left _ (loseOpen_events _ _ hv), hj, hevent⟩

end Pass

section Loop

/-- The loop of the upgrade. -/
def holdAll (reason : String) (now : Time) (timestamp : List Char) (d : Database) : Database :=
  (selectedRows d.ledger).foldl (holdTask reason now timestamp) d

variable {t : AgentTask}

theorem mem_selectedRows : t ∈ selectedRows d.ledger ↔
    d.ledger.tasks.get? t.id = some t ∧ Selected d.ledger t := by
  unfold selectedRows
  rw [List.mem_filter, Table.mem_rows_iff, decide_eq_true_iff]

theorem holdAll_task (ht : d.ledger.tasks.get? k = some t) :
    (holdAll reason now timestamp d).ledger.tasks.get? k =
      some (if Selected d.ledger t then markTask reason now t t else t) := by
  have hid : t.id = k := Table.key_of_get? ht
  have hrows : ∀ r ∈ selectedRows d.ledger, r.id = k → r = t := by
    intro r hr hk
    have hrow := (mem_selectedRows.mp hr).1
    rw [hk, ht] at hrow
    exact (Option.some.inj hrow).symm
  rw [holdAll, foldl_get? (fun d : Database => d.ledger.tasks.get? k) _ (fun _ => True)
    (fun _ _ => id) (fun r _ => r.id = k) (markTask reason now t) (fun _ _ _ => rfl) _
    (fun d _ r hr => ?_) d trivial, ht, Option.map_some]
  · have hiff : (∃ r ∈ selectedRows d.ledger, r.id = k) ↔ Selected d.ledger t := by
      constructor
      · rintro ⟨r, hr, hk⟩
        exact hrows r hr hk ▸ (mem_selectedRows.mp hr).2
      · exact fun hs => ⟨t, mem_selectedRows.mpr ⟨hid.symm ▸ ht, hs⟩, hid⟩
    simp only [hiff]
  · rw [holdTask_tasks]
    congr 1
    funext a
    by_cases hk : r.id = k
    · rw [if_pos hk, if_pos hk, hrows r hr hk]
    · rw [if_neg hk, if_neg hk]

theorem holdAll_task_none (ht : d.ledger.tasks.get? k = none) :
    (holdAll reason now timestamp d).ledger.tasks.get? k = none := by
  have hisNone : ∀ rows : List AgentTask, ∀ d : Database, d.ledger.tasks.get? k = none →
      (rows.foldl (holdTask reason now timestamp) d).ledger.tasks.get? k = none := by
    intro rows
    induction rows with
    | nil => exact fun _ h => h
    | cons r rows ih =>
      intro d h
      refine ih _ ?_
      rw [holdTask_tasks, h, Option.map_none]
  exact hisNone _ d ht

theorem holdAll_operations :
    (holdAll reason now timestamp d).ledger.operations = d.ledger.operations :=
  foldl_eq (fun d : Database => d.ledger.operations) _ (fun d r => holdTask_operations d r) _ d

theorem holdAll_executions (x : ExecutionId) :
    (holdAll reason now timestamp d).ledger.executions.get? x =
      (d.ledger.executions.get? x).map fun e =>
        if ∃ r ∈ selectedRows d.ledger, Open r.id e then loseExecution reason now e else e :=
  foldl_get? (fun d : Database => d.ledger.executions.get? x) (holdTask reason now timestamp)
    (fun _ => True) (fun _ _ => id) (fun (r : AgentTask) e => Open r.id e)
    (loseExecution reason now) (fun _ _ _ => rfl) (selectedRows d.ledger) (fun d _ r _ => holdTask_executions d r x) d trivial

theorem holdAll_claims (k : TaskId) :
    (holdAll reason now timestamp d).ledger.claims.get? k =
      (d.ledger.claims.get? k).map fun c =>
        if ∃ r ∈ selectedRows d.ledger, Unreleased r.id c then freeClaim now c else c :=
  foldl_get? (fun d : Database => d.ledger.claims.get? k) (holdTask reason now timestamp)
    (fun _ => True) (fun _ _ => id) (fun (r : AgentTask) c => Unreleased r.id c) (freeClaim now)
    (fun _ _ _ => rfl) (selectedRows d.ledger) (fun d _ r _ => holdTask_claims d r k) d trivial

theorem holdAll_sameOwners : SameOwners d (holdAll reason now timestamp d) := by
  intro x
  rw [holdAll_executions, Option.map_map]
  congr 1
  funext e
  by_cases h : ∃ r ∈ selectedRows d.ledger, Open r.id e <;> simp [h, loseExecution]

theorem holdAll_leases (key : ResourceKey) :
    (holdAll reason now timestamp d).leases.get? key =
      (d.leases.get? key).map fun c =>
        if ∃ r ∈ selectedRows d.ledger, LeaseOf d.ledger r.id timestamp c
          then endLease timestamp c else c :=
  foldl_get? (fun d : Database => d.leases.get? key) (holdTask reason now timestamp)
    (SameOwners d) (fun _ r h => sameOwners_holdTask r h)
    (fun (r : AgentTask) c => LeaseOf d.ledger r.id timestamp c) (endLease timestamp)
    (fun _ _ _ => rfl) (selectedRows d.ledger) (fun _ h r _ => holdTask_leases h r key) d
    (fun _ => rfl)

theorem holdAll_heldBefore {j : TaskId} (h : HeldBefore d.ledger j ∨
    ∃ r ∈ selectedRows d.ledger, r.id = j) :
    HeldBefore (holdAll reason now timestamp d).ledger j := by
  have hloop : ∀ rows : List AgentTask, ∀ d : Database,
      (HeldBefore d.ledger j ∨ ∃ r ∈ rows, r.id = j) →
        HeldBefore (rows.foldl (holdTask reason now timestamp) d).ledger j := by
    intro rows
    induction rows with
    | nil => exact fun d h => h.resolve_right fun ⟨_, hr, _⟩ => nomatch hr
    | cons r rows ih =>
      intro d h
      obtain ⟨hnew, hkept⟩ :
          HeldBefore (holdTask reason now timestamp d r).ledger r.id ∧ ∀ j,
            HeldBefore d.ledger j → HeldBefore (holdTask reason now timestamp d r).ledger j :=
        heldBefore_holdTask r
      refine ih _ ?_
      rcases h with h | ⟨q, hq, hj⟩
      · exact .inl (hkept j h)
      · rcases List.mem_cons.mp hq with rfl | hq
        · exact .inl (hj ▸ hnew)
        · exact .inr ⟨q, hq, hj⟩
  exact hloop _ d h

theorem holdAll_others : otherTables (holdAll reason now timestamp d).ledger =
    otherTables d.ledger :=
  foldl_eq (fun d : Database => otherTables d.ledger) (holdTask reason now timestamp)
    (fun d r => holdTask_others d r) (selectedRows d.ledger) d

theorem holdAll_otherEvents (h : ¬ ∃ r ∈ selectedRows d.ledger, r.id = k) :
    (holdAll reason now timestamp d).ledger.events.filter (fun v => v.taskId = k) =
      d.ledger.events.filter fun v => v.taskId = k := by
  have hloop : ∀ rows : List AgentTask, (¬ ∃ r ∈ rows, r.id = k) → ∀ d : Database,
      (rows.foldl (holdTask reason now timestamp) d).ledger.events.filter (fun v => v.taskId = k) =
        d.ledger.events.filter fun v => v.taskId = k := by
    intro rows
    induction rows with
    | nil => exact fun _ _ => rfl
    | cons r rows ih =>
      intro hno d
      rw [List.foldl_cons, ih fun ⟨q, hq, hk⟩ => hno ⟨q, List.mem_cons_of_mem _ hq, hk⟩]
      exact holdTask_otherEvents d r fun hk => hno ⟨r, List.mem_cons_self, hk.symm⟩
  exact hloop _ h d

end Loop

section Held
variable {t : AgentTask}

/-- No attempt of the task is open, no claim unreleased. -/
structure Quiesced (l : Ledger) (k : TaskId) : Prop where
  executions : ∀ x e, l.executions.get? x = some e → e.taskId = k → e.status.Terminal
  claim : ∀ c, l.claims.get? k = some c → c.released = true

/-- No attempt of the task holds a lease that has not run out. -/
def Unleased (d : Database) (timestamp : List Char) (k : TaskId) : Prop :=
  ∀ key c, d.leases.get? key = some c → ¬ LeaseOf d.ledger k timestamp c

/-- What the upgrade is meant to leave of a task without an operation row. -/
structure Frozen (d d' : Database) (timestamp : List Char) (k : TaskId) (t : AgentTask) : Prop where
  status : ∃ t', d'.ledger.tasks.get? k = some t' ∧
    (t.status.Terminal ∧ t'.status = t.status ∨ t'.status = .blocked)
  idle : Quiesced d'.ledger k
  leases : Unleased d' timestamp k

/-- The rows of a task are the same in two databases. -/
structure Preserved (d d' : Database) (k : TaskId) : Prop where
  task : d'.ledger.tasks.get? k = d.ledger.tasks.get? k
  operation : d'.ledger.operations.get? k = d.ledger.operations.get? k
  claim : d'.ledger.claims.get? k = d.ledger.claims.get? k
  executions : ∀ x e, d.ledger.executions.get? x = some e → e.taskId = k →
    d'.ledger.executions.get? x = some e
  leases : ∀ key c e, d.leases.get? key = some c → d.ledger.executions.get? c.ownerId = some e →
    e.taskId = k → d'.leases.get? key = some c
  events : d'.ledger.events.filter (fun v => v.taskId = k) =
    d.ledger.events.filter fun v => v.taskId = k

/-- What a task that is not selected looks like. -/
theorem idle_of_not_selected (ho : d.ledger.operations.get? k = none)
    (ht : d.ledger.tasks.get? k = some t) (h : ¬ Selected d.ledger t) :
    Quiesced d.ledger k ∧ (¬ t.status.Terminal → HeldBefore d.ledger k) := by
  have hid : t.id = k := Table.key_of_get? ht
  rw [← hid] at ho
  have hno := fun h' => h ⟨ho, h'⟩
  rw [hid] at hno
  refine ⟨⟨fun x e he hk => ?_, fun c hc => ?_⟩, fun hterm => ?_⟩
  · by_contra hopen
    exact hno (.inr (.inl ⟨e, (Table.get?_eq_some.mp he).1, hk, hopen⟩))
  · by_contra hfree
    exact hno (.inr (.inr ⟨c, (Table.get?_eq_some.mp hc).1, Table.key_of_get? hc, by
      simpa using hfree⟩))
  · by_contra hnew
    exact hno (.inl ⟨hterm, hnew⟩)

theorem idle_of_selected (h : ∃ r ∈ selectedRows d.ledger, r.id = k) :
    Quiesced (holdAll reason now timestamp d).ledger k := by
  obtain ⟨r, hr, hid⟩ := h
  refine ⟨fun x e' he' hk => ?_, fun c' hc' => ?_⟩
  · rw [holdAll_executions] at he'
    obtain ⟨e, _, rfl⟩ := Option.map_eq_some_iff.mp he'
    split_ifs at hk ⊢ with hopen
    · exact .inr (.inr (.inr (.inr rfl)))
    · by_contra hterm
      exact hopen ⟨r, hr, hk.trans hid.symm, hterm⟩
  · rw [holdAll_claims] at hc'
    obtain ⟨c, hc, rfl⟩ := Option.map_eq_some_iff.mp hc'
    split_ifs with hfree
    · rfl
    · by_contra hopen
      exact hfree ⟨r, hr, (Table.key_of_get? hc).trans hid.symm, by simpa using hopen⟩

theorem unleased_of_selected (h : ∃ r ∈ selectedRows d.ledger, r.id = k) :
    Unleased (holdAll reason now timestamp d) timestamp k := by
  obtain ⟨r, hr, hid⟩ := h
  intro key c' hc' hlease
  rw [leaseOf_iff holdAll_sameOwners] at hlease
  rw [holdAll_leases] at hc'
  obtain ⟨c, _, rfl⟩ := Option.map_eq_some_iff.mp hc'
  split_ifs at hlease with hended
  · exact List.lt_irrefl _ hlease.2
  · exact hended ⟨r, hr, hid ▸ hlease⟩

/-- A task that no selected row names keeps its rows. -/
theorem preserved_of_not_selected (h : ¬ ∃ r ∈ selectedRows d.ledger, r.id = k) :
    Preserved d (holdAll reason now timestamp d) k := by
  refine ⟨?_, by rw [holdAll_operations], ?_, fun x e he hk => ?_, fun key c e hc he hk => ?_,
    holdAll_otherEvents h⟩
  · cases ht : d.ledger.tasks.get? k with
    | none => exact holdAll_task_none ht
    | some t =>
      have hid : t.id = k := Table.key_of_get? ht
      rw [holdAll_task ht, if_neg]
      exact fun hs => h ⟨t, mem_selectedRows.mpr ⟨hid.symm ▸ ht, hs⟩, hid⟩
  · rw [holdAll_claims]
    cases hc : d.ledger.claims.get? k with
    | none => rfl
    | some c =>
      rw [Option.map_some, if_neg]
      rintro ⟨r, hr, hkey, _⟩
      exact h ⟨r, hr, hkey.symm.trans (Table.key_of_get? hc)⟩
  · rw [holdAll_executions, he, Option.map_some, if_neg]
    rintro ⟨r, hr, hkey, _⟩
    exact h ⟨r, hr, hkey.symm.trans hk⟩
  · rw [holdAll_leases, hc, Option.map_some, if_neg]
    rintro ⟨r, hr, ⟨e', he', hkey, hid⟩, _⟩
    have hrow := Table.get?_eq_some.mpr ⟨he', hid⟩
    rw [he] at hrow
    cases hrow
    exact h ⟨r, hr, hkey.symm.trans hk⟩

/-- A second selection is empty. -/
theorem selectedRows_holdAll : selectedRows (holdAll reason now timestamp d).ledger = [] := by
  refine List.eq_nil_iff_forall_not_mem.mpr fun t' ht' => ?_
  obtain ⟨hrow, hoperation, hwhy⟩ := mem_selectedRows.mp ht'
  rw [holdAll_operations] at hoperation
  have hidle : Quiesced (holdAll reason now timestamp d).ledger t'.id ∧
      (¬ t'.status.Terminal → HeldBefore (holdAll reason now timestamp d).ledger t'.id) := by
    cases ht : d.ledger.tasks.get? t'.id with
    | none =>
      rw [holdAll_task_none ht] at hrow
      cases hrow
    | some t =>
      have hid : t.id = t'.id := Table.key_of_get? ht
      by_cases hs : Selected d.ledger t
      · have hsel : ∃ r ∈ selectedRows d.ledger, r.id = t'.id :=
          ⟨t, mem_selectedRows.mpr ⟨hid.symm ▸ ht, hs⟩, hid⟩
        exact ⟨idle_of_selected hsel, fun _ => holdAll_heldBefore (.inr hsel)⟩
      · obtain ⟨hidle, hbefore⟩ := idle_of_not_selected hoperation ht hs
        have hkept : Preserved d (holdAll reason now timestamp d) t'.id := by
          refine preserved_of_not_selected ?_
          rintro ⟨r, hr, hrid⟩
          obtain ⟨hrow', hr⟩ := mem_selectedRows.mp hr
          rw [hrid, ht] at hrow'
          cases hrow'
          exact hs hr
        rw [hkept.task, ht] at hrow
        cases hrow
        refine ⟨⟨fun x e' he' hk => ?_, fun c hc => hidle.claim c (hkept.claim ▸ hc)⟩, fun hterm =>
          holdAll_heldBefore (.inl (hbefore hterm))⟩
        rw [holdAll_executions] at he'
        obtain ⟨e, he, rfl⟩ := Option.map_eq_some_iff.mp he'
        split_ifs at hk ⊢
        · exact .inr (.inr (.inr (.inr rfl)))
        · exact hidle.executions x e he hk
  rcases hwhy with ⟨hterm, hnew⟩ | ⟨e, he, hk, hopen⟩ | ⟨c, hc, hk, hfree⟩
  · exact hnew (hidle.2 hterm)
  · exact hopen (hidle.1.executions e.id e (Table.mem_rows_iff.mp he) hk)
  · have hrow := hidle.1.claim c (hk ▸ Table.mem_rows_iff.mp hc)
    rw [hfree] at hrow
    cases hrow

end Held

theorem holdLegacy_ran {env : Operations.Environment} {isoformat : Time → List Char} {stopped : Bool}
    {d' : Database} {n : ℕ} :
    Tx.Ran (holdLegacyForQuiescedUpgrade env isoformat stopped reason now) d n d' ↔
      (stopped = true ∧ strip reason ≠ "") ∧ n = (selectedRows d.ledger).length ∧
        d' = holdAll (env.redact (strip reason)) now (isoformat now) d := by
  unfold holdLegacyForQuiescedUpgrade
  simp only [Tx.ran_require_bind, Tx.ran_select_bind, Tx.ran_write_bind, Tx.ran_pure]
  rfl

/-- A frozen task cannot be claimed by a worker of the local queue. -/
theorem not_claimable_of_frozen {d' : Database} {t : AgentTask} (h : Frozen d d' timestamp k t)
    (owner : String) : ¬ Queue.Claimable d'.ledger k owner := by
  rintro ⟨⟨t', ht', hq, _⟩, _⟩
  obtain ⟨t'', ht'', hstatus⟩ := h.status
  rw [ht''] at ht'
  cases ht'
  rcases hstatus with ⟨hterm, hs⟩ | hs
  · rw [← hs, hq] at hterm
    exact absurd hterm (by decide)
  · rw [hq] at hs
    cases hs

/-- The upgrade leaves nothing open or claimed of a task without an operation row. A task it
selects is frozen; one it leaves out keeps its rows, and is frozen exactly when it is
blocked or terminal and no attempt of it holds a lease. Tasks with an operation row and
attempts that have ended are not touched, and a second call holds nothing. -/
theorem legacy_hold {env : Operations.Environment} {isoformat : Time → List Char} {stopped : Bool}
    {d' : Database} {n : ℕ}
    (h : Tx.Ran (holdLegacyForQuiescedUpgrade env isoformat stopped reason now) d n d') :
    (∀ k t, d.ledger.tasks.get? k = some t → d.ledger.operations.get? k = none →
      Quiesced d'.ledger k ∧
      (Selected d.ledger t → Frozen d d' (isoformat now) k t) ∧
      (¬ Selected d.ledger t → Preserved d d' k ∧ (¬ t.status.Terminal → HeldBefore d.ledger k)) ∧
      (Frozen d d' (isoformat now) k t ↔ Selected d.ledger t ∨
        (t.status.Terminal ∨ t.status = .blocked) ∧ Unleased d (isoformat now) k) ∧
      (Frozen d d' (isoformat now) k t → ∀ owner, ¬ Queue.Claimable d'.ledger k owner)) ∧
    (∀ k o, d.ledger.operations.get? k = some o → Preserved d d' k) ∧
    otherTables d'.ledger = otherTables d.ledger ∧
    (∀ x e, d.ledger.executions.get? x = some e → e.status.Terminal →
      d'.ledger.executions.get? x = some e) ∧
    ∀ isoformat' stopped' reason' now' n' d'',
      Tx.Ran (holdLegacyForQuiescedUpgrade env isoformat' stopped' reason' now') d' n' d'' →
        n' = 0 ∧ d'' = d' := by
  obtain ⟨_, _, rfl⟩ := holdLegacy_ran.mp h
  refine ⟨fun k t ht ho => ?_, fun k o ho => ?_, holdAll_others, fun x e he hterm => ?_,
    fun isoformat' stopped' reason' now' n' d'' h' => ?_⟩
  · have hid : t.id = k := Table.key_of_get? ht
    have hfrozen : Selected d.ledger t →
        Frozen d (holdAll (env.redact (strip reason)) now (isoformat now) d) (isoformat now) k t := by
      intro hs
      have hsel : ∃ r ∈ selectedRows d.ledger, r.id = k :=
        ⟨t, mem_selectedRows.mpr ⟨hid.symm ▸ ht, hs⟩, hid⟩
      refine ⟨⟨_, holdAll_task ht, ?_⟩, idle_of_selected hsel, unleased_of_selected hsel⟩
      rw [if_pos hs]
      by_cases hterm : t.status.Terminal
      · exact .inl ⟨hterm, if_pos hterm⟩
      · exact .inr (if_neg hterm)
    have hkept : ¬ Selected d.ledger t →
        Preserved d (holdAll (env.redact (strip reason)) now (isoformat now) d) k := by
      intro hs
      refine preserved_of_not_selected ?_
      rintro ⟨r, hr, hrid⟩
      obtain ⟨hrow, hr⟩ := mem_selectedRows.mp hr
      rw [hrid, ht] at hrow
      cases hrow
      exact hs hr
    have hidle : ¬ Selected d.ledger t →
        Quiesced (holdAll (env.redact (strip reason)) now (isoformat now) d).ledger k := by
      intro hs
      obtain ⟨hbefore, _⟩ := idle_of_not_selected ho ht hs
      refine ⟨fun x e' he' hk => ?_, fun c hc => hbefore.claim c ((hkept hs).claim ▸ hc)⟩
      rw [holdAll_executions] at he'
      obtain ⟨e, he, rfl⟩ := Option.map_eq_some_iff.mp he'
      split_ifs at hk ⊢
      · exact .inr (.inr (.inr (.inr rfl)))
      · exact hbefore.executions x e he hk
    refine ⟨?_, hfrozen, fun hs => ⟨hkept hs, (idle_of_not_selected ho ht hs).2⟩, ⟨fun hf => ?_, ?_⟩,
      fun hf => not_claimable_of_frozen hf⟩
    · by_cases hs : Selected d.ledger t
      · exact (hfrozen hs).idle
      · exact hidle hs
    · by_cases hs : Selected d.ledger t
      · exact .inl hs
      · refine .inr ⟨?_, fun key c hc hlease => ?_⟩
        · obtain ⟨t', ht', hstatus⟩ := hf.status
          rw [(hkept hs).task, ht] at ht'
          cases ht'
          exact hstatus.imp_left And.left
        · obtain ⟨e, he, hk, hxid⟩ := hlease.1
          have hrow := Table.get?_eq_some.mpr ⟨he, hxid⟩
          exact hf.leases key c ((hkept hs).leases key c e hc hrow hk)
            ((leaseOf_iff holdAll_sameOwners c).mpr hlease)
    · rintro (hs | ⟨hstatus, hleases⟩)
      · exact hfrozen hs
      · by_cases hs : Selected d.ledger t
        · exact hfrozen hs
        · refine ⟨⟨t, (hkept hs).task.trans ht, ?_⟩, hidle hs, fun key c' hc' hlease => ?_⟩
          · exact hstatus.imp_left fun hterm => ⟨hterm, rfl⟩
          · rw [leaseOf_iff holdAll_sameOwners] at hlease
            rw [holdAll_leases] at hc'
            obtain ⟨c, hc, rfl⟩ := Option.map_eq_some_iff.mp hc'
            split_ifs at hlease with hended
            · exact List.lt_irrefl _ hlease.2
            · exact hleases key c hc hlease
  · refine preserved_of_not_selected ?_
    rintro ⟨r, hr, hrid⟩
    obtain ⟨_, hr, _⟩ := mem_selectedRows.mp hr
    rw [hrid, ho] at hr
    cases hr
  · rw [holdAll_executions, he, Option.map_some, if_neg]
    rintro ⟨_, _, _, hopen⟩
    exact hopen hterm
  · obtain ⟨_, rfl, rfl⟩ := holdLegacy_ran.mp h'
    have hnone : selectedRows
        (holdAll (env.redact (strip reason)) now (isoformat now) d).ledger = [] :=
      selectedRows_holdAll
    refine ⟨by rw [hnone]; rfl, ?_⟩
    conv_lhs => rw [holdAll, hnone, List.foldl_nil]

section Plain

/-- A task that an earlier upgrade held, and that was queued again since. -/
def requeuedDatabase : Database where
  ledger :=
    { tasks := ⟨[{ id := 1, requestedBy := "owner", createdAt := 0, updatedAt := 5 }], by simp⟩
      events := [{ taskId := 1, eventType := .operationLegacyUpgradeHeld
                   metadata := .heldTask .running 0 }] }

def plainIso (_ : Time) : List Char := "2026-01-01T00:00:00+00:00".toList

/-- The second upgrade leaves the task queued, and a local worker may claim it. -/
theorem requeued_claimable : ∃ n d',
    Tx.Ran (holdLegacyForQuiescedUpgrade System.plainEnvironment plainIso true "stopped" 10)
      requeuedDatabase n d' ∧
    (∃ t ∈ d'.ledger.tasks.get? 1, t.status = .queued) ∧ Queue.Claimable d'.ledger 1 "owner" := by
  refine ⟨_, _, holdLegacy_ran.mpr ⟨⟨rfl, by decide +kernel⟩, rfl, rfl⟩, ?_, ?_⟩
  · decide +kernel
  · decide +kernel

/-- A running task with its claim and the lease of its attempt. -/
def runningDatabase : Database where
  ledger :=
    { tasks := ⟨[{ id := 1, requestedBy := "owner", status := .running
                   currentExecutionId := some 2, createdAt := 0, updatedAt := 5 }], by simp⟩
      executions := ⟨[{ id := 2, taskId := 1, adapterType := "legacy", status := .running
                        createdAt := 0, updatedAt := 5 }], by simp⟩
      claims := ⟨[{ taskId := 1, workerId := 3, ownerKey := "owner", executionId := 2
                    expiresAt := 50 }], by simp⟩ }
  leases := ⟨[{ resourceKey := "r", ownerId := 2, fenceToken := 1, metadata := ""
                acquiredAt := plainIso 10, heartbeatAt := plainIso 10
                expiresAt := "2027-01-01T00:00:00+00:00".toList }], by simp⟩

theorem legacy_hold_plain : ∃ n d',
    Tx.Ran (holdLegacyForQuiescedUpgrade System.plainEnvironment plainIso true "stopped" 10)
      runningDatabase n d' ∧
    (∃ t ∈ runningDatabase.ledger.tasks.get? 1, Frozen runningDatabase d' (plainIso 10) 1 t) := by
  have hran := holdLegacy_ran.mpr (⟨⟨rfl, by decide +kernel⟩, rfl, rfl⟩ :
    (true = true ∧ strip "stopped" ≠ "") ∧ _ = (selectedRows runningDatabase.ledger).length ∧
      _ = holdAll (System.plainEnvironment.redact (strip "stopped")) 10 (plainIso 10)
        runningDatabase)
  have hselected : ∃ t ∈ runningDatabase.ledger.tasks.get? 1, Selected runningDatabase.ledger t := by
    decide +kernel
  obtain ⟨t, ht, hs⟩ := hselected
  exact ⟨_, _, hran, t, ht, ((legacy_hold hran).1 1 t ht rfl).2.1 hs⟩

end Plain
end NyanyaAgent.Safety
