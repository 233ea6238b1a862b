import NyanyaAgent.Ingress.Requests
import NyanyaAgent.Safety.SubmitAnswers

/-!
# Ingress is idempotent

Receipts, imports and submits of one request in any order: one request row, one accepted
receipt, one task with one operation of its first submitter.
-/
namespace NyanyaAgent.Safety
open NyanyaAgent.Schema NyanyaAgent.Relational NyanyaAgent.Operations NyanyaAgent.Ingress
open NyanyaAgent.Conversation NyanyaAgent.Invariants NyanyaAgent.Runs NyanyaAgent.System

variable {env : Environment} {names : LegacyNames} {l l' : Ledger}

/-- No task carries the request. -/
def Unused (l : Ledger) (q : RequestId) : Prop := ∀ k owner, identityOf l k ≠ some (some q, owner)

/-- What a step of ingress does to the identities of tasks and to the operations. -/
inductive Intaken (l l' : Ledger) : Prop
  | kept (identities : ∀ k, identityOf l' k = identityOf l k)
      (operations : ∀ k, l'.operations.get? k = l.operations.get? k)
  | imported (k : TaskId) (q : RequestId) (owner : String) (absent : identityOf l k = none)
      (unused : Unused l q) (row : identityOf l' k = some (some q, owner))
      (identities : ∀ j, j ≠ k → identityOf l' j = identityOf l j)
      (operations : ∀ j, l'.operations.get? j = l.operations.get? j)

/-- An operation is entered under a new task, or under the task that carries its request. -/
structure Enrolled (l l' : Ledger) (source : Option RequestId) (owner : String) (k : TaskId) :
    Prop where
  prior : (identityOf l k = none ∧ ∀ q, source = some q → Unused l q) ∨
    ∃ q, source = some q ∧ identityOf l k = some (some q, owner)
  new : l.operations.get? k = none
  row : identityOf l' k = some (source, owner)
  operation : ∃ o, l'.operations.get? k = some o
  identities : ∀ j, j ≠ k → identityOf l' j = identityOf l j
  operations : ∀ j, j ≠ k → l'.operations.get? j = l.operations.get? j

/-- At most one task carries a request, and every operation has its task. -/
structure Intact (l : Ledger) : Prop where
  unique : ∀ {j k q o p}, identityOf l j = some (some q, o) → identityOf l k = some (some q, p) →
    j = k
  tasks : ∀ {k o}, l.operations.get? k = some o → identityOf l k ≠ none

theorem identityOf_of_tasks (h : l'.tasks = l.tasks) (k : TaskId) :
    identityOf l' k = identityOf l k := by
  rw [identityOf, identityOf, h]

theorem identityOf_updateTask (k : TaskId) (f : AgentTask → AgentTask)
    (hf : ∀ r, (f r).id = r.id)
    (hsame : ∀ t, ((f t).sourceRequestId, (f t).requestedBy) = (t.sourceRequestId, t.requestedBy))
    (j : TaskId) : identityOf (l.updateTask k f hf) j = identityOf l j := by
  unfold identityOf
  by_cases hj : j = k
  · subst hj
    rw [Ledger.updateTask_get?, Option.map_map]
    congr 1
    funext t
    exact hsame t
  · rw [l.updateTask_get?_ne f hf hj]

section Submits

variable {spec : OperationSpec} {owner root : String} {generation : WorkerId}
  {source : Option RequestId} {project : Option ProjectId} {parent : Option TaskId}
  {key : Option String} {fresh : TaskId} {session : SessionId} {now : Time} {task : AgentTask}

theorem acceptConn_rows {k : TaskId}
    (h : Tx.Ran (acceptConn env k spec owner generation root source project parent key session now)
      l task l') :
    l'.tasks = (upsertTask (acceptedTask env k spec owner root source project now) l).tasks ∧
      l.operations.get? k = none ∧ (∃ o, l'.operations.get? k = some o) ∧
      ∀ j, j ≠ k → l'.operations.get? j = l.operations.get? j := by
  unfold acceptConn insertOperation at h
  simp only [Tx.ran_write_bind, Tx.ran_lift_bind, Tx.ran_attempt_bind, Option.map_eq_some_iff] at h
  obtain ⟨_, _, _, ⟨operations, hins, rfl⟩, h⟩ := h
  have hop : (upsertTask (acceptedTask env k spec owner root source project now) l).operations =
      l.operations := by
    unfold upsertTask
    split <;> rfl
  have hnone : l.operations.get? k = none := by
    have hnew := Table.get?_of_insert hins
    rwa [hop] at hnew
  have hrow : ∃ o, operations.get? k = some o := ⟨_, by rw [Table.get?_insert hins, if_pos rfl]⟩
  have hother : ∀ j, j ≠ k → operations.get? j = l.operations.get? j := by
    intro j hj
    rw [Table.get?_insert hins, if_neg (by simpa using hj), hop]
  split at h
  · rw [Tx.ran_bind] at h
    obtain ⟨turn, l₁, hb, h⟩ := h
    simp only [Tx.ran_write_bind, Tx.ran_select_bind, Tx.ran_demand] at h
    obtain ⟨_, rfl⟩ := h
    rw [(Conversation.bindConn_same env hb).eq]
    exact ⟨rfl, hnone, hrow, hother⟩
  · simp only [Tx.ran_write_bind, Tx.ran_select_bind, Tx.ran_demand] at h
    obtain ⟨_, rfl⟩ := h
    exact ⟨rfl, hnone, hrow, hother⟩

theorem priorTask_none {q : RequestId} (h : priorTask l (some q) = none) : Unused l q := by
  intro k p hk
  obtain ⟨t, ht, heq⟩ := Option.map_eq_some_iff.mp hk
  obtain ⟨hmem, _⟩ := Table.get?_eq_some.mp ht
  have hnone := List.find?_eq_none.mp h t hmem
  simp only [ne_eq, reduceCtorEq, not_false_eq_true, true_and, decide_eq_true_eq] at hnone
  exact hnone (Prod.mk.inj heq).1

theorem priorTask_some {row : AgentTask} (h : priorTask l source = some row) :
    ∃ q, source = some q ∧ identityOf l row.id = some (some q, row.requestedBy) := by
  have hfound := List.find?_some h
  simp only [decide_eq_true_eq] at hfound
  obtain ⟨hsource, hrow⟩ := hfound
  obtain ⟨q, rfl⟩ := Option.ne_none_iff_exists'.mp hsource
  have hget := Table.mem_rows_iff.mp (List.mem_of_find?_eq_some h)
  exact ⟨q, rfl, by rw [identityOf, hget, Option.map_some, hrow]⟩

/-- A submit keeps the tasks and operations, or enters one. -/
theorem submit_intaken {reg : Registry} (hfresh : l.tasks.get? fresh = none)
    (h : Tx.Ran (submit env reg spec owner generation source project parent key fresh session now)
      l task l') :
    ((∀ k, identityOf l' k = identityOf l k) ∧
      ∀ k, l'.operations.get? k = l.operations.get? k) ∨
    ∃ k, Enrolled l l' source owner k := by
  unfold submit at h
  simp only [Tx.ran_lift_bind] at h
  obtain ⟨_, _, root, _, h⟩ := h
  unfold submitConn at h
  simp only [Tx.ran_select_bind, Tx.ran_require_bind] at h
  obtain ⟨_, h⟩ := h
  rw [Tx.ran_bind] at h
  obtain ⟨intake, l₁, hi, h⟩ := h
  have hdone := intakeConn_done hi
  cases intake with
  | answered row =>
    cases hdone with
    | answered =>
      rw [(Tx.ran_pure.mp h).2]
      exact .inl ⟨fun _ => rfl, fun _ => rfl⟩
  | enter k =>
    -- a task to enter is new for its request, or the queued row that carries it
    have henter : priorTask l source = none ∧ k = fresh ∧ l₁ = l ∨
        ∃ row, Adoptable l owner source row ∧ k = row.id ∧ l₁ = retireImported row now l := by
      cases hdone with
      | fresh hnone => exact .inl ⟨hnone, rfl, rfl⟩
      | @adopted row hrow => exact .inr ⟨row, hrow, rfl, rfl⟩
    have hsame : l₁.tasks = l.tasks ∧ l₁.operations = l.operations := by
      rcases henter with ⟨_, _, rfl⟩ | ⟨row, _, _, rfl⟩
      · exact ⟨rfl, rfl⟩
      · exact ⟨(retireImported_keeps row now l).1, (retireImported_keeps row now l).2.1⟩
    obtain ⟨htasks, hoperations⟩ := hsame
    simp only [Tx.ran_select_bind, Tx.ran_lift_bind] at h
    obtain ⟨existing, _, h⟩ := h
    cases existing with
    | some t =>
      obtain ⟨rfl, rfl⟩ := Tx.ran_pure.mp h
      exact .inl ⟨identityOf_of_tasks htasks, fun k => by rw [hoperations]⟩
    | none =>
      simp only [Tx.ran_select_bind, Tx.ran_lift_bind] at h
      obtain ⟨under, _, h⟩ := h
      obtain ⟨hrows, hnew, hrow, hothers⟩ := acceptConn_rows h
      have hidentities : ∀ j, j ≠ k → identityOf l' j = identityOf l j := by
        intro j hj
        rw [identityOf, hrows, upsertTask_get?_ne _ _ hj, ← identityOf]
        exact identityOf_of_tasks htasks j
      have hprior : (l.tasks.get? k = none ∧ ∀ q, source = some q → Unused l q) ∨
          ∃ q t, source = some q ∧ l.tasks.get? k = some t ∧ t.sourceRequestId = some q ∧
            t.requestedBy = owner := by
        rcases henter with ⟨hnone, rfl, _⟩ | ⟨row, hadopt, rfl, _⟩
        · refine .inl ⟨hfresh, ?_⟩
          rintro q rfl
          exact priorTask_none hnone
        · obtain ⟨q, rfl, hidentity⟩ := priorTask_some hadopt.found
          have hget := Table.mem_rows_iff.mp (List.mem_of_find?_eq_some hadopt.found)
          rw [identityOf, hget, Option.map_some, Option.some.injEq, Prod.mk.injEq] at hidentity
          exact .inr ⟨q, row, rfl, hget, hidentity.1, hadopt.owner⟩
      refine .inr ⟨k, ?_, by rw [← hoperations]; exact hnew, ?_, hrow, hidentities,
        fun j hj => by rw [hothers j hj, hoperations]⟩
      · rcases hprior with ⟨hnone, hunused⟩ | ⟨q, t, rfl, ht, hsource, howner⟩
        · exact .inl ⟨by rw [identityOf, hnone]; rfl, hunused⟩
        · exact .inr ⟨q, rfl, by rw [identityOf, ht, Option.map_some, hsource, howner]⟩
      · -- the row is written under `k` with the submitter as its owner
        have hrowIs : ∀ t, (upsertTask (acceptedTask env k spec owner root source project now)
            l₁).tasks.get? k = some t → t.sourceRequestId = source ∧ t.requestedBy = owner := by
          intro t ht
          rcases upsertTask_get? ht with ⟨_, rfl⟩ | ⟨t₀, ht₀, rfl⟩
          · exact ⟨rfl, rfl⟩
          · have ht₁ : l.tasks.get? k = some t₀ := by
              rw [← htasks]
              exact ht₀
            refine ⟨?_, rfl⟩
            rcases hprior with ⟨hnone, _⟩ | ⟨q, t, rfl, ht', hsource, _⟩
            · rw [hnone] at ht₁
              cases ht₁
            · rw [ht'] at ht₁
              cases ht₁
              exact hsource
        have hsome : ((upsertTask (acceptedTask env k spec owner root source project now)
            l₁).tasks.get? k).isSome = true := by
          rw [upsertTask_isSome]
          simp [acceptedTask]
        obtain ⟨t, ht⟩ := Option.isSome_iff_exists.mp hsome
        obtain ⟨hsource, howner⟩ := hrowIs t ht
        rw [identityOf, hrows, ht, Option.map_some, hsource, howner]

end Submits

section Imports

/-- The status of an imported task may change; what it carries and its owner do not. -/
theorem importTask_identities {r : AgentRequest} (h : importTask names r l = some l') :
    l'.operations = l.operations ∧ ((∀ k, identityOf l' k = identityOf l k) ∨
      identityOf l (names.task r.id) = none ∧ Unused l r.id ∧
      (∃ owner, identityOf l' (names.task r.id) = some (some r.id, owner)) ∧
      ∀ j, j ≠ names.task r.id → identityOf l' j = identityOf l j) := by
  unfold importTask at h
  split at h
  · next hnone =>
    split_ifs at h with hused
    obtain ⟨tasks, hins, rfl⟩ := Option.map_eq_some_iff.mp h
    refine ⟨rfl, .inr ⟨by rw [identityOf, hnone]; rfl, ?_,
      ⟨(legacyTask names r).requestedBy, ?_⟩, fun j hj => ?_⟩⟩
    · intro k owner hk
      obtain ⟨t, ht, heq⟩ := Option.map_eq_some_iff.mp hk
      exact hused ⟨t, (Table.get?_eq_some.mp ht).1, (Prod.mk.inj heq).1⟩
    · have hrow : tasks.get? (names.task r.id) = some (legacyTask names r) := by
        rw [Table.get?_insert hins]
        exact if_pos rfl
      rw [identityOf, hrow, Option.map_some]
      rfl
    · have hrow : tasks.get? j = l.tasks.get? j := by
        rw [Table.get?_insert hins]
        exact if_neg hj
      rw [identityOf, hrow, ← identityOf]
  · split_ifs at h
    · cases h
      exact ⟨rfl, .inl (identityOf_updateTask _ _ _ fun _ => rfl)⟩
    · cases h
      exact ⟨rfl, .inl fun _ => rfl⟩

theorem importExecution_identities {r : AgentRequest}
    (h : importExecution env names r l = some l') :
    l'.operations = l.operations ∧ ∀ k, identityOf l' k = identityOf l k := by
  unfold importExecution at h
  split at h
  · obtain ⟨executions, _, rfl⟩ := Option.map_eq_some_iff.mp h
    exact ⟨rfl, identityOf_updateTask _ _ _ fun _ => rfl⟩
  · split_ifs at h
    · cases h
      exact ⟨rfl, fun _ => rfl⟩
    · cases h
      exact ⟨rfl, fun _ => rfl⟩

/-- An import keeps the tasks, or makes one for a request that has none. -/
theorem importRequest_intaken {r : AgentRequest} {k : TaskId}
    (h : Tx.Ran (importRequest env names r) l k l') : Intaken l l' := by
  unfold importRequest at h
  simp only [Tx.ran_attempt_bind, Tx.ran_write_bind, Tx.ran_pure] at h
  obtain ⟨l₁, htask, l₂, hexecution, _, rfl⟩ := h
  obtain ⟨hop₁, hid₁⟩ := importTask_identities htask
  obtain ⟨hop₂, hid₂⟩ := importExecution_identities hexecution
  have hid : ∀ j, identityOf (l₂.updateTask (names.task r.id) fun t =>
      { t with updatedAt := r.updatedAt }) j = identityOf l₁ j :=
    fun j => (identityOf_updateTask (names.task r.id) (fun t => { t with updatedAt := r.updatedAt })
      (fun _ => rfl) (fun _ => rfl) j).trans (hid₂ j)
  have hop : ∀ j, (l₂.updateTask (names.task r.id) fun t =>
      { t with updatedAt := r.updatedAt }).operations.get? j = l.operations.get? j := by
    intro j
    rw [← hop₁, ← hop₂]
    rfl
  rcases hid₁ with hkept | ⟨habsent, hunused, ⟨owner, hrow⟩, hothers⟩
  · exact .kept (fun j => (hid j).trans (hkept j)) hop
  · exact .imported (names.task r.id) r.id owner habsent hunused ((hid _).trans hrow)
      (fun j hj => (hid j).trans (hothers j hj)) hop

end Imports

section Intact

theorem Intact.intaken (h : Intact l) (hstep : Intaken l l') : Intact l' := by
  cases hstep with
  | kept hids hops =>
    constructor
    · intro j k q o p hj hk
      rw [hids] at hj hk
      exact h.unique hj hk
    · intro k o ho
      rw [hops] at ho
      rw [hids]
      exact h.tasks ho
  | imported n q₀ owner habsent hunused hrow hids hops =>
    constructor
    · intro j k q o p hj hk
      by_cases hjn : j = n
      · by_cases hkn : k = n
        · rw [hjn, hkn]
        · rw [hids k hkn] at hk
          rw [hjn, hrow] at hj
          cases hj
          exact absurd hk (hunused k p)
      · rw [hids j hjn] at hj
        by_cases hkn : k = n
        · rw [hkn, hrow] at hk
          cases hk
          exact absurd hj (hunused j o)
        · rw [hids k hkn] at hk
          exact h.unique hj hk
    · intro k o ho
      rw [hops] at ho
      by_cases hkn : k = n
      · rw [hkn, hrow]
        exact Option.some_ne_none _
      · rw [hids k hkn]
        exact h.tasks ho

theorem Intact.enrolled {source : Option RequestId} {owner : String} {n : TaskId} (h : Intact l)
    (hstep : Enrolled l l' source owner n) : Intact l' := by
  -- only the entered task may carry the request it is entered for
  have hother : ∀ {k q p}, source = some q → k ≠ n → identityOf l k ≠ some (some q, p) := by
    intro k q p hsource hkn hk
    rcases hstep.prior with ⟨_, hunused⟩ | ⟨q', hsource', hprior⟩
    · exact hunused q hsource k p hk
    · rw [hsource] at hsource'
      cases hsource'
      exact hkn (h.unique hk hprior)
  constructor
  · intro j k q o p hj hk
    by_cases hjn : j = n
    · by_cases hkn : k = n
      · rw [hjn, hkn]
      · rw [hjn, hstep.row, Option.some.injEq, Prod.mk.injEq] at hj
        rw [hstep.identities k hkn] at hk
        exact absurd hk (hother hj.1 hkn)
    · rw [hstep.identities j hjn] at hj
      by_cases hkn : k = n
      · rw [hkn, hstep.row, Option.some.injEq, Prod.mk.injEq] at hk
        exact absurd hj (hother hk.1 hjn)
      · rw [hstep.identities k hkn] at hk
        exact h.unique hj hk
  · intro k o ho
    by_cases hkn : k = n
    · rw [hkn, hstep.row]
      exact Option.some_ne_none _
    · rw [hstep.operations k hkn] at ho
      rw [hstep.identities k hkn]
      exact h.tasks ho

end Intact

section Steps

variable {w : IngressWorld} {a : IngressAction}

/-- The submits of one request by one owner. -/
def SubmitsFor (source : Option RequestId) (owner : String) : IngressAction → Prop
  | .submit _ _ owner' _ source' _ _ _ _ _ _ => source' = source ∧ owner' = owner
  | _ => False

theorem stepIngress_ledger (hlegal : LegalIngress w a) :
    Intaken w.db.ledger (stepIngress env names w a).db.ledger ∨
    Worked w.db.ledger (stepIngress env names w a).db.ledger ∨
    ∃ source owner k, SubmitsFor source owner a ∧
      Enrolled w.db.ledger (stepIngress env names w a).db.ledger source owner k := by
  cases a with
  | deliver m request =>
    left
    have hledger : (stepIngress env names w (.deliver m request)).db.ledger = w.db.ledger := by
      rcases Tx.commit_cases (claimAgentRequest m request) w.db with ⟨answer, d, hran, hc⟩ |
        ⟨e, _, hc⟩
      · simp only [stepIngress, hc]
        unfold claimAgentRequest at hran
        simp only [Tx.ran_require_bind, Tx.ran_select_bind] at hran
        obtain ⟨_, hran⟩ := hran
        split at hran
        · rw [(Tx.ran_pure.mp hran).2]
        · simp only [Tx.ran_attempt_bind, Option.map_eq_some_iff, Tx.ran_pure] at hran
          obtain ⟨_, ⟨t, _, rfl⟩, _, rfl⟩ := hran
          rfl
      · simp only [stepIngress, hc]
    rw [hledger]
    exact .kept (fun _ => rfl) fun _ => rfl
  | submit reg spec owner generation source project parent key fresh session now =>
    unfold stepIngress
    rcases Tx.commit_cases (submit env reg spec owner generation source project parent key fresh
      session now) w.db.ledger with ⟨task, l', hran, hc⟩ | ⟨e, _, hc⟩
    · simp only [hc]
      rcases submit_intaken hlegal hran with ⟨hids, hops⟩ | ⟨k, henrolled⟩
      · exact .inl (.kept hids hops)
      · exact .inr (.inr ⟨source, owner, k, ⟨rfl, rfl⟩, henrolled⟩)
    · simp only [hc]
      exact .inl (.kept (fun _ => rfl) fun _ => rfl)
  | look q =>
    left
    have hledger : (stepIngress env names w (.look q)).db.ledger = w.db.ledger := by
      simp only [stepIngress]
      split <;> rfl
    rw [hledger]
    exact .kept (fun _ => rfl) fun _ => rfl
  | write i =>
    left
    simp only [stepIngress]
    split
    · exact .kept (fun _ => rfl) fun _ => rfl
    · next r d _ =>
      rcases Tx.commit_cases (importRequest env names r) w.db.ledger with ⟨k, l', hran, hc⟩ |
        ⟨e, _, hc⟩
      · simp only [hc]
        exact importRequest_intaken hran
      · simp only [hc]
        exact .kept (fun _ => rfl) fun _ => rfl
  | work after => exact .inr (.inl hlegal)

theorem Intact.worked (h : Intact l) (hstep : Worked l l') : Intact l' := by
  have hcarried : ∀ {k q p}, identityOf l' k = some (some q, p) →
      identityOf l k = some (some q, p) := by
    intro k q p hk
    rcases hstep.tasks k with hsame | ⟨_, owner, hnew⟩
    · rw [← hsame, hk]
    · rw [hnew] at hk
      cases hk
  constructor
  · exact fun hj hk => h.unique (hcarried hj) (hcarried hk)
  · intro k o ho
    rcases hstep.tasks k with hsame | ⟨_, owner, hnew⟩
    · rw [hsame]
      by_cases hop : l.operations.get? k = none
      · obtain ⟨owner, hnew⟩ := hstep.new k hop (by rw [ho]; exact Option.some_ne_none o)
        rw [hsame] at hnew
        rw [hnew]
        exact Option.some_ne_none _
      · obtain ⟨o', ho'⟩ := Option.ne_none_iff_exists'.mp hop
        exact h.tasks ho'
    · rw [hnew]
      exact Option.some_ne_none _

theorem Intact.step (h : Intact w.db.ledger) (hlegal : LegalIngress w a) :
    Intact (stepIngress env names w a).db.ledger := by
  rcases stepIngress_ledger hlegal with hkept | hworked | ⟨_, _, _, _, henrolled⟩
  · exact h.intaken hkept
  · exact h.worked hworked
  · exact h.enrolled henrolled

/-- A task with an operation keeps it, its request and its owner. -/
def OwnersKept (l l' : Ledger) : Prop :=
  ∀ k, l.operations.get? k ≠ none →
    l'.operations.get? k ≠ none ∧ identityOf l' k = identityOf l k

theorem OwnersKept.refl (l : Ledger) : OwnersKept l l := fun _ hk => ⟨hk, rfl⟩

theorem OwnersKept.trans {l₁ l₂ l₃ : Ledger} (h : OwnersKept l₁ l₂) (h' : OwnersKept l₂ l₃) :
    OwnersKept l₁ l₃ := by
  intro k hk
  obtain ⟨hop, hid⟩ := h k hk
  exact ⟨(h' k hop).1, (h' k hop).2.trans hid⟩

theorem ownersKept_step (h : Intact w.db.ledger) (hlegal : LegalIngress w a) :
    OwnersKept w.db.ledger (stepIngress env names w a).db.ledger := by
  intro k hk
  obtain ⟨o, ho⟩ := Option.ne_none_iff_exists'.mp hk
  rcases stepIngress_ledger hlegal with hkept | hworked | ⟨_, _, n, _, henrolled⟩
  · cases hkept with
    | kept hids hops => exact ⟨by rw [hops]; exact hk, hids k⟩
    | imported n _ _ habsent _ _ hids hops =>
      refine ⟨by rw [hops]; exact hk, hids k ?_⟩
      rintro rfl
      exact h.tasks ho habsent
  · refine ⟨hworked.operations k hk, ?_⟩
    rcases hworked.tasks k with hsame | ⟨hnone, _⟩
    · exact hsame
    · exact absurd hnone (h.tasks ho)
  · have hkn : k ≠ n := by
      rintro rfl
      exact hk henrolled.new
    exact ⟨by rw [henrolled.operations k hkn]; exact hk, henrolled.identities k hkn⟩

/-- A new operation was submitted for the request its task carries, by the task's owner. -/
theorem operation_new {k : TaskId} {q : RequestId} {owner : String}
    (hlegal : LegalIngress w a) (hnew : w.db.ledger.operations.get? k = none)
    (ho : (stepIngress env names w a).db.ledger.operations.get? k ≠ none)
    (hk : identityOf (stepIngress env names w a).db.ledger k = some (some q, owner)) :
    SubmitsFor (some q) owner a := by
  rcases stepIngress_ledger hlegal with hkept | hworked | ⟨source, submitter, n, hsubmits, henrolled⟩
  · cases hkept with
    | kept _ hops => exact absurd hnew (by rw [← hops]; exact ho)
    | imported _ _ _ _ _ _ _ hops => exact absurd hnew (by rw [← hops]; exact ho)
  · obtain ⟨p, hp⟩ := hworked.new k hnew ho
    rw [hp] at hk
    cases hk
  · by_cases hkn : k = n
    · subst hkn
      rw [henrolled.row] at hk
      cases hk
      exact hsubmits
    · exact absurd hnew (by rw [← henrolled.operations k hkn]; exact ho)

end Steps

section Receipts

variable {w : IngressWorld} {m : MessageIdentity}

def requestCount (w : IngressWorld) (m : MessageIdentity) : ℕ :=
  w.db.requests.rows.countP fun r => Carries m r

def acceptedCount (w : IngressWorld) (m : MessageIdentity) : ℕ :=
  w.receipts.countP fun answer => answer = (m, true)

/-- One row and one accepted receipt once the message was delivered, none before. -/
structure Received (m : MessageIdentity) (w : IngressWorld) : Prop where
  same : acceptedCount w m = requestCount w m
  le_one : requestCount w m ≤ 1
  delivered : ∀ {b}, (m, b) ∈ w.receipts → requestCount w m = 1

theorem carries_receipt {m' : MessageIdentity} {request : AgentRequest} :
    Carries m (receipt m' request) ↔ m' = m := by
  constructor
  · rintro ⟨h₁, h₂, h₃, h₄⟩
    cases m'
    cases m
    simp only [receipt, Option.some.injEq] at h₁ h₂ h₃ h₄
    subst h₁ h₂ h₃ h₄
    rfl
  · rintro rfl
    exact ⟨rfl, rfl, rfl, rfl⟩

theorem requestCount_zero {d : Database} (h : messageRequestId d m = none) :
    d.requests.rows.countP (fun r => Carries m r) = 0 := by
  rw [messageRequestId, Option.map_eq_none_iff, List.find?_eq_none] at h
  rw [List.countP_eq_zero]
  exact h

theorem requestCount_pos {d : Database} {q : RequestId} (h : messageRequestId d m = some q) :
    0 < d.requests.rows.countP (fun r => Carries m r) := by
  obtain ⟨r, hr, _⟩ := Option.map_eq_some_iff.mp h
  have hcarries := List.find?_some hr
  rw [List.countP_pos_iff]
  exact ⟨r, List.mem_of_find?_eq_some hr, hcarries⟩

/-- A receipt of any message keeps the count of one message. -/
theorem Received.deliver (h : Received m w) (m' : MessageIdentity) (request : AgentRequest) :
    Received m (stepIngress env names w (.deliver m' request)) := by
  rcases Tx.commit_cases (claimAgentRequest m' request) w.db with ⟨answer, d, hran, hc⟩ |
    ⟨e, _, hc⟩
  · have hstep : stepIngress env names w (.deliver m' request) =
        { w with db := d, receipts := w.receipts ++ [(m', answer.2)] } := by
      simp only [stepIngress, hc]
    rw [hstep]
    unfold claimAgentRequest at hran
    simp only [Tx.ran_require_bind, Tx.ran_select_bind] at hran
    obtain ⟨_, hran⟩ := hran
    split at hran
    · next q hprior =>
      obtain ⟨rfl, rfl⟩ := Tx.ran_pure.mp hran
      refine ⟨?_, h.le_one, ?_⟩
      · rw [acceptedCount, List.countP_append, ← acceptedCount, h.same]
        simp [requestCount]
      · intro b hb
        rcases List.mem_append.mp hb with hold | hnew
        · exact h.delivered hold
        · obtain ⟨rfl, _⟩ := Prod.mk.inj (List.mem_singleton.mp hnew)
          have hpos := requestCount_pos hprior
          have hle := h.le_one
          simp only [requestCount] at hle ⊢
          omega
    · next hprior =>
      simp only [Tx.ran_attempt_bind, Option.map_eq_some_iff, Tx.ran_pure] at hran
      obtain ⟨_, ⟨t, hins, rfl⟩, rfl, rfl⟩ := hran
      have hrows := Table.rows_insert hins
      by_cases hm : m' = m
      · subst hm
        have hzero : requestCount w m' = 0 := requestCount_zero hprior
        have hone : t.rows.countP (fun r => Carries m' r) = 1 := by
          have hcarried : Carries m' (receipt m' request) := carries_receipt.mpr rfl
          rw [requestCount] at hzero
          rw [hrows, List.countP_append, hzero]
          simp [hcarried]
        refine ⟨?_, Nat.le_of_eq hone, fun _ => hone⟩
        rw [acceptedCount, List.countP_append, ← acceptedCount, h.same, hzero, requestCount, hone]
        simp
      · have hcount : t.rows.countP (fun r => Carries m r) = requestCount w m := by
          have hother : ¬ Carries m (receipt m' request) := fun hc => hm (carries_receipt.mp hc)
          rw [hrows, List.countP_append, requestCount]
          simp [hother]
        refine ⟨?_, Nat.le_trans (Nat.le_of_eq hcount) h.le_one, ?_⟩
        · refine Eq.trans ?_ hcount.symm
          rw [acceptedCount, List.countP_append, ← acceptedCount, h.same]
          simp [hm]
        · intro b hb
          rcases List.mem_append.mp hb with hold | hnew
          · exact hcount.trans (h.delivered hold)
          · exact absurd (Prod.mk.inj (List.mem_singleton.mp hnew)).1.symm hm
  · have hstep : stepIngress env names w (.deliver m' request) = w := by
      simp only [stepIngress, hc]
    rw [hstep]
    exact h

theorem Received.step (h : Received m w) (a : IngressAction) :
    Received m (stepIngress env names w a) := by
  have hsame : ∀ {w' : IngressWorld}, w'.db.requests = w.db.requests → w'.receipts = w.receipts →
      Received m w' := by
    intro w' hrequests hreceipts
    have hcount : requestCount w' m = requestCount w m := by
      rw [requestCount, requestCount, hrequests]
    have haccepted : acceptedCount w' m = acceptedCount w m := by
      rw [acceptedCount, acceptedCount, hreceipts]
    exact ⟨by rw [haccepted, hcount, h.same], by rw [hcount]; exact h.le_one,
      fun hb => by rw [hcount]; exact h.delivered (hreceipts ▸ hb)⟩
  cases a with
  | deliver m' request => exact h.deliver m' request
  | submit => exact hsame rfl rfl
  | look q =>
    simp only [stepIngress]
    split
    · exact h
    · exact hsame rfl rfl
  | write i =>
    simp only [stepIngress]
    split
    · exact h
    · exact hsame rfl rfl
  | work after => exact hsame rfl rfl

end Receipts

section Refusals

/-- The task is past its queued state, or its attempt is not an open imported one. -/
def Underway (l : Ledger) (t : AgentTask) : Prop :=
  t.status ≠ .queued ∨ ∃ x, t.currentExecutionId = some x ∧
    ∀ e, l.executions.get? x = some e → ¬ (e.status = .pending ∧ e.legacy = true)

/-- A submit by another owner, or for an imported task that has started, changes nothing. -/
theorem submit_refused {reg : Registry} {spec : OperationSpec} {owner : String}
    {generation : WorkerId} {q : RequestId} {project : Option ProjectId} {parent : Option TaskId}
    {key : Option String} {fresh : TaskId} {session : SessionId} {now : Time} {t : AgentTask}
    (hl : Intact l) (ht : l.tasks.get? t.id = some t) (hq : t.sourceRequestId = some q)
    (hrefused : t.requestedBy ≠ owner ∨ l.operations.get? t.id = none ∧ Underway l t) :
    ∃ e, Tx.commit (submit env reg spec owner generation (some q) project parent key fresh session
      now) l = (.error e, l) := by
  rcases Tx.commit_cases (submit env reg spec owner generation (some q) project parent key fresh
    session now) l with ⟨task, l', hran, _⟩ | ⟨e, _, hc⟩
  · exfalso
    unfold submit at hran
    simp only [Tx.ran_lift_bind] at hran
    obtain ⟨_, _, root, _, hran⟩ := hran
    unfold submitConn at hran
    simp only [Tx.ran_select_bind, Tx.ran_require_bind] at hran
    obtain ⟨_, hran⟩ := hran
    rw [Tx.ran_bind] at hran
    obtain ⟨intake, l₁, hi, _⟩ := hran
    have hcarries : identityOf l t.id = some (some q, t.requestedBy) := by
      rw [identityOf, ht, Option.map_some, hq]
    cases hprior : priorTask l (some q) with
    | none => exact priorTask_none hprior _ _ hcarries
    | some row =>
      obtain ⟨q', hq', hrow⟩ := priorTask_some hprior
      cases hq'
      have hsame : row = t := by
        have hget := Table.mem_rows_iff.mp (List.mem_of_find?_eq_some hprior)
        rw [hl.unique hrow hcarries, ht] at hget
        exact (Option.some.inj hget).symm
      subst hsame
      have hfound : row.requestedBy = owner ∧
          ((∃ o, l.operations.get? row.id = some o) ∨ Adoptable l owner (some q) row) := by
        cases intakeConn_done hi with
        | answered hrow howner hop =>
          rw [hprior] at hrow
          cases hrow
          exact ⟨howner, .inl hop⟩
        | fresh hnone =>
          rw [hprior] at hnone
          cases hnone
        | adopted hadopt =>
          have hrow := hadopt.found
          rw [hprior] at hrow
          cases hrow
          exact ⟨hadopt.owner, .inr hadopt⟩
      obtain ⟨howner, hfound⟩ := hfound
      rcases hrefused with hother | ⟨hnone, hstarted⟩
      · exact hother howner
      · rcases hfound with ⟨o, ho⟩ | hadopt
        · rw [hnone] at ho
          cases ho
        · rcases hstarted with hstatus | ⟨x, hx, hclosed⟩
          · exact hstatus hadopt.queued
          · rcases hadopt.attempt with hnox | ⟨x', e, hx', he, hopen⟩
            · rw [hx] at hnox
              cases hnox
            · rw [hx] at hx'
              cases hx'
              exact hclosed e he hopen
  · exact ⟨e, hc⟩

end Refusals

section Mirrors

variable {w : IngressWorld} {a : IngressAction}

/-- No task carried its request when an import was read. -/
def Checked (w : IngressWorld) : Prop := ∀ r d, (r, d) ∈ w.imports → Unused d.ledger r.id

/-- A part of the mirroring of a request. -/
def Mirrors (w : IngressWorld) (q : RequestId) : IngressAction → Prop
  | .look q' => q' = q
  | .write i => ∃ r d, w.imports[i]? = some (r, d) ∧ r.id = q
  | _ => False

theorem adoptedTask_none {q : RequestId} (h : adoptedTask l q = none) : Unused l q := by
  intro k owner hk
  obtain ⟨t, ht, heq⟩ := Option.map_eq_some_iff.mp hk
  have hnone := List.find?_eq_none.mp h t (Table.get?_eq_some.mp ht).1
  exact hnone (decide_eq_true (Prod.mk.inj heq).1)

theorem lookRequest_importing {q : RequestId} {d : Database} {r : AgentRequest}
    (h : lookRequest q d = .importing r) : r.id = q ∧ Unused d.ledger q := by
  unfold lookRequest at h
  split at h
  · cases h
  · next r' hread =>
    split at h
    · cases h
    · next hnone =>
      cases h
      obtain ⟨hget, _⟩ := Option.filter_eq_some_iff.mp hread
      exact ⟨Table.key_of_get? hget, adoptedTask_none hnone⟩

theorem Checked.step (h : Checked w) (a : IngressAction) :
    Checked (stepIngress env names w a) := by
  have hkept : ∀ {w' : IngressWorld}, w'.imports.Sublist w.imports → Checked w' :=
    fun hsub r d hmem => h r d (hsub.subset hmem)
  cases a with
  | deliver m request =>
    simp only [stepIngress]
    split <;> exact hkept (List.Sublist.refl _)
  | submit => exact hkept (List.Sublist.refl _)
  | look q =>
    simp only [stepIngress]
    split
    · exact h
    · next r hlook =>
      obtain ⟨rfl, hunused⟩ := lookRequest_importing hlook
      intro r' d hmem
      rcases List.mem_append.mp hmem with hold | hnew
      · exact h r' d hold
      · cases List.mem_singleton.mp hnew
        exact hunused
  | write i =>
    simp only [stepIngress]
    split
    · exact h
    · exact hkept (List.eraseIdx_sublist _ _)
  | work after => exact hkept (List.Sublist.refl _)

/-- Without a commit between its reads and its writes, a mirror leaves a carried request alone. -/
theorem mirror_unchanged {q : RequestId} (h : Checked w) (hlegal : Uninterrupted w a)
    (hmirror : Mirrors w q a) (hcarried : ¬ Unused w.db.ledger q) :
    (stepIngress env names w a).db = w.db := by
  cases a with
  | look q' =>
    simp only [stepIngress]
    split <;> rfl
  | write i =>
    obtain ⟨r, d, hi, rfl⟩ := hmirror
    have hread := h r d (List.mem_of_getElem? hi)
    rw [hlegal.2 i rfl r d hi] at hread
    exact absurd hread hcarried
  | deliver => exact hmirror.elim
  | submit => exact hmirror.elim
  | work => exact hmirror.elim

end Mirrors

/-- Ingress up to `w` and on to `w'` is idempotent. -/
structure Idempotent (env : Environment) (names : LegacyNames) (w₀ w w' : IngressWorld) :
    Prop where
  received : ∀ m, requestCount w₀ m = 0 → (∃ b, (m, b) ∈ w.receipts) →
    requestCount w m = 1 ∧ acceptedCount w m = 1
  one : ∀ {j k q o p}, identityOf w.db.ledger j = some (some q, o) →
    identityOf w.db.ledger k = some (some q, p) → j = k
  kept : OwnersKept w.db.ledger w'.db.ledger
  first : ∀ {a k q owner}, Uninterrupted w a → w.db.ledger.operations.get? k = none →
    (stepIngress env names w a).db.ledger.operations.get? k ≠ none →
    identityOf (stepIngress env names w a).db.ledger k = some (some q, owner) →
    SubmitsFor (some q) owner a
  refused : ∀ {reg spec owner generation q project parent key fresh session now t},
    w.db.ledger.tasks.get? t.id = some t → t.sourceRequestId = some q →
    t.requestedBy ≠ owner ∨
      w.db.ledger.operations.get? t.id = none ∧ Underway w.db.ledger t →
    ∃ e, Tx.commit (submit env reg spec owner generation (some q) project parent key fresh session
      now) w.db.ledger = (.error e, w.db.ledger)
  mirrored : ∀ {a q}, Uninterrupted w a → Mirrors w q a → ¬ Unused w.db.ledger q →
    (stepIngress env names w a).db = w.db

/-- Where no import is interrupted between its reads and its writes, ingress is idempotent. -/
theorem ingress_once {w₀ w w' : IngressWorld} {as bs : List IngressAction}
    (hledger : Intact w₀.db.ledger) (himports : w₀.imports = []) (hreceipts : w₀.receipts = [])
    (has : Run (stepIngress env names) Uninterrupted w₀ as w)
    (hbs : Run (stepIngress env names) Uninterrupted w bs w') : Idempotent env names w₀ w w' := by
  have hintact : Intact w.db.ledger :=
    has.invariant (I := fun w => Intact w.db.ledger) (fun _ _ h ha => h.step ha.1) hledger
  have hchecked : Checked w := by
    refine has.invariant (fun _ a h _ => h.step a) ?_
    intro r d hmem
    rw [himports] at hmem
    cases hmem
  constructor
  case received =>
    intro m hnone hdelivered
    have hstart : Received m w₀ := by
      refine ⟨?_, by rw [hnone]; exact Nat.zero_le 1, fun hb => ?_⟩
      · rw [acceptedCount, hreceipts, hnone]
        rfl
      · rw [hreceipts] at hb
        cases hb
    have hreceived : Received m w := has.invariant (fun _ a h _ => h.step a) hstart
    obtain ⟨b, hb⟩ := hdelivered
    have hone := hreceived.delivered hb
    exact ⟨hone, hreceived.same.trans hone⟩
  case one => exact hintact.unique
  case kept =>
    refine hbs.relation (I := fun w => Intact w.db.ledger)
      (R := fun w w' => OwnersKept w.db.ledger w'.db.ledger) (fun _ => .refl _) ?_
      (fun _ _ h ha => h.step ha.1) (fun _ _ h ha => ownersKept_step h ha.1) hintact
    intro _ _ _ h h'
    exact h.trans h'
  case first => exact fun hlegal hnew ho hk => operation_new hlegal.1 hnew ho hk
  case refused => exact fun ht hq hrefused => submit_refused hintact ht hq hrefused
  case mirrored => exact fun hlegal hmirror hcarried =>
    mirror_unchanged hchecked hlegal hmirror hcarried

section Interrupted

def plainNames : LegacyNames := ⟨fun q => 20 + q, fun q => 40 + q, fun s => s⟩

def plainMessage : MessageIdentity := ⟨"discord", "1", "2", "3"⟩

def plainRequest : AgentRequest := { id := 5, prompt := "p", createdAt := 0, updatedAt := 0 }

/-- One worker is registered, and nothing else is there. -/
def plainIngress : IngressWorld where
  db :=
    { requests := ⟨[], by simp⟩
      ledger := { workers := ⟨[{ id := 1, heartbeatAt := 0 }], by simp⟩ } }
  imports := []
  receipts := []

def plainSubmit : IngressAction :=
  .submit ⟨fun _ => true, fun _ => true, fun _ => "/w"⟩ { workspace := "/w" } "discord-user:2" 1
    (some 5) none none none 7 3 0

/-- Two reconciliations read the request before either imports it, one of them imports it, and
its submit adopts the task. -/
def adoptingRun : List IngressAction :=
  [.deliver plainMessage plainRequest, .look 5, .look 5, .write 1, plainSubmit]

def adoptedWorld : IngressWorld :=
  adoptingRun.foldl (stepIngress plainEnvironment plainNames) plainIngress

/-- The worker claims the adopted task. -/
def claimedLedger : Ledger := (Tx.commit (claim 1 4 9 0 0) adoptedWorld.db.ledger).2

def claimedWorld : IngressWorld :=
  stepIngress plainEnvironment plainNames adoptedWorld (.work claimedLedger)

theorem plainIngress_intact : Intact plainIngress.db.ledger := by
  constructor
  · intro j k q o p hj
    cases hj
  · intro k o ho
    cases ho

/-- A ledger with the same tasks for the same requests and owners, and the same operations. -/
theorem worked_of_columns
    (htasks : l'.tasks.rows.map (fun t => (t.id, t.sourceRequestId, t.requestedBy)) =
      l.tasks.rows.map fun t => (t.id, t.sourceRequestId, t.requestedBy))
    (hoperations : l'.operations.rows.map (·.taskId) = l.operations.rows.map (·.taskId)) :
    Worked l l' := by
  have hidentity : ∀ (l : Ledger) k, identityOf l k =
      ((l.tasks.rows.map fun t => (t.id, t.sourceRequestId, t.requestedBy)).find? fun c =>
        c.1 = k).map (·.2) := by
    intro l k
    rw [List.find?_map, Option.map_map]
    rfl
  have hoperation : ∀ (l : Ledger) k, l.operations.get? k ≠ none ↔
      k ∈ l.operations.rows.map (·.taskId) := by
    intro l k
    rw [Option.ne_none_iff_exists', List.mem_map]
    simp only [Table.get?_eq_some]
  constructor
  · intro k
    rw [hidentity, hidentity, htasks]
    exact .inl rfl
  · intro k hk
    rwa [hoperation, hoperations, ← hoperation]
  · intro k hnone hk
    rw [hoperation, hoperations, ← hoperation] at hk
    exact absurd hnone hk

theorem claimed_columns :
    (adoptedWorld.db.ledger.tasks.rows.map (fun t => (t.id, t.sourceRequestId, t.requestedBy)) =
        claimedLedger.tasks.rows.map fun t => (t.id, t.sourceRequestId, t.requestedBy)) ∧
      adoptedWorld.db.ledger.operations.rows.map (·.taskId) =
        claimedLedger.operations.rows.map (·.taskId) ∧
      ((adoptingRun.take 4).foldl (stepIngress plainEnvironment plainNames)
        plainIngress).db.ledger.tasks.get? 7 = none ∧
      claimedWorld.imports.map (·.1.id) = [5] ∧
      (claimedWorld.db.ledger.tasks.get? 25).map
          (fun t => (t.sourceRequestId, t.requestedBy, t.status)) =
        some (some 5, "discord-user:2", .running) ∧
      ((stepIngress plainEnvironment plainNames claimedWorld (.write 0)).db.ledger.tasks.get?
        25).map (·.status) = some .queued := by
  decide +kernel

theorem not_write {a : IngressAction} {w : IngressWorld} (hlegal : LegalIngress w a)
    (ha : ∀ i, a ≠ .write i) : Uninterrupted w a := ⟨hlegal, fun i hi => absurd hi (ha i)⟩

theorem uninterrupted_look {w : IngressWorld} {q : RequestId} (h : w.imports = []) :
    Uninterrupted (stepIngress env names w (.look q)) (.write 0) := by
  refine ⟨trivial, fun i hi r d hread => ?_⟩
  cases hi
  simp only [stepIngress] at hread ⊢
  split at hread
  · rw [h] at hread
    cases hread
  · simp only [h, List.nil_append, List.getElem?_cons_zero, Option.some.injEq,
      Prod.mk.injEq] at hread
    exact hread.2.symm

/-- A message is received, imported and submitted, and received again. -/
theorem ingress_once_plain :
    Idempotent plainEnvironment plainNames plainIngress
      ([.deliver plainMessage plainRequest, .look 5, .write 0, plainSubmit].foldl
        (stepIngress plainEnvironment plainNames) plainIngress)
      ([.deliver plainMessage plainRequest, .look 5, .write 0, plainSubmit,
        .deliver plainMessage { plainRequest with id := 6 }].foldl
          (stepIngress plainEnvironment plainNames) plainIngress) := by
  have hdeliver : ∀ w request, Uninterrupted w (.deliver plainMessage request) :=
    fun _ _ => not_write trivial fun _ h => by cases h
  refine @ingress_once _ _ _ _ _ [.deliver plainMessage plainRequest, .look 5, .write 0,
    plainSubmit] [.deliver plainMessage { plainRequest with id := 6 }] plainIngress_intact rfl rfl
    (.cons (hdeliver _ _) (.cons (not_write trivial fun _ h => by cases h)
      (.cons (uninterrupted_look rfl) (.cons ?_ (.nil _)))))
    (.cons (hdeliver _ _) (.nil _))
  refine not_write ?_ fun _ h => by cases h
  have hfresh : (([.deliver plainMessage plainRequest, .look 5, .write 0].foldl
      (stepIngress plainEnvironment plainNames) plainIngress).db.ledger.tasks.get? 7) = none := by
    decide +kernel
  exact hfresh

/-- The second reconciliation writes the status it read over the running task. -/
theorem mirror_resets : ∃ as w, Run (stepIngress plainEnvironment plainNames) LegalIngress
      plainIngress as w ∧ LegalIngress w (.write 0) ∧ Mirrors w 5 (.write 0) ∧
    ¬ Unused w.db.ledger 5 ∧ (w.db.ledger.tasks.get? 25).map (·.status) = some .running ∧
    ((stepIngress plainEnvironment plainNames w (.write 0)).db.ledger.tasks.get? 25).map
      (·.status) = some .queued := by
  obtain ⟨htasks, hoperations, hfresh, himport, hrow, hreset⟩ := claimed_columns
  obtain ⟨t, ht, hcolumns⟩ := Option.map_eq_some_iff.mp hrow
  obtain ⟨hsource, howner⟩ := Prod.mk.inj hcolumns
  obtain ⟨howner, hstatus⟩ := Prod.mk.inj howner
  refine ⟨adoptingRun ++ [.work claimedLedger], claimedWorld, ?_, trivial, ?_, ?_, ?_, hreset⟩
  · refine Run.snoc ?_ (worked_of_columns htasks.symm hoperations.symm)
    exact .cons trivial (.cons trivial (.cons trivial (.cons trivial (.cons hfresh (.nil _)))))
  · cases hi : claimedWorld.imports with
    | nil =>
      rw [hi] at himport
      cases himport
    | cons i rest =>
      rw [hi, List.map_cons, List.cons.injEq] at himport
      exact ⟨i.1, i.2, by rw [hi]; rfl, himport.1⟩
  · intro hunused
    refine hunused 25 t.requestedBy ?_
    rw [identityOf, ht, Option.map_some, hsource]
  · rw [ht, Option.map_some, hstatus]

end Interrupted
end NyanyaAgent.Safety
