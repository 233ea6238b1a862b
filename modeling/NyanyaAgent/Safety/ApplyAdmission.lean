import NyanyaAgent.Invariants.Claims
import NyanyaAgent.System.Invariant

/-!
# The admission of applies

An approved plan gets at most one apply operation, whoever asks for it and however
often, and a refused admission leaves the world as it was.
-/
namespace NyanyaAgent.Safety
open NyanyaAgent.Schema NyanyaAgent.Relational NyanyaAgent.Operations NyanyaAgent.Plans
open NyanyaAgent.Drafts NyanyaAgent.Lifecycle NyanyaAgent.Runs NyanyaAgent.Invariants
open NyanyaAgent.System

variable {env : Environment} {lawful : Prop} {κ : Kind} {l₀ l l' : Ledger}

/-- An operation that applies the plan `p`. -/
def Applies (o : TaskOperation) (p : PlanId) : Prop := o.spec.kind = .apply ∧ o.spec.planId = some p

/-- The rows an apply operation was admitted with. -/
structure Admitted (l : Ledger) (k : TaskId) (o : TaskOperation) (p : PlanId) (plan : ChangePlan) :
    Prop where
  planId : o.spec.planId = some p
  row : l.plans.get? p = some plan
  approved : plan.status = .approved
  parent : o.parentTaskId = some plan.taskId
  task : ∃ t, l.tasks.get? k = some t ∧ t.requestedBy = plan.ownerKey ∧
    t.metadata.workspaceRoot = plan.workspace

/-- Every apply operation that is new since `l₀` is admitted. -/
def FreshAdmissions (l₀ l : Ledger) : Prop :=
  ∀ k o, l₀.operations.get? k = none → l.operations.get? k = some o → o.spec.kind = .apply →
    ∃ p plan, Admitted l k o p plan

/-- The kinds of changes of the commands that admit operations. -/
def admitKinds : List Kind := [.aside, .approve, .retire, .enter, .bind, .openDraft, .openTask]

/-- The rows an admission reads stay as they are, up to an approval that is given again. -/
theorem admitted_kept {k : TaskId} {o o' : TaskOperation} {p : PlanId} {plan : ChangePlan}
    (h : Admitted l k o p plan) (hspec : o'.spec = o.spec) (hparent : o'.parentTaskId = o.parentTaskId)
    (htask : ∀ t, l.tasks.get? k = some t → ∃ t', l'.tasks.get? k = some t' ∧
      t'.requestedBy = t.requestedBy ∧ t'.metadata = t.metadata)
    (hplan : ∃ plan', l'.plans.get? p = some plan' ∧ planCore plan' = planCore plan ∧
      plan'.status = .approved) : ∃ p plan, Admitted l' k o' p plan := by
  obtain ⟨plan', hrow, hcore, hs⟩ := hplan
  obtain ⟨t, ht, howner, hroot⟩ := h.task
  obtain ⟨t', ht', ho', hm'⟩ := htask t ht
  have hk : plan'.taskId = plan.taskId := by simpa [planCore] using congrArg ChangePlan.taskId hcore
  have how : plan'.ownerKey = plan.ownerKey := by
    simpa [planCore] using congrArg ChangePlan.ownerKey hcore
  have hws : plan'.workspace = plan.workspace := by
    simpa [planCore] using congrArg ChangePlan.workspace hcore
  refine ⟨p, plan', hspec ▸ h.planId, hrow, hs, by rw [hparent, hk, h.parent], t', ht', ?_, ?_⟩
  · rw [ho', howner, how]
  · rw [hm', hroot, hws]

theorem FreshAdmissions.step (hf : FreshAdmissions l₀ l) (h : Step env lawful κ l l')
    (hκ : κ ∈ admitKinds) : FreshAdmissions l₀ l' := by
  intro j o' hnone ho' hkind
  have hplan : ∀ p plan, l.plans.get? p = some plan → plan.status = .approved →
      ∃ plan', l'.plans.get? p = some plan' ∧ planCore plan' = planCore plan ∧
        plan'.status = .approved := by
    intro p plan hrow hs
    by_cases hκ' : κ = .approve
    · subst hκ'
      cases h with
      | @approve _ q row owner =>
        by_cases hpq : p = q
        · subst hpq
          refine ⟨{ plan with status := .approved, decidedBy := owner }, ?_, rfl, rfl⟩
          rw [decidePlan, Ledger.updatePlan_get?, hrow]
          rfl
        · exact ⟨plan, by rw [decidePlan, Ledger.updatePlan_get?_ne _ _ _ hpq, hrow], rfl, hs⟩
    · refine ⟨plan, ?_, rfl, hs⟩
      rw [plans_eq h, hrow]
      intro hmem
      simp only [admitKinds, List.mem_cons, List.not_mem_nil, or_false] at hκ
      rcases hκ with rfl | rfl | rfl | rfl | rfl | rfl | rfl <;> simp [planKinds] at hmem hκ'
  have keep : ∀ o, l.operations.get? j = some o → o'.spec = o.spec →
      o'.parentTaskId = o.parentTaskId → (∀ t, l.tasks.get? j = some t →
        ∃ t', l'.tasks.get? j = some t' ∧ t'.requestedBy = t.requestedBy ∧ t'.metadata = t.metadata) →
      ∃ p plan, Admitted l' j o' p plan := by
    intro o ho hspec hparent htask
    obtain ⟨p, plan, hadm⟩ := hf j o hnone ho (hspec ▸ hkind)
    exact admitted_kept hadm hspec hparent htask (hplan p plan hadm.row hadm.approved)
  have same : ∀ t, l.tasks.get? j = some t → l'.tasks = l.tasks →
      ∃ t', l'.tasks.get? j = some t' ∧ t'.requestedBy = t.requestedBy ∧ t'.metadata = t.metadata :=
    fun t ht heq => ⟨t, heq ▸ ht, rfl, rfl⟩
  cases h with
  | aside h | bind h => exact keep o' (h.operations ▸ ho') rfl rfl fun t ht => same t ht h.tasks
  | approve => exact keep o' ho' rfl rfl fun t ht => same t ht rfl
  | openTask => exact keep o' ho' rfl rfl fun t ht => same t ht rfl
  | retire =>
    unfold retireImported at ho' same keep
    split at ho' <;> exact keep o' ho' rfl rfl fun t ht => same t ht (by split <;> rfl)
  | openDraft =>
    refine keep o' ho' rfl rfl fun t ht => ?_
    simp only [settleReview, fillDraft, Ledger.updateDraft, Table.get?_update, ht, Option.map_some]
    refine ⟨_, rfl, ?_⟩
    split_ifs <;> exact ⟨rfl, rfl⟩
  | @enter _ k spec owner root generation source project parent now operations hE hins =>
    let r := acceptedTask env k spec owner root source project now
    change operations.get? j = some o' at ho'
    rw [Table.get?_insert hins] at ho'
    split_ifs at ho' with hj
    · cases ho'
      obtain ⟨p, plan, hadm⟩ := hE.apply hkind
      obtain ⟨plan', hrow', hcore, hs⟩ := hplan p plan hadm.row hadm.approved
      have htask : ∃ t, (upsertTask r l).tasks.get? k = some t := by
        have := (upsertTask_isSome r l k).mpr (.inl rfl)
        exact Option.isSome_iff_exists.mp this
      obtain ⟨t, ht⟩ := htask
      have hfields : t.requestedBy = owner ∧ t.metadata.workspaceRoot = root := by
        rcases upsertTask_get? (r := r) ht with ⟨_, rfl⟩ | ⟨_, _, rfl⟩ <;> exact ⟨rfl, rfl⟩
      have hk : plan'.taskId = plan.taskId := by simpa [planCore] using congrArg ChangePlan.taskId hcore
      have how : plan'.ownerKey = plan.ownerKey := by
        simpa [planCore] using congrArg ChangePlan.ownerKey hcore
      have hws : plan'.workspace = plan.workspace := by
        simpa [planCore] using congrArg ChangePlan.workspace hcore
      refine ⟨p, plan', hadm.planId, hrow', hs, by rw [hk]; exact hadm.under, t, hj ▸ ht, ?_, ?_⟩
      · rw [hfields.1, how, hadm.owned]
      · rw [hfields.2, hws, hadm.workspace]
    · refine keep o' ho' rfl rfl fun t ht => ⟨t, ?_, rfl, rfl⟩
      exact (upsertTask_get?_ne r l hj).trans ht
  | _ => simp [admitKinds] at hκ

/-- An action that admits no operation leaves the operation rows' links alone. -/
theorem operation_chain {ks : List Kind} (h : Chain env lawful ks l l') (hks : .enter ∉ ks) :
    (skeleton l').operation = (skeleton l).operation :=
  h.relation (R := fun l l' => (skeleton l').operation = (skeleton l).operation)
    (I := fun _ => True) (fun _ => rfl) (fun _ _ _ h₁ h₂ => h₂.trans h₁) (fun _ _ _ _ _ _ => trivial)
    (fun _ hκ _ _ _ hs => operation_step hs fun he => hks (he ▸ hκ)) trivial

theorem fresh_admissions (w : World) (a : Action) :
    FreshAdmissions w.ledger (step env w a).ledger := by
  have hchain : Chain env False (actionKinds a) w.ledger (step env w a).ledger :=
    step_chain fun hf => hf.elim
  have hrefl : FreshAdmissions w.ledger w.ledger := by
    intro k o hnone ho
    rw [hnone] at ho
    cases ho
  by_cases ha : .enter ∈ actionKinds a
  · have hks : ∀ κ ∈ actionKinds a, κ ∈ admitKinds := by
      cases a with
      | command c =>
        cases c with
        | decide _ _ _ revoke => cases revoke <;> simp [actionKinds, commandKinds, settleKinds] at ha
        | _ =>
          simp_all [actionKinds, commandKinds, approveKinds, openKinds, admitKinds, cancelKinds,
            proposeKinds, linkKinds, settleKinds, resolveKinds, closeKinds, maintainKinds]
      | _ => simp [actionKinds, applyKinds] at ha
    exact hchain.invariant (I := FreshAdmissions w.ledger)
      (fun κ hκ _ _ hf hs => hf.step hs (hks κ hκ)) hrefl
  · intro k o hnone ho
    have heq := operation_chain hchain ha
    have hlink := skeleton_operation ho
    rw [heq] at hlink
    obtain ⟨o₀, ho₀, _⟩ := of_skeleton_operation hlink
    rw [hnone] at ho₀
    cases ho₀

/-- The task an accepted operation is answered with is its own. -/
theorem acceptConn_answer {k : TaskId} {spec : OperationSpec} {owner root : String}
    {generation : WorkerId} {source : Option RequestId} {project : Option ProjectId}
    {parent : Option TaskId} {key : Option String} {session : SessionId} {now : Time}
    {task : AgentTask} (h : Tx.Ran (acceptConn env k spec owner generation root source project
      parent key session now) l task l') :
    (∃ o, l'.operations.get? task.id = some o ∧ o.spec = spec) ∧
      ∀ j, j ≠ task.id → l'.operations.get? j = l.operations.get? j := by
  unfold acceptConn insertOperation at h
  simp only [Tx.ran_write_bind, Tx.ran_lift_bind, Tx.ran_attempt_bind, Option.map_eq_some_iff] at h
  obtain ⟨_, _, _, ⟨operations, hins, rfl⟩, h⟩ := h
  have hrow : operations.get? k = some
      { taskId := k, spec, workerGeneration := generation, parentTaskId := parent } := by
    rw [Table.get?_insert hins, if_pos rfl]
  have hother : ∀ j, j ≠ k → operations.get? j = l.operations.get? j := by
    intro j hj
    rw [Table.get?_insert hins, if_neg (by simpa using hj)]
    unfold upsertTask
    split <;> rfl
  split at h
  · rw [Tx.ran_bind] at h
    obtain ⟨turn, l₁, hb, h⟩ := h
    simp only [Tx.ran_write_bind, Tx.ran_select_bind, Tx.ran_demand] at h
    obtain ⟨htask, rfl⟩ := h
    have hk : task.id = k := Table.key_of_get? htask
    have hop : l₁.operations = operations := by
      rw [(Conversation.bindConn_same env hb).eq]
    refine ⟨⟨_, by rw [hk, Ledger.appendEvent_operations, hop, hrow], rfl⟩, fun j hj => ?_⟩
    rw [Ledger.appendEvent_operations, hop, hother j (hk ▸ hj)]
  · simp only [Tx.ran_write_bind, Tx.ran_select_bind, Tx.ran_demand] at h
    obtain ⟨htask, rfl⟩ := h
    have hk : task.id = k := Table.key_of_get? htask
    exact ⟨⟨_, by rw [hk]; exact hrow, rfl⟩, fun j hj => hother j (hk ▸ hj)⟩

theorem existingApply_some {p : PlanId} {owner workspace : String} {task : AgentTask}
    (h : existingApply l p owner workspace = .ok (some task)) :
    ∃ o, l.operations.get? task.id = some o ∧ Applies o p := by
  unfold existingApply at h
  split at h
  · cases h
  · next t o hrows =>
    have hmem : (t, o) ∈ applyTasks l p := by rw [hrows]; exact List.mem_singleton_self _
    obtain ⟨ho, _, hkind, hplan⟩ := mem_applyTasks.mp hmem
    split at h
    · cases h
    · split_ifs at h
      cases h
      exact ⟨o, ho, hkind, hplan⟩
  · cases h

theorem submitConn_answer {spec : OperationSpec} {owner root : String} {generation : WorkerId}
    {project : Option ProjectId} {parent : Option TaskId} {key : Option String} {fresh : TaskId}
    {session : SessionId} {now : Time} {task : AgentTask} {p : PlanId} (hkind : spec.kind = .apply)
    (hplan : spec.planId = some p)
    (h : Tx.Ran (submitConn env spec owner generation root none project parent key fresh session now)
      l task l') :
    (∃ o, l'.operations.get? task.id = some o ∧ Applies o p) ∧
      ∀ j, j ≠ task.id → l'.operations.get? j = l.operations.get? j := by
  unfold submitConn at h
  simp only [Tx.ran_select_bind, Tx.ran_require_bind] at h
  obtain ⟨_, h⟩ := h
  rw [Tx.ran_bind] at h
  obtain ⟨intake, l₁, hi, h⟩ := h
  have henter : intake = .enter fresh ∧ l₁ = l := by
    unfold intakeConn at hi
    simp only [Tx.ran_select_bind, ne_eq, not_true_eq_false, false_and, decide_false] at hi
    rw [List.find?_eq_none.mpr (by simp)] at hi
    exact Tx.ran_pure.mp hi
  obtain ⟨rfl, rfl⟩ := henter
  simp only [Tx.ran_select_bind, Tx.ran_lift_bind] at h
  obtain ⟨existing, hexisting, h⟩ := h
  cases existing with
  | some t =>
    obtain ⟨rfl, rfl⟩ := Tx.ran_pure.mp h
    simp only [admissionExisting, hkind, hplan] at hexisting
    exact ⟨existingApply_some hexisting, fun _ _ => rfl⟩
  | none =>
    simp only [Tx.ran_select_bind, Tx.ran_lift_bind] at h
    obtain ⟨_, _, h⟩ := h
    obtain ⟨⟨o, ho, hspec⟩, hother⟩ := acceptConn_answer h
    exact ⟨⟨o, ho, hspec ▸ hkind, hspec ▸ hplan⟩, hother⟩

/-- The task an approval answers with is the plan's apply; a repeated one writes nothing. -/
theorem approve_answer {reg : Registry} {p : PlanId} {owner : String} {hash : Hash}
    {generation : WorkerId} {fresh : TaskId} {session : SessionId} {now : Time} {task : AgentTask}
    {b : Bool} (h : Tx.Ran (approveAndSubmitApply env reg p owner hash generation fresh session now)
      l (task, b) l') :
    (∃ o, l'.operations.get? task.id = some o ∧ Applies o p) ∧
      (b = false ∧ l' = l ∨ b = true ∧ applyTasks l p = [] ∧ (∃ plan, l.plans.get? p = some plan ∧
        plan.ownerKey = owner ∧ plan.planHash = hash ∧ now < plan.expiresAt) ∧
        ∀ j, j ≠ task.id → (skeleton l').operation j = (skeleton l).operation j) := by
  unfold approveAndSubmitApply at h
  simp only [Tx.ran_select_bind, Tx.ran_demand_bind, Tx.ran_lift_bind] at h
  obtain ⟨plan, _, root, _, existing, hexisting, h⟩ := h
  cases existing with
  | some t =>
    obtain ⟨heq, rfl⟩ := Tx.ran_pure.mp h
    cases heq
    exact ⟨existingApply_some hexisting, .inl ⟨rfl, rfl⟩⟩
  | none =>
    dsimp only at h
    rw [Tx.ran_bind] at h
    obtain ⟨_, l₁, hdecide, h⟩ := h
    rw [Tx.ran_bind] at h
    obtain ⟨t, l₂, hsubmit, h⟩ := h
    obtain ⟨heq, rfl⟩ := Tx.ran_pure.mp h
    cases heq
    obtain ⟨plan', hrow, howner, _, hcheck, _⟩ := decideConn_checks hdecide
    obtain ⟨_, _, hexp, hhash⟩ := hcheck rfl
    obtain ⟨hanswer, hother⟩ := submitConn_answer rfl rfl hsubmit
    refine ⟨hanswer, .inr ⟨rfl, existingApply_none hexisting, ⟨plan', hrow, howner, hhash, hexp⟩, ?_⟩⟩
    intro j hj
    have hchain : Chain env False [.aside, .approve] l l₁ := decideConn_chain hdecide
    have hkept : (skeleton l₁).operation = (skeleton l).operation := operation_chain hchain (by simp)
    rw [← hkept]
    simp only [skeleton, operationLinks, hother j hj]

/-- From a ledger without duplicates and over any interleaving: a plan has at most one apply
operation; a new one carries the rows of an approved plan, with the hash and before the
expiry when it came through an approval; a repeated approval answers with that task and
writes nothing; a decision approves only the hash it was shown; and a refused command
leaves the world as it was. -/
theorem at_most_one_apply (env : Environment) (w₀ w : World) (as : List Action)
    (h₀ : SingleApply (skeleton w₀.ledger)) (hrun : Run (step env) (fun _ _ => True) w₀ as w) :
    (∀ p j k o o', w.ledger.operations.get? j = some o → w.ledger.operations.get? k = some o' →
      Applies o p → Applies o' p → j = k) ∧
    (∀ a k o, w.ledger.operations.get? k = none → (step env w a).ledger.operations.get? k = some o →
      o.spec.kind = .apply → ∃ p plan, Admitted (step env w a).ledger k o p plan ∧
        ∀ reg q owner hash generation fresh session,
          a = .command (.approve reg q owner hash generation fresh session) →
            q = p ∧ plan.ownerKey = owner ∧ plan.planHash = hash ∧ w.clock < plan.expiresAt) ∧
    (∀ reg p owner hash generation fresh session task b l',
      Tx.Ran (approveAndSubmitApply env reg p owner hash generation fresh session w.clock)
        w.ledger (task, b) l' →
      (∃ o, l'.operations.get? task.id = some o ∧ Applies o p) ∧
        ∀ k o, w.ledger.operations.get? k = some o → Applies o p →
          task.id = k ∧ b = false ∧ l' = w.ledger) ∧
    (∀ p owner hash l' u, Tx.Ran (decideConn p owner hash false w.clock) w.ledger u l' →
      ∃ plan, w.ledger.plans.get? p = some plan ∧ plan.ownerKey = owner ∧ plan.planHash = hash ∧
        w.clock < plan.expiresAt) ∧
    ∀ c, (∀ record l', ¬ Tx.Ran (commandOp env w c) w.ledger record l') →
      step env w (.command c) = w := by
  have hsingle : SingleApply (skeleton w.ledger) := by
    refine hrun.invariant (I := fun w => SingleApply (skeleton w.ledger)) (fun w a hs _ => ?_) h₀
    have hchain : Chain env False (actionKinds a) w.ledger (step env w a).ledger :=
      step_chain False.elim
    exact hchain.invariant (I := fun l => SingleApply (skeleton l)) (fun _ _ _ _ hs h => hs.step h) hs
  have hunique : ∀ p j k o o', w.ledger.operations.get? j = some o →
      w.ledger.operations.get? k = some o' → Applies o p → Applies o' p → j = k :=
    fun p j k o o' hj hk ho ho' => hsingle.unique j k o.spec o'.spec o.parentTaskId o'.parentTaskId p
      (skeleton_operation hj) (skeleton_operation hk) ho.1 ho'.1 ho.2 ho'.2
  refine ⟨hunique, fun a k o hnone ho hkind => ?_, ?_, ?_, ?_⟩
  · obtain ⟨p, plan, hadm⟩ := fresh_admissions w a k o hnone ho hkind
    refine ⟨p, plan, hadm, ?_⟩
    rintro reg q owner hash generation fresh session rfl
    rcases step_command env w (.approve reg q owner hash generation fresh session) with
      ⟨record, l', hran, hstep⟩ | ⟨_, hstep⟩
    · obtain ⟨_, ⟨task, b⟩, hran⟩ := ran_dropped.mp hran
      rw [hstep] at ho hadm
      obtain ⟨⟨o', ho', happ⟩, hcase⟩ := approve_answer hran
      rcases hcase with ⟨_, rfl⟩ | ⟨_, _, ⟨plan₀, hrow₀, howner, hhash, hexp⟩, hother⟩
      · rw [hnone] at ho
        cases ho
      have hk : k = task.id := by
        by_contra hne
        have hlink := skeleton_operation ho
        rw [hother k hne] at hlink
        obtain ⟨_, hold, _⟩ := of_skeleton_operation hlink
        rw [hnone] at hold
        cases hold
      subst hk
      rw [ho] at ho'
      cases ho'
      have hpq : q = p := Option.some.inj (happ.2.symm.trans hadm.planId)
      subst hpq
      have hchain : Chain env False (actionKinds _) w.ledger l' :=
        hstep ▸ step_chain (w := w) (a := .command (.approve reg q owner hash generation fresh session))
          False.elim
      have hext : Extends (skeleton w.ledger) (skeleton l') :=
        Extends.chain hchain
      have hcore : planCore plan = planCore plan₀ :=
        Option.some.inj ((skeleton_plan hadm.row).symm.trans (hext.plan q _ (skeleton_plan hrow₀)))
      refine ⟨rfl, ?_, ?_, ?_⟩
      · rw [← howner]
        simpa [planCore] using congrArg ChangePlan.ownerKey hcore
      · rw [← hhash]
        simpa [planCore] using congrArg ChangePlan.planHash hcore
      · have hexpiry : plan.expiresAt = plan₀.expiresAt := by
          simpa [planCore] using congrArg ChangePlan.expiresAt hcore
        rw [hexpiry]
        exact hexp
    · rw [hstep, hnone] at ho
      cases ho
  · intro reg p owner hash generation fresh session task b l' hran
    obtain ⟨hanswer, hcase⟩ := approve_answer hran
    refine ⟨hanswer, fun k o hk ho => ?_⟩
    rcases hcase with ⟨hb, rfl⟩ | ⟨_, hnone, _⟩
    · obtain ⟨o', ho', happ⟩ := hanswer
      exact ⟨hunique p _ _ o' o ho' hk happ ho, hb, rfl⟩
    · obtain ⟨t, ht⟩ := of_skeleton_task (hsingle.task k _ _ (skeleton_operation hk))
      have hid : t.id = k := Table.key_of_get? ht
      have hmem : (t, o) ∈ applyTasks w.ledger p :=
        mem_applyTasks.mpr ⟨hid.symm ▸ hk, hid.symm ▸ ht, ho.1, ho.2⟩
      rw [hnone] at hmem
      cases hmem
  · intro p owner hash l' u hran
    obtain ⟨plan, hrow, howner, _, hcheck, _⟩ := decideConn_checks hran
    obtain ⟨_, _, hexp, hhash⟩ := hcheck rfl
    exact ⟨plan, hrow, howner, hhash, hexp⟩
  · exact fun c => step_of_refused

/-- The owner approves the proposed plan twice. -/
def repeatedRun : List Action :=
  plainRun ++ plainProposal :: approvedRun ++
    [.command (.approve plainRegistry 5 "owner" [120] 2 12 13)]

theorem at_most_one_apply_plain :
    ∃ k o, (repeatedRun.foldl (step plainEnvironment) plainWorld).ledger.operations.get? k = some o ∧
      Applies o 5 ∧ ∀ j o', (repeatedRun.foldl (step plainEnvironment) plainWorld).ledger.operations.get? j =
        some o' → Applies o' 5 → j = k := by
  have hfound : ((repeatedRun.foldl (step plainEnvironment) plainWorld).ledger.operations.get? 8).any
      (fun o => o.spec.kind = .apply ∧ o.spec.planId = some 5) = true := by decide +kernel
  obtain ⟨o, ho, happ⟩ := (Option.any_eq_true _ _).mp hfound
  have hall := at_most_one_apply plainEnvironment plainWorld _ repeatedRun
    (Good.of_imported plainWorld_init.ledger).linked.single (.of_total (fun _ _ => trivial) _ _)
  have ho' : Applies o 5 := by simpa [Applies] using happ
  exact ⟨8, o, ho, ho', fun j o'' hj hp => hall.1 5 j 8 o'' o hj ho hp ho'⟩

end NyanyaAgent.Safety
