import NyanyaAgent.Safety.ApplyAdmission

/-!
# Answers that change nothing

A submission that is answered with a task that already has an operation, or that is
refused, leaves the ledger as it was, except where the imported attempt of its request was
retired before the plan's apply task was found.
-/
namespace NyanyaAgent.Safety
open NyanyaAgent.Schema NyanyaAgent.Relational NyanyaAgent.Operations NyanyaAgent.Plans
open NyanyaAgent.Conversation NyanyaAgent.Lifecycle NyanyaAgent.Invariants NyanyaAgent.System
open NyanyaAgent.Runs

variable {env : Environment} {l l' : Ledger} {spec : OperationSpec} {owner root : String}
  {generation : WorkerId} {source : Option RequestId} {project : Option ProjectId}
  {parent : Option TaskId} {key : Option String} {fresh : TaskId} {session : SessionId} {now : Time}
  {task : AgentTask}

/-- A call that may be answered with an existing task. -/
inductive SubmitCall
  | submit (reg : Registry) (spec : OperationSpec) (owner : String) (generation : WorkerId)
      (source : Option RequestId) (project : Option ProjectId) (parent : Option TaskId)
      (conversationKey : Option String) (fresh : TaskId) (freshSession : SessionId)
  | approve (reg : Registry) (p : PlanId) (owner : String) (hash : Hash) (generation : WorkerId)
      (fresh : TaskId) (freshSession : SessionId)

def SubmitCall.run (env : Environment) (now : Time) : SubmitCall → Op AgentTask
  | .submit reg spec owner generation source project parent key fresh session =>
    Operations.submit env reg spec owner generation source project parent key fresh session now
  | .approve reg p owner hash generation fresh session => do
    let answer ← approveAndSubmitApply env reg p owner hash generation fresh session now
    pure answer.1

/-- The answer with an existing operation, and every refusal, keep the ledger. -/
def AnswersUnchanged (env : Environment) (now : Time) (call : SubmitCall) (l : Ledger) : Prop :=
  (∀ task, (Tx.commit (call.run env now) l).1 = .ok task →
    (l.operations.get? task.id).isSome = true → (Tx.commit (call.run env now) l).2 = l) ∧
  ∀ e, (Tx.commit (call.run env now) l).1 = .error e → (Tx.commit (call.run env now) l).2 = l

/-- The row a source request has already. -/
def priorTask (l : Ledger) (source : Option RequestId) : Option AgentTask :=
  l.tasks.rows.find? fun t => source ≠ none ∧ t.sourceRequestId = source

/-- An imported row that an intake of this owner adopts. -/
structure Adoptable (l : Ledger) (owner : String) (source : Option RequestId) (row : AgentTask) :
    Prop where
  found : priorTask l source = some row
  owner : row.requestedBy = owner
  operation : l.operations.get? row.id = none
  queued : row.status = .queued
  attempt : row.currentExecutionId = none ∨ ∃ x e, row.currentExecutionId = some x ∧
    l.executions.get? x = some e ∧ e.status = .pending ∧ e.legacy = true

/-- The single apply task of a plan, in the scope a submission names. -/
structure HasApply (l : Ledger) (p : PlanId) (owner root : String) (task : AgentTask) : Prop where
  single : ∃ o, applyTasks l p = [(task, o)] ∧ ∃ plan, ownedPlan l p owner = some plan ∧
    plan.workspace = root ∧ o.parentTaskId = some plan.taskId ∧
    (plan.status = .approved ∨ plan.status = .applying ∨ plan.status = .applied ∨
      plan.status = .uncertain ∨ plan.status = .reconciled)
  owner : task.requestedBy = owner
  root : task.metadata.workspaceRoot = root

/-- The request of an apply was imported with an open attempt, and the plan has its task. -/
def Displaces (env : Environment) (now : Time) (l : Ledger) : SubmitCall → Prop
  | .approve .. => False
  | .submit reg spec owner generation source _ _ _ _ _ =>
    validate spec = .ok () ∧ WorkerReady l generation now ∧ ∃ root,
      checkWorkspace env reg spec.workspace owner = .ok root ∧
      (∃ row, Adoptable l owner source row ∧ row.currentExecutionId ≠ none) ∧
      spec.kind = .apply ∧ ∃ p task, spec.planId = some p ∧ HasApply l p owner root task

section Admission

theorem existingApply_iff {p : PlanId} :
    existingApply l p owner root = .ok (some task) ↔ HasApply l p owner root task := by
  constructor
  · intro h
    unfold existingApply at h
    split at h
    · cases h
    · next t o hrows =>
      split at h
      · cases h
      · next plan hplan =>
        split_ifs at h with hscope hstatus
        cases h
        simp only [not_or, not_not] at hscope
        obtain ⟨howner, hworkspace, hparent, hroot⟩ := hscope
        exact ⟨⟨o, hrows, plan, hplan, hworkspace, hparent, hstatus⟩, howner, hroot⟩
    · cases h
  · rintro ⟨⟨o, hrows, plan, hplan, hworkspace, hparent, hstatus⟩, howner, hroot⟩
    unfold existingApply
    rw [hrows]
    simp only [hplan]
    rw [if_neg, if_pos hstatus]
    simp [howner, hworkspace, hparent, hroot]

theorem admissionExisting_some (h : admissionExisting l spec owner root = .ok (some task)) :
    spec.kind = .apply ∧ ∃ p, spec.planId = some p ∧ HasApply l p owner root task := by
  unfold admissionExisting at h
  split at h
  · next p hkind hplan => exact ⟨hkind, p, hplan, existingApply_iff.mp h⟩
  · cases h

theorem hasApply_operation {p : PlanId} (h : HasApply l p owner root task) :
    (l.operations.get? task.id).isSome = true := by
  obtain ⟨o, hrows, _⟩ := h.single
  have hmem : (task, o) ∈ applyTasks l p := by
    rw [hrows]
    exact List.mem_singleton_self _
  rw [(mem_applyTasks.mp hmem).1]
  rfl

/-- What the intake lookup did. -/
inductive IntakeDone (l : Ledger) (owner : String) (source : Option RequestId) (fresh : TaskId)
    (now : Time) : Intake → Ledger → Prop
  | answered {row : AgentTask} (h : priorTask l source = some row) (hown : row.requestedBy = owner)
      (operation : ∃ o, l.operations.get? row.id = some o) :
      IntakeDone l owner source fresh now (.answered row) l
  | fresh (h : priorTask l source = none) : IntakeDone l owner source fresh now (.enter fresh) l
  | adopted {row : AgentTask} (h : Adoptable l owner source row) :
      IntakeDone l owner source fresh now (.enter row.id) (retireImported row now l)

theorem bindConn_bound {k : TaskId} {key root : String} {turn turn' : ConversationTurn}
    (h : Tx.Ran (bindConn env k owner key root session now) l turn l')
    (hturn : l.turns.get? k = some turn') : l' = l := by
  unfold bindConn at h
  simp only [Tx.ran_select_bind, Tx.ran_demand_bind, Tx.ran_require_bind, hturn] at h
  obtain ⟨_, _, _, _, _, h⟩ := h
  simp only [Tx.ran_lift_bind, Tx.ran_select_bind, Tx.ran_require_bind, Tx.ran_pure] at h
  obtain ⟨_, _, _, _, rfl⟩ := h
  rfl

theorem source_of_prior {row : AgentTask} (h : priorTask l source = some row) : source ≠ none := by
  have hfound := List.find?_some h
  simp only [decide_eq_true_eq] at hfound
  exact hfound.1

theorem intakeConn_done {intake : Intake}
    (h : Tx.Ran (intakeConn env owner root source key fresh session now) l intake l') :
    IntakeDone l owner source fresh now intake l' := by
  unfold intakeConn at h
  rw [Tx.ran_select_bind] at h
  split at h
  · next hnone =>
    obtain ⟨rfl, rfl⟩ := Tx.ran_pure.mp h
    exact .fresh hnone
  · next row hrow =>
    simp only [Tx.ran_require_bind, Tx.ran_select_bind] at h
    obtain ⟨howner, h⟩ := h
    split at h
    · next turn _ hop hturn =>
      rw [Tx.ran_bind] at h
      obtain ⟨_, _, hb, h⟩ := h
      obtain ⟨rfl, rfl⟩ := Tx.ran_pure.mp h
      rw [bindConn_bound hb hturn]
      exact .answered hrow howner ⟨_, hop⟩
    · next hop _ =>
      obtain ⟨rfl, rfl⟩ := Tx.ran_pure.mp h
      exact .answered hrow howner ⟨_, hop⟩
    · next hop =>
      simp only [Tx.ran_require_bind, Tx.ran_select_bind, Tx.ran_write_bind, Tx.ran_pure] at h
      obtain ⟨hq, hold, rfl, rfl⟩ := h
      refine .adopted ⟨hrow, howner, hop, hq, hold.imp_right ?_⟩
      rintro ⟨e, he, hpending, hlegacy⟩
      obtain ⟨x, hx, he⟩ := Option.bind_eq_some_iff.mp he
      exact ⟨x, e, hx, he, hpending, hlegacy⟩

theorem retireImported_keeps (row : AgentTask) (now : Time) (l : Ledger) :
    (retireImported row now l).tasks = l.tasks ∧
      (retireImported row now l).operations = l.operations ∧
      (retireImported row now l).plans = l.plans := by
  unfold retireImported
  split <;> exact ⟨rfl, rfl, rfl⟩

theorem hasApply_congr {p : PlanId} (htasks : l'.tasks = l.tasks)
    (hoperations : l'.operations = l.operations) (hplans : l'.plans = l.plans) :
    HasApply l' p owner root task ↔ HasApply l p owner root task := by
  have hrows : applyTasks l' p = applyTasks l p := by
    unfold applyTasks
    rw [htasks, hoperations]
  have hplan : ownedPlan l' p owner = ownedPlan l p owner := by
    unfold ownedPlan
    rw [hplans]
  constructor
  · rintro ⟨hs, ho, hr⟩
    exact ⟨by rwa [hrows, hplan] at hs, ho, hr⟩
  · rintro ⟨hs, ho, hr⟩
    exact ⟨by rwa [hrows, hplan], ho, hr⟩

/-- The operation of an accepted task is new. -/
theorem acceptConn_fresh {k : TaskId}
    (h : Tx.Ran (acceptConn env k spec owner generation root source project parent key session now)
      l task l') : l.operations.get? task.id = none := by
  have hanswer := acceptConn_answer h
  unfold acceptConn insertOperation at h
  simp only [Tx.ran_write_bind, Tx.ran_lift_bind, Tx.ran_attempt_bind, Option.map_eq_some_iff] at h
  obtain ⟨_, _, _, ⟨operations, hins, rfl⟩, h⟩ := h
  have hnone := Table.get?_of_insert hins
  have hop : (upsertTask (acceptedTask env k spec owner root source project now) l).operations =
      l.operations := by
    unfold upsertTask
    split <;> rfl
  rw [hop] at hnone
  -- the row is read back under the identifier the operation was inserted with
  by_cases hk : task.id = k
  · rw [hk]
    exact hnone
  · have hkept := hanswer.2 k fun e => hk e.symm
    exfalso
    split at h
    · rw [Tx.ran_bind] at h
      obtain ⟨_, _, _, h⟩ := h
      simp only [Tx.ran_write_bind, Tx.ran_select_bind, Tx.ran_demand] at h
      exact hk (Table.key_of_get? h.1)
    · simp only [Tx.ran_write_bind, Tx.ran_select_bind, Tx.ran_demand] at h
      exact hk (Table.key_of_get? h.1)

/-- How a submission was answered. -/
inductive Answered (l : Ledger) (spec : OperationSpec) (owner root : String)
    (source : Option RequestId) (now : Time) (task : AgentTask) : Ledger → Prop
  | kept (h : source ≠ none ∨ ∃ p, spec.planId = some p ∧ HasApply l p owner root task) :
      Answered l spec owner root source now task l
  | displaced {row : AgentTask} {p : PlanId} (h : Adoptable l owner source row)
      (apply : spec.kind = .apply) (plan : spec.planId = some p)
      (existing : HasApply l p owner root task) :
      Answered l spec owner root source now task (retireImported row now l)
  | accepted {l' : Ledger} (new : l.operations.get? task.id = none) :
      Answered l spec owner root source now task l'

theorem submitConn_answered
    (h : Tx.Ran (submitConn env spec owner generation root source project parent key fresh session
      now) l task l') : Answered l spec owner root source now task l' := by
  unfold submitConn at h
  simp only [Tx.ran_select_bind, Tx.ran_require_bind] at h
  obtain ⟨_, h⟩ := h
  rw [Tx.ran_bind] at h
  obtain ⟨intake, l₁, hi, h⟩ := h
  have hdone := intakeConn_done hi
  cases intake with
  | answered row =>
    cases hdone with
    | answered hrow =>
      rw [(Tx.ran_pure.mp h).2]
      exact .kept (.inl (source_of_prior hrow))
  | enter k =>
    simp only [Tx.ran_select_bind, Tx.ran_lift_bind] at h
    obtain ⟨existing, hexisting, h⟩ := h
    cases existing with
    | some t =>
      obtain ⟨rfl, rfl⟩ := Tx.ran_pure.mp h
      obtain ⟨hkind, p, hplan, happly⟩ := admissionExisting_some hexisting
      cases hdone with
      | fresh => exact .kept (.inr ⟨p, hplan, happly⟩)
      | @adopted row hrow =>
        obtain ⟨htasks, hoperations, hplans⟩ := retireImported_keeps row now l
        exact .displaced hrow hkind hplan ((hasApply_congr htasks hoperations hplans).mp happly)
    | none =>
      simp only [Tx.ran_select_bind, Tx.ran_lift_bind] at h
      obtain ⟨under, _, h⟩ := h
      have hnew := acceptConn_fresh h
      cases hdone with
      | fresh => exact .accepted hnew
      | @adopted row hrow =>
        rw [(retireImported_keeps row now l).2.1] at hnew
        exact .accepted hnew

end Admission

section Displacement

theorem retireImported_ne {row : AgentTask} (h : Adoptable l owner source row)
    (hcurrent : row.currentExecutionId ≠ none) : retireImported row now l ≠ l := by
  rcases h.attempt with hnone | ⟨x, e, hx, he, hpending, _⟩
  · exact absurd hnone hcurrent
  · intro heq
    have hrow := congrArg (fun l : Ledger => (l.executions.get? x).map (·.status)) heq
    have hupdate := l.executions.get?_update_key x
      (fun e => { e with status := .cancelled, endedAt := some now }) fun _ => rfl
    simp only [retireImported, hx, Ledger.updateExecution, hupdate, he, Option.map_some,
      Option.some.injEq, hpending] at hrow
    cases hrow

theorem retireImported_idle {row : AgentTask} (h : row.currentExecutionId = none) :
    retireImported row now l = l := by
  unfold retireImported
  rw [h]

theorem adopt_ran {row : AgentTask} (h : Adoptable l owner source row) :
    Tx.Ran (intakeConn env owner root source key fresh session now) l (.enter row.id)
      (retireImported row now l) := by
  have hfound : l.tasks.rows.find? (fun t => source ≠ none ∧ t.sourceRequestId = source) =
      some row := h.found
  unfold intakeConn
  rw [Tx.ran_select_bind, hfound]
  simp only [Tx.ran_require_bind, Tx.ran_select_bind, h.operation, Tx.ran_write_bind, Tx.ran_pure]
  refine ⟨h.owner, h.queued, h.attempt.imp_right ?_, trivial, trivial⟩
  rintro ⟨x, e, hx, he, hpending, hlegacy⟩
  exact ⟨e, by rw [hx, Option.bind_some, he]; rfl, hpending, hlegacy⟩

theorem displaced_ran {reg : Registry} {row : AgentTask} {p : PlanId}
    (hvalid : validate spec = .ok ()) (hready : WorkerReady l generation now)
    (hroot : checkWorkspace env reg spec.workspace owner = .ok root)
    (h : Adoptable l owner source row) (hkind : spec.kind = .apply) (hplan : spec.planId = some p)
    (happly : HasApply l p owner root task) :
    Tx.Ran (submit env reg spec owner generation source project parent key fresh session now) l task
      (retireImported row now l) := by
  obtain ⟨htasks, hoperations, hplans⟩ := retireImported_keeps row now l
  unfold submit submitConn
  simp only [Tx.ran_lift_bind, Tx.ran_select_bind, Tx.ran_require_bind]
  refine ⟨(), hvalid, root, hroot, decide_eq_true hready, ?_⟩
  rw [Tx.ran_bind]
  refine ⟨_, _, adopt_ran h, ?_⟩
  simp only [Tx.ran_select_bind, Tx.ran_lift_bind, admissionExisting, hkind, hplan]
  refine ⟨some task, existingApply_iff.mpr ?_, Tx.ran_pure.mpr ⟨rfl, rfl⟩⟩
  exact (hasApply_congr htasks hoperations hplans).mpr happly

end Displacement

theorem skeleton_chain {ks : List Kind} (h : Chain env False ks l l')
    (hks : ∀ κ ∈ ks, κ ∉ insertKinds) : skeleton l' = skeleton l :=
  h.relation (R := fun l l' => skeleton l' = skeleton l) (I := fun _ => True) (fun _ => rfl)
    (fun _ _ _ h₁ h₂ => h₂.trans h₁) (fun _ _ _ _ _ _ => trivial)
    (fun κ hκ _ _ _ hs => skeleton_eq hs (hks κ hκ)) trivial

/-- An approval that is answered with an existing task writes nothing. -/
theorem approve_kept {reg : Registry} {p : PlanId} {hash : Hash} {b : Bool}
    (h : Tx.Ran (approveAndSubmitApply env reg p owner hash generation fresh session now) l
      (task, b) l') (hop : (l.operations.get? task.id).isSome = true) : l' = l := by
  unfold approveAndSubmitApply at h
  simp only [Tx.ran_select_bind, Tx.ran_demand_bind, Tx.ran_lift_bind] at h
  obtain ⟨plan, _, root, _, existing, hexisting, h⟩ := h
  cases existing with
  | some t => exact (Tx.ran_pure.mp h).2
  | none =>
    dsimp only at h
    rw [Tx.ran_bind] at h
    obtain ⟨_, l₁, hdecide, h⟩ := h
    rw [Tx.ran_bind] at h
    obtain ⟨t, l₂, hsubmit, h⟩ := h
    obtain ⟨heq, rfl⟩ := Tx.ran_pure.mp h
    cases heq
    have hchain : Chain env False [.aside, .approve] l l₁ := decideConn_chain hdecide
    have hskeleton := skeleton_chain hchain (by simp [insertKinds])
    have hanswered := submitConn_answered hsubmit
    cases hanswered with
    | kept hwhy =>
      obtain ⟨q, hq, happly⟩ := hwhy.resolve_left fun hne => hne rfl
      cases hq
      obtain ⟨o, hrows, _⟩ := happly.single
      have hmem : (task, o) ∈ applyTasks l' p := by
        rw [hrows]
        exact List.mem_singleton_self _
      obtain ⟨ho, ht, hkind, hplan⟩ := mem_applyTasks.mp hmem
      have hlink := skeleton_operation ho
      have hrow := skeleton_task ht
      rw [hskeleton] at hlink hrow
      obtain ⟨o', ho', hspec, _⟩ := of_skeleton_operation hlink
      obtain ⟨t, ht'⟩ := of_skeleton_task hrow
      have hid : t.id = task.id := Table.key_of_get? ht'
      have hold : (t, o') ∈ applyTasks l p :=
        mem_applyTasks.mpr ⟨hid ▸ ho', hid ▸ ht', hspec ▸ hkind, hspec ▸ hplan⟩
      rw [existingApply_none hexisting] at hold
      cases hold
    | displaced hrow =>
      have hfound := List.find?_some hrow.found
      simp at hfound
    | accepted hnew =>
      obtain ⟨o, ho⟩ := Option.isSome_iff_exists.mp hop
      have hlink := skeleton_operation ho
      rw [← hskeleton] at hlink
      obtain ⟨_, ho', _⟩ := of_skeleton_operation hlink
      rw [hnew] at ho'
      cases ho'

/-- A submission that answers with an existing operation, or refuses, changes nothing, unless
it retired an imported attempt before the apply task of its plan was found. -/
theorem submit_answers (env : Environment) (now : Time) (call : SubmitCall) (l : Ledger) :
    AnswersUnchanged env now call l ↔ ¬ Displaces env now l call := by
  constructor
  · rintro ⟨hanswer, _⟩ hdisplaces
    cases call with
    | approve => exact hdisplaces
    | submit reg spec owner generation source project parent key fresh session =>
      obtain ⟨hvalid, hready, root, hroot, ⟨row, hrow, hcurrent⟩, hkind, p, task, hplan, happly⟩ :=
        hdisplaces
      have hran : Tx.Ran (SubmitCall.run env now
          (.submit reg spec owner generation source project parent key fresh session)) l task
          (retireImported row now l) :=
        displaced_ran hvalid hready hroot hrow hkind hplan happly
      have hcommit := Tx.commit_ok.mpr hran
      have hkept := hanswer task (congrArg Prod.fst hcommit) (hasApply_operation happly)
      exact retireImported_ne hrow hcurrent ((congrArg Prod.snd hcommit).symm.trans hkept)
  · intro hplain
    rcases Tx.commit_cases (call.run env now) l with ⟨task, l', hran, hc⟩ | ⟨e, _, hc⟩
    · rw [AnswersUnchanged, hc]
      refine ⟨fun task' htask hop => ?_, fun e he => nomatch he⟩
      cases htask
      cases call with
      | approve reg p owner hash generation fresh session =>
        unfold SubmitCall.run at hran
        rw [Tx.ran_bind] at hran
        obtain ⟨⟨task', b⟩, l₁, happrove, hpure⟩ := hran
        obtain ⟨rfl, rfl⟩ := Tx.ran_pure.mp hpure
        exact approve_kept happrove hop
      | submit reg spec owner generation source project parent key fresh session =>
        unfold SubmitCall.run Operations.submit at hran
        simp only [Tx.ran_lift_bind] at hran
        obtain ⟨_, hvalid, root, hroot, hconn⟩ := hran
        have hready : WorkerReady l generation now := by
          unfold submitConn at hconn
          simp only [Tx.ran_select_bind, Tx.ran_require_bind, decide_eq_true_eq] at hconn
          exact hconn.1
        have hanswered := submitConn_answered hconn
        cases hanswered with
        | kept => rfl
        | @displaced row p hrow hkind hplan happly =>
          by_cases hcurrent : row.currentExecutionId = none
          · exact retireImported_idle hcurrent
          · exact absurd ⟨hvalid, hready, root, hroot, ⟨row, hrow, hcurrent⟩, hkind, p, task, hplan,
              happly⟩ hplain
        | accepted hnew =>
          rw [hnew] at hop
          cases hop
    · rw [AnswersUnchanged, hc]
      refine ⟨fun task htask _ => ?_, fun _ _ => rfl⟩
      cases htask

section Displaced

/-- An imported request waits with its open attempt. -/
def importedWorld : World :=
  { plainWorld with
    ledger :=
      { tasks := ⟨[{ id := 20, sourceRequestId := some 5, requestedBy := "owner"
                     currentExecutionId := some 21, createdAt := 0, updatedAt := 0 }], by simp⟩
        executions := ⟨[{ id := 21, taskId := 20, adapterType := "legacy", legacy := true
                          createdAt := 0, updatedAt := 0 }], by simp⟩ } }

/-- Another request runs and proposes a creation, whose apply is submitted. -/
def submittedRun : List Action :=
  plainRun ++ [plainProposal,
    .command (.submit plainRegistry (applySpec "/w" 5) "owner" 1 none none none 8 4)]

def submittedWorld : World := submittedRun.foldl (step plainEnvironment) importedWorld

/-- The apply is submitted again, under the identifier of the imported request. -/
def repeatedSubmission : SubmitCall :=
  .submit plainRegistry (applySpec "/w" 5) "owner" 1 (some 5) none none none 9 5

theorem importedWorld_init : Init importedWorld where
  ledger := by
    constructor
    case executions =>
      intro x e he
      obtain ⟨hmem, _⟩ := Table.get?_eq_some.mp he
      rw [List.mem_singleton.mp hmem]
      exact ⟨_, rfl, fun _ => rfl⟩
    all_goals simp [importedWorld, plainWorld]
  calls := rfl
  issued := rfl

theorem submittedRun_run :
    Run (step plainEnvironment) Legal importedWorld submittedRun submittedWorld := by
  refine .cons trivial (.cons ⟨by decide +kernel, ?_, ?_⟩ (.cons ?_ (.cons ⟨by decide +kernel, ?_⟩
    (.cons ⟨by decide +kernel, ?_, ?_⟩ (.nil _)))))
  · exact fun _ => rfl
  · exact fun _ => rfl
  · simp only [Legal, LegalCommand]
    decide +kernel
  · have hplain : (((plainRun.foldl (step plainEnvironment) importedWorld)).ledger.operations.get?
        7).all (fun o => o.spec.kind = .request ∧ o.spec.draftId = none) = true := by decide +kernel
    intro o ho
    change (plainRun.foldl (step plainEnvironment) importedWorld).ledger.operations.get? 7 = _ at ho
    rw [ho] at hplain
    simpa using hplain
  · intro hk
    cases hk
  · exact fun _ => rfl

/-- The open attempt of the imported request is cancelled, and the answer is the other task. -/
theorem displaced_attempt : ∃ w call, ReachableWorld plainEnvironment w ∧
    ¬ AnswersUnchanged plainEnvironment w.clock call w.ledger := by
  refine ⟨submittedWorld, repeatedSubmission,
    ⟨importedWorld, submittedRun, importedWorld_init, submittedRun_run⟩, ?_⟩
  rintro ⟨hanswer, _⟩
  have hran : ∃ task, (Tx.commit (repeatedSubmission.run plainEnvironment submittedWorld.clock)
        submittedWorld.ledger).1 = .ok task ∧
      (submittedWorld.ledger.operations.get? task.id).isSome = true := by
    have hok : ((Tx.commit (repeatedSubmission.run plainEnvironment submittedWorld.clock)
        submittedWorld.ledger).1.toOption.any fun task =>
          (submittedWorld.ledger.operations.get? task.id).isSome) = true := by decide +kernel
    generalize (Tx.commit (repeatedSubmission.run plainEnvironment submittedWorld.clock)
      submittedWorld.ledger).1 = answer at hok ⊢
    cases answer with
    | error e => cases hok
    | ok task => exact ⟨task, rfl, hok⟩
  obtain ⟨task, hok, hop⟩ := hran
  have hchanged : ((Tx.commit (repeatedSubmission.run plainEnvironment submittedWorld.clock)
        submittedWorld.ledger).2.executions.get? 21).map (·.status) ≠
      (submittedWorld.ledger.executions.get? 21).map (·.status) := by decide +kernel
  rw [hanswer task hok hop] at hchanged
  exact hchanged rfl

end Displaced
end NyanyaAgent.Safety
