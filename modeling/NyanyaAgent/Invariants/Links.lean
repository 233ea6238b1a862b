import NyanyaAgent.Lifecycle.Steps

/-!
# The links between rows

What a row says about other rows when it is inserted, and never afterwards, is its
core. The cores of a ledger change only where a row is inserted, and they always
form a linked skeleton.
-/
namespace NyanyaAgent.Invariants
open NyanyaAgent.Schema NyanyaAgent.Relational NyanyaAgent.Operations NyanyaAgent.Plans
open NyanyaAgent.Drafts NyanyaAgent.Lifecycle

/-- What a plan keeps: all but its status and its last decision. -/
def planCore (r : ChangePlan) : ChangePlan := { r with status := .pending, decidedBy := "" }

/-- What a draft keeps. -/
structure DraftCore where
  sourceTaskId : TaskId
  ownerKey : String
  workspace : String
  paths : List Path

def draftCore (r : OperationDraft) : DraftCore := ⟨r.sourceTaskId, r.ownerKey, r.workspace, r.paths⟩

structure Skeleton where
  task : TaskId → Bool
  operation : TaskId → Option (OperationSpec × Option TaskId)
  attempt : ExecutionId → Option TaskId
  plan : PlanId → Option ChangePlan
  draft : DraftId → Option DraftCore

def skeleton (l : Ledger) : Skeleton where
  task k := (l.tasks.get? k).isSome
  operation := operationLinks l
  attempt x := (l.executions.get? x).map (·.taskId)
  plan p := (l.plans.get? p).map planCore
  draft d := (l.drafts.get? d).map draftCore

/-- The kinds of changes that insert a row with a core. -/
def insertKinds : List Kind := [.enter, .start, .startFailure, .newPlan, .newDraft]

variable {env : Environment} {lawful : Prop} {κ : Kind} {l l' : Ledger}

theorem upsertTask_isSome (r : AgentTask) (l : Ledger) (k : TaskId) :
    ((upsertTask r l).tasks.get? k).isSome = true ↔
      k = r.id ∨ (l.tasks.get? k).isSome = true := by
  unfold upsertTask
  split
  · next t ht =>
    dsimp only
    rw [Table.get?_insert ht]
    by_cases hk : k = r.id <;> simp [hk]
  · next hn =>
    simp only [Ledger.updateTask, Table.get?_update, Option.isSome_map]
    refine ⟨.inr, fun h => h.elim (fun hk => ?_) id⟩
    unfold Table.insert at hn
    split at hn
    · next hmem =>
      obtain ⟨s, hs, hsk⟩ := List.mem_map.mp hmem
      rw [hk, ← hsk, Table.mem_rows_iff.mp hs]
      rfl
    · cases hn

theorem skeleton_congr (ht : ∀ k, (l'.tasks.get? k).isSome = (l.tasks.get? k).isSome)
    (ho : ∀ k, operationLinks l' k = operationLinks l k)
    (hx : ∀ x, (l'.executions.get? x).map (·.taskId) = (l.executions.get? x).map (·.taskId))
    (hp : ∀ p, (l'.plans.get? p).map planCore = (l.plans.get? p).map planCore)
    (hd : ∀ d, (l'.drafts.get? d).map draftCore = (l.drafts.get? d).map draftCore) :
    skeleton l' = skeleton l := by
  unfold skeleton
  simp only [Skeleton.mk.injEq]
  exact ⟨funext ht, funext ho, funext hx, funext hp, funext hd⟩

section Updates
variable (l)

@[simp] theorem skeleton_appendEvent (v : ExecutionEvent) :
    skeleton (l.appendEvent v) = skeleton l := rfl

@[simp] theorem skeleton_releaseClaim (k : TaskId) : skeleton (l.releaseClaim k) = skeleton l := rfl

@[simp] theorem skeleton_tasks (p : AgentTask → Prop) [DecidablePred p] (f : AgentTask → AgentTask)
    (hf : ∀ t, (f t).id = t.id) :
    skeleton { l with tasks := l.tasks.update p f hf } = skeleton l := by
  apply skeleton_congr <;> intro <;> simp [operationLinks]

@[simp] theorem skeleton_updateTask (k : TaskId) (f : AgentTask → AgentTask)
    (hf : ∀ t, (f t).id = t.id) : skeleton (l.updateTask k f hf) = skeleton l :=
  skeleton_tasks l _ f hf

@[simp] theorem skeleton_updateOperation (k : TaskId) (f : TaskOperation → TaskOperation)
    (hf : ∀ o, (f o).taskId = o.taskId) (hs : ∀ o, (f o).spec = o.spec)
    (hp : ∀ o, (f o).parentTaskId = o.parentTaskId) :
    skeleton (l.updateOperation k f hf) = skeleton l := by
  apply skeleton_congr <;> intro j <;> try rfl
  exact Table.map_get?_update l.operations _ f hf j _ fun o => by rw [hs, hp]

@[simp] theorem skeleton_executions (p : Execution → Prop) [DecidablePred p]
    (f : Execution → Execution) (hf : ∀ e, (f e).id = e.id) (hk : ∀ e, (f e).taskId = e.taskId) :
    skeleton { l with executions := l.executions.update p f hf } = skeleton l := by
  apply skeleton_congr <;> intro j <;> try rfl
  exact Table.map_get?_update l.executions p f hf j _ hk

@[simp] theorem skeleton_updateExecution (x : ExecutionId) (f : Execution → Execution)
    (hf : ∀ e, (f e).id = e.id) (hk : ∀ e, (f e).taskId = e.taskId) :
    skeleton (l.updateExecution x f hf) = skeleton l := skeleton_executions l _ f hf hk

@[simp] theorem skeleton_plans (p : ChangePlan → Prop) [DecidablePred p]
    (f : ChangePlan → ChangePlan) (hf : ∀ r, (f r).id = r.id)
    (hc : ∀ r, planCore (f r) = planCore r) :
    skeleton { l with plans := l.plans.update p f hf } = skeleton l := by
  apply skeleton_congr <;> intro j <;> try rfl
  exact Table.map_get?_update l.plans p f hf j _ hc

@[simp] theorem skeleton_updatePlan (p : PlanId) (f : ChangePlan → ChangePlan)
    (hf : ∀ r, (f r).id = r.id) (hc : ∀ r, planCore (f r) = planCore r) :
    skeleton (l.updatePlan p f hf) = skeleton l := skeleton_plans l _ f hf hc

@[simp] theorem skeleton_drafts (p : OperationDraft → Prop) [DecidablePred p]
    (f : OperationDraft → OperationDraft) (hf : ∀ r, (f r).id = r.id)
    (hc : ∀ r, draftCore (f r) = draftCore r) :
    skeleton { l with drafts := l.drafts.update p f hf } = skeleton l := by
  apply skeleton_congr <;> intro j <;> try rfl
  exact Table.map_get?_update l.drafts p f hf j _ hc

@[simp] theorem skeleton_updateDraft (d : DraftId) (f : OperationDraft → OperationDraft)
    (hf : ∀ r, (f r).id = r.id) (hc : ∀ r, draftCore (f r) = draftCore r) :
    skeleton (l.updateDraft d f hf) = skeleton l := skeleton_drafts l _ f hf hc

@[simp] theorem skeleton_loseAttempt (k : TaskId) (x : ExecutionId) (now : Time) :
    skeleton (loseAttempt k x now l) = skeleton l := skeleton_executions l _ _ _ fun _ => rfl

@[simp] theorem skeleton_closeReviewExecutions (k : TaskId) (reason : CloseReason) (uncertain : Bool)
    (now : Time) : skeleton (closeReviewExecutions k reason uncertain now l) = skeleton l :=
  skeleton_executions l _ _ _ fun _ => rfl

@[simp] theorem skeleton_settleReview (k : TaskId) (completed : Bool) (now : Time) :
    skeleton (settleReview k completed now l) = skeleton l := by
  refine (skeleton_executions { l with tasks := (settleReview k completed now l).tasks }
    _ _ ?_ ?_).trans (skeleton_tasks l _ _ ?_) <;> exact fun _ => rfl

@[simp] theorem skeleton_stopRunningChild (k : TaskId) (now : Time) :
    skeleton (stopRunningChild k now l) = skeleton l := by
  refine (skeleton_executions _ _ _ _ ?_).trans (skeleton_updateTask l k _ _)
  exact fun _ => rfl

@[simp] theorem skeleton_closeTask (k : TaskId) (uncertain : Bool) (now : Time) :
    skeleton (closeTask k uncertain now l) = skeleton l := by
  refine (skeleton_updateOperation _ k _ ?_ ?_ ?_).trans ((skeleton_executions _ _ _ ?_ ?_).trans
    (skeleton_updateTask l k _ ?_)) <;> exact fun _ => rfl

end Updates

theorem skeleton_sameRows (h : SameRows l l') : skeleton l' = skeleton l := by
  apply skeleton_congr <;> intro
  · rw [h.tasks]
  · rw [operationLinks, h.operations, operationLinks]
  · rw [h.executions]
  · rw [h.plans]
  · rw [h.drafts]

/-- Every other kind of change keeps the skeleton. -/
theorem skeleton_eq (h : Step env lawful κ l l') (hκ : κ ∉ insertKinds) :
    skeleton l' = skeleton l := by
  cases h
  case aside h => exact skeleton_sameRows h.toSameRows
  case bind => exact skeleton_sameRows ‹SameRows l l'›
  case deliver => exact skeleton_sameRows ‹SameRows l _›
  case retire =>
    unfold retireImported
    split <;> simp
  case completeParent =>
    unfold completeParent
    split
    · split_ifs <;> simp
    · rfl
  case interrupt t _ _ _ _ _ _ => cases t.currentExecutionId <;> simp [interruptTask]
  case closeReview =>
    dsimp only
    split_ifs <;> simp [holdReviewEffects]
  case enter => simp [insertKinds] at hκ
  case start => simp [insertKinds] at hκ
  case startFailure => simp [insertKinds] at hκ
  case newPlan => simp [insertKinds] at hκ
  case newDraft => simp [insertKinds] at hκ
  case openDraft d _ _ _ _ _ _ _ _ =>
    rw [skeleton_settleReview]
    exact skeleton_updateDraft l d _ _ fun _ => rfl
  case acknowledge plan _ _ _ _ _ _ => 
    refine skeleton_updatePlan l plan.id _ ?_ ?_ <;> exact fun _ => rfl
  case finalize call _ _ =>
    refine (skeleton_drafts _ _ _ ?_ ?_).trans (skeleton_updatePlan l call.plan.id _ ?_ ?_) <;>
      exact fun _ => rfl
  case conclude record e entry outcome results _ _ =>
    have h : skeleton { concludeAttempt record (recordedOutcome l record e entry outcome).status
        entry l with results } = skeleton l :=
      show skeleton (concludeAttempt record _ entry l) = _ by simp [concludeAttempt]
    rw [← h]
    exact skeleton_updateOperation _ _ _ _ (fun _ => rfl) fun _ => rfl
  all_goals first
    | rfl
    | exact skeleton_updatePlan _ _ _ _ fun _ => rfl
    | exact skeleton_plans _ _ _ _ fun _ => rfl
    | exact skeleton_updateDraft _ _ _ _ fun _ => rfl
    | exact skeleton_drafts _ _ _ _ fun _ => rfl
    | exact skeleton_executions _ _ _ _ fun _ => rfl
    | simp [stopQueuedChild, requestStop, settleTask, requeueTask, resolveParent, resolveChild]

theorem skeleton_operation {k : TaskId} {o : TaskOperation} (h : l.operations.get? k = some o) :
    (skeleton l).operation k = some (o.spec, o.parentTaskId) := by
  simp [skeleton, operationLinks, h]

theorem skeleton_attempt {x : ExecutionId} {e : Execution} (h : l.executions.get? x = some e) :
    (skeleton l).attempt x = some e.taskId := by
  simp [skeleton, h]

theorem skeleton_plan {p : PlanId} {r : ChangePlan} (h : l.plans.get? p = some r) :
    (skeleton l).plan p = some (planCore r) := by
  simp [skeleton, h]

theorem skeleton_draft {d : DraftId} {r : OperationDraft} (h : l.drafts.get? d = some r) :
    (skeleton l).draft d = some (draftCore r) := by
  simp [skeleton, h]

theorem skeleton_task {k : TaskId} {t : AgentTask} (h : l.tasks.get? k = some t) :
    (skeleton l).task k = true := by
  simp [skeleton, h]

theorem of_skeleton_operation {k : TaskId} {spec : OperationSpec} {parent : Option TaskId}
    (h : (skeleton l).operation k = some (spec, parent)) :
    ∃ o, l.operations.get? k = some o ∧ o.spec = spec ∧ o.parentTaskId = parent :=
  operationLinks_eq_some.mp h

theorem of_skeleton_attempt {x : ExecutionId} {k : TaskId} (h : (skeleton l).attempt x = some k) :
    ∃ e, l.executions.get? x = some e ∧ e.taskId = k := Option.map_eq_some_iff.mp h

theorem of_skeleton_plan {p : PlanId} {c : ChangePlan} (h : (skeleton l).plan p = some c) :
    ∃ r, l.plans.get? p = some r ∧ planCore r = c := Option.map_eq_some_iff.mp h

theorem of_skeleton_draft {d : DraftId} {c : DraftCore} (h : (skeleton l).draft d = some c) :
    ∃ r, l.drafts.get? d = some r ∧ draftCore r = c := Option.map_eq_some_iff.mp h

theorem of_skeleton_task {k : TaskId} (h : (skeleton l).task k = true) :
    ∃ t, l.tasks.get? k = some t := Option.isSome_iff_exists.mp h

/-- At most one apply operation for each plan, and every operation has its task. -/
structure SingleApply (s : Skeleton) : Prop where
  task : ∀ k spec parent, s.operation k = some (spec, parent) → s.task k = true
  unique : ∀ j k spec spec' parent parent' p, s.operation j = some (spec, parent) →
    s.operation k = some (spec', parent') → spec.kind = .apply → spec'.kind = .apply →
      spec.planId = some p → spec'.planId = some p → j = k

/-- How the rows refer to each other. -/
structure Linked (s : Skeleton) : Prop where
  single : SingleApply s
  attempt : ∀ x k, s.attempt x = some k → s.task k = true
  plan : ∀ p c, s.plan p = some c → s.task c.taskId = true ∧
    ∀ spec parent, s.operation c.taskId = some (spec, parent) → spec.kind = .request
  apply : ∀ k spec parent, s.operation k = some (spec, parent) → spec.kind = .apply →
    ∃ p c, spec.planId = some p ∧ s.plan p = some c ∧ parent = some c.taskId
  request : ∀ k spec parent, s.operation k = some (spec, parent) → spec.kind = .request →
    spec.planId = none ∧
      ∀ j, parent = some j → ∃ d c, s.draft d = some c ∧ c.sourceTaskId = j ∧ c.paths ≠ [] ∧
        spec.draftId = some d
  draft : ∀ d c, s.draft d = some c → ∃ spec parent,
    s.operation c.sourceTaskId = some (spec, parent) ∧ spec.kind = .request ∧ spec.draftId = none
  source : ∀ d e c c', s.draft d = some c → s.draft e = some c' →
    c.sourceTaskId = c'.sourceTaskId → d = e
  paths : ∀ p c d r, s.plan p = some c → s.draft d = some r → r.sourceTaskId = c.taskId →
    r.paths = []

theorem skeleton_enter (env : Environment) (owner root : String) (source : Option RequestId)
    (project : Option ProjectId) (now : Time) {k : TaskId} {spec : OperationSpec}
    {generation : WorkerId} {parent : Option TaskId} {operations : Table TaskOperation.taskId}
    (hins : l.operations.insert
      { taskId := k, spec, workerGeneration := generation, parentTaskId := parent } =
        some operations) :
    let l' := { upsertTask (acceptedTask env k spec owner root source project now) l with operations }
    (∀ j, (skeleton l').task j = true ↔ j = k ∨ (skeleton l).task j = true) ∧
      (∀ j, (skeleton l').operation j =
        if j = k then some (spec, parent) else (skeleton l).operation j) ∧
      (skeleton l').attempt = (skeleton l).attempt ∧ (skeleton l').plan = (skeleton l).plan ∧
      (skeleton l').draft = (skeleton l).draft := by
  refine ⟨fun j => ?_, fun j => ?_, ?_, ?_, ?_⟩
  · exact upsertTask_isSome _ l j
  · simp only [skeleton, operationLinks, Table.get?_insert hins]
    split_ifs <;> rfl
  all_goals
    simp only [skeleton, upsertTask]
    split <;> rfl

theorem skeleton_execution {e : Execution} {executions : Table Execution.id}
    (hins : l.executions.insert e = some executions) :
    skeleton { l with executions } = { skeleton l with
      attempt := fun x => if x = e.id then some e.taskId else (skeleton l).attempt x } := by
  unfold skeleton
  simp only [Skeleton.mk.injEq, true_and, and_true]
  refine ⟨rfl, funext fun x => ?_⟩
  rw [Table.get?_insert hins]
  split_ifs <;> rfl

theorem skeleton_newPlan {plan : ChangePlan} {plans : Table ChangePlan.id}
    (hins : l.plans.insert plan = some plans) :
    skeleton { l with plans } = { skeleton l with
      plan := fun p => if p = plan.id then some (planCore plan) else (skeleton l).plan p } := by
  unfold skeleton
  simp only [Skeleton.mk.injEq, true_and, and_true]
  refine ⟨rfl, funext fun p => ?_⟩
  rw [Table.get?_insert hins]
  split_ifs <;> rfl

theorem skeleton_newDraft {draft : OperationDraft} {drafts : Table OperationDraft.id}
    (hins : l.drafts.insert draft = some drafts) :
    skeleton { l with drafts } = { skeleton l with
      draft := fun d => if d = draft.id then some (draftCore draft) else (skeleton l).draft d } := by
  unfold skeleton
  simp only [Skeleton.mk.injEq, true_and]
  refine ⟨rfl, funext fun d => ?_⟩
  rw [Table.get?_insert hins]
  split_ifs <;> rfl

/-- The skeleton after a start is that of the new attempt. -/
theorem skeleton_start {t : AgentTask} {e : Execution} {executions : Table Execution.id}
    {claims : Table TaskClaim.taskId} {f : AgentTask → AgentTask} {hf : ∀ r, (f r).id = r.id}
    {v : ExecutionEvent} (hins : l.executions.insert e = some executions) :
    skeleton (((({ l with executions, claims }).updateTask t.id f hf).updateOperation t.id fun o =>
      { o with attempts := o.attempts + 1 }).appendEvent v) = { skeleton l with
        attempt := fun x => if x = e.id then some e.taskId else (skeleton l).attempt x } := by
  refine ((skeleton_updateOperation _ _ _ ?_ ?_ ?_).trans (skeleton_updateTask _ _ _ _)).trans
    (skeleton_execution hins) <;> exact fun _ => rfl

theorem skeleton_startFailure {k : TaskId} {e : Execution} {executions : Table Execution.id}
    {results : Table TaskResult.executionId} {f : AgentTask → AgentTask}
    {hf : ∀ r, (f r).id = r.id} {v : ExecutionEvent} {reason diagnosis : String}
    (hins : l.executions.insert e = some executions) :
    skeleton (((({ l with executions, results }).updateTask k f hf).updateOperation k fun o =>
      { o with holdReason := reason, diagnosis }).appendEvent v) = { skeleton l with
        attempt := fun x => if x = e.id then some e.taskId else (skeleton l).attempt x } := by
  refine ((skeleton_updateOperation _ _ _ ?_ ?_ ?_).trans (skeleton_updateTask _ _ _ _)).trans
    (skeleton_execution hins) <;> exact fun _ => rfl

/-- A new apply operation finds no other one for its plan. -/
theorem no_other_apply {k : TaskId} {spec : OperationSpec} {owner root : String}
    {generation : WorkerId} {parent : Option TaskId} (hs : SingleApply (skeleton l))
    (hE : Enters lawful l k spec owner root generation parent) {p : PlanId} {j : TaskId}
    {spec' : OperationSpec} {parent' : Option TaskId} (hk : spec.kind = .apply)
    (hp : spec.planId = some p) (hj : (skeleton l).operation j = some (spec', parent'))
    (hk' : spec'.kind = .apply) : spec'.planId ≠ some p := by
  intro hp'
  obtain ⟨q, plan, hadm⟩ := hE.apply hk
  obtain ⟨o, ho, rfl, rfl⟩ := of_skeleton_operation hj
  obtain ⟨t, ht⟩ := of_skeleton_task (hs.task j _ _ hj)
  have hq : q = p := Option.some.inj (hadm.planId.symm.trans hp)
  have hnil := hadm.first
  rw [hq, applyTasks, List.filterMap_eq_nil_iff] at hnil
  have hnone := hnil o (Table.get?_eq_some.mp ho).1
  rw [if_pos ⟨hk', hp'⟩, Table.key_of_get? ho, ht] at hnone
  cases hnone

/-- No change, whoever made it, admits a second apply of a plan. -/
theorem SingleApply.step (hs : SingleApply (skeleton l)) (h : Step env lawful κ l l') :
    SingleApply (skeleton l') := by
  by_cases hκ : κ ∈ insertKinds
  · cases h with
    | @enter _ k spec owner root generation source project parent now operations hE hins =>
      obtain ⟨htask, hop, -, hplan, -⟩ := skeleton_enter env owner root source
        project now hins
      dsimp only at htask hop
      constructor
      · intro j spec' parent' hj
        rw [htask]
        rw [hop] at hj
        split_ifs at hj with hjk
        · exact .inl hjk
        · exact .inr (hs.task j _ _ hj)
      · intro i j s s' par par' p hi hj hk hk' hp hp'
        rw [hop] at hi hj
        split_ifs at hi hj with hik hjk hjk
        · exact hik.trans hjk.symm
        · cases hi
          exact absurd hp' (no_other_apply hs hE hk hp hj hk')
        · cases hj
          exact absurd hp (no_other_apply hs hE hk' hp' hi hk)
        · exact hs.unique i j s s' par par' p hi hj hk hk' hp hp'
    | start _ _ _ _ _ _ hins =>
      rw [skeleton_start hins]
      exact ⟨hs.task, hs.unique⟩
    | startFailure _ _ _ hins =>
      rw [skeleton_startFailure hins]
      exact ⟨hs.task, hs.unique⟩
    | newPlan hins =>
      rw [skeleton_newPlan hins]
      exact ⟨hs.task, hs.unique⟩
    | newDraft hins =>
      rw [skeleton_newDraft hins]
      exact ⟨hs.task, hs.unique⟩
    | _ => simp [insertKinds] at hκ
  · rw [skeleton_eq h hκ]
    exact hs

theorem Linked.step (hlawful : lawful) (hs : Linked (skeleton l)) (h : Step env lawful κ l l') :
    Linked (skeleton l') := by
  have hsingle := hs.single.step h
  by_cases hκ : κ ∈ insertKinds
  · cases h with
    | @enter _ k spec owner root generation source project parent now operations hE hins =>
      obtain ⟨htask, hop, hx, hplan, hdraft⟩ := skeleton_enter env owner root source
        project now hins
      dsimp only at htask hop hx hplan hdraft
      have hnone : (skeleton l).operation k = none := by
        simp [skeleton, operationLinks, Table.get?_of_insert hins]
      refine ⟨hsingle, ?_, ?_, ?_, ?_, ?_, ?_, ?_⟩
      · rw [hx]
        exact fun x j hj => (htask j).mpr (.inr (hs.attempt x j hj))
      · rw [hplan]
        intro p c hc
        obtain ⟨ht, hreq⟩ := hs.plan p c hc
        refine ⟨(htask _).mpr (.inr ht), fun spec' parent' ho => ?_⟩
        rw [hop] at ho
        split_ifs at ho with hck
        · cases ho
          obtain ht' | ⟨hk, -⟩ := hE.task hlawful
          · rw [hck] at ht
            simp [skeleton, ht'] at ht
          · exact hk
        · exact hreq spec' parent' ho
      · rw [hplan]
        intro j spec' parent' ho hk
        rw [hop] at ho
        split_ifs at ho
        · cases ho
          obtain ⟨p, plan, hadm⟩ := hE.apply hk
          exact ⟨p, _, hadm.planId, skeleton_plan hadm.row, hadm.under⟩
        · exact hs.apply j spec' parent' ho hk
      · rw [hdraft]
        intro j spec' parent' ho hk
        rw [hop] at ho
        split_ifs at ho
        · cases ho
          obtain ⟨hp, hparent⟩ := hE.request hlawful hk
          refine ⟨hp, fun i hi => ?_⟩
          obtain ⟨d, r, hr, hsrc, hpaths, hd⟩ := hparent i hi
          exact ⟨d, _, skeleton_draft hr, hsrc, hpaths, hd⟩
        · exact hs.request j spec' parent' ho hk
      · rw [hdraft]
        intro d c hc
        obtain ⟨spec', parent', ho, hreq⟩ := hs.draft d c hc
        refine ⟨spec', parent', ?_, hreq⟩
        rw [hop, if_neg]
        · exact ho
        · rintro hk
          rw [hk, hnone] at ho
          cases ho
      · rw [hdraft]
        exact hs.source
      · rw [hplan, hdraft]
        exact hs.paths
    | start ht _ _ _ _ _ hins =>
      rw [skeleton_start hins] at hsingle ⊢
      refine ⟨hsingle, fun x j hj => ?_, hs.plan, hs.apply, hs.request, hs.draft, hs.source, hs.paths⟩
      dsimp only at hj ⊢
      split_ifs at hj
      · cases hj
        exact skeleton_task ht
      · exact hs.attempt x j hj
    | startFailure ht _ _ hins =>
      rw [skeleton_startFailure hins] at hsingle ⊢
      refine ⟨hsingle, fun x j hj => ?_, hs.plan, hs.apply, hs.request, hs.draft, hs.source, hs.paths⟩
      dsimp only at hj ⊢
      split_ifs at hj
      · cases hj
        exact skeleton_task ht
      · exact hs.attempt x j hj
    | @newPlan _ plan _ _ hins _ ht hpromise =>
      obtain ⟨hreq, hpaths⟩ := hpromise hlawful
      have hfresh : (skeleton l).plan plan.id = none := by
        simp [skeleton, Table.get?_of_insert hins]
      rw [skeleton_newPlan hins] at hsingle ⊢
      refine ⟨hsingle, hs.attempt, fun p c hc => ?_, fun j spec parent ho hk => ?_, hs.request,
        hs.draft, hs.source, fun p c d r hc hr hsrc => ?_⟩
      · dsimp only at hc ⊢
        split_ifs at hc
        · cases hc
          refine ⟨skeleton_task ht, fun spec parent ho => ?_⟩
          obtain ⟨o, ho', rfl, -⟩ := of_skeleton_operation ho
          exact hreq o ho'
        · exact hs.plan p c hc
      · obtain ⟨p, c, hp, hc, hpar⟩ := hs.apply j spec parent ho hk
        refine ⟨p, c, hp, ?_, hpar⟩
        dsimp only
        rw [if_neg]
        · exact hc
        · rintro rfl
          rw [hfresh] at hc
          cases hc
      · dsimp only at hc
        split_ifs at hc
        · cases hc
          obtain ⟨r', hr', rfl⟩ := of_skeleton_draft hr
          exact hpaths d r' hr' hsrc
        · exact hs.paths p c d r hc hr hsrc
    | @newDraft _ draft _ hins _ _ hfirst hpromise =>
      obtain ⟨⟨o, ho, hk, hd⟩, hplans⟩ := hpromise hlawful
      have hfresh : (skeleton l).draft draft.id = none := by
        simp [skeleton, Table.get?_of_insert hins]
      rw [skeleton_newDraft hins] at hsingle ⊢
      refine ⟨hsingle, hs.attempt, hs.plan, hs.apply, fun j spec parent ho hk => ?_,
        fun d c hc => ?_, fun d e c c' hc hc' hcc => ?_, fun p c d r hc hr hsrc => ?_⟩
      · obtain ⟨hp, hpar⟩ := hs.request j spec parent ho hk
        refine ⟨hp, fun i hi => ?_⟩
        obtain ⟨d, c, hc, hrest⟩ := hpar i hi
        refine ⟨d, c, ?_, hrest⟩
        dsimp only
        rw [if_neg]
        · exact hc
        · rintro rfl
          rw [hfresh] at hc
          cases hc
      · dsimp only at hc ⊢
        split_ifs at hc
        · cases hc
          exact ⟨o.spec, o.parentTaskId, skeleton_operation ho, hk, hd⟩
        · exact hs.draft d c hc
      · dsimp only at hc hc'
        split_ifs at hc hc' with h₁ h₂ h₂
        · exact h₁.trans h₂.symm
        · cases hc
          obtain ⟨r', hr', rfl⟩ := of_skeleton_draft hc'
          exact absurd hcc.symm (hfirst e r' hr')
        · cases hc'
          obtain ⟨r', hr', rfl⟩ := of_skeleton_draft hc
          exact absurd hcc (hfirst d r' hr')
        · exact hs.source d e c c' hc hc' hcc
      · dsimp only at hr
        split_ifs at hr
        · cases hr
          obtain ⟨r', hr', rfl⟩ := of_skeleton_plan hc
          exact absurd hsrc.symm (hplans p r' hr')
        · exact hs.paths p c d r hc hr hsrc
    | _ => simp [insertKinds] at hκ
  · rw [skeleton_eq h hκ]
    exact hs

end NyanyaAgent.Invariants
