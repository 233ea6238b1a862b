import NyanyaAgent.Invariants.Statuses
import NyanyaAgent.Safety.PlanLifecycle
import NyanyaAgent.Safety.ResultFence

/-!
# Nothing is replayed

Attempts start by `claim` alone, held tasks are queued again by their owner alone, and a
task whose plan has been applied is not queued again unless an apply was admitted while
the task itself was waiting to be claimed.
-/
namespace NyanyaAgent.Safety
open NyanyaAgent.Schema NyanyaAgent.Relational NyanyaAgent.Operations NyanyaAgent.Plans
open NyanyaAgent.Drafts NyanyaAgent.Lifecycle NyanyaAgent.Runs NyanyaAgent.Invariants
open NyanyaAgent.System

variable {env : Environment} {κ : Kind} {l l' : Ledger} {k : TaskId} {x : ExecutionId}

/-- No task with a plan that has been started waits to be claimed. -/
def NotReplayable (l : Ledger) : Prop :=
  ∀ p r t, l.plans.get? p = some r → Started r.status → l.tasks.get? r.taskId = some t →
    t.status ≠ .queued

theorem started_of_move {s s' : PlanStatus} (h : PlanMove κ s s') (hκ : κ ≠ .admission)
    (hs : Started s') : Started s := by
  cases h with
  | admission => exact absurd rfl hκ
  | finalize | uncertain => exact .inl rfl
  | acknowledge hs => rcases hs with rfl | rfl | rfl <;> simp [Started]
  | revoke | revokeOpen | expire | approve => simp [Started] at hs

/-- What a change starts was started before, except at an admission. -/
theorem started_before (h : Step env True κ l l') (hκ : κ ≠ .admission) {p : PlanId}
    {r' : ChangePlan} (hr' : l'.plans.get? p = some r') (hs : Started r'.status) :
    ∃ r, l.plans.get? p = some r ∧ r.taskId = r'.taskId ∧ Started r.status := by
  rcases plan_step trivial h hr' with ⟨r, hr, hcore, hmove⟩ | ⟨_, _, hnew⟩
  · have htask : r'.taskId = r.taskId := by simpa [planCore] using congrArg ChangePlan.taskId hcore
    refine ⟨r, hr, htask.symm, ?_⟩
    rcases hmove with rfl | hmove
    · exact hs
    · exact started_of_move hmove hκ hs
  · rcases hnew with hnew | hnew <;> simp [Started, hnew] at hs

/-- Only a resumption queues a task. -/
theorem queued_move {s : TaskStatus} (h : TaskMove κ s .queued) : κ = .requeue := by
  generalize hs' : TaskStatus.queued = s' at h
  cases h with
  | requeue => rfl
  | conclude _ outcome => cases outcome <;> cases hs'
  | closeTask _ hs | settle _ hs | settleReview hs | resolveParent _ hs | resolveChild _ hs =>
    simp [← hs'] at hs
  | start | completeParent | interrupt | stopQueued | stopRunning | requestStop | closeReview
  | openDraft => cases hs'

/-- A task is queued again only by a resumption, which no started plan permits. -/
theorem NotReplayable.kept (hn : NotReplayable l) (hg : Good l) (h : Step env True κ l l')
    (hκ : κ ≠ .admission) : NotReplayable l' := by
  intro p r' t' hr' hs ht' hq
  obtain ⟨r, hr, htask, hstarted⟩ := started_before h hκ hr' hs
  rw [← htask] at ht'
  rcases task_step trivial h ht' with ⟨t, ht, hsame | hmove⟩ | ⟨_, hnone, _⟩
  · exact hn p r t hr hstarted ht (hsame ▸ hq)
  · rw [hq] at hmove
    obtain rfl := queued_move hmove
    cases h with
    | requeue hrow _ _ _ _ _ heffects =>
      simp only [requeueTask, Ledger.appendEvent_tasks] at ht'
      obtain ⟨t₀, ht₀, ⟨_, rfl⟩ | ⟨heq, _⟩⟩ := updateTask_cases (l := l) ht'
      · exact hn p r _ hr hstarted ht₀ hq
      · obtain ⟨h₁, h₂, h₃, h₄⟩ := heffects p r hr heq
        rcases hstarted with hs | hs | hs | hs
        · exact h₁ hs
        · exact h₂ hs
        · exact h₃ hs
        · exact h₄ hs
  · have hrow := (hg.linked.plan p _ (skeleton_plan hr)).1
    obtain ⟨t₀, ht₀⟩ := of_skeleton_task hrow
    have hnone' : l.tasks.get? (planCore r).taskId = none := hnone
    rw [ht₀] at hnone'
    cases hnone'

/-- The admission transaction of an apply commits while the plan's task is queued. -/
def AdmitsQueued (env : Environment) (w : World) (a : Action) : Prop :=
  ∃ (n : ℕ) (chance : Chance) (call : ApplyCall) (l' : Ledger), a = .stepApply n chance ∧
    w.calls[n]? = some call ∧ call.stage = .admission ∧
    Tx.Ran (admitPlan env (w.tree call.root) call chance.cancelled w.clock) w.ledger () l' ∧
    ∃ t, w.ledger.tasks.get? call.plan.taskId = some t ∧ t.status = .queued

theorem NotReplayable.admission {w : World} {call : ApplyCall} (hn : NotReplayable w.ledger)
    (hplan : (skeleton w.ledger).plan call.plan.id = some (planCore call.plan))
    {t : Workspace} {cancelled : Bool} {u : Unit}
    (h : Tx.Ran (admitPlan env t call cancelled w.clock) w.ledger u l')
    (hparent : ∀ r, w.ledger.tasks.get? call.plan.taskId = some r → r.status ≠ .queued) :
    NotReplayable l' := by
  obtain ⟨_, _, _, j, _, rfl⟩ := admitPlan_checks h
  intro p r' t' hr' hs ht'
  obtain ⟨r, hr, ⟨_, rfl⟩ | ⟨rfl, rfl⟩⟩ := updatePlan_cases hr'
  · exact hn p _ t' hr hs ht'
  · have hcore : planCore r = planCore call.plan :=
      Option.some.inj ((skeleton_plan hr).symm.trans hplan)
    have htask : r.taskId = call.plan.taskId := by
      simpa [planCore] using congrArg ChangePlan.taskId hcore
    exact hparent t' (htask ▸ ht')

theorem NotReplayable.action {w : World} {a : Action} (hw : Consistent env w) (ha : Legal w a)
    (hn : NotReplayable w.ledger) (hadmits : ¬ AdmitsQueued env w a) :
    NotReplayable (step env w a).ledger := by
  cases a with
  | command c =>
    have hchain : Chain env True (commandKinds c) w.ledger (step env w (.command c)).ledger :=
      step_chain fun _ => hw.promise ha
    refine (hchain.invariant (I := fun l => Good l ∧ NotReplayable l) ?_ ⟨hw.good, hn⟩).2
    intro κ hκ l₁ l₂ hl hstep
    refine ⟨hl.1.step hstep, hl.2.kept hl.1 hstep ?_⟩
    rintro rfl
    exact commandKinds_apply hκ (by simp [applyKinds])
  | stepApply n chance =>
    rcases stepCall_cases env w n chance with h | ⟨call, hcall, h | ⟨_, l, t, s, hstep, hwrite, h⟩⟩
    · rw [show step env w (.stepApply n chance) = w from h]
      exact hn
    · simp only [step, h.2.2]
      exact hn
    · simp only [step, h]
      cases hwrite with
      | none same => exact same ▸ hn
      | @mark i _ _ eq =>
        have hmark : Step env True .mark w.ledger (markJournal call.plan.id i w.ledger) := .mark
        exact eq ▸ hn.kept hw.good hmark (by simp)
      | @finalize _ _ now heligible eq =>
        have hfinal : Step env True .finalize w.ledger (finalizePlan call now w.ledger) :=
          .finalize heligible
        exact eq ▸ hn.kept hw.good hfinal (by simp)
      | uncertain hs _ eq =>
        have hdoubt : Step env True .uncertain w.ledger (recordUncertain call.plan.id w.ledger) :=
          .uncertain fun _ => hw.promise ha call hcall hs
        exact eq ▸ hn.kept hw.good hdoubt (by simp)
      | admission hs =>
        simp only [applyStep, hs] at hstep
        split at hstep
        · next u l₁ hcommit =>
          obtain ⟨rfl, _⟩ := Prod.mk.inj hstep
          have hran := Tx.commit_ok.mp hcommit
          refine hn.admission (hw.calls call (List.mem_of_getElem? hcall)).plan hran
            fun r hr hq => ?_
          exact hadmits ⟨n, chance, call, _, rfl, hcall, hs, hran, r, hr, hq⟩
        · obtain ⟨rfl, _⟩ := Prod.mk.inj hstep
          exact hn
  | tick | external => exact hn
  | startApply | crashApply =>
    simp only [step]
    split <;> exact hn

/-- Without a start, whoever holds a claim held it before. -/
theorem holds_chain {ks : List Kind} (hg : Good l) (h : Chain env True ks l l') (hks : .start ∉ ks)
    {spec : OperationSpec} (hk : Holds l' k spec) : Holds l k spec := by
  refine h.relation (R := fun l l' => ∀ k spec, Holds l' k spec → Holds l k spec) (I := Good)
    (fun _ _ _ => id) (fun _ _ _ h₁ h₂ k spec hk => h₁ k spec (h₂ k spec hk))
    (fun _ _ _ _ hg hs => hg.step hs) (fun κ hκ l₁ l₂ hg hs k spec hk => ?_) hg k spec hk
  rcases holds_step hg.linked hg.sound hs hk with hbefore | ⟨rfl, _⟩
  · exact hbefore
  · exact absurd hκ hks

/-- The attempt a task holds its claim for is active. -/
theorem active_of_held (hg : Good l) {spec : OperationSpec} (hk : Holds l k spec)
    (hx : ClaimedFor l k x) : attemptView l x = some (k, .active) := by
  obtain ⟨_, parent, ho⟩ := hk
  obtain ⟨o, ho, _⟩ := of_skeleton_operation ho
  obtain ⟨c, hc, hr, rfl⟩ := hx
  exact ((hg.sound k).held c o hc hr ho).1

theorem holds_of_active (hg : Good l) {o : TaskOperation} (hx : attemptView l x = some (k, .active))
    (ho : l.operations.get? k = some o) : ClaimedFor l k x ∧ Holds l k o.spec := by
  obtain ⟨c, hc, hcx, hr⟩ := (hg.sound k).active x o hx ho
  exact ⟨⟨c, hc, hr, hcx⟩, ⟨x, c, hc, hr, hcx⟩, _, skeleton_operation ho⟩

/-- What a call of `claim` has found when it starts the attempt. -/
def StartedBy (w : World) (a : Action) (k : TaskId) (x : ExecutionId) : Prop :=
  ∃ generation slots entry t o, a = .command (.claim generation slots x entry) ∧
    w.ledger.tasks.get? k = some t ∧ t.status = .queued ∧ w.ledger.operations.get? k = some o ∧
    o.eligible = true ∧ o.attempts < o.maxAttempts

theorem claimed_before {ks : List Kind} (h : Chain env True ks l l') (hks : .start ∉ ks)
    (hx : ClaimedFor l' k x) : ClaimedFor l k x := by
  refine h.relation (R := fun l l' => ClaimedFor l' k x → ClaimedFor l k x) (I := fun _ => True)
    (fun _ => id) (fun _ _ _ h₁ h₂ hx => h₁ (h₂ hx)) (fun _ _ _ _ _ _ => trivial)
    (fun κ hκ _ _ _ hs hx => hx.before hs fun heq => hks (heq ▸ hκ)) trivial hx

theorem startAttempt_others {t : AgentTask} {spec : OperationSpec} {worker : WorkerId}
    {y : ExecutionId} {entry now : Time} {u : Unit}
    (h : Tx.Ran (startAttempt t spec worker y entry now) l u l') (hne : x ≠ y) :
    l'.executions.get? x = l.executions.get? x := by
  unfold startAttempt insertExecution insertClaim at h
  simp only [Tx.ran_attempt_bind, Tx.ran_write_bind, Tx.ran_write, Option.map_eq_some_iff] at h
  obtain ⟨_, ⟨executions, hx, rfl⟩, _, ⟨claims, _, rfl⟩, rfl⟩ := h
  exact (Table.get?_insert hx x).trans (if_neg hne)

/-- An attempt is active after an action if it was before, or `claim` has started it. -/
theorem attempt_started {w : World} {a : Action} (hw : Consistent env w) (ha : Legal w a)
    {o : TaskOperation} (hx : attemptView (step env w a).ledger x = some (k, .active))
    (ho : (step env w a).ledger.operations.get? k = some o) :
    attemptView w.ledger x = some (k, .active) ∨ StartedBy w a k x := by
  obtain ⟨hclaimed, hholds⟩ := holds_of_active (hw.step ha).good hx ho
  by_cases hstart : .start ∈ actionKinds a
  · obtain ⟨generation, slots, y, entry, rfl⟩ := start_mem_actionKinds hstart
    rcases step_command env w (.claim generation slots y entry) with ⟨record, l', hran, hstep⟩ | ⟨_, hstep⟩
    · rw [hstep] at hx
      rcases claim_cases hran with ⟨_, rfl⟩ | ⟨_, r, t, o', _, hc, hs⟩
      · exact .inl hx
      · by_cases hxy : x = y
        · subst hxy
          obtain ⟨_, _, e, he, hek, _⟩ := startAttempt_execution hs
          obtain ⟨e', he', hek', _⟩ := attemptView_eq_some.mp hx
          have heq : e = e' := Option.some.inj (he.symm.trans he')
          obtain rfl : t.id = k := by rw [← hek, heq, hek']
          exact .inr ⟨generation, slots, entry, t, o', rfl, hc.task, hc.queued, hc.operation,
            hc.eligible, hc.attempts⟩
        · refine .inl ?_
          unfold attemptView at hx ⊢
          rwa [startAttempt_others hs hxy] at hx
    · rw [hstep] at hx
      exact .inl hx
  · have hchain : Chain env True (actionKinds a) w.ledger (step env w a).ledger :=
      step_chain fun _ => hw.promise ha
    exact .inl (active_of_held hw.good (holds_chain hw.good hchain hstart hholds)
      (claimed_before hchain hstart hclaimed))

theorem requeue_mem_actionKinds {a : Action} (h : .requeue ∈ actionKinds a) :
    ∃ reg k owner generation, a = .command (.resume reg k owner generation) := by
  cases a with
  | command c =>
    cases c with
    | resume reg k owner generation => exact ⟨reg, k, owner, generation, rfl⟩
    | decide _ _ _ revoke => cases revoke <;> simp [actionKinds, commandKinds, settleKinds] at h
    | _ =>
      simp [actionKinds, commandKinds, approveKinds, openKinds, cancelKinds, proposeKinds, linkKinds,
        settleKinds, resolveKinds, closeKinds, maintainKinds] at h
  | _ => simp [actionKinds, applyKinds] at h

/-- Without a resumption, a task that does not wait to be claimed goes on so. -/
theorem unqueued_kept {ks : List Kind} (h : Chain env True ks l l') (hks : .requeue ∉ ks)
    (hk : ∃ t, l.tasks.get? k = some t ∧ t.status ≠ .queued) :
    ∃ t, l'.tasks.get? k = some t ∧ t.status ≠ .queued := by
  refine h.invariant (I := fun l => ∃ t, l.tasks.get? k = some t ∧ t.status ≠ .queued) ?_ hk
  rintro κ hκ l₁ l₂ ⟨t, ht, hs⟩ hstep
  obtain ⟨t', ht'⟩ := of_skeleton_task ((Extends.step hstep).task k (skeleton_task ht))
  refine ⟨t', ht', fun hq => ?_⟩
  rcases task_step trivial hstep ht' with ⟨t₀, ht₀, hsame | hmove⟩ | ⟨_, hnone, _⟩
  · rw [ht] at ht₀
    cases ht₀
    exact hs (hsame ▸ hq)
  · rw [hq] at hmove
    exact hks (queued_move hmove ▸ hκ)
  · rw [ht] at hnone
    cases hnone

/-- A task is queued again only by its owner's resumption, from a hold. -/
theorem requeued {w : World} {a : Action} (hw : Consistent env w) (ha : Legal w a) {t t' : AgentTask}
    (ht : w.ledger.tasks.get? k = some t) (hs : t.status ≠ .queued)
    (ht' : (step env w a).ledger.tasks.get? k = some t') (hq : t'.status = .queued) :
    ∃ reg generation, a = .command (.resume reg k t.requestedBy generation) ∧
      (t.status = .blocked ∨ t.status = .failed) := by
  by_cases hkind : .requeue ∈ actionKinds a
  · obtain ⟨reg, j, owner, generation, rfl⟩ := requeue_mem_actionKinds hkind
    rcases step_command env w (.resume reg j owner generation) with ⟨record, l', hran, hstep⟩ | ⟨_, hstep⟩
    · rw [hstep] at ht'
      simp only [commandOp, ran_dropped] at hran
      obtain ⟨_, u, hran⟩ := hran
      unfold resume at hran
      simp only [Tx.ran_select_bind, Tx.ran_demand_bind, Tx.ran_require_bind, Tx.ran_lift_bind,
        Tx.ran_write, Option.filter_eq_some_iff, decide_eq_true_eq] at hran
      obtain ⟨_, _, t₁, ⟨ht₁, howner⟩, _, ⟨_, hheld, _⟩, _, _, _, _, _, rfl⟩ := hran
      simp only [requeueTask, Ledger.appendEvent_tasks] at ht'
      obtain ⟨t₀, ht₀, ⟨_, rfl⟩ | ⟨rfl, _⟩⟩ := updateTask_cases (l := w.ledger) ht'
      · rw [ht] at ht₀
        cases ht₀
        exact absurd hq hs
      · rw [ht] at ht₁
        cases ht₁
        exact ⟨reg, generation, by rw [howner], hheld⟩
    · rw [hstep, ht] at ht'
      cases ht'
      exact absurd hq hs
  · have hchain : Chain env True (actionKinds a) w.ledger (step env w a).ledger :=
      step_chain fun _ => hw.promise ha
    obtain ⟨t₁, ht₁, hs₁⟩ := unqueued_kept hchain hkind ⟨t, ht, hs⟩
    rw [ht'] at ht₁
    cases ht₁
    exact absurd hq hs₁

/-- Over every run: an attempt of an operation becomes active only through a `claim` of its
queued, eligible task below its limit, which the attempts never exceed; and a task is queued
again only by its owner's resumption. Over runs that admit no apply while the plan's task is
queued: no `claim` starts an attempt of a task with a plan that has been started. -/
theorem no_replay (env : Environment) :
    (∀ w a, ReachableWorld env w → Legal w a →
      (∀ k x o, attemptView (step env w a).ledger x = some (k, .active) →
        (step env w a).ledger.operations.get? k = some o →
        attemptView w.ledger x = some (k, .active) ∨ StartedBy w a k x) ∧
      (∀ k o, w.ledger.operations.get? k = some o → o.attempts ≤ o.maxAttempts) ∧
      ∀ k t t', w.ledger.tasks.get? k = some t → t.status ≠ .queued →
        (step env w a).ledger.tasks.get? k = some t' → t'.status = .queued →
        ∃ reg generation, a = .command (.resume reg k t.requestedBy generation) ∧
          (t.status = .blocked ∨ t.status = .failed)) ∧
    ∀ w₀ as w, Init w₀ → Run (step env) (fun w a => Legal w a ∧ ¬ AdmitsQueued env w a) w₀ as w →
      ∀ a k x p r, w.ledger.plans.get? p = some r → r.taskId = k → Started r.status →
        ¬ StartedBy w a k x := by
  constructor
  · intro w a hreach ha
    have hw : Consistent env w := hreach.consistent
    exact ⟨fun k x o => attempt_started hw ha, fun k o => (hw.good.sound k).bounded o,
      fun k t t' => requeued hw ha⟩
  · intro w₀ as w h₀ hrun a k x p r hr hk hs hstarted
    have hboth : Consistent env w ∧ NotReplayable w.ledger := by
      refine hrun.invariant (I := fun w => Consistent env w ∧ NotReplayable w.ledger)
        (fun w a hw ha => ⟨hw.1.step ha.1, hw.2.action hw.1 ha.1 ha.2⟩) ⟨.of_init h₀, ?_⟩
      intro q r _ hr
      rw [h₀.ledger.plans] at hr
      cases hr
    obtain ⟨_, _, _, t, _, _, ht, hq, _⟩ := hstarted
    exact hboth.2 p r t hr hs (hk ▸ ht) hq

theorem not_admitsQueued {w : World} {a : Action} (h : ∀ n chance, a ≠ .stepApply n chance) :
    ¬ AdmitsQueued env w a := by
  rintro ⟨n, chance, _, _, ha, _⟩
  exact h n chance ha

theorem not_admitsQueued_running {w : World} {a : Action}
    (h : ∀ call ∈ w.calls, ∀ t ∈ w.ledger.tasks.get? call.plan.taskId, t.status ≠ .queued) :
    ¬ AdmitsQueued env w a := by
  rintro ⟨n, _, call, _, _, hcall, _, _, t, ht, hq⟩
  exact h call (List.mem_of_getElem? hcall) t ht hq

/-- The plan of the running request is being applied, and another request waits. -/
def servedRun : List Action :=
  plainRun ++ plainProposal :: plainApply ++
    [.command (.submit plainRegistry { workspace := "/v" } "owner" 1 none none none 8 3)]

def plainServed : World := servedRun.foldl (step plainEnvironment) plainWorld

theorem servedRun_run :
    Run (step plainEnvironment) (fun w a => Legal w a ∧ ¬ AdmitsQueued plainEnvironment w a)
      plainWorld servedRun plainServed := by
  refine .cons ⟨trivial, not_admitsQueued (by simp)⟩
    (.cons ⟨⟨by decide +kernel, fun _ => rfl, fun _ => rfl⟩, not_admitsQueued (by simp)⟩
    (.cons ⟨?_, not_admitsQueued (by simp)⟩
    (.cons ⟨plainProposal_legal, not_admitsQueued (by simp [plainProposal])⟩
    (.cons ⟨?_, not_admitsQueued (by simp)⟩ (.cons ⟨trivial, not_admitsQueued_running ?_⟩
    (.cons ⟨trivial, not_admitsQueued_running ?_⟩
    (.cons ⟨⟨by decide +kernel, fun _ => rfl, fun _ => rfl⟩, not_admitsQueued (by simp)⟩
      (.nil _))))))))
  · simp only [Legal, LegalCommand]
    decide +kernel
  · simp only [Legal]
    decide +kernel
  all_goals decide +kernel

/-- A claim that follows the apply starts the other request, and not the one whose plan is being
applied. -/
theorem no_replay_plain :
    (∃ r ∈ plainServed.ledger.plans.get? 5, r.taskId = 7 ∧ r.status = .applying) ∧
    (∃ e ∈ (step plainEnvironment plainServed (.command (.claim 1 4 10 0))).ledger.executions.get? 10,
      e.taskId = 8) ∧
    ¬ StartedBy plainServed (.command (.claim 1 4 10 0)) 7 10 := by
  have hplan : ∃ r ∈ plainServed.ledger.plans.get? 5, r.taskId = 7 ∧ r.status = .applying := by
    decide +kernel
  refine ⟨hplan, by decide +kernel, ?_⟩
  obtain ⟨r, hr, htask, happlying⟩ := hplan
  exact (no_replay plainEnvironment).2 plainWorld servedRun plainServed plainWorld_init servedRun_run
    _ 7 10 5 r hr htask (.inl happlying)

/-- The worker of a request is lost after it has proposed a creation; the owner resumes the
request, and approves the plan before the request is claimed again. The apply is admitted,
and its worker is lost too. -/
def replayRun : List Action :=
  [.command (.propose plainRegistry 7 "owner" "/w"
      [{ path := "a", action := .create, content := [120], reason := "new" }] [] "code" "" none 5),
    .tick 31000000, .command (.recover 31000000), .command (.heartbeat 1 false),
    .command (.registerWorker 2), .command (.resume plainRegistry 7 "owner" 1),
    .command (.approve plainRegistry 5 "owner" [120] 2 8 4), .command (.claim 2 4 10 31000000),
    .startApply plainRegistry 5 "owner" (some ⟨8, 2, 10, applySpec "/w" 5, "owner"⟩),
    .stepApply 0 {}, .stepApply 0 {}, .tick 31000000, .command (.heartbeat 1 false),
    .command (.recover 62000000)]

def replayWorld : World := replayRun.foldl (step plainEnvironment) plainRunning

theorem replayRun_run : Run (step plainEnvironment) Legal plainRunning replayRun replayWorld := by
  refine .cons ⟨by decide +kernel, fun o ho => ?_⟩ (.cons trivial (.cons ?_ (.cons trivial
    (.cons trivial (.cons trivial (.cons ?_ (.cons ?_ (.cons ?_ (.cons trivial (.cons trivial
      (.cons trivial (.cons trivial (.cons ?_ (.nil _))))))))))))))
  · have hplain : (plainRunning.ledger.operations.get? 7).all
        (fun o => o.spec.kind = .request ∧ o.spec.draftId = none) = true := by decide +kernel
    rw [ho] at hplain
    simpa using hplain
  all_goals
    simp only [Legal, LegalCommand]
    decide +kernel

/-- The request whose plan is being applied is claimed for a further attempt. -/
theorem replayed : ∃ w, ReachableWorld plainEnvironment w ∧
    (∃ r ∈ w.ledger.plans.get? 5, r.taskId = 7 ∧ r.status = .applying) ∧
    (∃ e ∈ (step plainEnvironment w (.command (.claim 1 4 11 62000000))).ledger.executions.get? 11,
      e.taskId = 7 ∧ e.status = .running) :=
  ⟨replayWorld, plainRunning_reachable.run replayRun_run, by decide +kernel, by decide +kernel⟩

end NyanyaAgent.Safety
