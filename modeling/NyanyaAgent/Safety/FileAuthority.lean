import NyanyaAgent.Invariants.Halts
import NyanyaAgent.Safety.ResultFence

/-!
# The authority over files

An apply changes a file only in a ledger that allows it at that instant, and a
cancellation takes that permission from the plans and attempts it finds for good.
-/
namespace NyanyaAgent.Safety
open NyanyaAgent.Schema NyanyaAgent.Relational NyanyaAgent.Operations NyanyaAgent.Plans
open NyanyaAgent.Drafts NyanyaAgent.Lifecycle NyanyaAgent.Runs NyanyaAgent.Invariants
open NyanyaAgent.System

variable {env : Environment} {κ : Kind} {l l' : Ledger} {k : TaskId} {p : PlanId} {x : ExecutionId}

/-- The caller of an apply is the plan's apply attempt, the planned task's own attempt with
nothing but creations, or nobody at all while the planned task was never touched. -/
inductive Caller (l : Ledger) (call : ApplyCall) (now : Time) : Prop
  | apply (record : ClaimRecord) (o : TaskOperation) (given : call.record = some record)
      (owns : OwnsExecution l record call.owner now o) (kind : o.spec.kind = .apply)
      (plan : o.spec.planId = some call.plan.id) (parent : o.parentTaskId = some call.plan.taskId)
  | request (record : ClaimRecord) (o : TaskOperation) (given : call.record = some record)
      (owns : OwnsExecution l record call.owner now o) (kind : o.spec.kind = .request)
      (own : record.taskId = call.plan.taskId) (creates : ∀ c ∈ call.plan.changes, c.action = .create)
  | direct (given : call.record = none) (untouched : Untouched l call.plan.taskId)

/-- What the ledger shows when an apply changes a file. -/
structure Authorised (l : Ledger) (call : ApplyCall) (now : Time) : Prop where
  plan : ∃ r, l.plans.get? call.plan.id = some r ∧ r.status = .applying ∧ now < r.expiresAt
  latest : LatestDraftPlan l call.plan.id
  parent : ∃ t, l.tasks.get? call.plan.taskId = some t ∧ t.requestedBy = call.owner ∧
    Applicable t.status
  caller : Caller l call now

theorem Authorised.of_guarded {call : ApplyCall} {chance : Chance} {now : Time}
    (h : Guarded l call chance now) : Authorised l call now := by
  obtain ⟨_, hlatest, ⟨t, ht, howner, hstatus⟩, hcaller, r, hr, hrs, hlive⟩ := h
  refine ⟨⟨r, hr, hrs, hlive⟩, hlatest, ⟨t, ht, howner, hstatus⟩, ?_⟩
  cases hrecord : call.record with
  | none =>
    rw [hrecord] at hcaller
    exact .direct hrecord hcaller
  | some record =>
    rw [hrecord] at hcaller
    obtain ⟨o, ho, _, happly, hrequest⟩ := hcaller
    have howns := ownedOperation_eq_some.mp ho
    cases hkind : o.spec.kind with
    | apply =>
      obtain ⟨hplan, hparent⟩ := happly hkind
      exact .apply record o hrecord howns hkind hplan hparent
    | request =>
      obtain ⟨hown, hcreates⟩ := hrequest hkind
      exact .request record o hrecord howns hkind hown hcreates

/-- A section changes the tree only behind its guard. -/
theorem guardedStep_tree {chance : Chance} {now : Time} {call : ApplyCall} {c : PlannedChange}
    {t : Workspace} {s : Stage} (h : (guardedStep env chance now call c l t s).1 ≠ t) :
    Guarded l call chance now := by
  unfold guardedStep at h
  by_contra hg
  rw [if_pos hg] at h
  exact h rfl

theorem itemStep_tree {chance : Chance} {now : Time} {call : ApplyCall} {t : Workspace} {i : ℕ}
    {s : Stage} (h : (itemStep env chance now call l t i s).1 ≠ t) : Guarded l call chance now := by
  unfold itemStep at h
  split at h
  · exact absurd rfl h
  · split at h
    · exact absurd rfl h
    · exact absurd rfl h
    · split_ifs at h
      · exact guardedStep_tree h
      · exact absurd rfl h
    · exact guardedStep_tree h

theorem applyStep_tree (env : Environment) {chance : Chance} {now : Time} {call : ApplyCall} {t : Workspace}
    (h : (applyStep env chance now call l t).2.1 ≠ t) : Guarded l call chance now := by
  unfold applyStep at h
  split at h
  · exact absurd rfl h
  · split at h <;> exact absurd rfl h
  · split at h
    · exact absurd rfl h
    · split_ifs at h <;> exact absurd rfl h
  · split_ifs at h <;> exact absurd rfl h
  · split_ifs at h <;> exact absurd rfl h
  · split_ifs at h <;> exact absurd rfl h
  · exact absurd rfl h
  · exact absurd rfl h
  all_goals exact itemStep_tree h

/-- Only a guarded step of an apply changes a tree, or another program. -/
theorem step_tree {w : World} {a : Action} {root : String}
    (h : (step env w a).tree root ≠ w.tree root) :
    (∃ tree, a = .external root tree) ∨ ∃ n chance call, a = .stepApply n chance ∧
      w.calls[n]? = some call ∧ call.root = root ∧ Guarded w.ledger call chance w.clock := by
  cases a with
  | command c =>
    rcases step_command env w c with ⟨_, _, _, hstep⟩ | ⟨_, hstep⟩
    · rw [hstep] at h
      exact absurd rfl h
    · rw [hstep] at h
      exact absurd rfl h
  | tick => exact absurd rfl h
  | startApply =>
    simp only [step] at h
    split at h <;> exact absurd rfl h
  | crashApply n =>
    simp only [step] at h
    split at h <;> exact absurd rfl h
  | external r tree =>
    left
    by_cases hr : root = r
    · exact ⟨tree, by rw [hr]⟩
    · exact absurd (Function.update_of_ne hr _ _) h
  | stepApply n chance =>
    right
    simp only [step] at h
    rcases stepCall_cases env w n chance with hs | ⟨call, hcall, ⟨_, _, hs⟩ | ⟨_, l', t, s, happly, _, hs⟩⟩
    · rw [hs] at h
      exact absurd rfl h
    · rw [hs] at h
      exact absurd rfl h
    · rw [hs] at h
      by_cases hr : root = call.root
      · subst hr
        refine ⟨n, chance, call, rfl, hcall, rfl, ?_⟩
        have htree : t ≠ w.tree call.root := by simpa using h
        exact applyStep_tree env (by rw [happly]; exact htree)
      · exact absurd (Function.update_of_ne hr _ _) h

/-- A plan that will never be applied, or whose apply has nothing left to run under. -/
def Spent (s : PlanStatus) : Prop := s ≠ .pending ∧ s ≠ .approved ∧ s ≠ .applying

def Barred (l : Ledger) (p : PlanId) (k : TaskId) : Prop :=
  ∃ r, l.plans.get? p = some r ∧ r.taskId = k ∧
    (Spent r.status ∨ r.status = .applying ∧ Halted l k)

theorem PlanMove.spent {s s' : PlanStatus} (h : PlanMove κ s s') (hs : Spent s ∨ s = .applying) :
    Spent s' := by
  unfold Spent at hs ⊢
  cases h with
  | revoke | revokeOpen | expire | finalize | uncertain => simp
  | approve h => rcases h with rfl | rfl <;> simp at hs
  | admission => simp at hs
  | acknowledge _ h' => rcases h' with rfl | rfl <;> simp

theorem Barred.step (hb : Barred l p k) (h : Step env True κ l l') : Barred l' p k := by
  obtain ⟨r, hr, hk, hs⟩ := hb
  obtain ⟨r', hr', hcore⟩ := of_skeleton_plan ((Extends.step h).plan p _ (skeleton_plan hr))
  have htask : r'.taskId = r.taskId := by simpa [planCore] using congrArg ChangePlan.taskId hcore
  refine ⟨r', hr', htask.trans hk, ?_⟩
  rcases plan_step trivial h hr' with ⟨r₀, hr₀, _, heq⟩ | ⟨_, hnone, _⟩
  · rw [hr] at hr₀
    cases hr₀
    rcases heq with rfl | hmove
    · exact hs.imp id fun ha => ⟨ha.1, ha.2.step hr hk ha.1 h⟩
    · exact .inl (PlanMove.spent hmove (hs.imp id And.left))
  · rw [hr] at hnone
    cases hnone

/-- An attempt of the task that holds no claim, or one it was asked to give up. -/
structure Dismissed (l : Ledger) (k : TaskId) (x : ExecutionId) : Prop where
  attempt : (skeleton l).attempt x = some k
  claim : ClaimedFor l k x → StoppedIn l.executions x

theorem Dismissed.step (hd : Dismissed l k x) (h : Step env True κ l l') : Dismissed l' k x := by
  refine ⟨(Extends.step h).attempt x k hd.attempt, fun hc => ?_⟩
  have hbefore : ClaimedFor l k x := by
    by_cases hκ : κ = .start
    · subst hκ
      cases h with
      | start _ _ _ _ _ _ hx hins =>
        rcases ClaimedFor.start hins rfl hc with ⟨_, rfl⟩ | hbefore
        · obtain ⟨e, he, _⟩ := of_skeleton_attempt hd.attempt
          rw [Table.get?_of_insert hx] at he
          cases he
        · exact hbefore
    · exact hc.before h hκ
  exact (hd.claim hbefore).step h

/-- The plan loop of `cancel` revokes the listed plans and writes no other. -/
theorem revokePlans_row {owner : String} {now : Time} (plans : List PlanId) (l : Ledger)
    (p : PlanId) : (plans.foldl (revokePlan k owner now) l).plans.get? p =
      (l.plans.get? p).map fun r =>
        if p ∈ plans then { r with status := .revoked, decidedBy := owner } else r := by
  induction plans generalizing l with
  | nil => simp
  | cons q plans ih =>
    have hplans : (revokePlan k owner now l q).plans =
        (l.updatePlan q fun r => { r with status := .revoked, decidedBy := owner }).plans :=
      stopChildren_plans _ _ _ _
    rw [List.foldl_cons, ih, hplans]
    by_cases hq : p = q
    · subst hq
      rw [Ledger.updatePlan_get?, Option.map_map]
      congr 1
      funext r
      simp
    · rw [Ledger.updatePlan_get?_ne _ _ _ hq]
      congr 1
      funext r
      simp [hq]

theorem revokePlans_claims {owner : String} {now : Time} (plans : List PlanId) (l : Ledger) :
    (plans.foldl (revokePlan k owner now) l).claims = l.claims := by
  induction plans generalizing l with
  | nil => rfl
  | cons q plans ih =>
    rw [List.foldl_cons, ih]
    exact stopChildren_claims _ _ _ _

/-- What the cancellation of an open task leaves: its open plans revoked, the other plans as
they were, and the task halted. -/
theorem cancel_halts (env : Environment) {owner : String} {selection : Selection} {now : Time} {s : TaskStatus}
    {t : AgentTask} (ht : l.tasks.get? k = some t) (hopen : ¬ t.status.Terminal)
    (hheld : ¬ (t.status = .blocked ∧ UnresolvedEffects l k))
    (h : Tx.Ran (cancel k owner selection now) l s l') :
    Halted l' k ∧ ∀ p, l'.plans.get? p = (l.plans.get? p).map fun r =>
      if p ∈ openPlans l k then { r with status := .revoked, decidedBy := owner } else r := by
  unfold cancel at h
  simp only [Tx.ran_select_bind, Tx.ran_demand_bind, Tx.ran_require_bind] at h
  obtain ⟨t', ht', _, _, h⟩ := h
  rw [Option.filter_eq_some_iff, ht] at ht'
  cases ht'.1
  simp only [not_or] at hopen
  rw [if_neg hopen.2.1, if_neg (not_or.mpr ⟨hopen.1, hopen.2.2⟩), Tx.ran_select_bind,
    if_neg (by simpa using hheld)] at h
  simp only [Tx.ran_select_bind, Tx.ran_write_bind] at h
  have hswept : Chain env False cancelKinds l
      ((openPlans l k).foldl (revokePlan k owner now) (rejectApprovals k owner now l)) := by
    refine (Chain.of_step (.aside (.approvals l _)) (by simp [cancelKinds])).trans
      ((revokePlans_chain (openPlans_pairwise l k) ?_).mono (by simp [cancelKinds]))
    exact fun p hp => mem_openPlans hp
  have hclaims : ((openPlans l k).foldl (revokePlan k owner now)
      (rejectApprovals k owner now l)).claims = l.claims := revokePlans_claims _ _
  have hplans : ∀ p, ((openPlans l k).foldl (revokePlan k owner now)
      (rejectApprovals k owner now l)).plans.get? p = _ := revokePlans_row _ _
  generalize (openPlans l k).foldl (revokePlan k owner now) (rejectApprovals k owner now l) = m
    at h hswept hclaims hplans
  obtain ⟨t₁, ht₁⟩ := of_skeleton_task ((Extends.chain hswept).task k (skeleton_task ht))
  split at h
  · next x hlive hx =>
    simp only [Tx.ran_write_bind, Tx.ran_pure] at h
    rw [decide_eq_true_eq] at hlive
    rw [h.2]
    obtain ⟨c, hc, hck, hcx, _, _, e, he, hex, _⟩ := hlive
    rw [Table.key_of_get? ht] at hck
    rw [hx] at hcx
    have hcx : x = c.executionId := Option.some.inj hcx
    obtain ⟨e₁, he₁, _⟩ := of_skeleton_attempt
      ((Extends.chain hswept).attempt x _ (skeleton_attempt (x := x)
        (hcx ▸ hex ▸ Table.mem_rows_iff.mp he)))
    refine ⟨⟨⟨{ t₁ with status := .cancelling, updatedAt := now }, ?_, ?_⟩, fun y hy => ?_⟩, hplans⟩
    · simp only [Ledger.appendEvent_tasks, requestStop, Ledger.updateTask_get?,
        Ledger.updateExecution_tasks, ht₁, Option.map_some]
    · rintro (hs | hs | hs) <;> cases hs
    · obtain ⟨c', hc', _, rfl⟩ := hy
      have hrow : l.claims.get? k = some c' := hclaims ▸ hc'
      rw [← hck, Table.mem_rows_iff.mp hc] at hrow
      cases hrow
      rw [← hcx]
      have hstopped : (m.updateExecution x fun e =>
          { e with status := .cancelling, updatedAt := now }).executions.get? x =
            some { e₁ with status := .cancelling, updatedAt := now } := by
        rw [Ledger.updateExecution, Table.get?_update_key, he₁]
        rfl
      exact ⟨_, hstopped, .inl rfl⟩
  · simp only [Tx.ran_select_bind, Tx.ran_write_bind, Tx.ran_pure] at h
    rw [h.2]
    refine ⟨⟨?_, fun y hy => absurd hy not_claimed_closeTask⟩, hplans⟩
    simp only [Ledger.appendEvent_tasks, closeTask, Ledger.updateOperation_tasks,
      Ledger.releaseClaim_tasks, Ledger.updateTask_get?, ht₁, Option.map_some]
    refine ⟨_, rfl, ?_⟩
    unfold Applicable
    dsimp only
    split_ifs <;> simp

/-- After the cancellation every plan of the task is barred. -/
theorem cancel_barred (env : Environment) {owner : String} {selection : Selection} {now : Time}
    {s : TaskStatus} {t : AgentTask} (ht : l.tasks.get? k = some t) (hopen : ¬ t.status.Terminal)
    (hheld : ¬ (t.status = .blocked ∧ UnresolvedEffects l k))
    (h : Tx.Ran (cancel k owner selection now) l s l') {r : ChangePlan}
    (hr : l.plans.get? p = some r) (hk : r.taskId = k) : Barred l' p k := by
  obtain ⟨hhalted, hplans⟩ := cancel_halts env ht hopen hheld h
  have hrow := hplans p
  rw [hr, Option.map_some] at hrow
  by_cases hp : p ∈ openPlans l k
  · rw [if_pos hp] at hrow
    exact ⟨_, hrow, hk, .inl (by simp [Spent])⟩
  · rw [if_neg hp] at hrow
    refine ⟨r, hrow, hk, ?_⟩
    by_cases happlying : r.status = .applying
    · exact .inr ⟨happlying, hhalted⟩
    · have hclosed : ¬ (r.status = .pending ∨ r.status = .approved) := by
        intro hs
        refine hp (List.mem_map.mpr ⟨r, List.mem_filter.mpr ⟨(Table.get?_eq_some.mp hr).1, ?_⟩,
          Table.key_of_get? hr⟩)
        exact decide_eq_true ⟨hk, hs⟩
      rw [not_or] at hclosed
      exact .inl ⟨hclosed.1, hclosed.2, happlying⟩

theorem Barred.not_guarded {call : ApplyCall} {chance : Chance} {now : Time}
    (hb : Barred l call.plan.id call.plan.taskId) : ¬ Guarded l call chance now := by
  intro hg
  have hauth : Authorised l call now := .of_guarded hg
  obtain ⟨r, hr, hrs, _⟩ := hauth.plan
  obtain ⟨r', hr', _, hs⟩ := hb
  rw [hr] at hr'
  cases hr'
  rcases hs with hspent | ⟨_, hhalted⟩
  · exact hspent.2.2 hrs
  · obtain ⟨t, ht, _, hstatus⟩ := hauth.parent
    obtain ⟨t', ht', hnot⟩ := hhalted.task
    rw [ht] at ht'
    cases ht'
    exact hnot hstatus

theorem Dismissed.not_owned {record : ClaimRecord} {owner : String} {now : Time} {o : TaskOperation}
    (hd : Dismissed l record.taskId record.executionId) : ¬ OwnsExecution l record owner now o := by
  intro howns
  obtain ⟨c, hc, hcx, _, _, hreleased, _⟩ := howns.claim
  obtain ⟨e, he, _, hrunning, _⟩ := howns.execution
  obtain ⟨e', he', hstopped⟩ := hd.claim ⟨c, hc, hreleased, hcx⟩
  rw [he] at he'
  cases he'
  rw [hrunning] at hstopped
  rcases hstopped with hs | hs
  · cases hs
  · exact absurd hs (by decide)

/-- What a run keeps of barred plans and dismissed attempts. -/
theorem barred_run {w w' : World} {as : List Action} (hw : Consistent env w)
    (h : Run (step env) Legal w as w') :
    (∀ p k, Barred w.ledger p k → Barred w'.ledger p k) ∧
      ∀ k x, Dismissed w.ledger k x → Dismissed w'.ledger k x := by
  refine h.relation (I := Consistent env)
    (R := fun w w' => (∀ p k, Barred w.ledger p k → Barred w'.ledger p k) ∧
      ∀ k x, Dismissed w.ledger k x → Dismissed w'.ledger k x)
    (fun _ => ⟨fun _ _ => id, fun _ _ => id⟩)
    (fun _ _ _ h₁ h₂ => ⟨fun p k hb => h₂.1 p k (h₁.1 p k hb), fun k x hd => h₂.2 k x (h₁.2 k x hd)⟩)
    (fun _ _ hw ha => hw.step ha) (fun w a hw ha => ?_) hw
  have hchain : Chain env True (actionKinds a) w.ledger (step env w a).ledger :=
    step_chain fun _ => hw.promise ha
  constructor
  · exact fun p k => hchain.invariant (I := fun l => Barred l p k) fun _ _ _ _ hb hs => hb.step hs
  · exact fun k x => hchain.invariant (I := fun l => Dismissed l k x) fun _ _ _ _ hd hs => hd.step hs

theorem extends_run {w w' : World} {as : List Action} (h : Run (step env) Legal w as w') :
    Extends (skeleton w.ledger) (skeleton w'.ledger) := by
  refine h.relation (R := fun w w' => Extends (skeleton w.ledger) (skeleton w'.ledger))
    (I := fun _ => True) (fun _ => .refl _) (fun _ _ _ => .trans) (fun _ _ _ _ => trivial)
    (fun w a _ _ => ?_) trivial
  have hchain : Chain env False (actionKinds a) w.ledger (step env w a).ledger :=
    step_chain False.elim
  exact Extends.chain hchain

/-- In every interleaving a file of a workspace changes only by another program, or in a
section of an apply while the ledger authorises it; and after the cancellation of an open
task no apply changes a file any more under a plan the task had, or under an attempt of the
task that a worker had been given. -/
theorem file_authority (env : Environment) (w : World) (hw : ReachableWorld env w) :
    (∀ a root, (step env w a).tree root ≠ w.tree root →
      (∃ tree, a = .external root tree) ∨ ∃ n chance call, a = .stepApply n chance ∧
        w.calls[n]? = some call ∧ call.root = root ∧ chance.cancelled = false ∧
        Authorised w.ledger call w.clock) ∧
    ∀ k owner selection s l' t, Tx.Ran (cancel k owner selection w.clock) w.ledger s l' →
      w.ledger.tasks.get? k = some t → ¬ t.status.Terminal →
      ¬ (t.status = .blocked ∧ UnresolvedEffects w.ledger k) →
      ∀ as w', Run (step env) Legal (step env w (.command (.cancel k owner selection))) as w' →
        ∀ a root, (step env w' a).tree root ≠ w'.tree root →
          (∃ tree, a = .external root tree) ∨ ∃ n chance call, a = .stepApply n chance ∧
            w'.calls[n]? = some call ∧ call.root = root ∧
            (call.plan.taskId = k → w.ledger.plans.get? call.plan.id = none) ∧
            ∀ record, call.record = some record → record.taskId = k → record ∉ w.issued := by
  have hcons : Consistent env w := hw.consistent
  constructor
  · intro a root h
    rcases step_tree h with hexternal | ⟨n, chance, call, ha, hcall, hroot, hg⟩
    · exact .inl hexternal
    · exact .inr ⟨n, chance, call, ha, hcall, hroot, hg.1, .of_guarded hg⟩
  · intro k owner selection s l' t hran ht hopen hheld as w' hrun a root h
    have hran' : Tx.Ran (commandOp env w (.cancel k owner selection)) w.ledger none l' := by
      simp only [commandOp, ran_dropped]
      exact ⟨trivial, s, hran⟩
    have hledger : (step env w (.command (.cancel k owner selection))).ledger = l' := by
      rw [step_of_ran hran']
    have hcons₁ : Consistent env (step env w (.command (.cancel k owner selection))) :=
      hcons.step trivial
    have hchain : Chain env False cancelKinds w.ledger l' := cancel_chain False.elim hran
    obtain ⟨hbarred, hdismissed⟩ := barred_run hcons₁ hrun
    rw [hledger] at hbarred hdismissed
    rcases step_tree h with hexternal | ⟨n, chance, call, ha, hcall, hroot, hg⟩
    · exact .inl hexternal
    refine .inr ⟨n, chance, call, ha, hcall, hroot, fun hk => ?_, fun record hrecord hk hissued => ?_⟩
    · cases hplan : w.ledger.plans.get? call.plan.id with
      | none => rfl
      | some r =>
        have hcons' : Consistent env w' := hrun.invariant (fun _ _ hw ha => hw.step ha) hcons₁
        have hkept := extends_run hrun
        rw [hledger] at hkept
        -- The plan the call was given is the plan the task had.
        have hsame := hkept.plan _ _ ((Extends.chain hchain).plan _ _ (skeleton_plan hplan))
        rw [(hcons'.calls call (List.mem_of_getElem? hcall)).plan] at hsame
        have hcore : planCore call.plan = planCore r := Option.some.inj hsame
        have htask : call.plan.taskId = r.taskId := by
          simpa [planCore] using congrArg ChangePlan.taskId hcore
        have hb : Barred w'.ledger call.plan.id call.plan.taskId := by
          rw [hk]
          exact hbarred _ _ (cancel_barred env ht hopen hheld hran hplan (htask.symm.trans hk))
        exact absurd hg hb.not_guarded
    · have hattempt : Dismissed l' k record.executionId := by
        refine ⟨(Extends.chain hchain).attempt _ _ (hk ▸ (hcons.issued record hissued).1), ?_⟩
        exact (cancel_halts env ht hopen hheld hran).1.claim _
      have hd := hdismissed k record.executionId hattempt
      have hauth : Authorised w'.ledger call w'.clock := .of_guarded hg
      rw [← hk] at hd
      cases hauth.caller with
      | apply r o given owns =>
        rw [hrecord] at given
        cases given
        exact hd.not_owned owns
      | request r o given owns =>
        rw [hrecord] at given
        cases given
        exact hd.not_owned owns
      | direct given =>
        rw [hrecord] at given
        cases given

/-- The plain request is cancelled when its plan awaits the owner; its plan is not among those that
may still be applied. -/
theorem file_authority_plain : ∃ l' : Ledger,
    Tx.Ran (cancel 7 "owner" {} plainPlanned.clock) plainPlanned.ledger .cancelling l' ∧
    ∀ as w', Run (step plainEnvironment) Legal
        (step plainEnvironment plainPlanned (.command (.cancel 7 "owner" {}))) as w' →
      ∀ a root, (step plainEnvironment w' a).tree root ≠ w'.tree root →
        (∃ tree, a = .external root tree) ∨ ∃ n chance call, a = .stepApply n chance ∧
          w'.calls[n]? = some call ∧ call.root = root ∧
          (call.plan.taskId = 7 → plainPlanned.ledger.plans.get? call.plan.id = none) ∧
          ∀ record, call.record = some record → record.taskId = 7 →
            record ∉ plainPlanned.issued := by
  have hfound : ∃ t ∈ plainPlanned.ledger.tasks.get? 7, ¬ t.status.Terminal ∧
      ¬ (t.status = .blocked ∧ UnresolvedEffects plainPlanned.ledger 7) := by decide +kernel
  obtain ⟨t, ht, hopen, hheld⟩ := hfound
  have hran : (cancel 7 "owner" {} plainPlanned.clock plainPlanned.ledger).1 =
      .ok TaskStatus.cancelling := by decide +kernel
  refine ⟨_, Prod.ext hran rfl, ?_⟩
  exact (file_authority plainEnvironment plainPlanned plainPlanned_reachable).2 7 "owner" {}
    .cancelling _ t (Prod.ext hran rfl) ht hopen hheld

end NyanyaAgent.Safety
