import NyanyaAgent.Lifecycle.Operations

/-!
# The changes of the plan commands

Each command of `reviewed_changes` on the ledger as a sequence of elementary
changes.
-/
namespace NyanyaAgent.Lifecycle
open NyanyaAgent.Schema NyanyaAgent.Relational NyanyaAgent.Operations NyanyaAgent.Conversation
open NyanyaAgent.Drafts NyanyaAgent.Plans

variable {env : Environment} {lawful : Prop} {l l' : Ledger}

/-- The scope of a draft is only read. -/
theorem scopeConn_same {draft : OperationDraft} {owner workspace : String} {key : ScopeKey}
    {current : Bool} {u : Unit} (h : Tx.Ran (scopeConn env draft owner workspace key current) l u l') :
    l' = l := by
  unfold scopeConn at h
  rw [Tx.ran_require_bind] at h
  obtain ⟨_, h⟩ := h
  split at h
  · exact (Tx.ran_pure.mp h).2
  · simp only [Tx.ran_select_bind, Tx.ran_demand_bind, Tx.ran_require_bind] at h
    obtain ⟨_, _, _, h⟩ := h
    split at h
    · simp only [Tx.ran_select_bind, Tx.ran_require] at h
      exact h.2
    · exact (Tx.ran_require.mp h).2

/-- The kinds of changes a link consists of. -/
def linkKinds : List Kind := [.aside, .revoke, .settleReview, .linkDraft]

theorem supersede_chain {previous : ChangePlan} {k : TaskId} {now : Time}
    (hrow : l.plans.get? previous.id = some previous)
    (hs : previous.status = .pending ∨ previous.taskId = k ∧ previous.status = .revoked)
    (hr : previous.taskId = k ∨ ¬ UnresolvedEffects l previous.taskId) :
    Chain env lawful linkKinds l (supersede previous k now l) := by
  have hrevoke : Step env lawful .revoke l
      (l.updatePlan previous.id fun p => { p with status := .revoked }) :=
    .revoke (fun r => r.decidedBy) hrow (by tauto)
  have hstart : Chain env lawful linkKinds l (rejectReviews previous.taskId now
      (l.updatePlan previous.id fun p => { p with status := .revoked })) :=
    (Chain.of_step hrevoke (by simp [linkKinds])).snoc (.aside (.approvals _ _))
      (by simp [linkKinds])
  unfold supersede
  dsimp only
  split_ifs with hk
  · exact hstart
  · refine hstart.snoc (.settleReview ?_) (by simp [linkKinds])
    have hsame : SameEffects l (l.updatePlan previous.id fun p => { p with status := .revoked }) := by
      refine .updatePlan _ _ _ _ (fun _ => rfl) fun r hr => ?_
      rw [hrow] at hr
      cases hr
      rcases hs with hs | ⟨_, hs⟩ <;> simp [hs, planEffect]
    have hsame' : SameEffects (l.updatePlan previous.id fun p => { p with status := .revoked })
        (rejectReviews previous.taskId now
          (l.updatePlan previous.id fun p => { p with status := .revoked })) :=
      .of_eq rfl rfl rfl (fun _ _ => .rfl) rfl
    rw [(hsame.trans hsame').unresolvedEffects]
    exact hr.resolve_left hk

/-- What a superseded plan leaves of the rows a link reads. -/
theorem supersede_rows (previous : ChangePlan) (k : TaskId) (now : Time) (l : Ledger) :
    (supersede previous k now l).drafts = l.drafts ∧
      (supersede previous k now l).operations = l.operations ∧
      (supersede previous k now l).plans =
        (l.updatePlan previous.id fun p => { p with status := .revoked }).plans := by
  unfold supersede
  dsimp only
  split_ifs <;> exact ⟨rfl, rfl, rfl⟩

theorem linkPlanConn_chain {draft : OperationDraft} {k : TaskId} {planId : Option PlanId}
    {record : ClaimRecord} {now : Time} {u : Unit}
    (hplan : ∀ p, planId = some p → ∃ q, l.plans.get? p = some q ∧ q.taskId = k)
    (h : Tx.Ran (linkPlanConn env draft k planId record now) l u l') :
    Chain env lawful linkKinds l l' := by
  unfold linkPlanConn at h
  simp only [Tx.ran_select_bind, Tx.ran_demand_bind, Tx.ran_require_bind] at h
  obtain ⟨o, howned, ⟨hk, hkind, _, hdraft⟩, row, hrow, h⟩ := h
  simp only [Option.filter_eq_some_iff, decide_eq_true_eq] at hrow
  obtain ⟨hfound, hready, hrevision⟩ := hrow
  rw [Tx.ran_bind] at h
  obtain ⟨_, l₁, hscope, h⟩ := h
  rw [scopeConn_same hscope] at h
  have hop : l.operations.get? k = some o := hk ▸ (ownedOperation_eq_some.mp howned).operation
  split at h
  · next hnone =>
    rw [Tx.ran_write] at h
    rw [h]
    exact .of_step (.linkDraft ⟨hfound, hready, hrevision, fun p hp => by simp [hnone] at hp, hplan,
      ⟨o, hop, hkind, hdraft⟩⟩) (by simp [linkKinds])
  · next p hp =>
    simp only [Tx.ran_select_bind, Tx.ran_demand_bind, Tx.ran_require_bind, Tx.ran_write_bind,
      Tx.ran_write] at h
    obtain ⟨previous, hprevious, hstatus, hresolved, rfl⟩ := h
    have hid : previous.id = p := Table.key_of_get? hprevious
    have hprevious' : l.plans.get? previous.id = some previous := hid.symm ▸ hprevious
    obtain ⟨hdrafts, hops, hplans⟩ := supersede_rows previous k now l
    have hsupersede : Chain env lawful linkKinds l (supersede previous k now l) :=
      supersede_chain hprevious' hstatus (hresolved.imp_right of_decide_eq_false)
    refine hsupersede.snoc (.linkDraft (?_ : Links _ draft row k planId)) (by simp [linkKinds])
    refine ⟨hdrafts ▸ hfound, hready, hrevision, ?_, ?_, ⟨o, hops ▸ hop, hkind, hdraft⟩⟩
    · intro q hq
      rw [hp] at hq
      cases hq
      rw [hplans]
      simp [Ledger.updatePlan, hprevious, hid]
    · intro q hq
      obtain ⟨r, hr, hrk⟩ := hplan q hq
      rw [hplans]
      simp only [Ledger.updatePlan, Table.get?_update, hr, Option.map_some]
      refine ⟨_, rfl, ?_⟩
      split_ifs <;> exact hrk

theorem linkNoPlan_chain {draft : OperationDraft} {record : ClaimRecord} {now : Time} {u : Unit}
    (h : Tx.Ran (linkNoPlan env draft record now) l u l') : Chain env lawful linkKinds l l' :=
  linkPlanConn_chain (fun _ hp => by cases hp) h

/-- What the caller of `propose` promises about the task. -/
structure PlanPromise (l : Ledger) (k : TaskId) : Prop where
  request : ∀ o, l.operations.get? k = some o → o.spec.kind = .request
  paths : ∀ d r, l.drafts.get? d = some r → r.sourceTaskId = k → r.paths = []

/-- The promise behind a proposal: with a draft, only once the draft accepts the task. -/
def ProposalPromise (l : Ledger) (k : TaskId) : Option (OperationDraft × ClaimRecord) → Prop
  | none => PlanPromise l k
  | some (draft, _) => Feedback l draft k → PlanPromise l k

theorem linkPlanConn_feedback {draft : OperationDraft} {k : TaskId} {planId : Option PlanId}
    {record : ClaimRecord} {now : Time} {u : Unit}
    (h : Tx.Ran (linkPlanConn env draft k planId record now) l u l') : Feedback l draft k := by
  unfold linkPlanConn at h
  simp only [Tx.ran_select_bind, Tx.ran_demand_bind, Tx.ran_require_bind] at h
  obtain ⟨o, howned, ⟨hk, hkind, _, hdraft⟩, _⟩ := h
  exact ⟨o, hk ▸ (ownedOperation_eq_some.mp howned).operation, hkind, hdraft⟩

/-- The kinds of changes a proposal consists of. -/
def proposeKinds : List Kind := .revokeOpen :: .newPlan :: linkKinds

theorem recordPlan_chain {k : TaskId} {owner root : String} {changes : List PlannedChange}
    {draft : Option (OperationDraft × ClaimRecord)} {p : PlanId} {now : Time} {u : Unit}
    (hp : lawful → ProposalPromise l k draft)
    (h : Tx.Ran (recordPlan env k owner root changes draft p now) l u l') :
    Chain env lawful proposeKinds l l' := by
  unfold recordPlan insertPlan at h
  simp only [Tx.ran_select_bind, Tx.ran_demand_bind, Tx.ran_write_bind, Tx.ran_attempt_bind,
    Option.map_eq_some_iff, Option.filter_eq_some_iff] at h
  obtain ⟨t, ⟨ht, _⟩, _, ⟨plans, hins, rfl⟩, h⟩ := h
  have hpromise : lawful → PlanPromise l k := by
    intro hl
    have hproposal := hp hl
    cases draft with
    | none => exact hproposal
    | some context =>
      rw [Tx.ran_bind] at h
      obtain ⟨_, l₁, hlink, _⟩ := h
      have hfeedback : Feedback { revokeOpenPlans k l with plans } context.1 k :=
        linkPlanConn_feedback hlink
      exact hproposal hfeedback
  have hstart : Chain env lawful proposeKinds l { revokeOpenPlans k l with plans } := by
    refine (Chain.of_step .revokeOpen (by simp [proposeKinds])).snoc
      (.newPlan hins ?_ ht ?_) (by simp [proposeKinds])
    · dsimp only
      split_ifs
      · exact .inr rfl
      · exact .inl rfl
    · exact fun hl => ⟨(hpromise hl).request, (hpromise hl).paths⟩
  refine hstart.trans ?_
  split at h
  · rw [Tx.ran_write] at h
    rw [h]
    exact .of_step (.aside (.appendEvent _ _ (by simp))) (by simp [proposeKinds, linkKinds])
  · next d record =>
    rw [Tx.ran_bind] at h
    obtain ⟨_, l₁, hlink, h⟩ := h
    rw [Tx.ran_write] at h
    rw [h]
    refine ((linkPlanConn_chain ?_ hlink).mono (by simp [proposeKinds])).snoc
      (.aside (.appendEvent _ _ (by simp))) (by simp [proposeKinds, linkKinds])
    intro q hq
    cases hq
    exact ⟨_, by rw [Table.get?_insert hins, if_pos rfl], rfl⟩

theorem prepareChanges_same {t : Workspace} {draft : Option OperationDraft} {directory : Path}
    {baseline : List (Path × SnapshotItem)} {items : List ProposedChange} {seen : List Path}
    {total : ℕ} {changes : List PlannedChange}
    (h : Tx.Ran (prepareChanges env t draft directory baseline items seen total) l changes l') :
    l' = l := by
  induction items generalizing seen total changes l l' with
  | nil => exact (Tx.ran_pure.mp h).2
  | cons item rest ih =>
    unfold prepareChanges at h
    rw [Tx.ran_bind] at h
    obtain ⟨change, l₁, hc, h⟩ := h
    rw [Tx.ran_require_bind, Tx.ran_bind] at h
    obtain ⟨_, more, l₂, hm, h⟩ := h
    unfold prepareChange at hc
    simp only [Tx.ran_lift_bind, Tx.ran_require_bind, Tx.ran_pure] at hc
    obtain ⟨_, _, _, _, _, _, _, _, _, _, rfl⟩ := hc
    exact (Tx.ran_pure.mp h).2.trans (ih hm)

theorem propose_chain {reg : Registry} {tree : String → Workspace} {k : TaskId}
    {owner root : String} {changes : List ProposedChange} {baseline : List (Path × SnapshotItem)}
    {taskKind stamp : String} {draft : Option (OperationDraft × ClaimRecord)} {p : PlanId}
    {now : Time} {u : Unit} (hp : lawful → ProposalPromise l k draft)
    (h : Tx.Ran (propose env reg tree k owner root changes baseline taskKind stamp draft p now)
      l u l') : Chain env lawful proposeKinds l l' := by
  unfold propose at h
  simp only [Tx.ran_lift_bind, Tx.ran_require_bind] at h
  obtain ⟨_, _, _, _, h⟩ := h
  rw [Tx.ran_bind] at h
  obtain ⟨prepared, l₁, hprep, h⟩ := h
  rw [prepareChanges_same hprep] at h
  exact recordPlan_chain hp h

theorem settleClosedPlan_other {k j : TaskId} {owner : String} {reason : CloseReason} {now : Time}
    {t : AgentTask} (ht : l.tasks.get? k = some t) (hs : t.status.Terminal) (h : j ≠ k) :
    (settleClosedPlan k owner reason now l).tasks.get? j = l.tasks.get? j := by
  unfold settleClosedPlan
  split_ifs
  · rfl
  · have ht' : (closeApprovals k owner reason now l).tasks.get? k = some t := ht
    simp only [ht', hs, if_true]
    split_ifs
    · rfl
    · have hr : ∀ r, l.tasks.get? j = some r → ¬ r.id = k :=
        fun r hr => Table.key_of_get? hr ▸ h
      simp only [holdReviewEffects, closeReviewExecutions, closeApprovals, Ledger.updateTask,
        Ledger.appendEvent, Table.get?_update]
      cases hj : l.tasks.get? j with
      | none => rfl
      | some r => simp [hr r hj]
    · rfl

theorem settleClosedPlan_plans (k : TaskId) (owner : String) (reason : CloseReason) (now : Time)
    (l : Ledger) : (settleClosedPlan k owner reason now l).plans = l.plans := by
  unfold settleClosedPlan
  split_ifs
  · rfl
  · dsimp only
    split
    · rfl
    · split_ifs
      · rfl
      · rfl
      · rfl
      · exact stopChildren_plans ..

/-- The kinds of changes the settlement of a closed plan consists of. -/
def settleKinds : List Kind := [.aside, .stopQueued, .stopRunning, .closeReview, .settle]

/-- The changes before the settlement itself. -/
def sweepKinds : List Kind := [.aside, .stopQueued, .stopRunning, .closeReview]

/-- A closed plan either leaves its task to its worker or its end, or settles it: all plans of
the task are closed then, and its claim is not live. -/
theorem settleClosedPlan_cases {k : TaskId} {owner : String} {reason : CloseReason} {now : Time}
    (h : (∃ plan, l.plans.get? plan.id = some plan ∧ plan.taskId = k) ∨
      ∃ t, l.tasks.get? k = some t ∧ t.status.Terminal) :
    Chain env lawful sweepKinds l (settleClosedPlan k owner reason now l) ∨
      ∃ l₁, Chain env lawful sweepKinds l l₁ ∧ l₁.claims = l.claims ∧ l₁.plans = l.plans ∧
        ¬ OpenPlan l k ∧ ¬ HeldClaim l k now ∧
        (∃ plan, l.plans.get? plan.id = some plan ∧ plan.taskId = k) ∧
        (∃ t, l.tasks.get? k = some t ∧ ¬ t.status.Terminal) ∧
        settleClosedPlan k owner reason now l =
          settleTask k reason (decide (UnresolvedEffects l₁ k)) now
            (closeReviewExecutions k reason (decide (UnresolvedEffects l₁ k)) now l₁) := by
  unfold settleClosedPlan
  split_ifs with hopen
  · exact .inl .refl
  have hclose : Chain env lawful sweepKinds l (closeApprovals k owner reason now l) :=
    .of_step (.aside (.approvals l _)) (by simp [sweepKinds])
  dsimp only
  split
  · exact .inl hclose
  · next parent hparent =>
    have hreview (ht : parent.status.Terminal) : Step env lawful .closeReview
        (closeApprovals k owner reason now l)
        (if UnresolvedEffects (closeApprovals k owner reason now l) k then
          holdReviewEffects k now (closeReviewExecutions k reason
            (decide (UnresolvedEffects (closeApprovals k owner reason now l) k)) now
            (closeApprovals k owner reason now l))
        else closeReviewExecutions k reason
          (decide (UnresolvedEffects (closeApprovals k owner reason now l) k)) now
          (closeApprovals k owner reason now l)) := .closeReview hparent ht hopen
    split_ifs with hheld hterminal hu
    · exact .inl hclose
    · have hstep := hreview hterminal
      rw [if_pos (of_decide_eq_true hu)] at hstep
      exact .inl (hclose.snoc hstep (by simp [sweepKinds]))
    · have hstep := hreview hterminal
      rw [if_neg (fun h => hu (decide_eq_true h))] at hstep
      exact .inl (hclose.snoc hstep (by simp [sweepKinds]))
    · rcases h with ⟨plan, hrow, hk⟩ | ⟨t, ht, hs⟩
      · have hsweep : Chain env lawful sweepKinds (closeApprovals k owner reason now l)
            ((children (closeApprovals k owner reason now l) k fun _ => True).foldl
              (stopChild s!"plan_{reason.text}" now) (closeApprovals k owner reason now l)) :=
          Chain.mono (stopChildren_chain hrow hk) (by simp [sweepKinds])
        exact .inr ⟨_, hclose.trans hsweep, stopChildren_claims .., stopChildren_plans .., hopen,
          hheld, ⟨plan, hrow, hk⟩, ⟨parent, hparent, hterminal⟩, rfl⟩
      · have ht' : (closeApprovals k owner reason now l).tasks.get? k = some t := ht
        rw [hparent] at ht'
        cases ht'
        exact absurd hs hterminal

theorem settleClosedPlan_chain {k : TaskId} {owner : String} {reason : CloseReason} {now : Time}
    (h : (∃ plan, l.plans.get? plan.id = some plan ∧ plan.taskId = k) ∨
      ∃ t, l.tasks.get? k = some t ∧ t.status.Terminal) :
    Chain env lawful settleKinds l (settleClosedPlan k owner reason now l) := by
  have hsub : sweepKinds ⊆ settleKinds := by simp [sweepKinds, settleKinds]
  rcases settleClosedPlan_cases h with
    hchain | ⟨l₁, hchain, hclaims, hplans, hopen, hheld, hplan, _, heq⟩
  · exact hchain.mono hsub
  · rw [heq]
    obtain ⟨plan, hrow, hk⟩ := hplan
    refine (hchain.mono hsub).snoc (.settle ?_ ?_ ?_ hk) (by simp [settleKinds] : Kind.settle ∈ settleKinds)
    · unfold OpenPlan
      rw [hplans]
      exact hopen
    · unfold HeldClaim at hheld ⊢
      rwa [hclaims]
    · rwa [hplans]

/-- What the expiry loop knows of the plans it has not reached. -/
def Expirable (l : Ledger) (plan : ChangePlan) : Prop :=
  l.plans.get? plan.id = some plan ∧ (plan.status = .pending ∨ plan.status = .approved)

theorem mem_expiredPlans {entry : Time} {plan : ChangePlan} : plan ∈ expiredPlans l entry ↔
    Expirable l plan ∧ plan.expiresAt ≤ entry := by
  simp [expiredPlans, Expirable, Table.mem_rows_iff, and_assoc]

theorem expirePlan_chain {plan : ChangePlan} {now : Time} (h : Expirable l plan) :
    Chain env lawful (.expire :: settleKinds) l (expirePlan now l plan) := by
  have hstart : Chain env lawful (.expire :: settleKinds) l
      (l.updatePlan plan.id fun p => { p with status := .expired }) :=
    .of_step (.expire h.1 h.2) (by simp)
  unfold expirePlan
  refine (hstart.trans ((settleClosedPlan_chain (.inl ?_)).mono (by simp))).snoc
    (.aside (.appendEvent _ _ (by simp))) (by simp [settleKinds])
  refine ⟨{ plan with status := .expired }, ?_, rfl⟩
  simp [Ledger.updatePlan, h.1]

/-- A task at its end is not settled again. -/
theorem settleClosedPlan_sweep {k : TaskId} {owner : String} {reason : CloseReason} {now : Time}
    (h : ∃ t, l.tasks.get? k = some t ∧ t.status.Terminal) :
    Chain env lawful sweepKinds l (settleClosedPlan k owner reason now l) := by
  rcases settleClosedPlan_cases (.inr h) with hchain | ⟨_, _, _, _, _, _, _, ⟨t, ht, hs⟩, _⟩
  · exact hchain
  · obtain ⟨t', ht', hterminal⟩ := h
    rw [ht] at ht'
    cases ht'
    exact absurd hterminal hs

theorem staleReviews_chain {now : Time} {rows : List TaskId} (hd : rows.Pairwise (· ≠ ·))
    (h : ∀ k ∈ rows, ∃ t, l.tasks.get? k = some t ∧ t.status.Terminal) :
    Chain env lawful sweepKinds l
      (rows.foldl (fun l k => settleClosedPlan k "system" .closed now l) l) := by
  refine Chain.foldl (G := fun l k => ∃ t, l.tasks.get? k = some t ∧ t.status.Terminal)
    (fun l k hk => settleClosedPlan_sweep hk) ?_ hd h
  rintro l k j hne ⟨t, ht, hs⟩ ⟨r, hr, hrs⟩
  exact ⟨r, (settleClosedPlan_other ht hs (Ne.symm hne)).trans hr, hrs⟩

theorem staleReviews_pairwise (l : Ledger) : (staleReviews l).Pairwise (· ≠ ·) := by
  rw [← List.nodup_iff_pairwise_ne]
  exact l.tasks.nodup.sublist (List.filter_sublist.map _)

theorem mem_staleReviews {k : TaskId} (h : k ∈ staleReviews l) :
    ∃ t, l.tasks.get? k = some t ∧ t.status.Terminal := by
  unfold staleReviews at h
  simp only [List.mem_map, List.mem_filter, decide_eq_true_eq] at h
  obtain ⟨t, ⟨hmem, hs, _⟩, rfl⟩ := h
  exact ⟨t, Table.mem_rows_iff.mp hmem, hs⟩

theorem settleExpired_chain (entry now : Time) (l : Ledger) :
    Chain env lawful (.expire :: settleKinds) l (settleExpired entry now l) := by
  unfold settleExpired
  have hloop : Chain env lawful (.expire :: settleKinds) l
      ((expiredPlans l entry).foldl (expirePlan now) l) := by
    refine Chain.foldl (G := Expirable) (D := fun a b => a.id ≠ b.id)
      (fun _ _ => expirePlan_chain) ?_ ?_ fun plan hp => (mem_expiredPlans.mp hp).1
    · rintro l p q hne _ ⟨hrow, hs⟩
      refine ⟨?_, hs⟩
      have hplans : (expirePlan now l p).plans =
          (l.updatePlan p.id fun r => { r with status := .expired }).plans :=
        settleClosedPlan_plans ..
      rw [hplans]
      simp [Ledger.updatePlan, hrow, Ne.symm hne]
    · have h := l.plans.nodup
      rw [List.nodup_iff_pairwise_ne, List.pairwise_map] at h
      exact h.sublist List.filter_sublist
  exact hloop.trans ((staleReviews_chain (staleReviews_pairwise _)
    fun k hk => mem_staleReviews hk).mono (by simp [sweepKinds, settleKinds]))

/-- What `decide_conn` has checked before it writes. -/
theorem decideConn_checks {p : PlanId} {owner : String} {hash : Hash} {revoke : Bool} {now : Time}
    {u : Unit} (h : Tx.Ran (decideConn p owner hash revoke now) l u l') :
    ∃ plan, l.plans.get? p = some plan ∧ plan.ownerKey = owner ∧
      (plan.status = .pending ∨ plan.status = .approved) ∧
      (revoke = false → LatestDraftPlan l p ∧ ApprovableParent l plan.taskId ∧
        now < plan.expiresAt ∧ plan.planHash = hash) ∧
      l' = ((if revoke = true then settleClosedPlan plan.taskId owner .revoked now else
        approveReviews plan.taskId owner now) (decidePlan p owner revoke l)).appendEvent
          { taskId := plan.taskId, eventType := if revoke then .planRevoked else .planApproved
            metadata := .plan p } := by
  unfold decideConn at h
  simp only [Tx.ran_select_bind, Tx.ran_demand_bind, Tx.ran_require_bind, decide_eq_true_eq,
    Option.filter_eq_some_iff, ownedPlan_eq_some] at h
  obtain ⟨hlatest, plan, ⟨⟨hrow, howner⟩, hs⟩, happrovable, hhash, h⟩ := h
  rw [Tx.ran_write_bind] at h
  refine ⟨plan, hrow, howner, hs, ?_, ?_⟩
  · rintro rfl
    exact ⟨by simpa using hlatest, by simpa using happrovable, by simpa using hhash⟩
  · cases revoke <;> simpa using h

theorem decideConn_chain {p : PlanId} {owner : String} {hash : Hash} {revoke : Bool} {now : Time}
    {u : Unit} (h : Tx.Ran (decideConn p owner hash revoke now) l u l') :
    Chain env lawful (if revoke = true then .revoke :: settleKinds else [.aside, .approve]) l l' := by
  obtain ⟨plan, hrow, _, hs, hcheck, rfl⟩ := decideConn_checks h
  cases revoke with
  | true =>
    have hstart : Chain env lawful (.revoke :: settleKinds) l
        (l.updatePlan p fun r => { r with status := .revoked, decidedBy := owner }) :=
      .of_step (.revoke (fun _ => owner) hrow (hs.imp_right .inl)) (by simp)
    refine (hstart.trans ((settleClosedPlan_chain (.inl ?_)).mono (by simp))).snoc
      (.aside (.appendEvent _ _ (by simp))) (by simp [settleKinds])
    have hp := Table.key_of_get? hrow
    refine ⟨{ plan with status := .revoked, decidedBy := owner }, ?_, rfl⟩
    simp [Ledger.updatePlan, hp, hrow]
  | false =>
    obtain ⟨hlatest, hparent, hexp, _⟩ := hcheck rfl
    exact ((Chain.of_step (.approve hrow hs hlatest hparent hexp) (by simp)).snoc
      (.aside (.approvals _ _)) (by simp)).snoc (.aside (.appendEvent _ _ (by simp))) (by simp)

/-- The kinds of changes an approval consists of. -/
def approveKinds : List Kind := [.aside, .approve, .retire, .enter, .bind]

theorem approveAndSubmitApply_chain {reg : Registry} {p : PlanId} {owner : String} {hash : Hash}
    {generation : WorkerId} {fresh : TaskId} {session : SessionId} {now : Time}
    {answer : AgentTask × Bool} (hp : lawful → l.tasks.get? fresh = none)
    (h : Tx.Ran (approveAndSubmitApply env reg p owner hash generation fresh session now)
      l answer l') : Chain env lawful approveKinds l l' := by
  unfold approveAndSubmitApply at h
  simp only [Tx.ran_select_bind, Tx.ran_demand_bind, Tx.ran_lift_bind] at h
  obtain ⟨plan, _, root, _, existing, _, h⟩ := h
  cases existing with
  | some task =>
    rw [(Tx.ran_pure.mp h).2]
    exact .refl
  | none =>
    dsimp only at h
    rw [Tx.ran_bind] at h
    obtain ⟨_, l₁, hdecide, h⟩ := h
    rw [Tx.ran_bind] at h
    obtain ⟨task, l₂, hsubmit, h⟩ := h
    rw [(Tx.ran_pure.mp h).2]
    have htasks : l₁.tasks = l.tasks := by
      obtain ⟨_, _, _, _, _, rfl⟩ := decideConn_checks hdecide
      rfl
    refine ((decideConn_chain hdecide).mono (by simp [approveKinds])).trans
      ((submitConn_chain (fun hl => ⟨?_, fun _ => rfl, fun hk => ?_⟩) hsubmit).mono
        (by simp [approveKinds]))
    · rw [htasks]
      exact hp hl
    · cases hk

theorem reconcile_chain {reg : Registry} {tree : String → Workspace} {p : PlanId} {owner : String}
    {evidence : List FileEvidence} (h : Tx.Ran (reconcile env reg tree p owner) l evidence l') :
    Chain env lawful [.aside] l l' := by
  unfold reconcile openPlanCommand at h
  rw [Tx.ran_bind] at h
  obtain ⟨⟨plan, root⟩, l₁, hopen, h⟩ := h
  simp only [Tx.ran_select_bind, Tx.ran_demand_bind, Tx.ran_lift_bind, Tx.ran_pure] at hopen
  obtain ⟨_, _, _, _, hpair, rfl⟩ := hopen
  simp only [Tx.ran_lift_bind, Tx.ran_write_bind, Tx.ran_pure] at h
  obtain ⟨_, _, _, rfl⟩ := h
  exact .of_step (.aside (.appendEvent _ _ (by simp))) (by simp)

theorem mem_applyTasks {p : PlanId} {t : AgentTask} {o : TaskOperation} :
    (t, o) ∈ applyTasks l p ↔ l.operations.get? t.id = some o ∧ l.tasks.get? t.id = some t ∧
      o.spec.kind = .apply ∧ o.spec.planId = some p := by
  unfold applyTasks
  rw [List.mem_filterMap]
  constructor
  · rintro ⟨o', ho, h⟩
    split_ifs at h with hc
    obtain ⟨t', ht, h⟩ := Option.map_eq_some_iff.mp h
    cases h
    have hk : t.id = o.taskId := Table.key_of_get? ht
    exact ⟨hk ▸ Table.mem_rows_iff.mp ho, hk.symm ▸ ht, hc⟩
  · rintro ⟨ho, ht, hc⟩
    have hk := Table.key_of_get? ho
    refine ⟨o, (Table.get?_eq_some.mp ho).1, ?_⟩
    rw [if_pos hc, hk, ht, Option.map_some]

theorem applyTasks_pairwise (l : Ledger) (p : PlanId) :
    (applyTasks l p).Pairwise fun a b => a.1.id ≠ b.1.id := by
  unfold applyTasks
  rw [List.pairwise_filterMap]
  have h := l.operations.nodup
  rw [List.nodup_iff_pairwise_ne, List.pairwise_map] at h
  refine h.imp fun {o o'} hne a ha b hb => ?_
  have key : ∀ o : TaskOperation, ∀ a : AgentTask × TaskOperation,
      (if o.spec.kind = .apply ∧ o.spec.planId = some p then
        (l.tasks.get? o.taskId).map fun t => (t, o) else none) = some a → a.1.id = o.taskId := by
    intro o a ha
    split_ifs at ha
    obtain ⟨t, ht, rfl⟩ := Option.map_eq_some_iff.mp ha
    exact Table.key_of_get? ht
  rw [key o a ha, key o' b hb]
  exact hne

theorem relatedTasks_pairwise (l : Ledger) (p : PlanId) : (relatedTasks l p).Pairwise (· ≠ ·) := by
  unfold relatedTasks
  rw [List.pairwise_map]
  exact (applyTasks_pairwise l p).sublist List.filter_sublist

/-- What `resolve` knows of the held apply tasks it has not reached. -/
structure Related (lawful : Prop) (p : PlanId) (l : Ledger) (k : TaskId) : Prop where
  operation : ∃ o, l.operations.get? k = some o ∧ o.spec.kind = .apply ∧ o.spec.planId = some p
  task : lawful → ∃ t, l.tasks.get? k = some t ∧ (t.status = .blocked ∨ t.status = .failed)
  plan : ∃ plan, l.plans.get? p = some plan ∧ (plan.status = .applied ∨ plan.status = .reconciled)

theorem mem_relatedTasks {p : PlanId} {k : TaskId} (h : k ∈ relatedTasks l p) : ∃ t o,
    l.operations.get? k = some o ∧ l.tasks.get? k = some t ∧ o.spec.kind = .apply ∧
      o.spec.planId = some p ∧ (t.status = .blocked ∨ t.status = .failed) := by
  unfold relatedTasks at h
  simp only [List.mem_map, List.mem_filter, decide_eq_true_eq] at h
  obtain ⟨⟨t, o⟩, ⟨hmem, hs⟩, rfl⟩ := h
  obtain ⟨ho, ht, hkind, hplan⟩ := mem_applyTasks.mp hmem
  exact ⟨t, o, ho, ht, hkind, hplan, hs⟩

theorem resolveChildren_chain {p : PlanId} {complete : Bool} {now : Time} {rows : List TaskId}
    (hd : rows.Pairwise (· ≠ ·)) (h : ∀ k ∈ rows, Related lawful p l k) :
    Chain env lawful [.resolveChild] l (rows.foldl (resolveChild p complete now) l) := by
  refine Chain.foldl (G := Related lawful p) ?_ ?_ hd h
  · rintro l k ⟨⟨o, ho, hkind, hplan⟩, ht, plan, hrow, hs⟩
    exact .of_step (.resolveChild ho hkind hplan ht hrow hs) (by simp)
  · rintro l k j hne _ ⟨ho, ht, hp⟩
    refine ⟨ho, fun hl => ?_, hp⟩
    obtain ⟨t, ht, hs⟩ := ht hl
    have hj := Table.key_of_get? ht
    exact ⟨t, by simp [resolveChild, Ledger.updateTask, Ledger.appendEvent, ht, hj, Ne.symm hne], hs⟩

/-- The kinds of changes a resolution consists of. -/
def resolveKinds : List Kind := [.acknowledge, .dropDraft, .resolveParent, .resolveChild]

/-- A resolution acknowledges its plan, then settles the plan's task and its held apply tasks. -/
theorem resolveConn_cases {plan : ChangePlan} {evidence : List FileEvidence} {now : Time} {u : Unit}
    (hrequest : lawful → ∀ o, l.operations.get? plan.taskId = some o → o.spec.kind = .request)
    (hplan : l.plans.get? plan.id = some plan) (h : Tx.Ran (resolveConn plan evidence now) l u l') :
    ∃ l₂ complete unresolved, Chain env lawful [.acknowledge, .dropDraft] l l₂ ∧
      Step env lawful .resolveParent l₂ (resolveParent plan.taskId complete unresolved now l₂) ∧
      Chain env lawful [.resolveChild] (resolveParent plan.taskId complete unresolved now l₂) l' := by
  unfold resolveConn at h
  simp only [Tx.ran_select_bind, Tx.ran_demand_bind, Tx.ran_require_bind, Tx.ran_write_bind,
    Tx.ran_write, decide_eq_true_eq] at h
  obtain ⟨row, hrow, _, hresolvable, rfl⟩ := h
  rw [hplan] at hrow
  cases hrow
  generalize (evidence.all fun e => decide (e.observed = .after)) = complete
  set l₁ := acknowledgePlan plan evidence complete l with hl₁
  have hsettled : ∃ r, l₁.plans.get? plan.id = some r ∧ r.taskId = plan.taskId ∧
      (r.status = .applied ∨ r.status = .reconciled) := by
    refine ⟨{ plan with status := if complete then .applied else .reconciled }, ?_, rfl, ?_⟩
    · simp [hl₁, acknowledgePlan, Ledger.updatePlan, Ledger.appendEvent, hplan]
    · cases complete <;> simp
  obtain ⟨r, hr, hrk, hrs⟩ := hsettled
  have hid : r.id = plan.id := Table.key_of_get? hr
  have hack : Chain env lawful [.acknowledge, .dropDraft] l l₁ :=
    .of_step (.acknowledge hplan rfl hresolvable) (by simp)
  set l₂ := if UnresolvedEffects l₁ plan.taskId then l₁ else
    closeResolvedDraft plan.id complete now l₁ with hl₂
  have hdrop : Chain env lawful [.acknowledge, .dropDraft] l₁ l₂ := by
    rw [hl₂]
    split_ifs
    · exact .refl
    · exact .of_step (.dropDraft hr hrs) (by simp)
  have hsame : SameEffects l₁ l₂ := by
    rw [hl₂]
    split_ifs
    · exact .refl _
    · exact .of_eq rfl rfl rfl (fun _ _ => .rfl) rfl
  have hr₂ : l₂.plans.get? plan.id = some r := by
    rw [hl₂]
    split_ifs <;> exact hr
  have hparent : Step env lawful .resolveParent l₂ (resolveParent plan.taskId complete
      (decide (UnresolvedEffects l₁ plan.taskId)) now l₂) := by
    rw [← decide_eq_decide.mpr (hsame.unresolvedEffects (k := plan.taskId) (b := true))]
    exact .resolveParent (hid.symm ▸ hr₂) hrk hrs
  refine ⟨l₂, complete, _, hack.trans hdrop, hparent,
    resolveChildren_chain (relatedTasks_pairwise l plan.id) fun k hk => ?_⟩
  obtain ⟨t, o, ho, ht, hkind, hpid, hts⟩ := mem_relatedTasks hk
  have hops : l₂.operations = l.operations := by
    rw [hl₂]
    split_ifs <;> rfl
  have htasks : l₂.tasks = l.tasks := by
    rw [hl₂]
    split_ifs <;> rfl
  refine ⟨?_, fun hl => ?_, r, hr₂, hrs⟩
  · simp only [resolveParent, Ledger.updateTask, Ledger.updateOperation, Table.get?_update, hops, ho,
      Option.map_some]
    refine ⟨_, rfl, ?_⟩
    split_ifs <;> exact ⟨hkind, hpid⟩
  · have hne : k ≠ plan.taskId := by
      rintro rfl
      rw [hrequest hl o ho] at hkind
      cases hkind
    have hk := Table.key_of_get? ht
    exact ⟨t, by simp [resolveParent, Ledger.updateTask, Ledger.updateOperation, htasks, ht, hk, hne],
      hts⟩

theorem resolveConn_chain {plan : ChangePlan} {evidence : List FileEvidence} {now : Time} {u : Unit}
    (hrequest : lawful → ∀ o, l.operations.get? plan.taskId = some o → o.spec.kind = .request)
    (hplan : l.plans.get? plan.id = some plan) (h : Tx.Ran (resolveConn plan evidence now) l u l') :
    Chain env lawful resolveKinds l l' := by
  obtain ⟨l₂, _, _, hack, hparent, hchildren⟩ := resolveConn_cases hrequest hplan h
  exact ((hack.mono (by simp [resolveKinds])).snoc hparent (by simp [resolveKinds])).trans
    (hchildren.mono (by simp [resolveKinds]))

theorem resolve_chain {reg : Registry} {tree : String → Workspace} {p : PlanId} {owner : String}
    {hash : Hash} {now : Time} {u : Unit}
    (hrequest : lawful → ∀ r, l.plans.get? p = some r → ∀ o, l.operations.get? r.taskId = some o →
      o.spec.kind = .request)
    (h : Tx.Ran (resolve env reg tree p owner hash now) l u l') :
    Chain env lawful resolveKinds l l' := by
  unfold resolve openPlanCommand at h
  rw [Tx.ran_bind] at h
  obtain ⟨⟨plan, root⟩, l₁, hopen, h⟩ := h
  simp only [Tx.ran_select_bind, Tx.ran_demand_bind, Tx.ran_lift_bind, Tx.ran_pure,
    ownedPlan_eq_some] at hopen
  obtain ⟨plan', ⟨hrow, _⟩, _, _, hpair, rfl⟩ := hopen
  cases hpair
  simp only [Tx.ran_lift_bind, Tx.ran_require_bind] at h
  obtain ⟨_, _, _, h⟩ := h
  exact resolveConn_chain (fun hl => hrequest hl plan hrow)
    ((Table.key_of_get? hrow).symm ▸ hrow) h

theorem resolveChildren_plans (p : PlanId) (complete : Bool) (now : Time) (rows : List TaskId)
    (l : Ledger) : (rows.foldl (resolveChild p complete now) l).plans = l.plans := by
  induction rows generalizing l with
  | nil => rfl
  | cons k rows ih =>
    rw [List.foldl_cons, ih]
    rfl

theorem acknowledgePlan_get?_ne {plan : ChangePlan} (evidence : List FileEvidence)
    (complete : Bool) (l : Ledger) {q : PlanId} (h : q ≠ plan.id) :
    (acknowledgePlan plan evidence complete l).plans.get? q = l.plans.get? q := by
  rw [acknowledgePlan, Ledger.appendEvent_plans, Ledger.updatePlan_get?_ne]
  exact h

/-- The plan a resolution acknowledges is the one it was asked for. -/
theorem resolve_plans {reg : Registry} {tree : String → Workspace} {p : PlanId} {owner : String}
    {hash : Hash} {now : Time} {u : Unit}
    (h : Tx.Ran (resolve env reg tree p owner hash now) l u l') :
    ∀ q, q ≠ p → l'.plans.get? q = l.plans.get? q := by
  intro q hq
  unfold resolve openPlanCommand at h
  rw [Tx.ran_bind] at h
  obtain ⟨⟨plan, root⟩, l₁, hopen, h⟩ := h
  simp only [Tx.ran_select_bind, Tx.ran_demand_bind, Tx.ran_lift_bind, Tx.ran_pure,
    ownedPlan_eq_some] at hopen
  obtain ⟨plan', ⟨hrow, _⟩, _, _, hpair, rfl⟩ := hopen
  cases hpair
  unfold resolveConn at h
  simp only [Tx.ran_lift_bind, Tx.ran_require_bind, Tx.ran_select_bind, Tx.ran_demand_bind,
    Tx.ran_write_bind, Tx.ran_write] at h
  obtain ⟨evidence, _, _, _, _, _, _, rfl⟩ := h
  have hne : q ≠ plan.id := fun e => hq (e.trans (Table.key_of_get? hrow))
  rw [resolveChildren_plans]
  simp only [resolveParent, Ledger.updateOperation_plans, Ledger.updateTask_plans]
  split_ifs <;> exact acknowledgePlan_get?_ne evidence _ l₁ hne

end NyanyaAgent.Lifecycle
