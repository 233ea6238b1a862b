import NyanyaAgent.Invariants.Statuses
import NyanyaAgent.Safety.ClaimExclusion
import NyanyaAgent.Safety.ResultFence

/-!
# Worker slots are recovered

An unreleased claim stays visible to `recover` unless its task is settled under it, which
only a revocation, an expiry or a resolution of one of its plans can do once the lease
of the claim has run out.
-/
namespace NyanyaAgent.Safety
open NyanyaAgent.Schema NyanyaAgent.Relational NyanyaAgent.Operations NyanyaAgent.Plans
open NyanyaAgent.Drafts NyanyaAgent.Lifecycle NyanyaAgent.Runs NyanyaAgent.Invariants
open NyanyaAgent.System

variable {env : Environment} {κ : Kind} {l l' : Ledger} {k : TaskId} {spec : OperationSpec}

/-- No operation task that holds a claim is blocked. -/
def Visible (l : Ledger) : Prop :=
  ∀ k spec t, Holds l k spec → l.tasks.get? k = some t → t.status ≠ .blocked

/-- A held task is running or being cancelled, under its claim, and eligible. -/
theorem Visible.held (hv : Visible l) (hg : Good l) {c : TaskClaim} {o : TaskOperation}
    (hc : l.claims.get? k = some c) (hr : c.released = false) (ho : l.operations.get? k = some o) :
    ∃ t e, l.tasks.get? k = some t ∧ t.currentExecutionId = some c.executionId ∧
      l.executions.get? c.executionId = some e ∧ ¬ e.status.Terminal ∧
      (t.status = .running ∨ t.status = .cancelling) ∧ o.eligible = true := by
  obtain ⟨ha, t, ht, hx, hrest⟩ := (hg.sound k).held c o hc hr ho
  obtain ⟨e, he, _, hactive⟩ := attemptView_eq_some.mp ha
  have hholds : Holds l k o.spec := ⟨⟨_, c, hc, hr, rfl⟩, _, skeleton_operation ho⟩
  refine ⟨t, e, ht, hx, he, ?_, ?_⟩
  · intro hterminal
    generalize e.status = s at hactive hterminal
    cases s <;> simp [attemptEffect, ExecutionStatus.Terminal] at hactive hterminal
  · rcases hrest with h | ⟨hblocked, _⟩
    · exact h
    · exact absurd hblocked (hv k o.spec t hholds ht)

theorem Holds.status (h : Holds l k spec) (hg : Good l) {t : AgentTask}
    (ht : l.tasks.get? k = some t) :
    (∃ x, t.currentExecutionId = some x) ∧
      (t.status = .running ∨ t.status = .cancelling ∨ t.status = .blocked) := by
  obtain ⟨⟨_, c, hc, hr, _⟩, parent, ho⟩ := h
  obtain ⟨o, ho, _⟩ := of_skeleton_operation ho
  obtain ⟨_, t', ht', hx, hrest⟩ := (hg.sound k).held c o hc hr ho
  rw [ht] at ht'
  cases ht'
  refine ⟨⟨_, hx⟩, ?_⟩
  rcases hrest with ⟨hs | hs, _⟩ | ⟨hs, _⟩ <;> simp [hs]

/-- A change that moves a held task to `blocked` by taking its claim away. -/
theorem released_of_move (h : Step env True κ l l') (hκ : κ ∈ [Kind.conclude, .interrupt, .closeTask])
    {t t' : AgentTask} (ht : l.tasks.get? k = some t) (hx : ∃ x, t.currentExecutionId = some x)
    (ht' : l'.tasks.get? k = some t') (hne : t'.status ≠ t.status) : ¬ Unreleased l' k := by
  have hreleased : ∀ {m : Ledger}, m.claims =
      l.claims.update (fun c => c.taskId = k) (fun c => { c with released := true }) →
        ¬ Unreleased m k := by
    rintro m hm ⟨x, c, hc, hr, _⟩
    rw [hm, Table.get?_update_key, Option.map_eq_some_iff] at hc
    obtain ⟨_, _, rfl⟩ := hc
    cases hr
  cases h with
  | conclude =>
    simp only [holdOperation, concludeAttempt, Ledger.updateOperation_tasks,
      Ledger.releaseClaim_tasks] at ht'
    obtain ⟨t₀, ht₀, ⟨_, rfl⟩ | ⟨rfl, rfl⟩⟩ := updateTask_cases (l := l) ht'
    · rw [ht] at ht₀
      cases ht₀
      exact absurd rfl hne
    · exact hreleased rfl
  | @interrupt _ j t₀ _ now htask =>
    have hrow : (l.updateTask j fun t => { t with status := .blocked, updatedAt := now }).tasks.get? k
        = some t' := by
      rw [← ht', interruptTask]
      cases t₀.currentExecutionId <;> rfl
    obtain ⟨t₁, ht₁, ⟨_, rfl⟩ | ⟨rfl, rfl⟩⟩ := updateTask_cases hrow
    · rw [ht] at ht₁
      cases ht₁
      exact absurd rfl hne
    · rw [ht] at htask
      cases htask
      obtain ⟨x, hx⟩ := hx
      rw [hx]
      exact hreleased rfl
  | closeTask =>
    simp only [closeTask, Ledger.updateOperation_tasks, Ledger.releaseClaim_tasks] at ht'
    obtain ⟨t₀, ht₀, ⟨_, rfl⟩ | ⟨rfl, rfl⟩⟩ := updateTask_cases (l := l) ht'
    · rw [ht] at ht₀
      cases ht₀
      exact absurd rfl hne
    · exact hreleased rfl
  | _ => simp at hκ

/-- Every change but the two settlements keeps held tasks visible. -/
theorem Visible.kept (hv : Visible l) (hg : Good l) (h : Step env True κ l l') (hκ : κ ≠ .settle)
    (hκ' : κ ≠ .resolveParent) : Visible l' := by
  intro k spec t' hk ht' hblocked
  by_cases hbefore : Holds l k spec
  · rcases task_step trivial h ht' with ⟨t, ht, hs | hmove⟩ | ⟨_, _, hq⟩
    · exact hv k spec t hbefore ht (hs ▸ hblocked)
    · obtain ⟨hx, hstatus⟩ := Holds.status hbefore hg ht
      have hopen : t.status ≠ .blocked := hv k spec t hbefore ht
      have hmoved : t'.status ≠ t.status := hblocked ▸ hopen.symm
      have hkept : κ ∉ [Kind.conclude, .interrupt, .closeTask] :=
        fun hκ => released_of_move h hκ ht hx ht' hmoved hk.1
      generalize t.status = s at hmove hstatus hopen
      generalize t'.status = s' at hmove hblocked
      cases hmove with
      | conclude | interrupt | closeTask => simp at hkept
      | closeReview hterminal =>
        rcases hstatus with rfl | rfl | rfl <;> simp [TaskStatus.Terminal] at hterminal
      | settle => exact hκ rfl
      | settleReview hs => simp [hblocked] at hs
      | resolveParent => exact hκ' rfl
      | resolveChild hs =>
        rcases hstatus with rfl | rfl | rfl <;> simp at hs hopen
      | start | completeParent | requeue | stopQueued | stopRunning | requestStop | openDraft =>
        cases hblocked
    · rw [hq] at hblocked
      cases hblocked
  · obtain ⟨rfl, _⟩ := (holds_step hg.linked hg.sound h hk).resolve_left hbefore
    obtain ⟨⟨x, hx⟩, parent, ho⟩ := hk
    have hops : (skeleton l').operation = (skeleton l).operation := operation_step h (by simp)
    cases h with
    | start htask _ _ _ _ _ _ hins =>
      rcases ClaimedFor.start hins rfl hx with ⟨rfl, _⟩ | hclaimed
      · simp [htask] at ht'
        rw [← ht'] at hblocked
        cases hblocked
      · exact hbefore ⟨⟨x, hclaimed⟩, parent, hops ▸ ho⟩

theorem holds_congr (hclaims : l'.claims = l.claims)
    (hops : ∀ j, operationLinks l' j = operationLinks l j) : Holds l' k spec ↔ Holds l k spec := by
  simp only [Holds, Unreleased, ClaimedFor, hclaims, skeleton, hops]

/-- Settling a task that holds no claim keeps the held tasks visible. -/
theorem Visible.of_unclaimed (hv : Visible l) (hclaims : l'.claims = l.claims)
    (hops : ∀ j, operationLinks l' j = operationLinks l j)
    (hothers : ∀ j, j ≠ k → l'.tasks.get? j = l.tasks.get? j) (hk : ∀ spec, ¬ Holds l k spec) :
    Visible l' := by
  intro j spec t hj ht
  have hj' : Holds l j spec := (holds_congr hclaims hops).mp hj
  have hne : j ≠ k := fun h => hk spec (h ▸ hj')
  rw [hothers j hne] at ht
  exact hv j spec t hj' ht

/-- The claim of the task is not released, and its lease has run out. -/
def Stranded (l : Ledger) (k : TaskId) (now : Time) : Prop :=
  (∃ spec, Holds l k spec) ∧ ¬ HeldClaim l k now

theorem Visible.settleTask (hv : Visible l) {reason : CloseReason} {u u' : Bool} {now : Time}
    (hk : ∀ spec, ¬ Holds l k spec) :
    Visible (settleTask k reason u now (closeReviewExecutions k reason u' now l)) := by
  refine hv.of_unclaimed rfl (fun j => ?_) (fun j hj => ?_) hk
  · simp only [operationLinks, Plans.settleTask, closeReviewExecutions, Ledger.updateOperation,
      Ledger.updateTask, Ledger.appendEvent, Table.get?_update, Option.map_map]
    congr 1
    funext o
    dsimp only [Function.comp]
    split_ifs <;> rfl
  · rw [Plans.settleTask, Ledger.appendEvent_tasks, Ledger.updateOperation_tasks,
      Ledger.updateTask_get?_ne _ _ _ hj]
    rfl

theorem Visible.chain {ks : List Kind} (hv : Visible l) (hg : Good l) (h : Chain env True ks l l')
    (hks : .settle ∉ ks) (hks' : .resolveParent ∉ ks) : Visible l' := by
  refine (h.invariant (I := fun l => Good l ∧ Visible l) ?_ ⟨hg, hv⟩).2
  intro κ hκ l₁ l₂ hl hstep
  exact ⟨hl.1.step hstep, hl.2.kept hl.1 hstep (fun h => hks (h ▸ hκ)) (fun h => hks' (h ▸ hκ))⟩

theorem chain_links {lawful : Prop} {ks : List Kind} (h : Chain env lawful ks l l')
    (hks : .enter ∉ ks) (j : TaskId) : operationLinks l' j = operationLinks l j := by
  refine h.invariant (I := fun m => operationLinks m j = operationLinks l j) ?_ rfl
  intro κ hκ l₁ l₂ hl hstep
  have hops := operation_step hstep fun h => hks (h ▸ hκ)
  exact (congrFun hops j).trans hl

theorem Visible.settleClosedPlan (env : Environment) (hv : Visible l) (hg : Good l) {owner : String}
    {reason : CloseReason} {now : Time}
    (hk : ∃ plan, l.plans.get? plan.id = some plan ∧ plan.taskId = k)
    (hs : Stranded l k now → OpenPlan l k) :
    Visible (settleClosedPlan k owner reason now l) := by
  have hcases : Chain env True sweepKinds l (Plans.settleClosedPlan k owner reason now l) ∨ _ :=
    settleClosedPlan_cases (.inl hk)
  rcases hcases with hchain | ⟨l₁, hchain, hclaims, _, hopen, hheld, _, _, heq⟩
  · exact hv.chain hg hchain (by decide) (by decide)
  · rw [heq]
    refine (hv.chain hg hchain (by decide) (by decide)).settleTask fun spec hspec => ?_
    have hspec' : Holds l k spec :=
      (holds_congr hclaims (chain_links hchain (by decide))).mp hspec
    exact hopen (hs ⟨⟨spec, hspec'⟩, hheld⟩)

theorem stranded_congr {now : Time} (hclaims : l'.claims = l.claims)
    (hops : ∀ j, operationLinks l' j = operationLinks l j) : Stranded l' k now ↔ Stranded l k now := by
  simp only [Stranded, holds_congr hclaims hops, HeldClaim, hclaims]

/-- A status of a plan that keeps its task waiting. -/
def OpenStatus (s : PlanStatus) : Prop := s = .pending ∨ s = .approved ∨ s = .applying

instance (s : PlanStatus) : Decidable (OpenStatus s) := by unfold OpenStatus; infer_instance

/-- Every open plan of the task is one of these. -/
def OnlyOpen (l : Ledger) (k : TaskId) (closed : List PlanId) : Prop :=
  ∀ r ∈ l.plans.rows, r.taskId = k → OpenStatus r.status → r.id ∈ closed

instance (l : Ledger) (k : TaskId) (closed : List PlanId) : Decidable (OnlyOpen l k closed) := by
  unfold OnlyOpen; infer_instance

/-- What the expiry loop has left as it was. -/
structure Expiring (l₀ : Ledger) (closed : List PlanId) (l : Ledger) : Prop where
  good : Good l
  visible : Visible l
  claims : l.claims = l₀.claims
  links : ∀ j, operationLinks l j = operationLinks l₀ j
  plans : ∀ p, p ∉ closed → l.plans.get? p = l₀.plans.get? p

theorem Expiring.openPlan {l₀ : Ledger} {closed : List PlanId} (h : Expiring l₀ closed l)
    (hopen : ¬ OnlyOpen l₀ k closed) : OpenPlan l k := by
  simp only [OnlyOpen, not_forall] at hopen
  obtain ⟨r, hmem, hk, hs, hnot⟩ := hopen
  have hrow := Table.mem_rows_iff.mp hmem
  rw [← h.plans r.id hnot] at hrow
  exact ⟨r, (Table.get?_eq_some.mp hrow).1, hk, hs⟩

/-- One expiry leaves the tasks of the other rows to them. -/
theorem Expiring.expire (env : Environment) {l₀ : Ledger} {closed : List PlanId} {now : Time}
    (h : Expiring l₀ closed l) {plan : ChangePlan} (he : Expirable l plan) (hmem : plan.id ∈ closed)
    (hs : Stranded l₀ plan.taskId now → ¬ OnlyOpen l₀ plan.taskId closed) :
    Expiring l₀ closed (expirePlan now l plan) := by
  have hchain : Chain env True (.expire :: settleKinds) l (expirePlan now l plan) :=
    expirePlan_chain he
  have hstart : Step env True .expire l
      (l.updatePlan plan.id fun p => { p with status := .expired }) := .expire he.1 he.2
  have hexp : Expiring l₀ closed (l.updatePlan plan.id fun p => { p with status := .expired }) := by
    refine ⟨h.good.step hstart, h.visible.kept h.good hstart (by simp) (by simp), h.claims, h.links,
      fun p hp => ?_⟩
    have hne : p ≠ plan.id := by
      rintro rfl
      exact hp hmem
    rw [Ledger.updatePlan_get?_ne _ _ _ hne]
    exact h.plans p hp
  refine ⟨h.good.chain hchain, ?_, ?_, ?_, ?_⟩
  · exact hexp.visible.settleClosedPlan env hexp.good
      ⟨{ plan with status := .expired }, by simp [Ledger.updatePlan, he.1], rfl⟩
      fun hstranded => hexp.openPlan (hs ((stranded_congr hexp.claims hexp.links).mp hstranded))
  · have hclaims : (expirePlan now l plan).claims = l.claims := by
      refine hchain.invariant (I := fun m => m.claims = l.claims) ?_ rfl
      intro κ hκ l₁ l₂ hl hstep
      refine (claims_eq hstep ?_).trans hl
      simp only [settleKinds, List.mem_cons, List.not_mem_nil, or_false] at hκ
      rcases hκ with rfl | rfl | rfl | rfl | rfl | rfl <;> decide
    exact hclaims.trans h.claims
  · exact fun j => (chain_links hchain (by decide) j).trans (h.links j)
  · intro p hp
    have hplans : (expirePlan now l plan).plans =
        (l.updatePlan plan.id fun r => { r with status := .expired }).plans :=
      settleClosedPlan_plans ..
    rw [hplans]
    exact hexp.plans p hp

theorem Expiring.foldl (env : Environment) {l₀ : Ledger} {closed : List PlanId} {now : Time}
    {rows : List ChangePlan} (hd : rows.Pairwise fun a b => a.id ≠ b.id) :
    ∀ {l : Ledger}, Expiring l₀ closed l → (∀ plan ∈ rows, Expirable l plan) →
      (∀ plan ∈ rows, plan.id ∈ closed) →
      (∀ plan ∈ rows, Stranded l₀ plan.taskId now → ¬ OnlyOpen l₀ plan.taskId closed) →
      Expiring l₀ closed (rows.foldl (expirePlan now) l) := by
  induction rows with
  | nil => exact fun h _ _ _ => h
  | cons plan rows ih =>
    intro l h he hmem hs
    rw [List.pairwise_cons] at hd
    have hplan := List.mem_cons_self (a := plan) (l := rows)
    refine ih hd.2 (h.expire env (he plan hplan) (hmem plan hplan) (hs plan hplan)) ?_
      (fun q hq => hmem q (List.mem_cons_of_mem _ hq)) (fun q hq => hs q (List.mem_cons_of_mem _ hq))
    intro q hq
    obtain ⟨hrow, hstatus⟩ := he q (List.mem_cons_of_mem _ hq)
    refine ⟨?_, hstatus⟩
    have hplans : (expirePlan now l plan).plans =
        (l.updatePlan plan.id fun r => { r with status := .expired }).plans :=
      settleClosedPlan_plans ..
    rw [hplans, Ledger.updatePlan_get?_ne _ _ _ (Ne.symm (hd.1 q hq))]
    exact hrow

/-- A revocation, an expiry or a resolution that would settle a task under a claim whose
lease has run out. -/
def StrandsClaim (env : Environment) (w : World) : Command → Prop
  | .decide p owner _ true => ∃ r, ownedPlan w.ledger p owner = some r ∧
      (r.status = .pending ∨ r.status = .approved) ∧
      Stranded w.ledger r.taskId w.clock ∧ OnlyOpen w.ledger r.taskId [p]
  | .settleExpired entry => ∃ r ∈ expiredPlans w.ledger entry,
      Stranded w.ledger r.taskId w.clock ∧
      OnlyOpen w.ledger r.taskId ((expiredPlans w.ledger entry).map ChangePlan.id)
  | .resolve reg p owner observedHash => ∃ r root evidence, ownedPlan w.ledger p owner = some r ∧
      checkWorkspace env reg r.workspace owner = .ok root ∧ ¬ Locked w root ∧
      observe env (w.tree root) r.changes = .ok evidence ∧
      evidenceHash env evidence = observedHash ∧ ¬ ActiveFamily w.ledger r.taskId w.clock ∧
      Resolvable w.ledger r ∧ Stranded w.ledger r.taskId w.clock
  | _ => False

theorem Visible.settleExpired (env : Environment) (hv : Visible l) (hg : Good l) {entry now : Time}
    (hs : ∀ r ∈ expiredPlans l entry, Stranded l r.taskId now →
      ¬ OnlyOpen l r.taskId ((expiredPlans l entry).map ChangePlan.id)) :
    Visible (settleExpired entry now l) := by
  have hd : (expiredPlans l entry).Pairwise fun a b => a.id ≠ b.id := by
    have h := l.plans.nodup
    rw [List.nodup_iff_pairwise_ne, List.pairwise_map] at h
    exact h.sublist List.filter_sublist
  have hloop : Expiring l ((expiredPlans l entry).map ChangePlan.id)
      ((expiredPlans l entry).foldl (expirePlan now) l) :=
    .foldl env hd ⟨hg, hv, rfl, fun _ => rfl, fun _ _ => rfl⟩
      (fun plan hp => (mem_expiredPlans.mp hp).1) (fun plan hp => List.mem_map_of_mem hp) hs
  have hstale : Chain env True sweepKinds _ (Plans.settleExpired entry now l) :=
    staleReviews_chain (staleReviews_pairwise _) fun k hk => mem_staleReviews hk
  exact hloop.visible.chain hloop.good hstale (by decide) (by decide)

theorem Visible.decide (env : Environment) (hv : Visible l) (hg : Good l) {p : PlanId}
    {owner : String} {hash : Hash} {now : Time} {u : Unit}
    (h : Tx.Ran (decideConn p owner hash true now) l u l')
    (hs : ∀ r, ownedPlan l p owner = some r → (r.status = .pending ∨ r.status = .approved) →
      Stranded l r.taskId now → ¬ OnlyOpen l r.taskId [p]) : Visible l' := by
  unfold decideConn at h
  simp only [Tx.ran_select_bind, Tx.ran_demand_bind, Tx.ran_require_bind, Tx.ran_write_bind,
    Tx.ran_write, if_true, Option.filter_eq_some_iff, decide_eq_true_eq] at h
  obtain ⟨_, plan, ⟨hrow, hstatus⟩, _, _, rfl⟩ := h
  have hplan : l.plans.get? p = some plan := (ownedPlan_eq_some.mp hrow).1
  have hid : plan.id = p := Table.key_of_get? hplan
  have hstep : Step env True .revoke l (decidePlan p owner true l) :=
    .revoke (fun _ => owner) hplan (hstatus.imp_right .inl)
  have hrevoked : Visible (decidePlan p owner true l) := hv.kept hg hstep (by simp) (by simp)
  have hsettled : Visible (Plans.settleClosedPlan plan.taskId owner .revoked now
      (decidePlan p owner true l)) := by
    refine hrevoked.settleClosedPlan env (hg.step hstep)
      ⟨{ plan with status := .revoked, decidedBy := owner }, ?_, rfl⟩ fun hstranded => ?_
    · simp [decidePlan, Ledger.updatePlan, hid, hplan]
    · have hopen := hs plan hrow hstatus hstranded
      simp only [OnlyOpen, not_forall, List.mem_singleton] at hopen
      obtain ⟨r, hmem, hk, hs, hne⟩ := hopen
      have hr : (decidePlan p owner true l).plans.get? r.id = some r := by
        rw [decidePlan, Ledger.updatePlan_get?_ne _ _ _ hne]
        exact Table.mem_rows_iff.mp hmem
      exact ⟨r, (Table.get?_eq_some.mp hr).1, hk, hs⟩
  exact hsettled

theorem Visible.resolveParent (hv : Visible l) {complete unresolved : Bool} {now : Time}
    (hk : ∀ spec, ¬ Holds l k spec) : Visible (resolveParent k complete unresolved now l) := by
  refine hv.of_unclaimed rfl (fun j => ?_) (fun j hj => ?_) hk
  · simp only [operationLinks, Plans.resolveParent, Ledger.updateOperation, Ledger.updateTask,
      Table.get?_update, Option.map_map]
    congr 1
    funext o
    dsimp only [Function.comp]
    split_ifs <;> rfl
  · rw [Plans.resolveParent, Ledger.updateOperation_tasks, Ledger.updateTask_get?_ne _ _ _ hj]

theorem Visible.resolveConn (env : Environment) (hv : Visible l) (hg : Good l) {plan : ChangePlan}
    {evidence : List FileEvidence} {now : Time} {u : Unit}
    (hrequest : ∀ o, l.operations.get? plan.taskId = some o → o.spec.kind = .request)
    (hplan : l.plans.get? plan.id = some plan)
    (hs : ¬ ActiveFamily l plan.taskId now → Resolvable l plan → ¬ Stranded l plan.taskId now)
    (h : Tx.Ran (resolveConn plan evidence now) l u l') : Visible l' := by
  have hcases : ∃ l₂ complete unresolved, Chain env True [.acknowledge, .dropDraft] l l₂ ∧ _ :=
    resolveConn_cases (fun _ => hrequest) hplan h
  obtain ⟨l₂, complete, unresolved, hack, hparent, hchildren⟩ := hcases
  have hclear : ∀ spec, ¬ Holds l plan.taskId spec := by
    intro spec hspec
    unfold Plans.resolveConn at h
    simp only [Tx.ran_select_bind, Tx.ran_demand_bind, Tx.ran_require_bind,
      decide_eq_true_eq, decide_eq_false_iff_not] at h
    obtain ⟨row, hrow, hactive, hresolvable, _⟩ := h
    rw [hplan] at hrow
    cases hrow
    refine hs hactive hresolvable ⟨⟨spec, hspec⟩, ?_⟩
    rintro ⟨c, hc, hk, hr, hlive⟩
    exact hactive ⟨c, hc, .inl hk, hr, hlive⟩
  have hclaims : l₂.claims = l.claims := by
    refine hack.invariant (I := fun m => m.claims = l.claims) ?_ rfl
    intro κ hκ l₁ l₂ hl hstep
    refine (claims_eq hstep ?_).trans hl
    simp only [List.mem_cons, List.not_mem_nil, or_false] at hκ
    rcases hκ with rfl | rfl <;> decide
  have hacked : Visible l₂ := hv.chain hg hack (by decide) (by decide)
  have hsettled : Visible (Plans.resolveParent plan.taskId complete unresolved now l₂) :=
    hacked.resolveParent fun spec hspec =>
      hclear spec ((holds_congr hclaims (chain_links hack (by decide))).mp hspec)
  exact hsettled.chain ((hg.chain hack).step hparent) hchildren (by decide) (by decide)

theorem resolve_observed {reg : Registry} {tree : String → Workspace} {p : PlanId} {owner root : String}
    {hash : Hash} {now : Time} {u : Unit} {plan : ChangePlan} (hrow : ownedPlan l p owner = some plan)
    (hroot : checkWorkspace env reg plan.workspace owner = .ok root)
    (h : Tx.Ran (resolve env reg tree p owner hash now) l u l') :
    ∃ evidence, observe env (tree root) plan.changes = .ok evidence ∧
      evidenceHash env evidence = hash ∧ Tx.Ran (Plans.resolveConn plan evidence now) l u l' := by
  unfold Plans.resolve openPlanCommand at h
  rw [Tx.ran_bind] at h
  obtain ⟨⟨plan', root'⟩, l₁, hopen, h⟩ := h
  simp only [Tx.ran_select_bind, Tx.ran_demand_bind, Tx.ran_lift_bind, Tx.ran_pure, hrow, hroot,
    Option.some.injEq, Except.ok.injEq, exists_eq_left'] at hopen
  obtain ⟨hpair, rfl⟩ := hopen
  cases hpair
  simp only [Tx.ran_lift_bind, Tx.ran_require_bind] at h
  exact h

/-- A command that strands no claim keeps the held tasks visible. -/
theorem Visible.command {w : World} {c : Command} {record : Option ClaimRecord}
    (hw : Consistent env w) (hc : LegalCommand w c) (hv : Visible w.ledger)
    (hs : ¬ StrandsClaim env w c) (h : Tx.Ran (commandOp env w c) w.ledger record l') :
    Visible l' := by
  have hpromise : Promise w.ledger c := hw.promise (a := .command c) hc
  have hchain : Chain env True (commandKinds c) w.ledger l' := commandOp_chain (fun _ => hpromise) h
  cases c
  case decide p owner hash revoke =>
    cases revoke with
    | false => exact hv.chain hw.good hchain (by simp [commandKinds]) (by simp [commandKinds])
    | true =>
      simp only [commandOp, ran_dropped] at h
      refine hv.decide env hw.good h.2.choose_spec fun r hr hstatus hstranded hopen => ?_
      exact hs ⟨r, hr, hstatus, hstranded, hopen⟩
  case settleExpired entry =>
    simp only [commandOp, Tx.ran_write_bind, Tx.ran_pure] at h
    rw [h.2]
    exact hv.settleExpired env hw.good fun r hr hstranded hopen => hs ⟨r, hr, hstranded, hopen⟩
  case resolve reg p owner observedHash =>
    simp only [commandOp, ran_dropped] at h
    obtain ⟨_, u, h⟩ := h
    obtain ⟨hran, plan, root, hrow, hroot, hfree⟩ := withLock_checks h
    have hplan : w.ledger.plans.get? p = some plan := (ownedPlan_eq_some.mp hrow).1
    obtain ⟨evidence, hobserved, hhash, hran⟩ := resolve_observed hrow hroot hran
    refine hv.resolveConn env hw.good (hpromise plan hplan)
      ((Table.key_of_get? hplan).symm ▸ hplan) (fun hactive hresolvable hstranded => ?_) hran
    exact hs ⟨plan, root, evidence, hrow, hroot, hfree, hobserved, hhash, hactive, hresolvable,
      hstranded⟩
  all_goals
    exact hv.chain hw.good hchain (by simp only [commandKinds]; decide)
      (by simp only [commandKinds]; decide)

theorem Visible.action {w : World} {a : Action} (hw : Consistent env w) (ha : Legal w a)
    (hv : Visible w.ledger) (hs : ∀ c, a = .command c → ¬ StrandsClaim env w c) :
    Visible (step env w a).ledger := by
  cases a with
  | command c =>
    rcases step_command env w c with ⟨record, l', hran, hstep⟩ | ⟨_, hstep⟩
    · rw [hstep]
      exact hv.command hw ha (hs c rfl) hran
    · rw [hstep]
      exact hv
  | stepApply n chance =>
    have hchain : Chain env True (actionKinds (.stepApply n chance)) w.ledger _ :=
      step_chain fun _ => hw.promise ha
    exact hv.chain hw.good hchain (by simp only [actionKinds]; decide)
      (by simp only [actionKinds]; decide)
  | tick | external => exact hv
  | startApply | crashApply =>
    simp only [step]
    split <;> exact hv

/-- `recover` releases a visible claim whose lease has run out. -/
theorem Visible.recover {w : World} (hw : Consistent env w) (hv : Visible w.ledger) {entry : Time}
    {c : TaskClaim} (hc : w.ledger.claims.get? k = some c) (hr : c.released = false)
    (ho : (w.ledger.operations.get? k).isSome = true) (hlease : c.expiresAt ≤ w.clock) :
    ¬ Unreleased (recover entry w.clock w.ledger) k := by
  obtain ⟨o, ho⟩ := Option.isSome_iff_exists.mp ho
  obtain ⟨t, e, ht, hx, _, _, hstatus, heligible⟩ := hv.held hw.good hc hr ho
  obtain ⟨worker, hworker⟩ := Option.isSome_iff_exists.mp ((hw.good.sound k).worker o ho)
  have hmem : (k, some c.executionId) ∈ recoverable w.ledger (entry - seconds 30) w.clock := by
    refine mem_recoverable.mpr ⟨t, o, ht, ho, heligible, hx, .inr hstatus, ?_⟩
    obtain ⟨hwm, hwk⟩ := Table.get?_eq_some.mp hworker
    obtain ⟨hcm, hck⟩ := Table.get?_eq_some.mp hc
    exact ⟨worker, hwm, hwk, .inr (.inr ⟨c, hcm, hck.trans (Table.key_of_get? ho).symm, hr, hlease⟩)⟩
  rintro ⟨x, hclaimed⟩
  have hbefore : ClaimedFor w.ledger k x := claimed_foldl_interrupt _ hclaimed
  obtain ⟨c', hc', _, rfl⟩ := hbefore
  rw [hc] at hc'
  cases hc'
  exact (recover_retires hw hmem).claim hclaimed

/-- The steps that strand no claim. -/
def SparesClaims (env : Environment) (w : World) (a : Action) : Prop :=
  Legal w a ∧ ∀ c, a = .command c → ¬ StrandsClaim env w c

/-- Over runs that strand no claim: an unreleased claim of an operation is the one of its
task's current open attempt and visible to recovery; once its lease has run out the next
`recover` releases it; and when every lease has run out, `recover` frees every slot. -/
theorem slots_recovered (env : Environment) (w₀ w : World) (as : List Action) (h₀ : Init w₀)
    (hrun : Run (step env) (SparesClaims env) w₀ as w) :
    (∀ k c o, w.ledger.claims.get? k = some c → c.released = false →
      w.ledger.operations.get? k = some o →
      ∃ t e, w.ledger.tasks.get? k = some t ∧ t.currentExecutionId = some c.executionId ∧
        w.ledger.executions.get? c.executionId = some e ∧ ¬ e.status.Terminal ∧
        (t.status = .running ∨ t.status = .cancelling) ∧ o.eligible = true) ∧
    (∀ entry k c, w.ledger.claims.get? k = some c → c.released = false →
      (w.ledger.operations.get? k).isSome = true → c.expiresAt ≤ w.clock →
      ¬ Unreleased (step env w (.command (.recover entry))).ledger k) ∧
    (∀ entry, (∀ k c, w.ledger.claims.get? k = some c → c.released = false →
        (w.ledger.operations.get? k).isSome = true → c.expiresAt ≤ w.clock) →
      activeClaims (step env w (.command (.recover entry))).ledger = 0) := by
  have hcons : Consistent env w :=
    ReachableWorld.consistent ⟨w₀, as, h₀, hrun.mono fun _ _ h => h.1⟩
  have hv : Visible w.ledger := by
    have hboth : Consistent env w ∧ Visible w.ledger := by
      refine hrun.invariant (I := fun w => Consistent env w ∧ Visible w.ledger)
        (fun w a hw ha => ⟨hw.1.step ha.1, hw.2.action hw.1 ha.1 ha.2⟩) ⟨.of_init h₀, ?_⟩
      rintro k spec t ⟨_, parent, ho⟩
      obtain ⟨o, ho, _⟩ := of_skeleton_operation ho
      rw [h₀.ledger.operations] at ho
      cases ho
    exact hboth.2
  have hrecover : ∀ entry, (step env w (.command (.recover entry))).ledger =
      recover entry w.clock w.ledger := by
    intro entry
    have hran : Tx.Ran (commandOp env w (.recover entry)) w.ledger none
        (recover entry w.clock w.ledger) := by
      simp only [commandOp, Tx.ran_write_bind, Tx.ran_pure, and_self]
    rw [step_of_ran hran]
  refine ⟨fun k c o => hv.held hcons.good, fun entry k c hc hr ho hlease => ?_, fun entry hall => ?_⟩
  · rw [hrecover]
    exact hv.recover hcons hc hr ho hlease
  · rw [hrecover, ← length_heldTasks, List.length_eq_zero_iff, List.eq_nil_iff_forall_not_mem]
    intro k hk
    obtain ⟨spec, ⟨x, hx⟩, parent, ho⟩ := mem_heldTasks.mp hk
    have hchain : Chain env False [.interrupt] w.ledger (recover entry w.clock w.ledger) :=
      recover_chain ..
    obtain ⟨c, hc, hr, _⟩ := claimed_foldl_interrupt _ hx
    have hlink : operationLinks w.ledger k = some (spec, parent) :=
      (chain_links hchain (by decide) k).symm.trans ho
    obtain ⟨o, ho, _⟩ := operationLinks_eq_some.mp hlink
    have hop : (w.ledger.operations.get? k).isSome = true := by rw [ho]; rfl
    exact hv.recover hcons hc hr hop (hall k c hc hr hop) ⟨x, hx⟩

theorem plainRun_spares :
    Run (step plainEnvironment) (SparesClaims plainEnvironment) plainWorld plainRun plainRunning := by
  refine .cons ⟨trivial, ?_⟩ (.cons ⟨⟨by decide +kernel, fun _ => rfl, fun _ => rfl⟩, ?_⟩
    (.cons ⟨?_, ?_⟩ (.nil _)))
  · rintro c ⟨rfl⟩
    exact id
  · rintro c ⟨rfl⟩
    exact id
  · simp only [Legal, LegalCommand]
    decide +kernel
  · rintro c ⟨rfl⟩
    exact id

theorem slots_recovered_plain : ∃ c o, plainRunning.ledger.claims.get? 7 = some c ∧
    c.released = false ∧ plainRunning.ledger.operations.get? 7 = some o ∧ o.eligible = true := by
  have hclaim : ∃ c ∈ plainRunning.ledger.claims.get? 7, c.released = false := by decide +kernel
  have hoperation : (plainRunning.ledger.operations.get? 7).isSome = true := by decide +kernel
  obtain ⟨c, hc, hr⟩ := hclaim
  obtain ⟨o, ho⟩ := Option.isSome_iff_exists.mp hoperation
  obtain ⟨_, _, _, _, _, _, _, heligible⟩ := (slots_recovered plainEnvironment plainWorld
    plainRunning plainRun plainWorld_init plainRun_spares).1 7 c o hc hr ho
  exact ⟨c, o, hc, hr, ho, heligible⟩

/-- A worker loses its lease after it has proposed, and the owner revokes the plan before
the next recovery. -/
def strandedRun : List Action :=
  [plainProposal, .tick 31000000, .command (.decide 5 "owner" [] true)]

def strandedWorld : World := strandedRun.foldl (step plainEnvironment) plainRunning

theorem strandedRun_run :
    Run (step plainEnvironment) Legal plainRunning strandedRun strandedWorld :=
  .cons plainProposal_legal (.cons trivial (.cons trivial (.nil _)))

/-- The revoked task keeps its claim, is out of sight of every recovery, and holds its slot. -/
theorem stranded_slot : ∃ w, ReachableWorld plainEnvironment w ∧
    (∃ c ∈ w.ledger.claims.rows, c.released = false ∧ c.expiresAt ≤ w.clock ∧
      ∃ t ∈ w.ledger.tasks.get? c.taskId, t.status = .blocked ∧
        ∃ o ∈ w.ledger.operations.get? c.taskId, o.eligible = false) ∧
    activeClaims (step plainEnvironment w (.command (.recover w.clock))).ledger = 1 :=
  ⟨strandedWorld, plainRunning_reachable.run strandedRun_run, by decide +kernel, by decide +kernel⟩

end NyanyaAgent.Safety
