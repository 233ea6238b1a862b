import NyanyaAgent.Lifecycle.Plans

/-!
# The changes of the draft commands

Each command of `work_drafts` on the ledger as a sequence of elementary changes.
-/
namespace NyanyaAgent.Lifecycle
open NyanyaAgent.Schema NyanyaAgent.Relational NyanyaAgent.Operations NyanyaAgent.Conversation
open NyanyaAgent.Drafts NyanyaAgent.Plans

variable {env : Environment} {lawful : Prop} {l l' : Ledger}

/-- What the caller of `create` promises about its task. -/
structure SourcePromise (l : Ledger) (k : TaskId) : Prop where
  request : ∃ o, l.operations.get? k = some o ∧ o.spec.kind = .request ∧ o.spec.draftId = none
  unplanned : ∀ p r, l.plans.get? p = some r → r.taskId = k →
    ∃ d s, l.drafts.get? d = some s ∧ s.sourceTaskId = k

theorem create_chain {reg : Registry} {record : ClaimRecord} {paths : List String} {d : DraftId}
    {now : Time} {draft : OperationDraft} (hp : lawful → SourcePromise l record.taskId)
    (h : Tx.Ran (create env reg record paths d now) l draft l') :
    Chain env lawful [.newDraft] l l' := by
  unfold create insertDraft at h
  simp only [Tx.ran_lift_bind, Tx.ran_select_bind] at h
  obtain ⟨root, _, names, _, h⟩ := h
  split at h
  · simp only [Tx.ran_require_bind, Tx.ran_pure] at h
    rw [h.2.2]
    exact .refl
  · next hprior =>
    simp only [Tx.ran_select_bind, Tx.ran_require_bind, Tx.ran_attempt_bind, Tx.ran_pure,
      Option.map_eq_some_iff] at h
    obtain ⟨_, _, ⟨drafts, hins, rfl⟩, _, rfl⟩ := h
    have hfirst : ∀ e r, l.drafts.get? e = some r → r.sourceTaskId ≠ record.taskId := by
      intro e r hr
      rw [List.find?_eq_none] at hprior
      simpa using hprior r (Table.get?_eq_some.mp hr).1
    refine .of_step (.newDraft hins ?_ rfl hfirst fun hl => ⟨(hp hl).request, ?_⟩) (by simp)
    · by_cases hn : names = [] <;> simp [newDraft, hn]
    · intro p r hr hk
      obtain ⟨e, s, hs, hks⟩ := (hp hl).unplanned p r hr hk
      exact hfirst e s hs hks

/-- What the ledger promises an approved read scope. -/
structure OpenPromise (l : Ledger) (d : DraftId) (fresh : TaskId) : Prop where
  fresh : l.tasks.get? fresh = none
  pending : ∀ r, l.drafts.get? d = some r → r.status = .pending → r.paths ≠ []
  source : ∀ r o, l.drafts.get? d = some r → l.operations.get? r.sourceTaskId = some o →
    o.spec.kind = .request ∧ o.spec.planId = none

/-- The kinds of changes of an approved read scope. -/
def openKinds : List Kind := [.aside, .openDraft, .retire, .enter, .bind, .openTask]

theorem openAndSubmit_chain {reg : Registry} {tree : String → Workspace} {d : DraftId}
    {scopeHash : Hash} {owner : String} {generation : WorkerId} {key : Option String}
    {fresh : TaskId} {session : SessionId} {now : Time} {answer : AgentTask × Bool}
    (hp : lawful → OpenPromise l d fresh)
    (h : Tx.Ran (openAndSubmit env reg tree d scopeHash owner generation key fresh session now)
      l answer l') : Chain env lawful openKinds l l' := by
  unfold openAndSubmit at h
  simp only [Tx.ran_select_bind, Tx.ran_demand_bind, Tx.ran_lift_bind] at h
  obtain ⟨draft, hdraft, root, _, h⟩ := h
  rw [Tx.ran_bind] at h
  obtain ⟨_, l₁, hscope, h⟩ := h
  rw [scopeConn_same hscope] at h
  simp only [Tx.ran_require_bind, Tx.ran_select_bind] at h
  obtain ⟨_, h⟩ := h
  split at h
  · simp only [Tx.ran_demand_bind, Tx.ran_pure] at h
    obtain ⟨_, _, _, rfl⟩ := h
    exact .refl
  · simp only [Tx.ran_select_bind, Tx.ran_demand_bind, Tx.ran_require_bind, Tx.ran_lift_bind,
      Tx.ran_write_bind] at h
    obtain ⟨source, hsource, o, ho, ⟨hpending, hawaiting⟩, snapshot, _, root', _, h⟩ := h
    rw [Tx.ran_bind] at h
    obtain ⟨task, l₂, hsubmit, h⟩ := h
    simp only [Tx.ran_write_bind, Tx.ran_pure] at h
    rw [h.2]
    have hid : source.id = draft.sourceTaskId := Table.key_of_get? hsource
    rw [hid] at hsubmit
    have hopen : Chain env lawful openKinds l
        (settleReview draft.sourceTaskId true now (fillDraft d snapshot now l)) :=
      .of_step (.openDraft hdraft hpending hsource hawaiting) (by simp [openKinds])
    refine (((hopen.snoc (.aside (.approvals _ _)) (by simp [openKinds])).trans
      ((submitConn_chain (fun hl => ⟨?_, fun _ => rfl, fun hk => ⟨?_, ?_⟩⟩) hsubmit).mono
        (by simp [openKinds]))).snoc .openTask (by simp [openKinds])).snoc
      (.aside (.appendEvent _ _ (by simp))) (by simp [openKinds])
    · simp [approveReadScope, settleReview, fillDraft, Ledger.updateDraft, (hp hl).fresh]
    · exact ((hp hl).source draft o hdraft ho).2
    · intro s hs
      cases hs
      have hd : draft.id = d := Table.key_of_get? hdraft
      refine ⟨d, { draft with
        status := .ready, snapshot, revision := draft.revision + 1, updatedAt := now
        expiresAt := now + days 30 }, ?_, rfl, (hp hl).pending draft hdraft hpending, rfl⟩
      simp [approveReadScope, settleReview, fillDraft, Ledger.updateDraft, hdraft, hd]

/-- The settlement of a review wait changes no effect. -/
theorem settleReview_sameEffects (k : TaskId) (completed : Bool) (now : Time) (l : Ledger) :
    SameEffects l (settleReview k completed now l) := by
  have hx : SameEffects l { l with
      executions := l.executions.update (fun e => e.taskId = k ∧ e.status = .awaitingApproval)
        fun e => { e with status := reviewExecutionStatus completed, endedAt := some now
                          updatedAt := now } } := by
    refine .updateExecutions l _ _ _ (fun _ => rfl) fun e he => ?_
    rw [he.2]
    cases completed <;> rfl
  refine hx.trans ((SameEffects.append _ _ ?_).trans (.of_eq rfl rfl rfl (fun _ _ => .rfl) rfl))
  intro v hv
  obtain ⟨e, _, rfl⟩ := List.mem_map.mp hv
  simp

theorem closeReview_sameEffects (now : Time) (l : Ledger) (t : AgentTask) :
    SameEffects l (closeReview now l t) := by
  unfold closeReview
  split_ifs
  · exact (settleReview_sameEffects t.id false now l).trans (.of_eq rfl rfl rfl (fun _ _ => .rfl) rfl)
  · exact .refl l

theorem closeReviews_chain {now : Time} {rows : List AgentTask}
    (h : ∀ t ∈ rows, ¬ UnresolvedEffects l t.id) :
    Chain env lawful [.aside, .settleReview] l (rows.foldl (closeReview now) l) := by
  induction rows generalizing l with
  | nil => exact .refl
  | cons t rows ih =>
    have hstep : Chain env lawful [.aside, .settleReview] l (closeReview now l t) := by
      unfold closeReview
      split_ifs
      · exact (Chain.of_step (.settleReview (h t List.mem_cons_self)) (by simp)).snoc
          (.aside (.approvals _ _)) (by simp)
      · exact .refl
    refine hstep.trans (ih fun s hs => ?_)
    rw [(closeReview_sameEffects now l t).unresolvedEffects]
    exact h s (List.mem_cons_of_mem _ hs)

/-- The kinds of changes of a closed draft. -/
def closeKinds : List Kind := [.aside, .revoke, .settleReview, .closeDraft]

theorem close_chain {reg : Registry} {d : DraftId} {owner : String} {key : Option String}
    {seen : ℕ} {now : Time} {u : Unit} (h : Tx.Ran (close env reg d owner key seen now) l u l') :
    Chain env lawful closeKinds l l' := by
  unfold close at h
  simp only [Tx.ran_select_bind, Tx.ran_demand_bind, Tx.ran_lift_bind] at h
  obtain ⟨draft, hdraft, root, _, h⟩ := h
  rw [Tx.ran_bind] at h
  obtain ⟨_, l₁, hscope, h⟩ := h
  rw [scopeConn_same hscope] at h
  simp only [Tx.ran_require_bind, Tx.ran_select_bind, decide_eq_false_iff_not] at h
  obtain ⟨_, hbusy, h⟩ := h
  have hquiet : ∀ t ∈ draftTasks l draft, ¬ UnresolvedEffects l t.id :=
    fun t ht hu => hbusy ⟨t, ht, .inr hu⟩
  split_ifs at h
  · rw [(Tx.ran_pure.mp h).2]
    exact .refl
  simp only [Tx.ran_select_bind, Tx.ran_require_bind, Tx.ran_write_bind, Tx.ran_write] at h
  obtain ⟨hplan, rfl⟩ := h
  cases hp : draft.planId.bind l.plans.get? with
  | none =>
    exact ((closeReviews_chain hquiet).mono (by simp [closeKinds])).snoc .closeDraft
      (by simp [closeKinds])
  | some p =>
    dsimp only
    rw [Option.bind_eq_some_iff] at hp
    obtain ⟨q, _, hrow⟩ := hp
    have hid : p.id = q := Table.key_of_get? hrow
    rw [← hid] at hrow
    split_ifs with hpending
    · have hsame : SameEffects l (l.updatePlan p.id fun r => { r with status := .revoked }) := by
        refine .updatePlan _ _ _ _ (fun _ => rfl) fun r hr => ?_
        rw [hrow] at hr
        cases hr
        simp [hpending, planEffect]
      have hrevoke : Step env lawful .revoke l
          (l.updatePlan p.id fun r => { r with status := .revoked }) :=
        .revoke (fun r => r.decidedBy) hrow (.inl hpending)
      refine ((Chain.of_step hrevoke (by simp [closeKinds])).trans
        ((closeReviews_chain fun t ht => ?_).mono (by simp [closeKinds]))).snoc .closeDraft
        (by simp [closeKinds])
      rw [hsame.unresolvedEffects]
      exact hquiet t ht
    · exact ((closeReviews_chain hquiet).mono (by simp [closeKinds])).snoc .closeDraft
        (by simp [closeKinds])

/-- The kinds of changes of draft maintenance. -/
def maintainKinds : List Kind := [.aside, .settleReview, .closeDraft, .clearDrafts]

theorem expireDraft_chain (now : Time) (l : Ledger) (draft : OperationDraft) :
    Chain env lawful maintainKinds l (expireDraft now l draft) := by
  unfold expireDraft
  split_ifs with h
  · exact ((Chain.of_step (.settleReview h.2) (by simp [maintainKinds])).snoc
      (.aside (.approvals _ _)) (by simp [maintainKinds])).snoc .closeDraft (by simp [maintainKinds])
  · exact .refl

theorem maintain_chain (now : Time) (l : Ledger) :
    Chain env lawful maintainKinds l (maintain now l) := by
  unfold maintain
  dsimp only
  refine Chain.snoc ?_ .clearDrafts (by simp [maintainKinds])
  generalize (List.take 100 _) = rows
  induction rows generalizing l with
  | nil => exact .refl
  | cons d rows ih => exact (expireDraft_chain now l d).trans (ih _)

end NyanyaAgent.Lifecycle
