import NyanyaAgent.System.Invariant

/-!
# The feedback of a reviewed draft

A result is linked only to the revision it was computed from, and a plan that gave
way to a later one stays revoked whatever happens next.
-/
namespace NyanyaAgent.Safety
open NyanyaAgent.Schema NyanyaAgent.Relational NyanyaAgent.Operations NyanyaAgent.Plans
open NyanyaAgent.Drafts NyanyaAgent.Lifecycle NyanyaAgent.Runs NyanyaAgent.Invariants
open NyanyaAgent.System

variable {env : Environment} {κ : Kind} {l l' : Ledger}

/-- The plan was revoked. -/
def Revoked (l : Ledger) (p : PlanId) : Prop :=
  ∃ q, l.plans.get? p = some q ∧ q.status = .revoked

theorem Revoked.kept {p : PlanId} (hp : Revoked l p) (h : Step env True κ l l') : Revoked l' p := by
  obtain ⟨q, hq, hs⟩ := hp
  obtain ⟨q', hq', _⟩ := of_skeleton_plan ((Extends.step h).plan p _ (skeleton_plan hq))
  refine ⟨q', hq', ?_⟩
  rcases plan_step trivial h hq' with ⟨r, hr, _, heq⟩ | ⟨_, hnone, _⟩
  · rw [hq] at hr
    cases hr
    rcases heq with rfl | hmove
    · exact hs
    · exact hmove.of_revoked (hs ▸ rfl)
  · rw [hq] at hnone
    cases hnone

/-- Drafts persist with rising revisions, and leave no plan that is not revoked. -/
structure DraftsKept (l l' : Ledger) : Prop where
  draft : ∀ d r, l.drafts.get? d = some r → ∃ r', l'.drafts.get? d = some r' ∧
    r.revision ≤ r'.revision ∧ ∀ p, r.planId = some p → r'.planId = some p ∨ Revoked l' p
  revoked : ∀ p, Revoked l p → Revoked l' p

theorem DraftsKept.refl (l : Ledger) : DraftsKept l l :=
  ⟨fun _ r hr => ⟨r, hr, le_rfl, fun _ hp => .inl hp⟩, fun _ => id⟩

theorem DraftsKept.trans {l₁ l₂ l₃ : Ledger} (h₁ : DraftsKept l₁ l₂) (h₂ : DraftsKept l₂ l₃) :
    DraftsKept l₁ l₃ := by
  refine ⟨fun d r hr => ?_, fun p hp => h₂.revoked p (h₁.revoked p hp)⟩
  obtain ⟨r₂, hr₂, hle₁, hplan₁⟩ := h₁.draft d r hr
  obtain ⟨r₃, hr₃, hle₂, hplan₂⟩ := h₂.draft d r₂ hr₂
  refine ⟨r₃, hr₃, hle₁.trans hle₂, fun p hp => ?_⟩
  rcases hplan₁ p hp with hp₂ | hrevoked
  · exact hplan₂ p hp₂
  · exact .inr (h₂.revoked p hrevoked)

theorem DraftsKept.of_step (h : Step env True κ l l') : DraftsKept l l' := by
  refine ⟨fun d r hr => ?_, fun p hp => hp.kept h⟩
  obtain ⟨r', hr', _⟩ := of_skeleton_draft ((Extends.step h).draft d _ (skeleton_draft hr))
  refine ⟨r', hr', ?_⟩
  rcases draft_step h hr' with ⟨r₀, hr₀, hmove⟩ | ⟨hnone, _⟩
  · rw [hr] at hr₀
    cases hr₀
    refine ⟨hmove.revision, fun p hp => ?_⟩
    rcases hmove.plan with heq | ⟨_, hrevoked⟩
    · exact .inl (heq.trans hp)
    · exact .inr (Revoked.kept (hrevoked p hp) h)
  · rw [hr] at hnone
    cases hnone

theorem DraftsKept.action {w : World} {a : Action} (hw : Consistent env w) (ha : Legal w a) :
    DraftsKept w.ledger (step env w a).ledger := by
  have hchain : Chain env True (actionKinds a) w.ledger (step env w a).ledger :=
    step_chain fun _ => hw.promise ha
  exact hchain.relation (R := DraftsKept) (I := fun _ => True) .refl (fun _ _ _ => .trans)
    (fun _ _ _ _ _ _ => trivial) (fun _ _ _ _ _ hs => .of_step hs) trivial

theorem DraftsKept.run {w w' : World} {as : List Action} (hw : Consistent env w)
    (h : Run (step env) Legal w as w') : DraftsKept w.ledger w'.ledger :=
  h.relation (R := fun w w' => DraftsKept w.ledger w'.ledger) (I := Consistent env)
    (fun _ => .refl _) (fun _ _ _ => .trans) (fun _ _ => Consistent.step) (fun _ _ => .action) hw

/-- A command that links a result computed from the draft as a worker loaded it. -/
inductive Feeds (draft : OperationDraft) : Option PlanId → Command → Prop
  | plan (reg : Registry) (k : TaskId) (owner root : String) (changes : List ProposedChange)
      (baseline : List (Path × SnapshotItem)) (taskKind stamp : String) (record : ClaimRecord)
      (p : PlanId) : Feeds draft (some p)
        (.propose reg k owner root changes baseline taskKind stamp (some (draft, record)) p)
  | noPlan (record : ClaimRecord) : Feeds draft none (.linkNoPlan draft record)

/-- The row a result may be linked to. -/
def AtRevision (l : Ledger) (draft row : OperationDraft) : Prop :=
  l.drafts.get? draft.id = some row ∧ row.status = .ready ∧ row.revision = draft.revision

/-- What a linked result leaves of the draft. -/
def linked (row : OperationDraft) (planId : Option PlanId) (now : Time) : OperationDraft :=
  { row with planId := planId, revision := row.revision + 1, updatedAt := now }

theorem linkPlanConn_row {draft : OperationDraft} {k : TaskId} {planId : Option PlanId}
    {record : ClaimRecord} {now : Time} {u : Unit}
    (h : Tx.Ran (linkPlanConn env draft k planId record now) l u l') :
    ∃ row, AtRevision l draft row ∧ l'.drafts.get? draft.id = some (linked row planId now) := by
  unfold linkPlanConn at h
  simp only [Tx.ran_select_bind, Tx.ran_demand_bind, Tx.ran_require_bind] at h
  obtain ⟨_, _, _, row, hrow, h⟩ := h
  simp only [Option.filter_eq_some_iff, decide_eq_true_eq] at hrow
  obtain ⟨hfound, hready, hrevision⟩ := hrow
  refine ⟨row, ⟨hfound, hready, hrevision⟩, ?_⟩
  have hwritten : ∀ l : Ledger, l.drafts.get? draft.id = some row →
      (l.updateDraft draft.id fun d =>
        { d with planId := planId, revision := d.revision + 1, updatedAt := now }).drafts.get?
          draft.id = some (linked row planId now) := by
    intro l hl
    rw [Ledger.updateDraft_get?, hl]
    rfl
  rw [Tx.ran_bind] at h
  obtain ⟨_, l₁, hscope, h⟩ := h
  rw [scopeConn_same hscope] at h
  split at h
  · rw [Tx.ran_write] at h
    rw [h]
    exact hwritten l hfound
  · simp only [Tx.ran_select_bind, Tx.ran_demand_bind, Tx.ran_require_bind, Tx.ran_write_bind,
      Tx.ran_write] at h
    obtain ⟨previous, _, _, _, rfl⟩ := h
    exact hwritten _ ((supersede_rows previous k now l).1 ▸ hfound)

/-- A linking command commits only at the draft's current revision, which it ends. -/
theorem feeds_row {w : World} {draft : OperationDraft} {planId : Option PlanId} {c : Command}
    {record : Option ClaimRecord} (hc : Feeds draft planId c)
    (h : Tx.Ran (commandOp env w c) w.ledger record l') :
    ∃ row, AtRevision w.ledger draft row ∧
      l'.drafts.get? draft.id = some (linked row planId w.clock) := by
  cases hc with
  | plan =>
    simp only [commandOp, ran_dropped] at h
    obtain ⟨_, _, h⟩ := h
    unfold propose at h
    simp only [Tx.ran_lift_bind, Tx.ran_require_bind] at h
    obtain ⟨_, _, _, _, h⟩ := h
    rw [Tx.ran_bind] at h
    obtain ⟨changes, l₁, hprep, h⟩ := h
    rw [prepareChanges_same hprep] at h
    unfold recordPlan insertPlan at h
    simp only [Tx.ran_select_bind, Tx.ran_demand_bind, Tx.ran_write_bind, Tx.ran_attempt_bind,
      Option.map_eq_some_iff] at h
    obtain ⟨_, _, _, ⟨plans, _, rfl⟩, h⟩ := h
    rw [Tx.ran_bind] at h
    obtain ⟨_, l₂, hlink, h⟩ := h
    rw [Tx.ran_write] at h
    obtain ⟨row, hrow, hafter⟩ := linkPlanConn_row hlink
    exact ⟨row, hrow, by rw [h]; exact hafter⟩
  | noPlan =>
    simp only [commandOp, ran_dropped] at h
    obtain ⟨_, _, h⟩ := h
    exact linkPlanConn_row h

/-- A result is linked only to the ready draft at the revision it was computed from, and
no other result of that revision is linked later; of the plans a draft ever had, those
it no longer has are revoked for good; and a rejected result changes nothing. -/
theorem draft_feedback (env : Environment) (w : World) (hw : ReachableWorld env w) :
    (∀ draft planId c record l', Feeds draft planId c →
      Tx.Ran (commandOp env w c) w.ledger record l' →
      (∃ row, AtRevision w.ledger draft row ∧
        l'.drafts.get? draft.id = some (linked row planId w.clock)) ∧
      (Legal w (.command c) → ∀ as w', Run (step env) Legal (step env w (.command c)) as w' →
        ∀ draft' planId' c', draft'.id = draft.id → draft'.revision = draft.revision →
          Feeds draft' planId' c' → ∀ record' l'', ¬ Tx.Ran (commandOp env w' c') w'.ledger record' l'')) ∧
    (∀ as₁ as₂ w₁ w₂, Run (step env) Legal w as₁ w₁ → Run (step env) Legal w₁ as₂ w₂ →
      ∀ d r r₁ p, w.ledger.drafts.get? d = some r → r.planId = some p →
        w₁.ledger.drafts.get? d = some r₁ → r₁.planId ≠ some p →
          Revoked w₁.ledger p ∧ Revoked w₂.ledger p) ∧
    (∀ draft planId c, Feeds draft planId c → (¬ ∃ row, AtRevision w.ledger draft row) →
      step env w (.command c) = w) ∧
    ∀ c, (∀ record l', ¬ Tx.Ran (commandOp env w c) w.ledger record l') →
      step env w (.command c) = w := by
  have hcons : Consistent env w := hw.consistent
  refine ⟨fun draft planId c record l' hc hran => ⟨feeds_row hc hran, ?_⟩, ?_, ?_, fun c => step_of_refused⟩
  · intro hlegal as w' hrun draft' planId' c' hid hrevision hc' record' l'' hran'
    have hstep : (step env w (.command c)).ledger = l' := by rw [step_of_ran hran]
    obtain ⟨row, ⟨_, _, hrow⟩, hafter⟩ := feeds_row hc hran
    obtain ⟨row', ⟨hfound, _, hrow'⟩, _⟩ := feeds_row hc' hran'
    obtain ⟨r', hr', hle, _⟩ :=
      (DraftsKept.run (hcons.step hlegal) hrun).draft draft.id _ (hstep.symm ▸ hafter)
    rw [hid, hr'] at hfound
    cases hfound
    simp only [linked] at hle
    omega
  · intro as₁ as₂ w₁ w₂ h₁ h₂ d r r₁ p hr hp hr₁ hne
    obtain ⟨r', hr', _, hplan⟩ := (DraftsKept.run hcons h₁).draft d r hr
    rw [hr₁] at hr'
    cases hr'
    have hcons₁ : Consistent env w₁ := ReachableWorld.consistent (hw.run h₁)
    have hrevoked : Revoked w₁.ledger p := (hplan p hp).resolve_left hne
    exact ⟨hrevoked, (DraftsKept.run hcons₁ h₂).revoked p hrevoked⟩
  · intro draft planId c hc hno
    refine step_of_refused fun record l' hran => hno ?_
    obtain ⟨row, hrow, _⟩ := feeds_row hc hran
    exact ⟨row, hrow⟩

/-- The claimed request opens a draft with nothing to read. -/
def readyWorld : World :=
  step plainEnvironment plainRunning (.command (.createDraft plainRegistry plainRecord [] 6))

/-- The draft as its worker loads it. -/
def loadedDraft : OperationDraft where
  id := 6
  ownerKey := "owner"
  workspace := "/w"
  sourceTaskId := 7
  paths := []
  scopeHash := [6]
  status := .ready
  createdAt := 0
  updatedAt := 0
  expiresAt := 2592000000000

/-- A result computed from the draft as it was loaded. -/
def plainFeedback (path : String) (p : PlanId) : Command :=
  .propose plainRegistry 7 "owner" "/w"
    [{ path, action := .create, content := [120], reason := "new" }] [] "code" ""
    (some (loadedDraft, plainRecord)) p

theorem readyWorld_reachable : ReachableWorld plainEnvironment readyWorld := by
  refine plainRunning_reachable.step_of ⟨by decide +kernel, rfl, rfl, fun p hp => ?_⟩
  have hnone : plainRunning.ledger.plans.rows = [] := by decide +kernel
  rw [hnone] at hp
  cases hp

theorem plainFeedback_legal (path : String) (p : PlanId) :
    Legal readyWorld (.command (plainFeedback path p)) := by
  have hdraft : plainRecord ∈ readyWorld.issued ∧
      readyWorld.ledger.drafts.get? 6 = some loadedDraft := by decide +kernel
  exact ⟨rfl, hdraft.1, ⟨loadedDraft, hdraft.2, rfl, rfl, rfl, rfl⟩, fun _ => rfl⟩

/-- Of two results that were computed from the first revision the first one is linked, and the
second one is refused. -/
theorem draft_feedback_plain :
    (readyWorld.ledger.drafts.get? 6 = some loadedDraft ∧
      ∃ d, (step plainEnvironment readyWorld (.command (plainFeedback "a" 5))).ledger.drafts.get? 6 =
        some d ∧ d.planId = some 5 ∧ d.revision = 2) ∧
    ∀ record l', ¬ Tx.Ran (commandOp plainEnvironment
        (step plainEnvironment readyWorld (.command (plainFeedback "a" 5))) (plainFeedback "b" 8))
      (step plainEnvironment readyWorld (.command (plainFeedback "a" 5))).ledger record l' := by
  have hran : (commandOp plainEnvironment readyWorld (plainFeedback "a" 5) readyWorld.ledger).1 =
      .ok none := by decide +kernel
  have hfirst := (draft_feedback plainEnvironment readyWorld readyWorld_reachable).1 loadedDraft
    (some 5) (plainFeedback "a" 5) none _ (.plan _ _ _ _ _ _ _ _ _ _) (Prod.ext hran rfl)
  obtain ⟨⟨row, hrow, hlinked⟩, hlater⟩ := hfirst
  have hdraft : readyWorld.ledger.drafts.get? 6 = some loadedDraft := by decide +kernel
  obtain rfl : loadedDraft = row := Option.some.inj (hdraft.symm.trans hrow.1)
  refine ⟨⟨hdraft, linked loadedDraft (some 5) readyWorld.clock, ?_, rfl, rfl⟩, ?_⟩
  · rw [step_of_ran (Prod.ext hran rfl)]
    exact hlinked
  · exact hlater (plainFeedback_legal "a" 5) [] _ (.nil _) loadedDraft (some 8) _ rfl rfl
      (.plan _ _ _ _ _ _ _ _ _ _)

end NyanyaAgent.Safety
