import NyanyaAgent.Invariants.History
import NyanyaAgent.Invariants.Results
import NyanyaAgent.System.Invariant

/-!
# The past of the ledger

What a run leaves of every row it finds: the ledger is an account of what happened,
and no action rewrites it.
-/
namespace NyanyaAgent.Safety
open NyanyaAgent.Schema NyanyaAgent.Relational NyanyaAgent.Operations NyanyaAgent.Plans
open NyanyaAgent.Drafts NyanyaAgent.Lifecycle NyanyaAgent.Runs NyanyaAgent.Invariants
open NyanyaAgent.System

variable {env : Environment} {w w' : World}

section Lift
variable {R : Ledger → Ledger → Prop}

/-- A preorder across every elementary change holds across every action. -/
theorem action_relation (hrefl : ∀ l, R l l) (htrans : ∀ l₁ l₂ l₃, R l₁ l₂ → R l₂ l₃ → R l₁ l₃)
    (hstep : ∀ κ l l', Step env True κ l l' → R l l') {a : Action} (hw : Consistent env w)
    (ha : Legal w a) : R w.ledger (step env w a).ledger := by
  have hchain : Chain env True (actionKinds a) w.ledger (step env w a).ledger :=
    step_chain fun _ => hw.promise ha
  exact hchain.relation (I := fun _ => True) hrefl htrans (fun _ _ _ _ _ _ => trivial)
    (fun κ _ l l' _ h => hstep κ l l' h) trivial

/-- A preorder across every action holds across every run. -/
theorem run_relation (hrefl : ∀ l, R l l) (htrans : ∀ l₁ l₂ l₃, R l₁ l₂ → R l₂ l₃ → R l₁ l₃)
    (haction : ∀ w a, Consistent env w → Legal w a → R w.ledger (step env w a).ledger)
    {as : List Action} (hw : Consistent env w) (h : Run (step env) Legal w as w') :
    R w.ledger w'.ledger :=
  h.relation (R := fun w w' => R w.ledger w'.ledger) (I := Consistent env) (fun _ => hrefl _)
    (fun _ _ _ => htrans _ _ _) (fun _ _ => Consistent.step) (fun w a => haction w a) hw

end Lift

/-- The request of an operation, and where it belongs. -/
def SameRequest (o o' : TaskOperation) : Prop := o'.spec = o.spec ∧ o'.parentTaskId = o.parentTaskId

/-- What a saved result says. -/
def SameResult (r r' : TaskResult) : Prop :=
  r' = { r with deliveryStatus := r'.deliveryStatus, deliveryError := r'.deliveryError
                updatedAt := r'.updatedAt }

theorem SameResult.refl (r : TaskResult) : SameResult r r := rfl

theorem SameResult.trans (r₁ r₂ r₃ : TaskResult) (h₁ : SameResult r₁ r₂) (h₂ : SameResult r₂ r₃) :
    SameResult r₁ r₃ := by
  rw [SameResult, h₂, h₁]

section Results
variable {l l' : Ledger} {x : ExecutionId}

theorem claimDelivery_results {k : TaskId} {owner : String} {attempt : ℕ} {now : Time} {b : Bool}
    (h : Tx.Ran (claimDelivery k owner x attempt now) l b l') :
    Retained SameResult l.results l'.results := by
  unfold claimDelivery at h
  simp only [Tx.ran_select_bind, Tx.ran_write_bind, Tx.ran_pure] at h
  rw [h.2]
  apply Retained.update (t := l.results)
  · exact fun _ => rfl
  · exact SameResult.refl
  · exact fun _ _ _ _ => rfl

theorem acknowledgeDelivery_results {k : TaskId} {owner : String} {now : Time} {u : Unit}
    (h : Tx.Ran (acknowledgeDelivery k owner now) l u l') :
    Retained SameResult l.results l'.results := by
  unfold acknowledgeDelivery at h
  simp only [Tx.ran_select_bind, Tx.ran_demand_bind] at h
  obtain ⟨t, _, h⟩ := h
  split_ifs at h
  · rw [(Tx.ran_pure.mp h).2]
    exact .refl .refl _
  · simp only [Tx.ran_require_bind, Tx.ran_write_bind, Tx.ran_write] at h
    rw [h.2]
    apply Retained.update (t := l.results)
    · exact fun _ => rfl
    · exact SameResult.refl
    · exact fun _ _ _ _ => rfl

theorem chain_sameResults {ks : List Kind} (h : Chain env False ks l l') (hks : .deliver ∉ ks) :
    Retained SameResult l.results l'.results := by
  intro x r hr
  refine ⟨r, h.invariant (I := fun l => l.results.get? x = some r) ?_ hr, rfl⟩
  intro κ hκ l₁ l₂ hx hstep
  exact result_kept hstep (fun h => hks (h ▸ hκ)) hx

/-- No action rewrites a saved result. -/
theorem results_action (w : World) (a : Action) :
    Retained SameResult w.ledger.results (step env w a).ledger.results := by
  have hchain : Chain env False (actionKinds a) w.ledger (step env w a).ledger :=
    step_chain False.elim
  cases a with
  | command c =>
    rcases step_command env w c with ⟨record, l', hran, hstep⟩ | ⟨_, hstep⟩
    · rw [hstep] at hchain ⊢
      cases c
      case claimDelivery =>
        simp only [commandOp, ran_dropped] at hran
        exact claimDelivery_results hran.2.choose_spec
      case settleDelivery =>
        simp only [commandOp, Tx.ran_write_bind, Tx.ran_pure] at hran
        rw [hran.2]
        apply Retained.update (t := w.ledger.results)
        · exact fun _ => rfl
        · exact SameResult.refl
        · exact fun _ _ _ _ => rfl
      case acknowledgeDelivery =>
        simp only [commandOp, ran_dropped] at hran
        exact acknowledgeDelivery_results hran.2.choose_spec
      case decide p owner hash revoke =>
        refine chain_sameResults hchain ?_
        cases revoke <;> simp [actionKinds, commandKinds, settleKinds]
      all_goals exact chain_sameResults hchain (by simp only [actionKinds, commandKinds]; decide)
    · rw [hstep]
      exact .refl .refl _
  | stepApply | tick | external | startApply | crashApply =>
    exact chain_sameResults hchain (by simp only [actionKinds]; decide)

end Results

/-- What a later ledger says about everything that an earlier one says. -/
structure HistoryKept (l l' : Ledger) : Prop where
  events : l.events <+: l'.events
  tasks : Retained SameOwner l.tasks l'.tasks
  operations : Retained SameRequest l.operations l'.operations
  results : Retained SameResult l.results l'.results
  plans : Retained (fun r r' => planCore r' = planCore r) l.plans l'.plans
  drafts : Retained (fun r r' => draftCore r' = draftCore r) l.drafts l'.drafts

theorem HistoryKept.refl (l : Ledger) : HistoryKept l l where
  events := List.prefix_refl _
  tasks := .refl .refl _
  operations := .refl (fun _ => ⟨rfl, rfl⟩) _
  results := .refl .refl _
  plans := .refl (fun r => Eq.refl (planCore r)) _
  drafts := .refl (fun r => Eq.refl (draftCore r)) _

theorem HistoryKept.trans (l₁ l₂ l₃ : Ledger) (h₁ : HistoryKept l₁ l₂) (h₂ : HistoryKept l₂ l₃) :
    HistoryKept l₁ l₃ where
  events := h₁.events.trans h₂.events
  tasks := h₁.tasks.trans (fun _ _ _ => flip Eq.trans) h₂.tasks
  operations := h₁.operations.trans
    (fun _ _ _ h h' => ⟨h'.1.trans h.1, h'.2.trans h.2⟩) h₂.operations
  results := h₁.results.trans .trans h₂.results
  plans := h₁.plans.trans (fun _ _ _ => flip Eq.trans) h₂.plans
  drafts := h₁.drafts.trans (fun _ _ _ => flip Eq.trans) h₂.drafts

/-- A skeleton that extends another one keeps its rows. -/
theorem kept_of_extends {l l' : Ledger} (h : Extends (skeleton l) (skeleton l')) :
    Retained SameRequest l.operations l'.operations ∧
      Retained (fun r r' => planCore r' = planCore r) l.plans l'.plans ∧
      Retained (fun r r' => draftCore r' = draftCore r) l.drafts l'.drafts := by
  refine ⟨fun k o ho => ?_, fun p r hr => ?_, fun d r hr => ?_⟩
  · obtain ⟨o', ho', hspec, hparent⟩ := of_skeleton_operation (h.operation k _ (skeleton_operation ho))
    exact ⟨o', ho', hspec, hparent⟩
  · exact of_skeleton_plan (h.plan p _ (skeleton_plan hr))
  · exact of_skeleton_draft (h.draft d _ (skeleton_draft hr))

theorem history_action {a : Action} (hw : Consistent env w) (ha : Legal w a) :
    HistoryKept w.ledger (step env w a).ledger := by
  have hchain : Chain env True (actionKinds a) w.ledger (step env w a).ledger :=
    step_chain fun _ => hw.promise ha
  obtain ⟨hops, hplans, hdrafts⟩ := kept_of_extends (Extends.chain hchain)
  exact {
    events := action_relation (R := fun l l' => l.events <+: l'.events) (fun _ => List.prefix_refl _) (fun _ _ _ => List.IsPrefix.trans)
      (fun _ _ _ => events_step) hw ha
    tasks := action_relation (R := fun l l' => Retained SameOwner l.tasks l'.tasks)
      (fun _ => .refl .refl _) (fun _ _ _ => .trans fun _ _ _ => flip Eq.trans)
      (fun _ _ _ => owners_step trivial) hw ha
    operations := hops
    results := results_action w a
    plans := hplans
    drafts := hdrafts }

/-- In every run from a reachable ledger: events are only appended; no task, operation,
result, plan or draft disappears; nobody takes a task over; an operation keeps its request and
its parent, a plan its changes, its hash and its owner, a draft its scope; and what a saved
result says never changes. -/
theorem history_kept {as : List Action} (h : ReachableWorld env w)
    (hrun : Run (step env) Legal w as w') : HistoryKept w.ledger w'.ledger :=
  run_relation .refl .trans (fun _ _ hw ha => history_action hw ha) h.consistent hrun

theorem history_kept_plain : HistoryKept plainRunning.ledger plainPlanned.ledger :=
  history_kept plainRunning_reachable (.cons plainProposal_legal (.nil _))

/-- In every run from a reachable ledger every attempt stays, for its task, adapter and
directory; it moves to its end, to awaiting approval unless it was asked to stop, or from running
to stopping; and an attempt that has ended never changes again but for its heartbeat. -/
theorem attempts_kept {as : List Action} (h : ReachableWorld env w)
    (hrun : Run (step env) Legal w as w') :
    Retained AttemptKept w.ledger.executions w'.ledger.executions :=
  run_relation (R := fun l l' => Retained AttemptKept l.executions l'.executions)
    (fun _ => .refl .refl _) (fun _ _ _ => .trans .trans)
    (fun _ _ hw ha => action_relation (R := fun l l' => Retained AttemptKept l.executions l'.executions)
      (fun _ => .refl .refl _) (fun _ _ _ => .trans .trans) (fun _ _ _ => attempts_step trivial) hw ha)
    h.consistent hrun

/-- The worker of the attempt is lost. -/
theorem attempts_kept_plain :
    (plainPlanned.ledger.executions.get? 9).map (·.status) = some .running ∧
    (plainApproved.ledger.executions.get? 9).map (·.status) = some .lost ∧
    Retained AttemptKept plainPlanned.ledger.executions plainApproved.ledger.executions :=
  ⟨by decide +kernel, by decide +kernel, attempts_kept plainPlanned_reachable approvedRun_run⟩

end NyanyaAgent.Safety
