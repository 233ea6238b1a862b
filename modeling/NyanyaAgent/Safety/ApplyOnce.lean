import NyanyaAgent.Safety.ApplyAdmission
import NyanyaAgent.Safety.NoReplay

/-!
# An apply is started once

The apply of a plan has one operation, which leaves the queue with its first attempt and never
returns to it.
-/
namespace NyanyaAgent.Safety
open NyanyaAgent.Schema NyanyaAgent.Relational NyanyaAgent.Operations NyanyaAgent.Plans
open NyanyaAgent.Drafts NyanyaAgent.Lifecycle NyanyaAgent.Runs NyanyaAgent.Invariants
open NyanyaAgent.System

variable {env : Environment} {κ : Kind} {l l' : Ledger} {k : TaskId} {p : PlanId} {w w' : World}
  {x y : ExecutionId}

/-- The action starts the attempt for the task. -/
def Starts (env : Environment) (w : World) (a : Action) (k : TaskId) (x : ExecutionId) : Prop :=
  attemptView w.ledger x ≠ some (k, .active) ∧
    attemptView (step env w a).ledger x = some (k, .active)

/-- The action starts an attempt of an operation that applies the plan. -/
def StartsApply (env : Environment) (w : World) (a : Action) (p : PlanId) (x : ExecutionId) : Prop :=
  ∃ k o, Starts env w a k x ∧ (step env w a).ledger.operations.get? k = some o ∧ Applies o p

/-- The task of an apply is not in the queue. -/
structure LeftQueue (l : Ledger) (k : TaskId) (p : PlanId) : Prop where
  operation : ∃ o, l.operations.get? k = some o ∧ Applies o p
  task : ∃ t, l.tasks.get? k = some t ∧ t.status ≠ .queued

theorem applies_kept (h : Step env True κ l l') {o : TaskOperation}
    (ho : l.operations.get? k = some o) (hp : Applies o p) :
    ∃ o', l'.operations.get? k = some o' ∧ Applies o' p := by
  obtain ⟨o', ho', hspec, _⟩ :=
    of_skeleton_operation ((Extends.step h).operation k _ (skeleton_operation ho))
  refine ⟨o', ho', ?_⟩
  unfold Applies at hp ⊢
  rw [hspec]
  exact hp

/-- Only requests are queued again. -/
theorem LeftQueue.step (hk : LeftQueue l k p) (h : Step env True κ l l') : LeftQueue l' k p := by
  obtain ⟨o, ho, hp⟩ := hk.operation
  obtain ⟨t, ht, hs⟩ := hk.task
  obtain ⟨t', ht'⟩ := of_skeleton_task ((Extends.step h).task k (skeleton_task ht))
  refine ⟨applies_kept h ho hp, t', ht', fun hq => ?_⟩
  rcases task_step trivial h ht' with ⟨t₀, ht₀, hsame | hmove⟩ | ⟨_, hnone, _⟩
  · rw [ht] at ht₀
    cases ht₀
    exact hs (hsame ▸ hq)
  · rw [hq] at hmove
    obtain rfl := queued_move hmove
    cases h with
    | requeue hrow hoperation _ hkind =>
      simp only [requeueTask, Ledger.appendEvent_tasks] at ht'
      obtain ⟨t₁, ht₁, ⟨_, rfl⟩ | ⟨rfl, _⟩⟩ := updateTask_cases (l := l) ht'
      · rw [ht] at ht₁
        cases ht₁
        exact hs hq
      · rw [ho] at hoperation
        cases hoperation
        rw [hp.1] at hkind
        cases hkind
  · rw [ht] at hnone
    cases hnone

theorem LeftQueue.run {as : List Action} (hk : LeftQueue w.ledger k p) (hw : Consistent env w)
    (hrun : Run (System.step env) Legal w as w') : LeftQueue w'.ledger k p := by
  have hboth : Consistent env w' ∧ LeftQueue w'.ledger k p := by
    refine hrun.invariant (I := fun w => Consistent env w ∧ LeftQueue w.ledger k p) ?_ ⟨hw, hk⟩
    intro w a hw ha
    have hchain : Chain env True (actionKinds a) w.ledger (System.step env w a).ledger :=
      step_chain fun _ => hw.1.promise ha
    exact ⟨hw.1.step ha, hchain.invariant (I := fun l => LeftQueue l k p)
      (fun _ _ _ _ hl hs => hl.step hs) hw.2⟩
  exact hboth.2

/-- A task whose attempt is active is not in the queue. -/
theorem leftQueue_of_active (hg : Good l) {o : TaskOperation}
    (hx : attemptView l x = some (k, .active)) (ho : l.operations.get? k = some o)
    (hp : Applies o p) : LeftQueue l k p := by
  obtain ⟨c, hc, _, hr⟩ := (hg.sound k).active x o hx ho
  obtain ⟨_, t, ht, _, hs⟩ := (hg.sound k).held c o hc hr ho
  refine ⟨⟨o, ho, hp⟩, t, ht, ?_⟩
  rcases hs with ⟨hs | hs, _⟩ | ⟨hs, _⟩ <;> rw [hs] <;> simp

/-- In every run from a reachable world: once some action has started an attempt of an operation
that applies a plan, no later action starts one, whatever becomes of the first. -/
theorem apply_started_once {a b : Action} {between : List Action} (h : ReachableWorld env w)
    (ha : Legal w a) (hfirst : StartsApply env w a p x)
    (hrun : Run (System.step env) Legal (System.step env w a) between w') (hb : Legal w' b) :
    ¬ StartsApply env w' b p y := by
  rintro ⟨k', o', ⟨hidle, hactive'⟩, ho', hp'⟩
  obtain ⟨k, o, ⟨_, hactive⟩, ho, hp⟩ := hfirst
  have hw : Consistent env (System.step env w a) := h.consistent.step ha
  have hw' : Consistent env w' := hrun.invariant (fun _ _ hw ha => hw.step ha) hw
  have hleft : LeftQueue w'.ledger k p :=
    (leftQueue_of_active hw.good hactive ho hp).run hw hrun
  -- A plan has one apply operation, so that both attempts are for the same task.
  have hleft' : LeftQueue (System.step env w' b).ledger k p :=
    hleft.run hw' (.cons hb (.nil _))
  obtain ⟨o₁, ho₁, hp₁⟩ := hleft'.operation
  obtain rfl : k = k' := (hw'.step hb).good.linked.single.unique k k' _ _ _ _ p
    (skeleton_operation ho₁) (skeleton_operation ho') hp₁.1 hp'.1 hp₁.2 hp'.2
  rcases attempt_started hw' hb hactive' ho' with hbefore | hstart
  · exact hidle hbefore
  · obtain ⟨_, _, _, t, _, _, ht, hqueued, _⟩ := hstart
    obtain ⟨t₁, ht₁, hs⟩ := hleft.task
    rw [ht] at ht₁
    cases ht₁
    exact hs hqueued

def applyClaim : Action := .command (.claim 2 4 10 31000000)

def plainApplied : World := System.step plainEnvironment plainApproved applyClaim

theorem applyClaim_starts : StartsApply plainEnvironment plainApproved applyClaim 5 10 := by
  have hoperation : (plainApplied.ledger.operations.get? 8).any
      (fun o => o.spec.kind = .apply ∧ o.spec.planId = some 5) = true := by decide +kernel
  cases ho : plainApplied.ledger.operations.get? 8 with
  | none =>
    rw [ho] at hoperation
    cases hoperation
  | some o =>
    rw [ho] at hoperation
    exact ⟨8, o, ⟨by decide +kernel, by decide +kernel⟩, ho, by simpa [Applies] using hoperation⟩

theorem apply_started_once_plain :
    ¬ StartsApply plainEnvironment plainApplied (.command (.claim 2 4 11 31000000)) 5 11 := by
  refine apply_started_once (plainPlanned_reachable.run approvedRun_run) ?_ applyClaim_starts
    (.nil _) ?_
  all_goals
    simp only [Legal, LegalCommand, applyClaim]
    decide +kernel

end NyanyaAgent.Safety
