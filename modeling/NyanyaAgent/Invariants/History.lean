import NyanyaAgent.Invariants.Halts
import NyanyaAgent.Relational.Retained

/-!
# What no change rewrites

Events are only appended. A task keeps its owner. An attempt keeps where it comes
from, and an attempt that has ended keeps everything but its last heartbeat.
-/
namespace NyanyaAgent.Invariants
open NyanyaAgent.Schema NyanyaAgent.Relational NyanyaAgent.Operations NyanyaAgent.Plans
open NyanyaAgent.Drafts NyanyaAgent.Lifecycle

variable {env : Environment} {lawful : Prop} {κ : Kind} {l l' : Ledger}

theorem events_step (h : Step env lawful κ l l') : l.events <+: l'.events := by
  have happ : ∀ vs, l.events <+: l.events ++ vs := List.prefix_append _
  cases h with
  | aside h | bind h | deliver h =>
    obtain ⟨vs, hvs, _⟩ := h.events
    exact ⟨vs, hvs.symm⟩
  | retire =>
    unfold retireImported
    split <;> exact List.prefix_refl _
  | enter =>
    simp only [upsertTask]
    split <;> exact List.prefix_refl _
  | completeParent =>
    unfold completeParent
    split
    · split_ifs
      · exact happ _
      · exact List.prefix_refl _
    · exact List.prefix_refl _
  | @interrupt _ k t =>
    unfold interruptTask
    cases t.currentExecutionId <;> exact happ _
  | closeReview =>
    dsimp only
    split_ifs
    · exact (happ _).trans (List.prefix_append _ _)
    · exact happ _
  | settle => exact (happ _).trans (List.prefix_append _ _)
  | start | requeue | startFailure | settleReview | openDraft | acknowledge | resolveChild
  | finalize => exact happ _
  | _ => exact List.prefix_refl _

/-- Nobody takes a task over. -/
def SameOwner (t t' : AgentTask) : Prop := t'.requestedBy = t.requestedBy

theorem SameOwner.refl (t : AgentTask) : SameOwner t t := rfl

theorem owners_step (hlawful : lawful) (h : Step env lawful κ l l') :
    Retained SameOwner l.tasks l'.tasks := by
  by_cases hκ : κ ∈ taskKinds
  · cases h with
    | touch f hf hsame => exact .update hf .refl fun _ t _ _ => (hsame t).owner
    | @enter _ j spec owner root _ source project _ now _ hE hins =>
      intro k t ht
      by_cases hk : k = j
      · subst hk
        rcases hE.task hlawful with hnone | ⟨_, t₀, ht₀, _, howner⟩
        · rw [hnone] at ht
          cases ht
        · rw [ht] at ht₀
          cases ht₀
          have hsome : ((upsertTask (acceptedTask env k spec owner root source project now)
              l).tasks.get? k).isSome = true := (upsertTask_isSome _ _ _).mpr (.inl rfl)
          obtain ⟨t', ht'⟩ := Option.isSome_iff_exists.mp hsome
          refine ⟨t', ht', ?_⟩
          rcases upsertTask_get? (r := acceptedTask env k spec owner root source project now) ht' with
            ⟨_, rfl⟩ | ⟨_, _, rfl⟩ <;> exact howner.symm
      · exact ⟨t, (upsertTask_get?_ne _ _ hk).trans ht, rfl⟩
    | start | conclude | requeue | startFailure | stopQueued | stopRunning | requestStop | closeTask
    | settle | resolveParent | resolveChild | settleReview | openDraft =>
      apply Retained.update (t := l.tasks)
      · exact fun _ => rfl
      · exact SameOwner.refl
      · exact fun _ _ _ _ => rfl
    | completeParent =>
      unfold completeParent
      split
      · split_ifs
        · apply Retained.update (t := l.tasks)
          · exact fun _ => rfl
          · exact SameOwner.refl
          · exact fun _ _ _ _ => rfl
        · exact .refl SameOwner.refl _
      · exact .refl SameOwner.refl _
    | @interrupt _ k t =>
      unfold interruptTask
      cases t.currentExecutionId
      all_goals
        apply Retained.update (t := l.tasks)
        · exact fun _ => rfl
        · exact SameOwner.refl
        · exact fun _ _ _ _ => rfl
    | closeReview =>
      dsimp only
      split_ifs
      · apply Retained.update (t := l.tasks)
        · exact fun _ => rfl
        · exact SameOwner.refl
        · exact fun _ _ _ _ => rfl
      · exact .refl SameOwner.refl _
    | _ => simp [taskKinds] at hκ
  · exact .of_eq SameOwner.refl (tasks_eq h hκ)

/-- Where the status of an attempt moves: to its end, to awaiting approval unless it was
asked to stop, or from running to stopping. -/
def AttemptMove (s s' : ExecutionStatus) : Prop :=
  s' = s ∨ ¬ s.Terminal ∧ (s'.Terminal ∨ s' = .awaitingApproval ∧ s ≠ .cancelling ∨
    s' = .cancelling ∧ s = .running)

theorem AttemptMove.trans {s₁ s₂ s₃ : ExecutionStatus} (h₁ : AttemptMove s₁ s₂)
    (h₂ : AttemptMove s₂ s₃) : AttemptMove s₁ s₃ := by
  rcases h₁ with rfl | ⟨hopen, h₁⟩
  · exact h₂
  rcases h₂ with rfl | ⟨hopen₂, h₂⟩
  · exact .inr ⟨hopen, h₁⟩
  refine .inr ⟨hopen, ?_⟩
  rcases h₁ with hend | ⟨rfl, hne⟩ | ⟨rfl, rfl⟩
  · exact absurd hend hopen₂
  · rcases h₂ with hend | ⟨rfl, _⟩ | ⟨_, hrun⟩
    · exact .inl hend
    · exact .inr (.inl ⟨rfl, hne⟩)
    · cases hrun
  · rcases h₂ with hend | ⟨_, hstop⟩ | ⟨_, hrun⟩
    · exact .inl hend
    · exact absurd rfl hstop
    · cases hrun

/-- What an attempt keeps. -/
structure AttemptKept (e e' : Execution) : Prop where
  task : e'.taskId = e.taskId
  adapter : e'.adapterType = e.adapterType
  workdir : e'.workdir = e.workdir
  created : e'.createdAt = e.createdAt
  started : e'.startedAt = e.startedAt
  move : AttemptMove e.status e'.status
  ended : e.status.Terminal → e' = { e with lastHeartbeatAt := e'.lastHeartbeatAt }

namespace AttemptKept

theorem refl (e : Execution) : AttemptKept e e :=
  ⟨rfl, rfl, rfl, rfl, rfl, .inl rfl, fun _ => rfl⟩

theorem trans (e₁ e₂ e₃ : Execution) (h₁ : AttemptKept e₁ e₂) (h₂ : AttemptKept e₂ e₃) :
    AttemptKept e₁ e₃ where
  task := h₂.task.trans h₁.task
  adapter := h₂.adapter.trans h₁.adapter
  workdir := h₂.workdir.trans h₁.workdir
  created := h₂.created.trans h₁.created
  started := h₂.started.trans h₁.started
  move := h₁.move.trans h₂.move
  ended := fun hend => by
    have heq : e₂.status = e₁.status := by rw [h₁.ended hend]
    rw [h₂.ended (heq ▸ hend), h₁.ended hend]

variable {t t' : Table Execution.id} {p : Execution → Prop} [DecidablePred p]
  {f : Execution → Execution}

/-- An assignment to the attempts that have not ended. -/
theorem update (hf : ∀ e, (f e).id = e.id)
    (h : ∀ x e, t.get? x = some e → p e → ¬ e.status.Terminal ∧ (f e).taskId = e.taskId ∧
      (f e).adapterType = e.adapterType ∧ (f e).workdir = e.workdir ∧
      (f e).createdAt = e.createdAt ∧ (f e).startedAt = e.startedAt ∧
      AttemptMove e.status (f e).status) : Retained AttemptKept t (t.update p f hf) := by
  refine .update hf refl fun x e he hp => ?_
  obtain ⟨hopen, htask, hadapter, hdir, hcreated, hstarted, hmove⟩ := h x e he hp
  exact ⟨htask, hadapter, hdir, hcreated, hstarted, hmove, fun hend => absurd hend hopen⟩

end AttemptKept

theorem not_terminal_awaiting {s : ExecutionStatus} (h : s = .awaitingApproval) : ¬ s.Terminal := by
  rw [h]
  decide

theorem AttemptMove.closed {s s' : ExecutionStatus} (h : s = .awaitingApproval) (h' : s'.Terminal) :
    AttemptMove s s' := .inr ⟨not_terminal_awaiting h, .inl h'⟩

theorem closedStatus_terminal (uncertain : Bool) : (closedStatus uncertain).Terminal := by
  cases uncertain <;> decide

theorem reviewExecutionStatus_terminal (completed : Bool) :
    (reviewExecutionStatus completed).Terminal := by
  cases completed <;> decide

theorem outcomeExecutionStatus_moves (outcome : OutcomeStatus) :
    (outcomeExecutionStatus outcome).Terminal ∨
      outcomeExecutionStatus outcome = .awaitingApproval := by
  cases outcome <;> decide

/-- The end that a worker reports for its attempt. -/
theorem AttemptMove.conclude {record : ClaimRecord} {e : Execution} {entry : Time}
    {outcome : TaskOutcome} (h : Fenced l record entry e) :
    AttemptMove e.status
      (outcomeExecutionStatus (recordedOutcome l record e entry outcome).status) := by
  refine .inr ⟨h.2.1, ?_⟩
  by_cases hstop : e.status = .cancelling
  · have hrecorded : (recordedOutcome l record e entry outcome).status = .cancelled ∨
        (recordedOutcome l record e entry outcome).status = .blocked := recordedOutcome_stopped hstop
    rcases hrecorded with ho | ho <;> rw [ho] <;> exact .inl (by decide)
  · exact (outcomeExecutionStatus_moves _).imp_right fun h => .inl ⟨h, hstop⟩

theorem attempts_step (hlawful : lawful) (h : Step env lawful κ l l') :
    Retained AttemptKept l.executions l'.executions := by
  cases h with
  | aside h | bind h | deliver h => exact .of_eq AttemptKept.refl h.executions
  | @retire _ row now htask hqueued hop hpending =>
    unfold retireImported
    split
    · next x hcurrent =>
      obtain ⟨e, he, hs⟩ := hpending x hcurrent
      apply AttemptKept.update (t := l.executions)
      · exact fun _ => rfl
      · intro y r hr hid
        have hy : y = x := (Table.key_of_get? hr).symm.trans hid
        rw [hy, he] at hr
        cases hr
        rw [hs]
        exact ⟨by decide, rfl, rfl, rfl, rfl, rfl, .inr ⟨by decide, .inl (by dsimp only; decide)⟩⟩
    · exact .refl AttemptKept.refl _
  | enter =>
    simp only [upsertTask]
    split <;> exact .refl AttemptKept.refl _
  | start _ _ _ _ _ _ hins => exact .insert AttemptKept.refl hins
  | startFailure _ _ _ hins => exact .insert AttemptKept.refl hins
  | renew =>
    apply Retained.update (t := l.executions)
    · exact fun _ => rfl
    · exact AttemptKept.refl
    · exact fun _ _ _ _ => ⟨rfl, rfl, rfl, rfl, rfl, .inl rfl, fun _ => rfl⟩
  | @conclude _ record e entry outcome _ hfenced =>
    apply AttemptKept.update (t := l.executions)
    · exact fun _ => rfl
    · intro x r hr hid
      have hx : x = record.executionId := (Table.key_of_get? hr).symm.trans hid
      have he : l.executions.get? x = some e := hx ▸ hfenced.1
      rw [show l.executions.get? x = some r from hr] at he
      cases he
      exact ⟨hfenced.2.1, rfl, rfl, rfl, rfl, rfl, .conclude hfenced⟩
  | completeParent =>
    unfold completeParent
    split
    · split_ifs <;> exact .refl AttemptKept.refl _
    · exact .refl AttemptKept.refl _
  | @interrupt _ k t =>
    unfold interruptTask
    cases t.currentExecutionId with
    | none => exact .refl AttemptKept.refl _
    | some x =>
      apply AttemptKept.update (t := l.executions)
      · exact fun _ => rfl
      · intro _ e _ hp
        exact ⟨hp.2, rfl, rfl, rfl, rfl, rfl, .inr ⟨hp.2, .inl (by dsimp only; decide)⟩⟩
  | stopRunning =>
    apply AttemptKept.update (t := l.executions)
    · exact fun _ => rfl
    · intro _ e _ hp
      rw [hp.2]
      exact ⟨by decide, rfl, rfl, rfl, rfl, rfl, .inr ⟨by decide, .inr (.inr ⟨rfl, rfl⟩)⟩⟩
  | @requestStop _ k x now hpromise =>
    apply AttemptKept.update (t := l.executions)
    · exact fun _ => rfl
    · intro y r hr hid
      have hy : y = x := (Table.key_of_get? hr).symm.trans hid
      obtain ⟨e, he, hs⟩ := (hpromise hlawful).execution
      rw [hy, he] at hr
      cases hr
      rcases hs with hs | hs
      · rw [hs]
        exact ⟨by decide, rfl, rfl, rfl, rfl, rfl, .inr ⟨by decide, .inr (.inr ⟨rfl, rfl⟩)⟩⟩
      · rw [hs]
        exact ⟨by decide, rfl, rfl, rfl, rfl, rfl, .inl rfl⟩
  | @closeTask _ k now =>
    apply AttemptKept.update (t := l.executions)
    · exact fun _ => rfl
    · intro _ e _ hp
      refine ⟨hp.2, rfl, rfl, rfl, rfl, rfl, .inr ⟨hp.2, .inl ?_⟩⟩
      dsimp only
      split_ifs <;> decide
  | closeReview =>
    dsimp only
    split_ifs
    all_goals
      apply AttemptKept.update (t := l.executions)
      · exact fun _ => rfl
      · intro _ e _ hp
        exact ⟨not_terminal_awaiting hp.2, rfl, rfl, rfl, rfl, rfl,
          .closed hp.2 (closedStatus_terminal _)⟩
  | settle =>
    apply AttemptKept.update (t := l.executions)
    · exact fun _ => rfl
    · intro _ e _ hp
      exact ⟨not_terminal_awaiting hp.2, rfl, rfl, rfl, rfl, rfl,
        .closed hp.2 (closedStatus_terminal _)⟩
  | @settleReview _ k completed =>
    apply AttemptKept.update (t := l.executions)
    · exact fun _ => rfl
    · intro _ e _ hp
      exact ⟨not_terminal_awaiting hp.2, rfl, rfl, rfl, rfl, rfl,
        .closed hp.2 (reviewExecutionStatus_terminal completed)⟩
  | openDraft =>
    apply AttemptKept.update (t := l.executions)
    · exact fun _ => rfl
    · intro _ e _ hp
      exact ⟨not_terminal_awaiting hp.2, rfl, rfl, rfl, rfl, rfl,
        .closed hp.2 (reviewExecutionStatus_terminal true)⟩
  | _ => exact .refl AttemptKept.refl _

end NyanyaAgent.Invariants
