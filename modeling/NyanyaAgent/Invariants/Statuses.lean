import NyanyaAgent.Invariants.AttemptSteps

/-!
# The statuses of tasks

How each change moves the status of a task.
-/
namespace NyanyaAgent.Invariants
open NyanyaAgent.Schema NyanyaAgent.Relational NyanyaAgent.Operations NyanyaAgent.Plans
open NyanyaAgent.Drafts NyanyaAgent.Lifecycle

variable {env : Environment} {lawful : Prop} {κ : Kind} {l l' : Ledger} {k : TaskId}

/-- The moves of a task's status, by the change that makes them. -/
inductive TaskMove : Kind → TaskStatus → TaskStatus → Prop
  | start : TaskMove .start .queued .running
  | conclude (s : TaskStatus) (outcome : OutcomeStatus) :
      TaskMove .conclude s (outcomeTaskStatus outcome)
  | completeParent : TaskMove .completeParent .awaitingApproval .completed
  | interrupt {s : TaskStatus} (h : s = .queued ∨ s = .running ∨ s = .cancelling) :
      TaskMove .interrupt s .blocked
  | requeue {s : TaskStatus} (h : s = .blocked ∨ s = .failed) : TaskMove .requeue s .queued
  | stopQueued : TaskMove .stopQueued .queued .cancelled
  | stopRunning {s : TaskStatus} (h : s = .running ∨ s = .cancelling) :
      TaskMove .stopRunning s .cancelling
  | requestStop {s : TaskStatus} (h : ¬ s.Terminal ∧ s ≠ .blocked) :
      TaskMove .requestStop s .cancelling
  | closeTask (s : TaskStatus) {s' : TaskStatus} (h : s' = .blocked ∨ s' = .cancelled) :
      TaskMove .closeTask s s'
  | closeReview {s : TaskStatus} (h : s.Terminal) : TaskMove .closeReview s .blocked
  | settle (s : TaskStatus) {s' : TaskStatus} (h : s' = .blocked ∨ s' = .cancelled) :
      TaskMove .settle s s'
  | settleReview {s' : TaskStatus} (h : s' = .completed ∨ s' = .cancelled) :
      TaskMove .settleReview .awaitingApproval s'
  | openDraft : TaskMove .openDraft .awaitingApproval .completed
  | resolveParent (s : TaskStatus) {s' : TaskStatus} (h : s' = .completed ∨ s' = .blocked) :
      TaskMove .resolveParent s s'
  | resolveChild {s s' : TaskStatus} (h : s = .blocked ∨ s = .failed)
      (h' : s' = .completed ∨ s' = .cancelled ∨ s' = .blocked) : TaskMove .resolveChild s s'

/-- The kinds of changes that write tasks. -/
def taskKinds : List Kind :=
  [.touch, .enter, .start, .conclude, .completeParent, .interrupt, .requeue, .startFailure,
    .stopQueued, .stopRunning, .requestStop, .closeTask, .closeReview, .settle, .settleReview,
    .openDraft, .resolveParent, .resolveChild]

theorem tasks_eq (h : Step env lawful κ l l') (hκ : κ ∉ taskKinds) : l'.tasks = l.tasks := by
  cases h with
  | aside h | bind h | deliver h => exact h.tasks
  | retire =>
    unfold retireImported
    split <;> rfl
  | touch | enter | start | conclude | completeParent | interrupt | requeue | startFailure
  | stopQueued | stopRunning | requestStop | closeTask | closeReview | settle | settleReview
  | openDraft | resolveParent | resolveChild => simp [taskKinds] at hκ
  | _ => rfl

/-- What an update by key leaves of a row. -/
theorem updateTask_cases {j : TaskId} {f : AgentTask → AgentTask} {hf : ∀ r, (f r).id = r.id}
    {t' : AgentTask} (h : (l.updateTask j f hf).tasks.get? k = some t') :
    ∃ t, l.tasks.get? k = some t ∧ (k ≠ j ∧ t' = t ∨ k = j ∧ t' = f t) := by
  by_cases hk : k = j
  · subst hk
    rw [Ledger.updateTask_get?, Option.map_eq_some_iff] at h
    obtain ⟨t, ht, rfl⟩ := h
    exact ⟨t, ht, .inr ⟨rfl, rfl⟩⟩
  · rw [Ledger.updateTask_get?_ne _ _ _ hk] at h
    exact ⟨t', h, .inl ⟨hk, rfl⟩⟩

/-- A task row after a change is the row before it, moved, or a new one. -/
theorem task_step (hlawful : lawful) (h : Step env lawful κ l l') {t' : AgentTask}
    (ht' : l'.tasks.get? k = some t') :
    (∃ t, l.tasks.get? k = some t ∧ (t'.status = t.status ∨ TaskMove κ t.status t'.status)) ∨
      κ = .enter ∧ l.tasks.get? k = none ∧ t'.status = .queued := by
  by_cases hκ : κ ∈ taskKinds
  · cases h with
    | @touch _ j f hf hsame =>
      obtain ⟨t, ht, ⟨_, rfl⟩ | ⟨rfl, rfl⟩⟩ := updateTask_cases (l := l) ht'
      · exact .inl ⟨_, ht, .inl rfl⟩
      · exact .inl ⟨_, ht, .inl (hsame t).status⟩
    | @enter _ j spec owner root _ source project _ now _ hE hins =>
      by_cases hk : k = j
      · subst hk
        rcases upsertTask_get? (r := acceptedTask env k spec owner root source project now) (l := l)
          ht' with ⟨hnone, rfl⟩ | ⟨t, ht, rfl⟩
        · exact .inr ⟨rfl, hnone, rfl⟩
        · exact .inl ⟨_, ht, .inl rfl⟩
      · refine .inl ⟨t', ?_, .inl rfl⟩
        rw [← upsertTask_get?_ne (acceptedTask env j spec owner root source project now) l hk]
        exact ht'
    | start htask _ hq =>
      simp only [Ledger.appendEvent_tasks, Ledger.updateOperation_tasks] at ht'
      obtain ⟨t, ht, ⟨_, rfl⟩ | ⟨rfl, rfl⟩⟩ := updateTask_cases (l := l) ht'
      · exact .inl ⟨_, ht, .inl rfl⟩
      · rw [htask] at ht
        cases ht
        exact .inl ⟨_, htask, .inr (hq ▸ .start)⟩
    | conclude =>
      simp only [holdOperation, concludeAttempt, Ledger.updateOperation_tasks,
        Ledger.releaseClaim_tasks] at ht'
      obtain ⟨t, ht, ⟨_, rfl⟩ | ⟨rfl, rfl⟩⟩ := updateTask_cases (l := l) ht'
      · exact .inl ⟨_, ht, .inl rfl⟩
      · exact .inl ⟨_, ht, .inr (.conclude _ _)⟩
    | completeParent =>
      unfold completeParent at ht'
      split at ht'
      · next parent hparent =>
        split_ifs at ht' with hs
        · simp only [Ledger.appendEvent_tasks] at ht'
          obtain ⟨t, ht, ⟨_, rfl⟩ | ⟨rfl, rfl⟩⟩ := updateTask_cases (l := l) ht'
          · exact .inl ⟨_, ht, .inl rfl⟩
          · rw [hparent] at ht
            cases ht
            exact .inl ⟨_, hparent, .inr (hs ▸ .completeParent)⟩
        · exact .inl ⟨_, ht', .inl rfl⟩
      · exact .inl ⟨_, ht', .inl rfl⟩
    | @interrupt _ j t₀ _ now htask _ _ hs =>
      have hrow : (l.updateTask j fun t => { t with status := .blocked, updatedAt := now }).tasks.get? k
          = some t' := by
        rw [← ht', interruptTask]
        cases t₀.currentExecutionId <;> rfl
      obtain ⟨t, ht, ⟨_, rfl⟩ | ⟨rfl, rfl⟩⟩ := updateTask_cases hrow
      · exact .inl ⟨_, ht, .inl rfl⟩
      · rw [htask] at ht
        cases ht
        exact .inl ⟨_, htask, .inr (.interrupt hs)⟩
    | requeue htask _ hs =>
      simp only [requeueTask, Ledger.appendEvent_tasks] at ht'
      obtain ⟨t, ht, ⟨_, rfl⟩ | ⟨rfl, rfl⟩⟩ := updateTask_cases (l := l) ht'
      · exact .inl ⟨_, ht, .inl rfl⟩
      · rw [htask] at ht
        cases ht
        exact .inl ⟨_, htask, .inr (.requeue hs)⟩
    | startFailure =>
      simp only [Ledger.appendEvent_tasks, Ledger.updateOperation_tasks] at ht'
      obtain ⟨t, ht, ⟨_, rfl⟩ | ⟨rfl, rfl⟩⟩ := updateTask_cases (l := l) ht'
      · exact .inl ⟨_, ht, .inl rfl⟩
      · exact .inl ⟨_, ht, .inl rfl⟩
    | stopQueued hchild hs =>
      simp only [stopQueuedChild, Ledger.updateOperation_tasks] at ht'
      obtain ⟨t, ht, ⟨_, rfl⟩ | ⟨rfl, rfl⟩⟩ := updateTask_cases (l := l) ht'
      · exact .inl ⟨_, ht, .inl rfl⟩
      · rw [hchild.task] at ht
        cases ht
        exact .inl ⟨_, hchild.task, .inr (hs ▸ .stopQueued)⟩
    | stopRunning hchild hs =>
      simp only [stopRunningChild] at ht'
      obtain ⟨t, ht, ⟨_, rfl⟩ | ⟨rfl, rfl⟩⟩ := updateTask_cases (l := l) ht'
      · exact .inl ⟨_, ht, .inl rfl⟩
      · rw [hchild.task] at ht
        cases ht
        exact .inl ⟨_, hchild.task, .inr (.stopRunning hs)⟩
    | requestStop hpromise =>
      simp only [requestStop] at ht'
      obtain ⟨t, ht, ⟨_, rfl⟩ | ⟨rfl, rfl⟩⟩ := updateTask_cases ht'
      · exact .inl ⟨_, ht, .inl rfl⟩
      · obtain ⟨t₀, ht₀, _, hopen⟩ := (hpromise hlawful).task
        have heq : l.tasks.get? k = some t := ht
        rw [ht₀] at heq
        cases heq
        exact .inl ⟨_, ht₀, .inr (.requestStop hopen)⟩
    | closeTask =>
      simp only [closeTask, Ledger.updateOperation_tasks,
        Ledger.releaseClaim_tasks] at ht'
      obtain ⟨t, ht, ⟨_, rfl⟩ | ⟨rfl, rfl⟩⟩ := updateTask_cases (l := l) ht'
      · exact .inl ⟨_, ht, .inl rfl⟩
      · refine .inl ⟨_, ht, .inr (.closeTask _ ?_)⟩
        dsimp only
        split_ifs <;> simp
    | @closeReview _ j t₀ reason now htask hs =>
      dsimp only at ht'
      split_ifs at ht'
      · simp only [holdReviewEffects, Ledger.appendEvent_tasks] at ht'
        obtain ⟨t, ht, ⟨_, rfl⟩ | ⟨rfl, rfl⟩⟩ := updateTask_cases ht'
        · exact .inl ⟨_, ht, .inl rfl⟩
        · have heq : l.tasks.get? k = some t := ht
          rw [htask] at heq
          cases heq
          exact .inl ⟨_, htask, .inr (.closeReview hs)⟩
      · exact .inl ⟨_, ht', .inl rfl⟩
    | settle =>
      simp only [settleTask, Ledger.appendEvent_tasks, Ledger.updateOperation_tasks] at ht'
      obtain ⟨t, ht, ⟨_, rfl⟩ | ⟨rfl, rfl⟩⟩ := updateTask_cases ht'
      · exact .inl ⟨_, ht, .inl rfl⟩
      · refine .inl ⟨_, ht, .inr (.settle _ ?_)⟩
        dsimp only
        split_ifs <;> simp
    | @settleReview _ j completed now =>
      simp only [settleReview, Table.get?_update, Option.map_eq_some_iff] at ht'
      obtain ⟨t, ht, rfl⟩ := ht'
      refine .inl ⟨t, ht, ?_⟩
      by_cases hs : t.id = j ∧ t.status = .awaitingApproval
      · rw [if_pos hs, hs.2]
        refine .inr (.settleReview ?_)
        cases completed <;> simp
      · rw [if_neg hs]
        exact .inl rfl
    | openDraft _ _ _ hsource =>
      simp only [settleReview, fillDraft, Ledger.updateDraft, Table.get?_update,
        Option.map_eq_some_iff] at ht'
      obtain ⟨t, ht, rfl⟩ := ht'
      refine .inl ⟨t, ht, ?_⟩
      split_ifs with hs
      · rw [hs.2]
        exact .inr .openDraft
      · exact .inl rfl
    | @resolveParent _ j _ complete now =>
      simp only [resolveParent, Ledger.updateOperation_tasks] at ht'
      obtain ⟨t, ht, ⟨_, rfl⟩ | ⟨rfl, rfl⟩⟩ := updateTask_cases (l := l) ht'
      · exact .inl ⟨_, ht, .inl rfl⟩
      · refine .inl ⟨_, ht, .inr (.resolveParent _ ?_)⟩
        dsimp only
        split_ifs <;> simp
    | @resolveChild _ j _ p _ complete now _ _ _ hpromise =>
      simp only [resolveChild, Ledger.appendEvent_tasks] at ht'
      obtain ⟨t, ht, ⟨_, rfl⟩ | ⟨rfl, rfl⟩⟩ := updateTask_cases (l := l) ht'
      · exact .inl ⟨_, ht, .inl rfl⟩
      · obtain ⟨t₀, ht₀, hheld⟩ := hpromise hlawful
        rw [ht] at ht₀
        cases ht₀
        refine .inl ⟨_, ht, .inr (.resolveChild hheld ?_)⟩
        dsimp only [childStatus]
        split_ifs <;> simp
    | _ => simp [taskKinds] at hκ
  · rw [tasks_eq h hκ] at ht'
    exact .inl ⟨t', ht', .inl rfl⟩

end NyanyaAgent.Invariants
