import NyanyaAgent.Invariants.Claims
import NyanyaAgent.Invariants.Plans
import NyanyaAgent.Invariants.Statuses

/-!
# Halted tasks

A task that is stopping or has stopped, whose claim, if it still holds one, is for an
attempt that was asked to stop. Only a resumption brings it back.
-/
namespace NyanyaAgent.Invariants
open NyanyaAgent.Schema NyanyaAgent.Relational NyanyaAgent.Operations NyanyaAgent.Plans
open NyanyaAgent.Drafts NyanyaAgent.Lifecycle

variable {env : Environment} {lawful : Prop} {κ : Kind} {l l' : Ledger} {k : TaskId}
  {x : ExecutionId} {t t' : Table Execution.id}

/-- An attempt that was asked to stop, or has ended. -/
def Stopped (s : ExecutionStatus) : Prop := s = .cancelling ∨ s.Terminal

/-- The attempt is in the table, and stopped. -/
def StoppedIn (t : Table Execution.id) (x : ExecutionId) : Prop :=
  ∃ e, t.get? x = some e ∧ Stopped e.status

theorem StoppedIn.update {p : Execution → Prop} [DecidablePred p] {f : Execution → Execution}
    (h : StoppedIn t x) (hf : ∀ e, (f e).id = e.id)
    (hs : ∀ e, t.get? x = some e → p e → Stopped e.status → Stopped (f e).status) :
    StoppedIn (t.update p f hf) x := by
  obtain ⟨e, he, hc⟩ := h
  refine ⟨_, by rw [Table.get?_update, he]; rfl, ?_⟩
  dsimp only
  split_ifs with hp
  · exact hs e he hp hc
  · exact hc

theorem StoppedIn.insert {e : Execution} (h : StoppedIn t x) (hins : t.insert e = some t') :
    StoppedIn t' x := by
  obtain ⟨r, hr, hc⟩ := h
  refine ⟨r, ?_, hc⟩
  rw [Table.get?_insert hins, if_neg]
  · exact hr
  · rintro rfl
    rw [Table.get?_of_insert hins] at hr
    cases hr

/-- Settling the waiting attempts of a task leaves the stopped ones alone. -/
theorem not_stopped_awaiting {s : ExecutionStatus} (h : s = .awaitingApproval) : ¬ Stopped s := by
  rw [h]
  rintro (hs | hs | hs | hs | hs | hs) <;> cases hs

/-- What an attempt that was asked to stop is recorded as. -/
theorem recordedOutcome_stopped {record : ClaimRecord} {e : Execution} {entry : Time}
    {outcome : TaskOutcome} (h : e.status = .cancelling) :
    (recordedOutcome l record e entry outcome).status = .cancelled ∨
      (recordedOutcome l record e entry outcome).status = .blocked := by
  unfold recordedOutcome acknowledgedOutcome
  generalize accountedOutcome l record _ = o
  by_cases ho : o.status = .cancelled
  · rw [if_neg fun hc => hc.2 ho]
    exact .inl ho
  · rw [if_pos ⟨h, ho⟩]
    exact .inr rfl

/-- A fenced attempt that is stopped was asked to stop. -/
theorem cancelling_of_fenced {record : ClaimRecord} {entry : Time} {e : Execution}
    (hf : Fenced l record entry e) (hs : StoppedIn l.executions record.executionId) :
    e.status = .cancelling := by
  obtain ⟨r, hr, hstopped⟩ := hs
  rw [hf.1] at hr
  cases hr
  exact hstopped.resolve_right hf.2.1

/-- Nothing makes a stopped attempt run again. -/
theorem StoppedIn.step (h : Step env lawful κ l l') (hstop : StoppedIn l.executions x) :
    StoppedIn l'.executions x := by
  cases h with
  | aside h | bind h | deliver h =>
    rw [h.executions]
    exact hstop
  | retire =>
    unfold retireImported
    split
    · apply StoppedIn.update hstop
      · exact fun _ => rfl
      · exact fun _ _ _ _ => .inr (show ExecutionStatus.cancelled.Terminal by decide)
    · exact hstop
  | enter =>
    simp only [upsertTask]
    split <;> exact hstop
  | start _ _ _ _ _ _ hins => exact hstop.insert hins
  | startFailure _ _ _ hins => exact hstop.insert hins
  | renew =>
    apply StoppedIn.update hstop
    · exact fun _ => rfl
    · exact fun _ _ _ hs => hs
  | @conclude _ record e entry outcome _ hfenced =>
    apply StoppedIn.update hstop
    · exact fun _ => rfl
    · intro r hr hid _
      have hx : x = record.executionId := (Table.key_of_get? hr).symm.trans hid
      subst hx
      have hcancelling := cancelling_of_fenced hfenced hstop
      have hrecorded : (recordedOutcome l record e entry outcome).status = .cancelled ∨
          (recordedOutcome l record e entry outcome).status = .blocked :=
        recordedOutcome_stopped hcancelling
      refine .inr ?_
      rcases hrecorded with ho | ho
      all_goals
        simp only [ho, outcomeExecutionStatus]
        decide
  | completeParent =>
    unfold completeParent
    split
    · split_ifs <;> exact hstop
    · exact hstop
  | @interrupt _ j t₀ =>
    unfold interruptTask
    cases t₀.currentExecutionId with
    | none => exact hstop
    | some y =>
      apply StoppedIn.update hstop
      · exact fun _ => rfl
      · exact fun _ _ _ _ => .inr (show ExecutionStatus.lost.Terminal by decide)
  | stopRunning | requestStop =>
    apply StoppedIn.update hstop
    · exact fun _ => rfl
    · exact fun _ _ _ _ => .inl rfl
  | @closeTask _ j now =>
    apply StoppedIn.update hstop
    · exact fun _ => rfl
    · intro _ _ _ _
      refine .inr ?_
      dsimp only
      split_ifs <;> decide
  | closeReview =>
    dsimp only
    split_ifs
    all_goals
      apply StoppedIn.update hstop
      · exact fun _ => rfl
      · exact fun _ _ hp hs => absurd hs (not_stopped_awaiting hp.2)
  | settle | settleReview | openDraft =>
    apply StoppedIn.update hstop
    · exact fun _ => rfl
    · exact fun _ _ hp hs => absurd hs (not_stopped_awaiting hp.2)
  | _ => exact hstop

/-- The statuses in which the plan of a task can still be applied. -/
def Applicable (s : TaskStatus) : Prop := s = .queued ∨ s = .running ∨ s = .awaitingApproval

/-- The task is stopping or has stopped, and so is the attempt its claim is for. -/
structure Halted (l : Ledger) (k : TaskId) : Prop where
  task : ∃ t, l.tasks.get? k = some t ∧ ¬ Applicable t.status
  claim : ∀ x, ClaimedFor l k x → StoppedIn l.executions x

/-- A status a halted task moves to, but by a resumption or a result, is no more applicable. -/
theorem TaskMove.not_applicable {s s' : TaskStatus} (h : TaskMove κ s s') (hs : ¬ Applicable s)
    (hκ : κ ≠ .requeue ∧ κ ≠ .conclude) : ¬ Applicable s' := by
  unfold Applicable at hs ⊢
  cases h with
  | start => simp at hs
  | conclude => exact absurd rfl hκ.2
  | completeParent => simp at hs
  | requeue => exact absurd rfl hκ.1
  | stopQueued => simp at hs
  | settleReview => simp at hs
  | openDraft => simp at hs
  | closeTask _ h' | settle _ h' | resolveParent _ h' => rcases h' with rfl | rfl <;> simp
  | resolveChild _ h' => rcases h' with rfl | rfl | rfl <;> simp
  | interrupt | stopRunning | requestStop | closeReview => simp

/-- The result of a halted task's attempt leaves it halted. -/
theorem Halted.conclude {record : ClaimRecord} {e : Execution} {entry : Time}
    {outcome : TaskOutcome} {results : Table TaskResult.executionId} (hk : Halted l k)
    (hf : Fenced l record entry e) {r : AgentTask}
    (hr : (holdOperation env record.taskId (recordedOutcome l record e entry outcome)
      { concludeAttempt record (recordedOutcome l record e entry outcome).status entry l with
        results }).tasks.get? k = some r) : ¬ Applicable r.status := by
  obtain ⟨t, ht, hstatus⟩ := hk.task
  simp only [holdOperation, concludeAttempt, Ledger.updateOperation_tasks,
    Ledger.releaseClaim_tasks] at hr
  obtain ⟨t₀, ht₀, ⟨_, rfl⟩ | ⟨rfl, rfl⟩⟩ := updateTask_cases (l := l) hr
  · rw [ht] at ht₀
    cases ht₀
    exact hstatus
  · obtain ⟨_, _, c, hc, _, hx, hreleased, _⟩ := id hf
    have hstop := hk.claim record.executionId ⟨c, hc, hreleased, hx⟩
    have hrecorded : (recordedOutcome l record e entry outcome).status = .cancelled ∨
        (recordedOutcome l record e entry outcome).status = .blocked :=
      recordedOutcome_stopped (cancelling_of_fenced hf hstop)
    rcases hrecorded with ho | ho <;> simp [ho, outcomeTaskStatus, Applicable]

/-- While a plan of the task is being applied, nothing takes the task out of its halt. -/
theorem Halted.step {p : PlanId} {r : ChangePlan} (hk : Halted l k)
    (hr : l.plans.get? p = some r) (hrk : r.taskId = k) (hrs : r.status = .applying)
    (h : Step env True κ l l') : Halted l' k := by
  obtain ⟨t, ht, hstatus⟩ := hk.task
  have htask : ∃ t', l'.tasks.get? k = some t' :=
    of_skeleton_task ((Extends.step h).task k (skeleton_task ht))
  obtain ⟨t', ht'⟩ := htask
  refine ⟨⟨t', ht', ?_⟩, fun x hx => ?_⟩
  · by_cases hκ : κ ≠ .requeue ∧ κ ≠ .conclude
    · rcases task_step trivial h ht' with ⟨t₀, ht₀, hmove⟩ | ⟨_, hnone, _⟩
      · rw [ht] at ht₀
        cases ht₀
        rcases hmove with heq | hmove
        · rw [heq]
          exact hstatus
        · exact hmove.not_applicable hstatus hκ
      · rw [ht] at hnone
        cases hnone
    · cases h with
      | conclude hf => exact hk.conclude hf ht'
      | @requeue _ j t₁ _ _ _ htask _ _ _ _ _ heffects =>
        simp only [requeueTask, Ledger.appendEvent_tasks] at ht'
        obtain ⟨t₀, ht₀, ⟨_, rfl⟩ | ⟨rfl, rfl⟩⟩ := updateTask_cases (l := l) ht'
        · rw [ht] at ht₀
          cases ht₀
          exact hstatus
        · exact absurd hrs (heffects p r hr hrk).1
      | _ => simp at hκ
  · by_cases hκ : κ = .start
    · subst hκ
      have hbefore : ClaimedFor l k x := by
        cases h with
        | start htask _ hqueued _ _ _ hx' hins =>
          rcases ClaimedFor.start hins rfl hx with ⟨rfl, _⟩ | hbefore
          · rw [htask] at ht
            cases ht
            exact absurd (.inl hqueued) hstatus
          · exact hbefore
      exact (hk.claim x hbefore).step h
    · exact (hk.claim x (hx.before h hκ)).step h

end NyanyaAgent.Invariants
