import NyanyaAgent.Invariants.Attempts

/-!
# Every change keeps tasks and attempts sound

One lemma for each kind of change that is about a task: what it leaves of the rows
of that task, and that it leaves those of every other task alone.
-/
namespace NyanyaAgent.Invariants
open NyanyaAgent.Schema NyanyaAgent.Relational NyanyaAgent.Operations NyanyaAgent.Plans
open NyanyaAgent.Drafts NyanyaAgent.Lifecycle

variable {env : Environment} {lawful : Prop} {κ : Kind} {l l' : Ledger} {j k : TaskId}

theorem attemptView_of {x : ExecutionId} {e : Execution} (h : l.executions.get? x = some e) :
    attemptView l x = some (e.taskId, attemptEffect e.status) := by
  simp [attemptView, h]

/-- The view of an attempt after an update of the executions. -/
theorem attemptView_update (l : Ledger) (p : Execution → Prop) [DecidablePred p]
    (f : Execution → Execution) (hf : ∀ e, (f e).id = e.id) (hk : ∀ e, (f e).taskId = e.taskId)
    (x : ExecutionId) (a : AttemptEffect) :
    attemptView { l with executions := l.executions.update p f hf } x = some (k, a) ↔
      ∃ e, l.executions.get? x = some e ∧ e.taskId = k ∧
        attemptEffect (if p e then (f e).status else e.status) = a := by
  rw [attemptView_eq_some]
  simp only [Table.get?_update, Option.map_eq_some_iff]
  constructor
  · rintro ⟨_, ⟨e, he, rfl⟩, hk', ha⟩
    refine ⟨e, he, ?_, ?_⟩ <;> split_ifs at * <;> simp_all
  · rintro ⟨e, he, hk', ha⟩
    refine ⟨_, ⟨e, he, rfl⟩, ?_, ?_⟩ <;> split_ifs at * <;> simp_all

/-- An update that keeps what every attempt leaves to account for. -/
theorem attemptView_kept (l : Ledger) (p : Execution → Prop) [DecidablePred p]
    (f : Execution → Execution) (hf : ∀ e, (f e).id = e.id) (hk : ∀ e, (f e).taskId = e.taskId)
    (h : ∀ x e, l.executions.get? x = some e → p e →
      attemptEffect (f e).status = attemptEffect e.status) (x : ExecutionId) :
    attemptView { l with executions := l.executions.update p f hf } x = attemptView l x := by
  unfold attemptView
  simp only [Table.get?_update, Option.map_map]
  cases he : l.executions.get? x with
  | none => rfl
  | some e =>
    simp only [Option.map_some, Function.comp_apply]
    split_ifs with hp
    · rw [hk, h x e he hp]
    · rfl

theorem Same.touch (f : AgentTask → AgentTask) (hf : ∀ t, (f t).id = t.id)
    (h : ∀ t, SameTask t (f t)) : Same j l (l.updateTask k f hf) := by
  refine ⟨?_, rfl, rfl, fun _ _ => .rfl, id, fun _ => id⟩
  exact Table.map_get?_update l.tasks _ f hf j _ fun t => by rw [(h t).status, (h t).current]

theorem Same.renew (record : ClaimRecord) (entry : Time) :
    Same j l ({ l with claims := l.claims.update (Renewable record entry) fun c =>
        { c with expiresAt := entry + seconds 30 } }.updateExecution record.executionId fun e =>
      { e with lastHeartbeatAt := some entry }) := by
  refine ⟨rfl, rfl, ?_, fun x a => ?_, id, fun _ => id⟩
  · refine Table.map_get?_update l.claims _ _ ?_ j _ ?_ <;> exact fun _ => rfl
  · rw [Ledger.updateExecution, attemptView_kept]
    · rfl
    · exact fun _ => rfl
    · exact fun _ _ _ _ => rfl

theorem Same.retire {row : AgentTask} {now : Time}
    (pending : ∀ x, row.currentExecutionId = some x → ∃ e, l.executions.get? x = some e ∧
      e.status = .pending) : Same j l (retireImported row now l) := by
  unfold retireImported
  split
  · next x hx =>
    obtain ⟨e, he, hs⟩ := pending x hx
    refine ⟨rfl, rfl, rfl, fun y a => ?_, id, fun _ => id⟩
    rw [Ledger.updateExecution, attemptView_kept]
    · exact fun _ => rfl
    · intro z e' he' hz
      rw [← Table.key_of_get? he', hz, he] at he'
      cases he'
      rw [hs]
      rfl
  · exact .refl j l

/-- Ending a review leaves nothing to account for. -/
theorem attemptView_settleReview (k : TaskId) (completed : Bool) (now : Time) (x : ExecutionId) :
    attemptView (settleReview k completed now l) x = attemptView l x := by
  refine attemptView_kept l _ (fun e => { e with
    status := reviewExecutionStatus completed, endedAt := some now, updatedAt := now }) ?_ ?_ ?_ x
  · exact fun _ => rfl
  · rintro y e _ ⟨_, hs⟩
    rw [hs]
    cases completed <;> rfl

theorem Same.settleReview_ne {completed : Bool} {now : Time} (h : j ≠ k) :
    Same j l (settleReview k completed now l) := by
  refine ⟨?_, rfl, rfl, fun x a => by rw [attemptView_settleReview], id, fun _ => id⟩
  unfold taskView settleReview
  simp only [Table.get?_update]
  cases ht : l.tasks.get? j with
  | none => rfl
  | some t => simp [Table.key_of_get? ht, h]

theorem Same.settleReview_open {completed : Bool} {now : Time}
    (h : ∀ t, l.tasks.get? k = some t → t.status ≠ .awaitingApproval) :
    Same j l (settleReview k completed now l) := by
  refine ⟨?_, rfl, rfl, fun x a => by rw [attemptView_settleReview], id, fun _ => id⟩
  unfold taskView settleReview
  simp only [Table.get?_update]
  cases ht : l.tasks.get? j with
  | none => rfl
  | some t =>
    rw [Option.map_some, if_neg]
    rintro ⟨hk, hs⟩
    rw [Table.key_of_get? ht] at hk
    exact h t (hk ▸ ht) hs

theorem Sound.settleReview (hs : ∀ j, Sound l j) (completed : Bool) (now : Time) :
    ∀ j, Sound (settleReview k completed now l) j := by
  by_cases h : ∃ t, l.tasks.get? k = some t ∧ t.status = .awaitingApproval
  · obtain ⟨t, ht, hst⟩ := h
    refine sound_of_local hs (fun j hj => .settleReview_ne hj) ((hs k).settles_idle ?_
      ((hs k).idle ht (by simp [hst])))
    refine ⟨fun t' ht' => ?_, fun o ho => ⟨o, ho, rfl, rfl, rfl⟩, fun c hc => ⟨c, hc, rfl, id⟩,
      fun x a ha => ⟨a, by rwa [attemptView_settleReview]⟩,
      fun x hx => by rwa [attemptView_settleReview] at hx, fun _ => id⟩
    simp only [Drafts.settleReview, Table.get?_update, ht, Option.map_some, Option.some.injEq] at ht'
    rw [if_pos ⟨Table.key_of_get? ht, hst⟩] at ht'
    cases ht'
    refine ⟨?_, t, ht, rfl⟩
    cases completed <;> simp
  · exact fun j => (hs j).same (.settleReview_open fun t ht hst => h ⟨t, ht, hst⟩)

/-- An update of the executions that lets no attempt run again. -/
theorem attempts_settle (p : Execution → Prop) [DecidablePred p] (f : Execution → Execution)
    (hf : ∀ e, (f e).id = e.id) (hk : ∀ e, (f e).taskId = e.taskId)
    (ha : ∀ e, p e → attemptEffect (f e).status = .active → attemptEffect e.status = .active) :
    (∀ x a, attemptView l x = some (k, a) → ∃ a',
      attemptView { l with executions := l.executions.update p f hf } x = some (k, a')) ∧
    ∀ x, attemptView { l with executions := l.executions.update p f hf } x = some (k, .active) →
      attemptView l x = some (k, .active) := by
  constructor
  · intro x a hx
    obtain ⟨e, he, hek, _⟩ := attemptView_eq_some.mp hx
    exact ⟨_, (attemptView_update l p f hf hk x _).mpr ⟨e, he, hek, rfl⟩⟩
  · intro x hx
    obtain ⟨e, he, hek, hs⟩ := (attemptView_update l p f hf hk x _).mp hx
    refine attemptView_eq_some.mpr ⟨e, he, hek, ?_⟩
    split_ifs at hs with hp
    · exact ha e hp hs
    · exact hs

/-- The rows of a task whose own row, operation, claim and attempts may change. -/
theorem Settles.rows {f : AgentTask → AgentTask} {g : TaskOperation → TaskOperation}
    (ht : l'.tasks.get? k = (l.tasks.get? k).map f)
    (ho : l'.operations.get? k = (l.operations.get? k).map g)
    (hc : l'.claims.get? k = l.claims.get? k ∨ l'.claims.get? k = (l.releaseClaim k).claims.get? k)
    (hq : ∀ t, l.tasks.get? k = some t → (f t).status ≠ .queued ∧
      (f t).currentExecutionId = t.currentExecutionId)
    (hg : ∀ o, (g o).attempts = o.attempts ∧ (g o).maxAttempts = o.maxAttempts ∧
      (g o).workerGeneration = o.workerGeneration)
    (hx : (∀ x a, attemptView l x = some (k, a) → ∃ a', attemptView l' x = some (k, a')) ∧
      ∀ x, attemptView l' x = some (k, .active) → attemptView l x = some (k, .active))
    (hw : l'.workers = l.workers) : Settles k l l' where
  task t' ht' := by
    rw [ht] at ht'
    obtain ⟨t, hrow, rfl⟩ := Option.map_eq_some_iff.mp ht'
    exact ⟨(hq t hrow).1, t, hrow, (hq t hrow).2⟩
  operation o' ho' := by
    rw [ho] at ho'
    obtain ⟨o, hrow, rfl⟩ := Option.map_eq_some_iff.mp ho'
    exact ⟨o, hrow, hg o⟩
  claim c' hc' := by
    rcases hc with hc | hc
    · exact ⟨c', hc ▸ hc', rfl, id⟩
    · rw [hc, Ledger.releaseClaim_get?] at hc'
      obtain ⟨c, hrow, rfl⟩ := Option.map_eq_some_iff.mp hc'
      exact ⟨c, hrow, rfl, fun _ => rfl⟩
  attempt := hx.1
  origin := hx.2
  workers w h := hw ▸ h

theorem attempts_same : (∀ x a, attemptView l x = some (k, a) → ∃ a', attemptView l x = some (k, a')) ∧
    ∀ x, attemptView l x = some (k, .active) → attemptView l x = some (k, .active) :=
  ⟨fun _ a h => ⟨a, h⟩, fun _ => id⟩

theorem Sound.completeParent (hs : ∀ j, Sound l j) (plan : ChangePlan) (entry : Time) :
    ∀ j, Sound (completeParent k plan entry l) j := by
  unfold Operations.completeParent
  cases ht : l.tasks.get? plan.taskId with
  | none => exact hs
  | some t =>
    dsimp only
    split_ifs with hst
    · refine sound_of_local hs (k := plan.taskId)
        (fun j hj => (Same.updateTask _ _ hj).trans (.appendEvent _))
        ((hs _).settles_idle ?_ ((hs _).idle ht (by simp [hst])))
      refine .rows (f := fun t => { t with
        status := .completed, completedAt := some entry, updatedAt := entry }) (g := id)
        ?_ ?_ (.inl rfl) ?_ ?_ attempts_same rfl
      · simp
      · simp
      · simp
      · exact fun _ => ⟨rfl, rfl, rfl⟩
    · exact hs

theorem Sound.stopQueued {t : AgentTask} (hs : ∀ j, Sound l j) (ht : l.tasks.get? k = some t)
    (hst : t.status = .queued) (reason : String) (now : Time) :
    ∀ j, Sound (stopQueuedChild k reason now l) j := by
  unfold stopQueuedChild
  refine sound_of_local hs
    (fun j hj => (Same.updateTask _ _ hj).trans (.updateOperation _ _ hj))
    ((hs k).settles_idle ?_ ((hs k).idle ht (by simp [hst])))
  refine .rows (f := fun t => { t with
    status := .cancelled, completedAt := some now, updatedAt := now })
    (g := fun o => { o with eligible := false, holdReason := reason })
    ?_ ?_ (.inl rfl) ?_ ?_ attempts_same rfl
  · simp
  · simp
  · simp
  · exact fun _ => ⟨rfl, rfl, rfl⟩

theorem closeReview_attempts (k j : TaskId) (reason : CloseReason) (uncertain : Bool) (now : Time) :
    (∀ x a, attemptView l x = some (j, a) →
      ∃ a', attemptView (closeReviewExecutions k reason uncertain now l) x = some (j, a')) ∧
    ∀ x, attemptView (closeReviewExecutions k reason uncertain now l) x = some (j, .active) ↔
      attemptView l x = some (j, .active) := by
  let f : Execution → Execution := fun e => { e with
    status := closedStatus uncertain, error := s!"Review plan {reason.text}", endedAt := some now
    updatedAt := now }
  have h := attempts_settle (l := l) (k := j) (fun e => e.taskId = k ∧ e.status = .awaitingApproval)
    f (fun _ => rfl) (fun _ => rfl) (by
      intro e _ he
      cases uncertain <;> cases he)
  refine ⟨h.1, fun x => ⟨h.2 x, fun hx => ?_⟩⟩
  obtain ⟨e, he, hk, ha⟩ := attemptView_eq_some.mp hx
  refine (attemptView_update l _ f (fun _ => rfl) (fun _ => rfl) x _).mpr ⟨e, he, hk, ?_⟩
  rw [if_neg]
  · exact ha
  · rintro ⟨_, hst⟩
    rw [hst] at ha
    cases ha

theorem Same.closeReview {reason : CloseReason} {uncertain : Bool} {now : Time} (h : j ≠ k) :
    Same j l (closeReviewExecutions k reason uncertain now l) := by
  refine ⟨rfl, rfl, rfl, fun x a => ?_, id, fun _ => id⟩
  refine (Same.executions (l := l) _ _ ?_ ?_ ?_).attempt x a
  · exact fun _ => rfl
  · rintro y e _ ⟨hk, _⟩ hj
    exact absurd (hj.symm.trans hk) h

theorem Sound.closeReview {t : AgentTask} (hs : ∀ j, Sound l j) (ht : l.tasks.get? k = some t)
    (hst : t.status.Terminal) (reason : CloseReason) (uncertain : Bool) (now : Time) :
    ∀ j, Sound (closeReviewExecutions k reason uncertain now l) j := by
  obtain ⟨hattempt, hactive⟩ := closeReview_attempts (l := l) k k reason uncertain now
  have hidle := (hs k).idle ht (by rcases hst with h | h | h <;> simp [h])
  refine sound_of_local hs (fun j hj => .closeReview hj) ((hs k).settles_idle ?_ hidle)
  refine .rows (f := id) (g := id) ?_ ?_ (.inl rfl) ?_ ?_ ⟨hattempt, fun x => (hactive x).mp⟩ rfl
  · simp [closeReviewExecutions]
  · simp [closeReviewExecutions]
  · intro t' ht'
    rw [ht] at ht'
    cases ht'
    refine ⟨?_, rfl⟩
    rcases hst with h | h | h <;> simp [h]
  · exact fun _ => ⟨rfl, rfl, rfl⟩

theorem Sound.holdReview {t : AgentTask} (hs : ∀ j, Sound l j) (ht : l.tasks.get? k = some t)
    (hst : t.status.Terminal) (now : Time) : ∀ j, Sound (holdReviewEffects k now l) j := by
  have hidle := (hs k).idle ht (by rcases hst with h | h | h <;> simp [h])
  refine sound_of_local hs (fun j hj => (Same.updateTask _ _ hj).trans (.appendEvent _))
    ((hs k).settles_idle ?_ hidle)
  refine .rows (f := fun t => { t with
    status := .blocked, completedAt := none, updatedAt := now }) (g := id)
    ?_ ?_ (.inl rfl) ?_ ?_ attempts_same rfl
  · simp [holdReviewEffects]
  · simp [holdReviewEffects]
  · simp
  · exact fun _ => ⟨rfl, rfl, rfl⟩

theorem Sound.resolveChild {t : AgentTask} {o : TaskOperation} (hs : ∀ j, Sound l j)
    (hlinks : Linked (skeleton l)) (ho : l.operations.get? k = some o) (hkind : o.spec.kind = .apply)
    (ht : l.tasks.get? k = some t) (hst : t.status = .blocked ∨ t.status = .failed) (p : PlanId)
    (complete : Bool) (now : Time) : ∀ j, Sound (resolveChild p complete now l k) j := by
  have hplan : ¬ Planned l k := by
    rintro ⟨q, r, hr, hk⟩
    obtain ⟨_, hreq⟩ := hlinks.plan q _ (skeleton_plan hr)
    have := hreq o.spec o.parentTaskId (by
      rw [show (planCore r).taskId = k from hk]
      exact skeleton_operation ho)
    rw [hkind] at this
    cases this
  have hidle := (hs k).idle ht (by rcases hst with h | h <;> simp [h, hplan])
  refine sound_of_local hs (fun j hj => (Same.updateTask _ _ hj).trans (.appendEvent _))
    ((hs k).settles_idle ?_ hidle)
  refine .rows (f := fun t => { t with
    status := childStatus complete (decide (UnresolvedEffects l k)), updatedAt := now
    completedAt := if childStatus complete (decide (UnresolvedEffects l k)) = .blocked then none
      else some now }) (g := id) ?_ ?_ (.inl rfl) ?_ ?_ attempts_same rfl
  · simp [Plans.resolveChild]
  · simp [Plans.resolveChild]
  · intro _ _
    refine ⟨?_, rfl⟩
    simp only [childStatus]
    split_ifs <;> simp
  · exact fun _ => ⟨rfl, rfl, rfl⟩

/-- The attempts of a task after some of its own were ended for good. -/
theorem Same.ended (p : Execution → Prop) [DecidablePred p] (f : Execution → Execution)
    (hf : ∀ e, (f e).id = e.id) (hk : ∀ e, (f e).taskId = e.taskId)
    (hp : ∀ x e, l.executions.get? x = some e → p e → e.taskId = k) (h : j ≠ k) :
    Same j l { l with executions := l.executions.update p f hf } :=
  .executions p f hf hk fun x e he hpe hj => absurd (hj.symm.trans (hp x e he hpe)) h

theorem Sound.closeTask (hs : ∀ j, Sound l j) (uncertain : Bool) (now : Time) :
    ∀ j, Sound (closeTask k uncertain now l) j := by
  let f : Execution → Execution := fun e => { e with
    status := if uncertain then .lost else .cancelled, error := uncertainDiagnosis uncertain
    endedAt := some now, updatedAt := now }
  have hf : ∀ e, attemptEffect (f e).status ≠ .active := by
    intro e
    cases uncertain <;> simp [f, attemptEffect]
  have hx := attempts_settle (l := l) (k := k) (fun e => e.taskId = k ∧ ¬ e.status.Terminal) f
    (fun _ => rfl) (fun _ => rfl) fun e _ he => absurd he (hf e)
  refine sound_of_local hs ?_ ((hs k).settles ?_ ?_ ?_)
  · intro j hj
    refine (((Same.updateTask _ _ hj).trans (.releaseClaim hj)).trans (.ended _ f ?_ ?_ ?_ hj)).trans
      (.updateOperation _ _ hj)
    · exact fun _ => rfl
    · exact fun _ => rfl
    · exact fun _ _ _ hp => hp.1
  · refine .rows (f := fun t => { t with
      status := if uncertain then .blocked else .cancelled, updatedAt := now
      completedAt := if uncertain then none else some now })
      (g := fun o => { o with
        holdReason := if uncertain then "cancellation_unconfirmed" else "cancelled"
        diagnosis := uncertainDiagnosis uncertain, eligible := false })
      ?_ ?_ (.inr rfl) ?_ ?_ hx rfl
    · simp [Operations.closeTask, Ledger.releaseClaim]
    · simp [Operations.closeTask, Ledger.releaseClaim]
    · intro _ _
      refine ⟨?_, rfl⟩
      cases uncertain <;> simp
    · exact fun _ => ⟨rfl, rfl, rfl⟩
  · intro c o hc _
    change (l.releaseClaim k).claims.get? k = some c at hc
    rw [Ledger.releaseClaim_get?, Option.map_eq_some_iff] at hc
    obtain ⟨c₀, _, rfl⟩ := hc
    rfl
  · intro x o _ hactive
    obtain ⟨e, he, hk, ha⟩ :=
      (attemptView_update l _ f (fun _ => rfl) (fun _ => rfl) x .active).mp hactive
    split_ifs at ha with hp
    · exact hf e ha
    · refine hp ⟨hk, ?_⟩
      rintro (h | h | h | h | h) <;> simp [h, attemptEffect] at ha

theorem Sound.interrupt {t : AgentTask} {o : TaskOperation} (hs : ∀ j, Sound l j)
    (ht : l.tasks.get? k = some t) (ho : l.operations.get? k = some o) (now : Time) :
    ∀ j, Sound (interruptTask now l (k, t.currentExecutionId)) j := by
  -- A held claim names the current attempt, so without one nothing is held.
  cases hcur : t.currentExecutionId with
  | none =>
    refine sound_of_local hs (fun j hj => ((Same.updateOperation _ _ hj).trans
      (.updateTask _ _ hj)).trans (.appendEvent _)) ((hs k).settles_idle ?_ ?_)
    · refine .rows (f := fun t => { t with status := .blocked, updatedAt := now })
        (g := fun o => { o with
          eligible := false, holdReason := "worker_interrupted", diagnosis := interruptionReason })
        ?_ ?_ (.inl rfl) ?_ ?_ attempts_same rfl
      · simp [interruptTask]
      · simp [interruptTask]
      · simp
      · exact fun _ => ⟨rfl, rfl, rfl⟩
    · intro c o' hc ho'
      by_contra hr
      obtain ⟨_, t', ht', hx, _⟩ := (hs k).held c o' hc (Bool.eq_false_iff.mpr hr) ho'
      rw [ht] at ht'
      cases ht'
      rw [hcur] at hx
      cases hx
  | some x =>
    let f : Execution → Execution := fun e => { e with
      status := .lost, error := interruptionReason, endedAt := some now, updatedAt := now }
    obtain ⟨a, ha⟩ := (hs k).current t o x ht ho hcur
    obtain ⟨e, he, hek, _⟩ := attemptView_eq_some.mp ha
    have hx := attempts_settle (l := l) (k := k) (fun e => e.id = x ∧ ¬ e.status.Terminal) f
      (fun _ => rfl) (fun _ => rfl) (by
        intro e _ he
        cases he)
    refine sound_of_local hs ?_ ((hs k).settles ?_ ?_ ?_)
    · intro j hj
      refine ((((Same.updateOperation _ _ hj).trans (.updateTask _ _ hj)).trans
        (.ended (fun e => e.id = x ∧ ¬ e.status.Terminal) f ?_ ?_ ?_ hj)).trans
        (.releaseClaim hj)).trans (.appendEvent _)
      · exact fun _ => rfl
      · exact fun _ => rfl
      · intro y e' he' hp
        have hy : y = x := (Table.key_of_get? he').symm.trans hp.1
        rw [hy] at he'
        exact Option.some.inj (he'.symm.trans he) ▸ hek
    · refine .rows (f := fun t => { t with status := .blocked, updatedAt := now })
        (g := fun o => { o with
          eligible := false, holdReason := "worker_interrupted", diagnosis := interruptionReason })
        ?_ ?_ (.inr rfl) ?_ ?_ hx rfl
      · simp [interruptTask, loseAttempt]
      · simp [interruptTask, loseAttempt]
      · simp
      · exact fun _ => ⟨rfl, rfl, rfl⟩
    · intro c _ hc _
      change (l.releaseClaim k).claims.get? k = some c at hc
      rw [Ledger.releaseClaim_get?, Option.map_eq_some_iff] at hc
      obtain ⟨c₀, _, rfl⟩ := hc
      rfl
    · intro y o' _ hactive
      obtain ⟨e', he', hk', ha'⟩ :=
        (attemptView_update l _ f (fun _ => rfl) (fun _ => rfl) y .active).mp hactive
      split_ifs at ha' with hp
      · cases ha'
      · obtain ⟨c, hc, hcx, hr⟩ := (hs k).active y o
          (attemptView_eq_some.mpr ⟨e', he', hk', ha'⟩) ho
        obtain ⟨_, t', ht', hxt, _⟩ := (hs k).held c o hc hr ho
        rw [ht] at ht'
        cases ht'
        rw [hcur, hcx] at hxt
        refine hp ⟨(Table.key_of_get? he').trans (Option.some.inj hxt).symm, ?_⟩
        rintro (h | h | h | h | h) <;> simp [h, attemptEffect] at ha'

theorem holdOperation_row (env : Environment) (k : TaskId) (outcome : TaskOutcome) (l : Ledger) :
    ∃ g : TaskOperation → TaskOperation,
      (holdOperation env k outcome l).operations.get? k = (l.operations.get? k).map g ∧
      ∀ o, (g o).attempts = o.attempts ∧ (g o).maxAttempts = o.maxAttempts ∧
        (g o).workerGeneration = o.workerGeneration := by
  unfold holdOperation
  refine ⟨_, Ledger.updateOperation_get? l k _ ?_, ?_⟩
  · exact fun _ => rfl
  · exact fun _ => ⟨rfl, rfl, rfl⟩

/-- The status a settlement gives the task itself. -/
theorem settleTask_rows (k : TaskId) (reason : CloseReason) (uncertain : Bool) (now : Time)
    (l : Ledger) :
    ((settleTask k reason uncertain now l).tasks.get? k = (l.tasks.get? k).map fun t => { t with
      status := if uncertain then .blocked else .cancelled
      completedAt := if uncertain then none else some now, updatedAt := now }) ∧
    (settleTask k reason uncertain now l).operations.get? k = (l.operations.get? k).map fun o =>
      { o with eligible := false, holdReason := s!"plan_{reason.text}"
               diagnosis := if uncertain then "File effects require reconciliation" else
                 s!"Review plan {reason.text} without file apply" } := by
  simp [settleTask]

theorem resolveParent_rows (k : TaskId) (complete unresolved : Bool) (now : Time) (l : Ledger) :
    ((resolveParent k complete unresolved now l).tasks.get? k = (l.tasks.get? k).map fun t =>
      { t with status := if complete && !unresolved then .completed else .blocked, updatedAt := now
               completedAt := if complete && !unresolved then some now else none }) ∧
    (resolveParent k complete unresolved now l).operations.get? k =
      (l.operations.get? k).map fun o =>
        { o with eligible := false, holdReason := resolutionHold complete unresolved
                 diagnosis := resolutionDiagnosis complete unresolved } := by
  simp [Plans.resolveParent]

theorem outcomeTaskStatus_ne_queued (outcome : OutcomeStatus) :
    outcomeTaskStatus outcome ≠ .queued := by
  cases outcome <;> simp [outcomeTaskStatus]

theorem outcomeExecutionStatus_not_active (outcome : OutcomeStatus) :
    attemptEffect (outcomeExecutionStatus outcome) ≠ .active := by
  cases outcome <;> simp [outcomeExecutionStatus, attemptEffect]

/-- The attempt of a fenced result is one of its task. -/
theorem Sound.of_fenced {record : ClaimRecord} {e : Execution} {entry : Time}
    (hs : ∀ j, Sound l j) (h : Fenced l record entry e) : e.taskId = record.taskId := by
  obtain ⟨he, _, c, hc, _, hx, _⟩ := h
  obtain ⟨a, ha⟩ := (hs record.taskId).claim c hc
  rw [hx, attemptView_of he] at ha
  exact (Prod.mk.inj (Option.some.inj ha)).1

theorem Sound.conclude {record : ClaimRecord} {e : Execution} {entry : Time} (outcome : TaskOutcome)
    (results : Table TaskResult.executionId) (hs : ∀ j, Sound l j) (h : Fenced l record entry e) :
    ∀ j, Sound (holdOperation env record.taskId outcome
      { concludeAttempt record outcome.status entry l with results }) j := by
  have hek := Sound.of_fenced hs h
  obtain ⟨he, _, c, hc, _, hx, _⟩ := h
  let f : Execution → Execution := fun e => { e with
    status := outcomeExecutionStatus outcome.status, updatedAt := entry
    endedAt := if (outcomeExecutionStatus outcome.status).Terminal then some entry else none }
  have hview := attempts_settle (l := l) (k := record.taskId) (fun e => e.id = record.executionId) f
    (fun _ => rfl) (fun _ => rfl) fun e _ ha =>
      absurd ha (outcomeExecutionStatus_not_active outcome.status)
  refine sound_of_local hs (k := record.taskId) ?_ ((hs record.taskId).settles ?_ ?_ ?_)
  · intro j hj
    have hsame : Same j l (concludeAttempt record outcome.status entry l) := by
      refine ((Same.ended (fun e => e.id = record.executionId) f ?_ ?_ ?_ hj).trans
        (.updateTask _ _ hj)).trans (.releaseClaim hj)
      · exact fun _ => rfl
      · exact fun _ => rfl
      · intro y e' he' hp
        rw [← Table.key_of_get? he', hp, he] at he'
        exact Option.some.inj he' ▸ hek
    have hresults : Same j l { concludeAttempt record outcome.status entry l with results } :=
      ⟨hsame.task, hsame.operation, hsame.claim, hsame.attempt, hsame.planned, hsame.workers⟩
    exact hresults.trans (.updateOperation _ _ hj)
  · obtain ⟨g, hop, hg⟩ := holdOperation_row env record.taskId outcome
      { concludeAttempt record outcome.status entry l with results }
    refine .rows (f := fun t => { t with
      status := outcomeTaskStatus outcome.status, updatedAt := entry
      completedAt := if (outcomeTaskStatus outcome.status).Terminal then some entry else none })
      ?_ hop (.inr rfl) ?_ hg hview rfl
    · simp [holdOperation, concludeAttempt]
    · exact fun _ _ => ⟨outcomeTaskStatus_ne_queued _, rfl⟩
  · intro c' o hc' _
    change (l.releaseClaim record.taskId).claims.get? record.taskId = some c' at hc'
    rw [Ledger.releaseClaim_get?, Option.map_eq_some_iff] at hc'
    obtain ⟨c₀, _, rfl⟩ := hc'
    rfl
  · intro y o ho hactive
    obtain ⟨e', he', hk', ha'⟩ :=
      (attemptView_update l _ f (fun _ => rfl) (fun _ => rfl) y .active).mp hactive
    split_ifs at ha' with hp
    · exact outcomeExecutionStatus_not_active outcome.status ha'
    · have ho' : (l.operations.get? record.taskId).isSome = true := by
        have := congrArg Option.isSome ho
        rwa [holdOperation, Ledger.updateOperation_get?, Option.isSome_map] at this
      obtain ⟨o₀, ho₀⟩ := Option.isSome_iff_exists.mp ho'
      obtain ⟨c', hc', hcx, _⟩ := (hs record.taskId).active y o₀
        (attemptView_eq_some.mpr ⟨e', he', hk', ha'⟩) ho₀
      rw [hc] at hc'
      cases hc'
      exact hp ((Table.key_of_get? he').trans (hcx.symm.trans hx))

theorem Sound.stopRunning {t : AgentTask} (hs : ∀ j, Sound l j) (ht : l.tasks.get? k = some t)
    (hst : t.status = .running ∨ t.status = .cancelling) (now : Time) :
    ∀ j, Sound (stopRunningChild k now l) j := by
  let f : Execution → Execution := fun e => { e with status := .cancelling, updatedAt := now }
  have hview : ∀ x, attemptView (stopRunningChild k now l) x = attemptView l x := by
    refine attemptView_kept l _ f (fun _ => rfl) (fun _ => rfl) ?_
    rintro x e _ ⟨_, he⟩
    rw [he]
    rfl
  refine sound_of_local hs (fun j hj => ?_) ((hs k).retains ?_ rfl ?_ ?_ ?_)
  · refine (Same.updateTask _ _ hj).trans (.ended (fun e => e.taskId = k ∧ e.status = .running) f
      ?_ ?_ ?_ hj)
    · exact fun _ => rfl
    · exact fun _ => rfl
    · exact fun _ _ _ hp => hp.1
  · refine .rows (f := fun t => { t with status := .cancelling, updatedAt := now }) (g := id)
      ?_ ?_ (.inl rfl) ?_ ?_ ⟨fun x a ha => ⟨a, by rw [hview, ha]⟩, fun x hx => by rwa [hview] at hx⟩
      rfl
    · simp [stopRunningChild]
    · simp [stopRunningChild]
    · simp
    · exact fun _ => ⟨rfl, rfl, rfl⟩
  · intro x hx
    rw [hview, hx]
  · intro c t₀ t' o o' _ _ _ ht₀ hst₀ ho ht' ho'
    rw [ht] at ht₀
    cases ht₀
    have hcancelling : t'.status = .cancelling := by
      simp only [stopRunningChild, Ledger.updateTask_get?, ht, Option.map_some,
        Option.some.injEq] at ht'
      rw [← ht']
    have heq : o' = o := Option.some.inj (ho'.symm.trans ho)
    rcases hst₀ with ⟨_, he⟩ | hb
    · exact .inl ⟨.inr hcancelling, heq ▸ he⟩
    · rw [hb] at hst
      rcases hst with h | h <;> cases h
  · simp [stopRunningChild]

theorem Sound.requestStop {x : ExecutionId} {now : Time} (hs : ∀ j, Sound l j)
    (h : LiveAttempt l k x now) : ∀ j, Sound (Operations.requestStop k x now l) j := by
  obtain ⟨⟨t, ht, hx, _, hnb⟩, _, e, he, hst⟩ := h
  let f : Execution → Execution := fun e => { e with status := .cancelling, updatedAt := now }
  have hview : ∀ y, attemptView (Operations.requestStop k x now l) y = attemptView l y := by
    refine attemptView_kept l _ f (fun _ => rfl) (fun _ => rfl) ?_
    intro y e' he' hy
    rw [← Table.key_of_get? he', hy, he] at he'
    cases he'
    rcases hst with h | h <;> simp [f, h, attemptEffect]
  refine sound_of_local hs (fun j hj => ?_) ((hs k).retains ?_ rfl ?_ ?_ ?_)
  · have htask : Same j l (l.updateTask k fun t => { t with
        status := .cancelling, updatedAt := now }) := .updateTask _ _ hj
    exact ⟨htask.task, rfl, rfl, fun y a => by rw [hview], id, fun _ => id⟩
  · refine .rows (f := fun t => { t with status := .cancelling, updatedAt := now }) (g := id)
      ?_ ?_ (.inl rfl) ?_ ?_ ⟨fun x a ha => ⟨a, by rw [hview, ha]⟩, fun x hx => by rwa [hview] at hx⟩
      rfl
    · simp [Operations.requestStop]
    · simp [Operations.requestStop]
    · simp
    · exact fun _ => ⟨rfl, rfl, rfl⟩
  · intro x hx
    rw [hview, hx]
  · intro c t₀ t' o o' _ _ _ ht₀ hst₀ ho ht' ho'
    rw [ht] at ht₀
    cases ht₀
    have hcancelling : t'.status = .cancelling := by
      simp only [Operations.requestStop, Ledger.updateTask_get?, Ledger.updateExecution_tasks, ht,
        Option.map_some, Option.some.injEq] at ht'
      rw [← ht']
    have heq : o' = o := Option.some.inj (ho'.symm.trans ho)
    rcases hst₀ with ⟨_, he⟩ | hb
    · exact .inl ⟨.inr hcancelling, heq ▸ he⟩
    · exact absurd hb hnb
  · simp [Operations.requestStop]

/-- A task with an attempt that may still run is held, whatever settles it. -/
theorem unresolved_of_attempt {x : ExecutionId} (h : attemptView l x = some (k, .active)) :
    UnresolvedEffects l k := by
  obtain ⟨e, he, rfl, ha⟩ := attemptView_eq_some.mp h
  exact unresolved_of_active he ha

theorem Sound.settle {plan : ChangePlan} {reason : CloseReason} {now : Time} (hs : ∀ j, Sound l j)
    (hrow : l.plans.get? plan.id = some plan) (hof : plan.taskId = k) :
    ∀ j, Sound (settleTask k reason (decide (UnresolvedEffects l k)) now
      (closeReviewExecutions k reason (decide (UnresolvedEffects l k)) now l)) j := by
  obtain ⟨hattempt, hactive⟩ :=
    closeReview_attempts (l := l) k k reason (decide (UnresolvedEffects l k)) now
  obtain ⟨htask, hop⟩ := settleTask_rows k reason (decide (UnresolvedEffects l k)) now
    (closeReviewExecutions k reason (decide (UnresolvedEffects l k)) now l)
  refine sound_of_local hs (fun j hj => ?_) ((hs k).retains ?_ rfl (fun x => (hactive x).mpr) ?_ ?_)
  · exact (((Same.closeReview hj).trans (.updateTask _ _ hj)).trans
      (.updateOperation _ _ hj)).trans (.appendEvent _)
  · refine .rows htask hop (.inl rfl) ?_ ?_ ⟨hattempt, fun x => (hactive x).mp⟩ rfl
    · intro _ _
      refine ⟨?_, rfl⟩
      dsimp only
      split_ifs <;> simp
    · exact fun _ => ⟨rfl, rfl, rfl⟩
  · intro c t t' o o' _ _ ha _ _ _ ht' ho'
    have hu : decide (UnresolvedEffects l k) = true := decide_eq_true (unresolved_of_attempt ha)
    rw [htask, hu] at ht'
    rw [hop, hu] at ho'
    obtain ⟨t₀, _, rfl⟩ := Option.map_eq_some_iff.mp ht'
    obtain ⟨o₀, _, rfl⟩ := Option.map_eq_some_iff.mp ho'
    exact .inr ⟨rfl, rfl, plan.id, plan, hrow, hof⟩
  · intro h
    rw [htask, Option.isSome_map]
    exact h

theorem Sound.resolveParent {plan : ChangePlan} {complete : Bool} {now : Time}
    (hs : ∀ j, Sound l j) (hrow : l.plans.get? plan.id = some plan) (hof : plan.taskId = k) :
    ∀ j, Sound (resolveParent k complete (decide (UnresolvedEffects l k)) now l) j := by
  obtain ⟨htask, hop⟩ := resolveParent_rows k complete (decide (UnresolvedEffects l k)) now l
  refine sound_of_local hs (fun j hj => (Same.updateTask _ _ hj).trans (.updateOperation _ _ hj))
    ((hs k).retains ?_ rfl (fun _ => id) ?_ ?_)
  · refine .rows htask hop (.inl rfl) ?_ ?_ attempts_same rfl
    · intro _ _
      refine ⟨?_, rfl⟩
      dsimp only
      split_ifs <;> simp
    · exact fun _ => ⟨rfl, rfl, rfl⟩
  · intro c t t' o o' _ _ ha _ _ _ ht' ho'
    have hu : decide (UnresolvedEffects l k) = true := decide_eq_true (unresolved_of_attempt ha)
    rw [htask, hu] at ht'
    rw [hop, hu] at ho'
    obtain ⟨t₀, _, rfl⟩ := Option.map_eq_some_iff.mp ht'
    obtain ⟨o₀, _, rfl⟩ := Option.map_eq_some_iff.mp ho'
    exact .inr ⟨by simp, rfl, plan.id, plan, hrow, hof⟩
  · intro h
    rw [htask, Option.isSome_map]
    exact h

theorem upsertTask_get?_ne (r : AgentTask) (l : Ledger) {j : TaskId} (hj : j ≠ r.id) :
    (upsertTask r l).tasks.get? j = l.tasks.get? j := by
  unfold upsertTask
  split
  · next tasks hins =>
    dsimp only
    rw [Table.get?_insert hins, if_neg hj]
  · exact l.updateTask_get?_ne _ _ hj

/-- The row an operation enters with is new, or an adopted one that keeps its status. -/
theorem upsertTask_get? {r : AgentTask} {l : Ledger} {t : AgentTask}
    (h : (upsertTask r l).tasks.get? r.id = some t) : l.tasks.get? r.id = none ∧ t = r ∨
      ∃ t₀, l.tasks.get? r.id = some t₀ ∧ t = { t₀ with
        metadata := r.metadata, requestedBy := r.requestedBy, prompt := r.prompt, title := r.title
        currentExecutionId := none } := by
  unfold upsertTask at h
  split at h
  · next tasks hins =>
    dsimp only at h
    rw [Table.get?_insert hins, if_pos rfl] at h
    exact .inl ⟨Table.get?_of_insert hins, (Option.some.inj h).symm⟩
  · rw [Ledger.updateTask_get?, Option.map_eq_some_iff] at h
    obtain ⟨t₀, ht₀, rfl⟩ := h
    exact .inr ⟨t₀, ht₀, rfl⟩

/-- A task whose attempts are all settled and whose claim is released may wait for a worker. -/
theorem Sound.waiting (hs : Sound l k)
    (htask : ∀ t', l'.tasks.get? k = some t' → ∀ x, t'.currentExecutionId = some x →
      ∃ a, attemptView l x = some (k, a))
    (hclaim : claimView l' k = claimView l k)
    (hattempt : ∀ x a, attemptView l' x = some (k, a) ↔ attemptView l x = some (k, a))
    (hreleased : ∀ c, l.claims.get? k = some c → c.released = true)
    (hquiet : ∀ x, attemptView l x ≠ some (k, .active))
    (hop : ∀ o', l'.operations.get? k = some o' → o'.attempts ≤ o'.maxAttempts ∧
      (l'.workers.get? o'.workerGeneration).isSome = true ∧
      (o'.spec.kind = .apply → ∀ x a, attemptView l x = some (k, a) → a = .settled))
    (hsome : (l'.operations.get? k).isSome = true) : Sound l' k where
  claim c hc := by
    obtain ⟨c₀, hc₀, hx, _⟩ := exists_claim_of_view hclaim hc
    simp only [hattempt, ← hx]
    exact hs.claim c₀ hc₀
  current t o x ht ho hx := by
    simp only [hattempt]
    exact htask t ht x hx
  held c o hc hr ho := by
    obtain ⟨c₀, hc₀, _, hr₀⟩ := exists_claim_of_view hclaim hc
    rw [← hr₀, hreleased c₀ hc₀] at hr
    cases hr
  active x o hx _ := absurd ((hattempt x _).mp hx) (hquiet x)
  bounded o ho := (hop o ho).1
  worker o ho := (hop o ho).2.1
  imported t _ hn _ := by
    rw [hn] at hsome
    cases hsome
  unstarted t o _ ho hk _ x a hx := (hop o ho).2.2 hk x a ((hattempt x a).mp hx)

theorem Sound.enter {spec : OperationSpec} {owner root : String} {generation : WorkerId}
    {source : Option RequestId} {project : Option ProjectId} {parent : Option TaskId} {now : Time}
    {operations : Table TaskOperation.taskId} (hlawful : lawful) (hlinks : Linked (skeleton l))
    (hs : ∀ j, Sound l j) (h : Enters lawful l k spec owner root generation parent)
    (hins : l.operations.insert
      { taskId := k, spec, workerGeneration := generation, parentTaskId := parent } =
        some operations) :
    ∀ j, Sound { upsertTask (acceptedTask env k spec owner root source project now) l with
      operations } j := by
  let r := acceptedTask env k spec owner root source project now
  let l' : Ledger := { upsertTask r l with operations }
  have hrest : (upsertTask r l).claims = l.claims ∧ (upsertTask r l).executions = l.executions ∧
      (upsertTask r l).workers = l.workers ∧ (upsertTask r l).plans = l.plans := by
    unfold upsertTask
    split <;> exact ⟨rfl, rfl, rfl, rfl⟩
  obtain ⟨hclaims, hexec, hworkers, hplans⟩ := hrest
  have hview : ∀ x, attemptView l' x = attemptView l x := by
    intro x
    change ((upsertTask r l).executions.get? x).map _ = _
    rw [hexec]
    rfl
  have hnone : l.operations.get? k = none := Table.get?_of_insert hins
  have hnew : l'.operations.get? k = some
      { taskId := k, spec, workerGeneration := generation, parentTaskId := parent } := by
    change operations.get? k = _
    rw [Table.get?_insert hins, if_pos rfl]
  have hquiet : (∀ c, l.claims.get? k = some c → c.released = true) ∧
      ∀ x a, attemptView l x = some (k, a) → a = .settled := by
    rcases h.task hlawful with hfresh | ⟨_, t, ht, hq, _⟩
    · -- A fresh identifier has no rows yet.
      have hno : ∀ x a, attemptView l x ≠ some (k, a) := by
        intro x a hx
        obtain ⟨e, he, hek, _⟩ := attemptView_eq_some.mp hx
        obtain ⟨t, ht⟩ := of_skeleton_task (hlinks.attempt x k (hek ▸ skeleton_attempt he))
        rw [hfresh] at ht
        cases ht
      refine ⟨fun c hc => ?_, fun x a hx => absurd hx (hno x a)⟩
      obtain ⟨a, ha⟩ := (hs k).claim c hc
      exact absurd ha (hno _ a)
    · exact (hs k).imported t ht hnone hq
  refine sound_of_local hs (k := k) (fun j hj => ?_) ((hs k).waiting ?_ ?_
    (fun x a => by rw [hview]) hquiet.1 (fun x hx => by cases hquiet.2 x _ hx) ?_
    (by rw [hnew]; rfl))
  · refine ⟨?_, ?_, ?_, fun x a => by rw [hview], ?_, ?_⟩
    · change ((upsertTask r l).tasks.get? j).map _ = _
      rw [upsertTask_get?_ne r l hj]
      rfl
    · change operations.get? j = _
      rw [Table.get?_insert hins, if_neg hj]
    · change ((upsertTask r l).claims.get? j).map _ = _
      rw [hclaims]
      rfl
    · rintro ⟨p, q, hq, hk⟩
      exact ⟨p, q, hplans ▸ hq, hk⟩
    · intro w hw
      change ((upsertTask r l).workers.get? w).isSome = true
      rwa [hworkers]
  · intro t' ht' x hx
    have hcur : t'.currentExecutionId = none := by
      rcases upsertTask_get? (r := r) ht' with ⟨_, rfl⟩ | ⟨t₀, _, rfl⟩ <;> rfl
    rw [hcur] at hx
    cases hx
  · change ((upsertTask r l).claims.get? k).map _ = _
    rw [hclaims]
    rfl
  · intro o' ho'
    cases Option.some.inj (hnew.symm.trans ho')
    refine ⟨Nat.zero_le _, ?_, fun _ => hquiet.2⟩
    change ((upsertTask r l).workers.get? generation).isSome = true
    rw [hworkers]
    exact h.worker

theorem Sound.requeue {o : TaskOperation} {generation : WorkerId} {now : Time}
    (hs : ∀ j, Sound l j) (ho : l.operations.get? k = some o) (hkind : o.spec.kind = .request)
    (hresolved : ¬ UnresolvedEffects l k false)
    (hworker : (l.workers.get? generation).isSome = true) :
    ∀ j, Sound (requeueTask k generation now l) j := by
  have hquiet : ∀ x, attemptView l x ≠ some (k, .active) := by
    intro x hx
    obtain ⟨e, he, rfl, ha⟩ := attemptView_eq_some.mp hx
    exact hresolved (unresolved_of_active he ha)
  have hrow : (requeueTask k generation now l).operations.get? k = some { o with
      eligible := true, workerGeneration := generation, holdReason := "", diagnosis := "" } := by
    simp [requeueTask, ho]
  refine sound_of_local hs (fun j hj => ((Same.updateOperation _ _ hj).trans
    (.updateTask _ _ hj)).trans (.appendEvent _)) ((hs k).waiting ?_ rfl (fun _ _ => .rfl) ?_ hquiet
    ?_ (by rw [hrow]; rfl))
  · intro t' ht' x hx
    simp only [requeueTask, Ledger.appendEvent_tasks, Ledger.updateTask_get?,
      Ledger.updateOperation_tasks, Option.map_eq_some_iff] at ht'
    obtain ⟨t, ht, rfl⟩ := ht'
    exact (hs k).current t o x ht ho hx
  · intro c hc
    by_contra hr
    exact hquiet _ ((hs k).held c o hc (Bool.eq_false_iff.mpr hr) ho).1
  · intro o' ho'
    cases Option.some.inj (hrow.symm.trans ho')
    refine ⟨(hs k).bounded o ho, hworker, fun h => ?_⟩
    rw [hkind] at h
    cases h

/-- The attempts after a new one was recorded. -/
theorem attemptView_insert {e : Execution} {executions : Table Execution.id}
    (hins : l.executions.insert e = some executions) (x : ExecutionId) :
    attemptView { l with executions } x =
      if x = e.id then some (e.taskId, attemptEffect e.status) else attemptView l x := by
  unfold attemptView
  rw [Table.get?_insert hins]
  split_ifs <;> rfl

theorem attemptView_fresh {e : Execution} {executions : Table Execution.id}
    (hins : l.executions.insert e = some executions) : attemptView l e.id = none := by
  simp [attemptView, Table.get?_of_insert hins]

/-- A task without a current attempt holds no claim. -/
theorem Sound.released (hs : Sound l k) {t : AgentTask} (ht : l.tasks.get? k = some t)
    (hcur : t.currentExecutionId = none) :
    ∀ c o, l.claims.get? k = some c → l.operations.get? k = some o → c.released = true := by
  intro c o hc ho
  by_contra hr
  obtain ⟨_, t', ht', hx, _⟩ := hs.held c o hc (Bool.eq_false_iff.mpr hr) ho
  rw [ht] at ht'
  cases ht'
  rw [hcur] at hx
  cases hx

theorem Sound.startFailure {t : AgentTask} {e : Execution} {executions : Table Execution.id}
    {results : Table TaskResult.executionId} {diagnosis : String} {entry : Time} {v : ExecutionEvent}
    (hs : ∀ j, Sound l j) (ht : l.tasks.get? k = some t) (hst : t.status = .blocked)
    (hcur : t.currentExecutionId = none) (hek : e.taskId = k)
    (hes : attemptEffect e.status = .settled)
    (hins : l.executions.insert e = some executions) :
    ∀ j, Sound (((({ l with executions, results }).updateTask k fun t =>
      { t with currentExecutionId := some e.id, updatedAt := entry }).updateOperation k fun o =>
        { o with holdReason := "worker_start_failed", diagnosis }).appendEvent v) j := by
  -- The recorded attempt first; then the task without a held claim takes it as its current one.
  have hview : ∀ x, attemptView { l with executions } x =
      if x = e.id then some (k, .settled) else attemptView l x := by
    intro x
    rw [attemptView_insert hins, hek, hes]
  have hold : ∀ x a, attemptView l x = some (k, a) →
      attemptView { l with executions } x = some (k, a) := by
    intro x a hx
    rw [hview, if_neg]
    · exact hx
    · rintro rfl
      rw [attemptView_fresh hins] at hx
      cases hx
  have hquiet : ∀ x o, l.operations.get? k = some o →
      attemptView { l with executions } x ≠ some (k, .active) := by
    intro x o ho hx
    rw [hview] at hx
    split_ifs at hx
    · cases hx
    · obtain ⟨c, hc, _, hr⟩ := (hs k).active x o hx ho
      rw [(hs k).released ht hcur c o hc ho] at hr
      cases hr
  have htask : ∀ t', (l.updateTask k fun t => { t with
      currentExecutionId := some e.id, updatedAt := entry }).tasks.get? k = some t' →
      t'.status = .blocked ∧ t'.currentExecutionId = some e.id := by
    intro t' ht'
    rw [Ledger.updateTask_get?, ht] at ht'
    cases ht'
    exact ⟨hst, rfl⟩
  have hop : ∀ o', (l.updateOperation k fun o => { o with
      holdReason := "worker_start_failed", diagnosis }).operations.get? k = some o' →
      ∃ o, l.operations.get? k = some o ∧ o'.attempts = o.attempts ∧
        o'.maxAttempts = o.maxAttempts ∧ o'.workerGeneration = o.workerGeneration := by
    intro o' ho'
    rw [Ledger.updateOperation_get?, Option.map_eq_some_iff] at ho'
    obtain ⟨o, ho, rfl⟩ := ho'
    exact ⟨o, ho, rfl, rfl, rfl⟩
  refine sound_of_local hs (k := k) (fun j hj => ?_) ?_
  · have hsame : Same j l (((l.updateTask k fun t =>
        { t with currentExecutionId := some e.id, updatedAt := entry }).updateOperation k fun o =>
          { o with holdReason := "worker_start_failed", diagnosis }).appendEvent v) :=
      ((Same.updateTask _ _ hj).trans (.updateOperation _ _ hj)).trans (.appendEvent _)
    refine ⟨hsame.task, hsame.operation, rfl, fun x a => ?_, id, fun _ => id⟩
    change attemptView { l with executions } x = _ ↔ _
    rw [hview]
    split_ifs with hx
    · rw [hx, attemptView_fresh hins]
      simp [Ne.symm hj]
    · exact .rfl
  · refine ⟨fun c hc => ?_, fun t' o' x ht' _ hx => ?_, fun c o' hc hr ho' => ?_,
      fun x o' hx ho' => ?_, fun o' ho' => ?_, fun o' ho' => ?_, fun t' ht' _ hq => ?_,
      fun t' _ ht' _ _ hq => ?_⟩
    · obtain ⟨a, ha⟩ := (hs k).claim c hc
      exact ⟨a, hold _ a ha⟩
    · rw [(htask t' ht').2] at hx
      cases hx
      exact ⟨.settled, (hview e.id).trans (if_pos rfl)⟩
    · obtain ⟨o, ho, _⟩ := hop o' ho'
      rw [(hs k).released ht hcur c o hc ho] at hr
      cases hr
    · obtain ⟨o, ho, _⟩ := hop o' ho'
      exact absurd hx (hquiet x o ho)
    · obtain ⟨o, ho, ha, hm, _⟩ := hop o' ho'
      rw [ha, hm]
      exact (hs k).bounded o ho
    · obtain ⟨o, ho, _, _, hw⟩ := hop o' ho'
      rw [hw]
      exact (hs k).worker o ho
    · rw [(htask t' ht').1] at hq
      cases hq
    · rw [(htask t' ht').1] at hq
      cases hq

theorem Sound.start {t : AgentTask} {o : TaskOperation} {e : Execution} {worker : WorkerId}
    {entry expires : Time} {executions : Table Execution.id} {claims : Table TaskClaim.taskId}
    {v : ExecutionEvent} (hs : ∀ j, Sound l j) (ht : l.tasks.get? t.id = some t)
    (ho : l.operations.get? t.id = some o) (heligible : o.eligible = true)
    (hattempts : o.attempts < o.maxAttempts) (hek : e.taskId = t.id)
    (hes : attemptEffect e.status = .active) (hins : l.executions.insert e = some executions)
    (hclaim : (l.claims.delete fun c => c.taskId = t.id ∧ c.released = true).insert
      { taskId := t.id, workerId := worker, ownerKey := t.requestedBy, executionId := e.id
        expiresAt := expires } = some claims) :
    ∀ j, Sound (((({ l with executions, claims }).updateTask t.id fun r =>
      { r with status := .running, currentExecutionId := some e.id, updatedAt := entry
        }).updateOperation t.id fun o => { o with attempts := o.attempts + 1 }).appendEvent v) j := by
  have hview : ∀ x, attemptView { l with executions } x =
      if x = e.id then some (t.id, .active) else attemptView l x := by
    intro x
    rw [attemptView_insert hins, hek, hes]
  -- An unreleased claim would have refused the new one.
  have hreleased : ∀ c, l.claims.get? t.id = some c → c.released = true := by
    intro c hc
    have hgone := Table.get?_of_insert hclaim
    by_contra hr
    rw [Table.get?_delete, hc] at hgone
    simp [hr] at hgone
  have hnew : claims.get? t.id = some
      { taskId := t.id, workerId := worker, ownerKey := t.requestedBy, executionId := e.id
        expiresAt := expires } := by
    rw [Table.get?_insert hclaim, if_pos rfl]
  have htask : ∀ t', (l.updateTask t.id fun r => { r with
      status := .running, currentExecutionId := some e.id, updatedAt := entry }).tasks.get? t.id =
        some t' → t'.status = .running ∧ t'.currentExecutionId = some e.id := by
    intro t' ht'
    rw [Ledger.updateTask_get?, ht] at ht'
    cases ht'
    exact ⟨rfl, rfl⟩
  have hop : ∀ o', (l.updateOperation t.id fun o => { o with
      attempts := o.attempts + 1 }).operations.get? t.id = some o' →
      o' = { o with attempts := o.attempts + 1 } := by
    intro o' ho'
    rw [Ledger.updateOperation_get?, ho] at ho'
    exact (Option.some.inj ho').symm
  refine sound_of_local hs (k := t.id) (fun j hj => ?_) ?_
  · have hsame : Same j l (((l.updateTask t.id fun r =>
        { r with status := .running, currentExecutionId := some e.id, updatedAt := entry
          }).updateOperation t.id fun o => { o with attempts := o.attempts + 1 }).appendEvent v) :=
      ((Same.updateTask _ _ hj).trans (.updateOperation _ _ hj)).trans (.appendEvent _)
    refine ⟨hsame.task, hsame.operation, ?_, fun x a => ?_, id, fun _ => id⟩
    · change (claims.get? j).map _ = _
      rw [Table.get?_insert hclaim, if_neg hj, Table.get?_delete]
      unfold claimView
      cases hc : l.claims.get? j with
      | none => rfl
      | some c => simp [Table.key_of_get? hc, hj]
    · change attemptView { l with executions } x = _ ↔ _
      rw [hview]
      split_ifs with hx
      · rw [hx, attemptView_fresh hins]
        simp [Ne.symm hj]
      · exact .rfl
  · have hrunning : ∃ t', (l.updateTask t.id fun r => { r with
        status := .running, currentExecutionId := some e.id, updatedAt := entry }).tasks.get? t.id =
          some t' := by
      rw [Ledger.updateTask_get?, ht]
      exact ⟨_, rfl⟩
    refine ⟨fun c hc => ?_, fun t' o' x ht' _ hx => ?_, fun c o' hc _ ho' => ?_,
      fun x o' hx _ => ?_, fun o' ho' => ?_, fun o' ho' => ?_, fun t' ht' _ hq => ?_,
      fun t' _ ht' _ _ hq => ?_⟩
    · cases Option.some.inj (hnew.symm.trans hc)
      exact ⟨.active, (hview e.id).trans (if_pos rfl)⟩
    · rw [(htask t' ht').2] at hx
      cases hx
      exact ⟨.active, (hview e.id).trans (if_pos rfl)⟩
    · cases Option.some.inj (hnew.symm.trans hc)
      cases hop o' ho'
      obtain ⟨t', ht'⟩ := hrunning
      exact ⟨(hview e.id).trans (if_pos rfl), t', ht', (htask t' ht').2,
        .inl ⟨.inl (htask t' ht').1, heligible⟩⟩
    · refine ⟨_, hnew, ?_, rfl⟩
      change attemptView { l with executions } x = _ at hx
      rw [hview] at hx
      split_ifs at hx with hxe
      · exact hxe.symm
      · obtain ⟨c, hc, _, hr⟩ := (hs t.id).active x o hx ho
        rw [hreleased c hc] at hr
        cases hr
    · cases hop o' ho'
      exact hattempts
    · cases hop o' ho'
      exact (hs t.id).worker o ho
    · rw [(htask t' ht').1] at hq
      cases hq
    · rw [(htask t' ht').1] at hq
      cases hq

theorem Sound.openDraft {d : DraftId} {snapshot : List (Path × SnapshotItem)} {now : Time}
    (hs : ∀ j, Sound l j) :
    ∀ j, Sound (Drafts.settleReview k true now (fillDraft d snapshot now l)) j := by
  have hfill : ∀ j, Sound (fillDraft d snapshot now l) j := fun j =>
    (hs j).same ⟨rfl, rfl, rfl, fun _ _ => .rfl, id, fun _ => id⟩
  exact Sound.settleReview hfill true now

/-- Every lawful change keeps tasks and attempts sound. -/
theorem Sound.step (hlawful : lawful) (hlinks : Linked (skeleton l)) (hs : ∀ j, Sound l j)
    (h : Step env lawful κ l l') : ∀ j, Sound l' j := by
  by_cases hκ : κ ∈ fileKinds
  · exact fun j => (hs j).same (same_of_fileKinds h hκ j)
  cases h with
  | touch f hf hsame => exact fun j => (hs j).same (.touch f hf hsame)
  | retire _ _ _ hpending => exact fun j => (hs j).same (.retire hpending)
  | enter hE hins => exact Sound.enter hlawful hlinks hs hE hins
  | start ht ho _ he ha _ hins hclaim => exact Sound.start hs ht ho he ha rfl rfl hins hclaim
  | renew => exact fun j => (hs j).same (.renew _ _)
  | conclude hfenced => exact Sound.conclude _ _ hs hfenced
  | completeParent => exact Sound.completeParent hs _ _
  | interrupt ht ho => exact Sound.interrupt hs ht ho _
  | requeue _ ho _ hkind _ hresolved _ hworker => exact Sound.requeue hs ho hkind hresolved hworker
  | startFailure ht hst hcur hins => exact Sound.startFailure hs ht hst hcur rfl rfl hins
  | stopQueued hchild hst => exact Sound.stopQueued hs hchild.task hst _ _
  | stopRunning hchild hst => exact Sound.stopRunning hs hchild.task hst _
  | requestStop hlive => exact Sound.requestStop hs (hlive hlawful)
  | closeTask => exact Sound.closeTask hs _ _
  | closeReview ht hst =>
    have hclosed := Sound.closeReview hs ht hst
    dsimp only
    split_ifs
    · exact Sound.holdReview (hclosed _ _ _) ht hst _
    · exact hclosed _ _ _
  | settle _ _ hrow hof => exact Sound.settle hs hrow hof
  | settleReview => exact Sound.settleReview hs _ _
  | openDraft => exact Sound.openDraft hs
  | resolveParent hrow hof => exact Sound.resolveParent hs hrow hof
  | resolveChild ho hkind _ ht =>
    obtain ⟨t, htask, hst⟩ := ht hlawful
    exact Sound.resolveChild hs hlinks ho hkind htask hst _ _ _
  | _ => simp [fileKinds] at hκ

end NyanyaAgent.Invariants
